import ContentModels.Proofs.Draft
import ContentModels.Proofs.Hierarchy.Acceptance
import ContentModels.Proofs.Source.Comment
import ContentModels.Source.Class

/-!
# The summaries of documentation comments

A summary is written with the name of a type or of a property, and with the description of a
property. It begins on a line of its own, and each line that the writer begins starts with the
slashes of a documentation comment. The reader of the code also ends a line where a text of the
outside holds a line break of Unicode, which is written as it is, so that the further lines start
with the slashes only if the text itself goes on with them (`Comment.Stays`). No other text leaves
its comment, and none brings angle brackets into it (`Writer.summary_stays_iff`).
-/

namespace ContentModels

namespace Comment

/-! ## What stands behind a character -/

/-- What holds of each character of a text and of what stands behind it. -/
def EachBehind (P : Char → List Char → Prop) (l : List Char) : Prop :=
  ∀ front c rest, l = front ++ c :: rest → P c rest

section EachBehind

variable {P : Char → List Char → Prop}

/-- Nothing is asked of the empty text. -/
@[simp]
theorem eachBehind_nil : EachBehind P [] := by
  intro front c rest h
  simp at h

/-- The first character has the rest behind it. -/
@[simp]
theorem eachBehind_cons_iff {c : Char} {l : List Char} :
    EachBehind P (c :: l) ↔ P c l ∧ EachBehind P l := by
  constructor
  · intro h
    refine ⟨h [] c l rfl, fun front d rest hl => ?_⟩
    exact h (c :: front) d rest (by rw [hl, List.cons_append])
  · rintro ⟨hc, hl⟩ front d rest hsplit
    cases front with
    | nil =>
      obtain ⟨rfl, rfl⟩ := List.cons.inj hsplit
      exact hc
    | cons e front =>
      exact hl front d rest (List.cons.inj hsplit).2

instance decidableEachBehind [∀ c rest, Decidable (P c rest)] : DecidablePred (EachBehind P)
  | [] => isTrue eachBehind_nil
  | _ :: l =>
    have := decidableEachBehind l
    decidable_of_iff _ eachBehind_cons_iff.symm

/-- The characters of the first of two texts also have the second behind them. -/
theorem eachBehind_append_iff {l r : List Char} :
    EachBehind P (l ++ r) ↔ EachBehind (fun c rest => P c (rest ++ r)) l ∧ EachBehind P r := by
  induction l with
  | nil => simp
  | cons c l ih =>
    rw [List.cons_append, eachBehind_cons_iff, eachBehind_cons_iff, ih, and_assoc]

/-- Of a text of other characters. -/
theorem eachBehind_map_iff {f : Char → Char} {l : List Char} :
    EachBehind P (l.map f) ↔ EachBehind (fun c rest => P (f c) (rest.map f)) l := by
  induction l with
  | nil => simp
  | cons c l ih => rw [List.map_cons, eachBehind_cons_iff, eachBehind_cons_iff, ih]

/-- What holds whatever stands behind the characters of a text. -/
theorem eachBehind_of_forall {l : List Char} (h : ∀ c ∈ l, ∀ rest, P c rest) : EachBehind P l := by
  rintro front c rest rfl
  exact h c (by simp) rest

/-- What means the same of a character and any text behind it. -/
theorem eachBehind_congr {Q : Char → List Char → Prop} {l : List Char}
    (h : ∀ c rest, P c rest ↔ Q c rest) : EachBehind P l ↔ EachBehind Q l := by
  simp only [EachBehind, h]

end EachBehind

/-! ## Lines -/

/-- The line breaks of Unicode that a documentation comment leaves as they are. -/
def unicodeBreaks : List Char := ['\u0085', '\u2028', '\u2029']

/-- The character ends a line of code. -/
def EndsLine (c : Char) : Prop := c = '\r' ∨ c = '\n' ∨ c ∈ unicodeBreaks

instance : DecidablePred EndsLine := fun c =>
  inferInstanceAs (Decidable (c = '\r' ∨ c = '\n' ∨ c ∈ unicodeBreaks))

/-- No line ends in the text. -/
def Unbroken (l : List Char) : Prop := ∀ c ∈ l, ¬ EndsLine c

instance : DecidablePred Unbroken := fun l => List.decidableBAll _ l

/-- The lines of a text, without the characters that end them. -/
def lines : List Char → List (List Char)
  | [] => []
  | c :: rest =>
    -- A line feed behind a carriage return would end a line of its own; no summary holds the two.
    if EndsLine c then [] :: lines rest
    else match lines rest with
      | [] => [[c]]
      | line :: more => (c :: line) :: more

/-- The line starts, behind tabs, with the slashes of a documentation comment. -/
def StartsDoc (line : List Char) : Prop := ['/', '/', '/'] <+: line.dropWhile (· = '\t')

instance : DecidablePred StartsDoc := fun line =>
  inferInstanceAs (Decidable (['/', '/', '/'] <+: line.dropWhile (· = '\t')))

/-- All lines of the text start so. -/
def IsDoc (l : List Char) : Prop := ∀ line ∈ lines l, StartsDoc line

instance : DecidablePred IsDoc := fun l => inferInstanceAs (Decidable (∀ line ∈ lines l, _))

/-- The empty text does not start with slashes. -/
theorem not_startsDoc_nil : ¬ StartsDoc [] := by decide

/-- In front of the slashes, there are only tabs. -/
theorem startsDoc_cons_iff {c : Char} {l : List Char} :
    StartsDoc (c :: l) ↔ c = '\t' ∧ StartsDoc l ∨ c = '/' ∧ ['/', '/'] <+: l := by
  by_cases hc : c = '\t'
  · subst hc
    simp [StartsDoc]
  · simp [StartsDoc, hc, List.cons_prefix_cons, eq_comm]

/-- The character that ends a line is neither a tab nor a slash. -/
theorem EndsLine.ne {c : Char} (h : EndsLine c) : c ≠ '\t' ∧ c ≠ '/' := by
  constructor
  · rintro rfl
    exact absurd h (by decide)
  · rintro rfl
    exact absurd h (by decide)

/-- The first line of a text. -/
def firstLine (l : List Char) : List Char := l.takeWhile fun c => !decide (EndsLine c)

/-- The first line ends with the first character that ends a line. -/
theorem firstLine_cons (c : Char) (l : List Char) :
    firstLine (c :: l) = if EndsLine c then [] else c :: firstLine l := by
  rw [firstLine, List.takeWhile_cons]
  by_cases hc : EndsLine c <;> simp [hc, firstLine]

/-- Whether a text starts with slashes is decided on its first line. -/
theorem startsDoc_firstLine_iff {l : List Char} :
    StartsDoc (firstLine l) ↔ StartsDoc l := by
  have hbegins : ∀ {p l : List Char}, Unbroken p → (p <+: firstLine l ↔ p <+: l) := by
    intro p
    induction p with
    | nil => simp
    | cons c p ih =>
      intro l hp
      cases l with
      | nil => rfl
      | cons d l =>
        rw [firstLine_cons]
        by_cases hd : EndsLine d
        · have hne : c ≠ d := by
            rintro rfl
            exact hp c List.mem_cons_self hd
          rw [if_pos hd, List.cons_prefix_cons]
          simp [hne]
        · rw [if_neg hd, List.cons_prefix_cons, List.cons_prefix_cons,
            ih fun e he => hp e (List.mem_cons_of_mem c he)]
  induction l with
  | nil => rfl
  | cons c l ih =>
    rw [firstLine_cons, startsDoc_cons_iff]
    by_cases hc : EndsLine c
    · rw [if_pos hc]
      simp [not_startsDoc_nil, hc.ne.1, hc.ne.2]
    · rw [if_neg hc, startsDoc_cons_iff]
      exact or_congr (and_congr_right' ih) (and_congr_right' (hbegins (by decide)))

/-- If the character ends a line and something stands behind it, that starts with slashes. -/
def Resumes (c : Char) (rest : List Char) : Prop := EndsLine c → rest ≠ [] → StartsDoc rest

/-- Of a text that is not empty, the first line goes up to the first character that ends a line, and
the further ones start with slashes exactly if what stands behind each such character does. -/
theorem lines_eq_cons {l : List Char} (hne : l ≠ []) :
    ∃ more, lines l = firstLine l :: more ∧
      ((∀ line ∈ more, StartsDoc line) ↔
        EachBehind Resumes l) := by
  induction l with
  | nil => exact absurd rfl hne
  | cons c l ih =>
    rw [lines, firstLine_cons, eachBehind_cons_iff]
    by_cases hc : EndsLine c
    · -- The first line is empty, and what stands behind it has a first line of its own.
      refine ⟨lines l, by simp [hc], ?_⟩
      cases l with
      | nil => simp [lines, Resumes]
      | cons d l =>
        obtain ⟨more, hlines, hmore⟩ := ih (by simp)
        have hc' : Resumes c (d :: l) ↔ StartsDoc (d :: l) := by simp [Resumes, hc]
        rw [hlines, List.forall_mem_cons, startsDoc_firstLine_iff, hmore, hc']
    · have hc' : ∀ rest, Resumes c rest := fun _ hend => absurd hend hc
      rw [if_neg hc, if_neg hc, and_iff_right (hc' l)]
      cases l with
      | nil => exact ⟨[], by simp [lines, firstLine]⟩
      | cons d l =>
        obtain ⟨more, hlines, hmore⟩ := ih (by simp)
        exact ⟨more, by simp [hlines], hmore⟩

/-- All lines of a text start with slashes exactly if the text does and also what stands behind each
character that ends a line. -/
theorem isDoc_iff {l : List Char} (hne : l ≠ []) :
    IsDoc l ↔ StartsDoc l ∧
      EachBehind Resumes l := by
  obtain ⟨more, hlines, hmore⟩ := lines_eq_cons hne
  rw [IsDoc, hlines, List.forall_mem_cons, startsDoc_firstLine_iff, hmore]

/-- The lines of a text that ends with a line feed are followed by those of any other. -/
theorem lines_append_lineFeed (l r : List Char) :
    lines (l ++ '\n' :: r) = lines (l ++ ['\n']) ++ lines r := by
  have hfeed : EndsLine '\n' := by decide
  induction l with
  | nil => simp [lines, hfeed]
  | cons c l ih =>
    rw [List.cons_append, List.cons_append, lines, lines, ih]
    split
    · rfl
    · cases hlines : lines (l ++ ['\n']) with
      | nil =>
        obtain ⟨more, hcons, -⟩ := lines_eq_cons (l := l ++ ['\n']) (by simp)
        rw [hlines] at hcons
        cases hcons
      | cons line more => rfl

/-- All lines of a text start with slashes exactly if those up to a line feed do, and those behind
it. -/
theorem isDoc_append_lineFeed {l r : List Char} :
    IsDoc (l ++ '\n' :: r) ↔ IsDoc (l ++ ['\n']) ∧ IsDoc r := by
  rw [IsDoc, lines_append_lineFeed, List.forall_mem_append, IsDoc, IsDoc]

/-! ## Rows -/

/-- Slashes at the start of a text stay there, whatever is written behind it. -/
theorem StartsDoc.append {l : List Char} (h : StartsDoc l) (r : List Char) :
    StartsDoc (l ++ r) := by
  induction l with
  | nil => exact absurd h not_startsDoc_nil
  | cons c l ih =>
    rw [List.cons_append, startsDoc_cons_iff]
    exact (startsDoc_cons_iff.1 h).imp (And.imp_right ih)
      (And.imp_right fun hl => hl.trans (List.prefix_append l r))

/-- What is written behind a text does not complete its slashes, unless it begins with a tab or a
slash. -/
theorem startsDoc_append_iff {l r : List Char} (hr : ∀ c ∈ r.head?, c ≠ '\t' ∧ c ≠ '/') :
    StartsDoc (l ++ r) ↔ StartsDoc l := by
  have hright : ¬ StartsDoc r ∧ ∀ p, ¬ '/' :: p <+: r := by
    cases r with
    | nil => exact ⟨not_startsDoc_nil, by simp⟩
    | cons c r =>
      obtain ⟨htab, hslash⟩ := hr c rfl
      simp [startsDoc_cons_iff, List.cons_prefix_cons, htab, hslash, Ne.symm hslash]
  refine ⟨fun h => ?_, fun h => h.append r⟩
  induction l with
  | nil => exact absurd h hright.1
  | cons c l ih =>
    rw [List.cons_append, startsDoc_cons_iff] at h
    refine startsDoc_cons_iff.2 (h.imp (And.imp_right ih) (And.imp_right fun hl => ?_))
    rcases l with _ | ⟨d, _ | ⟨e, l⟩⟩
    · exact absurd hl (hright.2 _)
    · exact absurd (List.cons_prefix_cons.1 hl).2 (hright.2 _)
    · simpa [List.cons_prefix_cons] using hl

/-- A documentation comment holds slashes at the start of a text as they are. -/
theorem startsDoc_map_docChar_iff {l : List Char} : StartsDoc (l.map docChar) ↔ StartsDoc l := by
  have hslash : ∀ {c}, '/' = docChar c ↔ '/' = c := by
    intro c
    rw [eq_comm, docChar_eq_iff (by decide), eq_comm]
  induction l with
  | nil => rfl
  | cons c l ih =>
    rw [List.map_cons, startsDoc_cons_iff, startsDoc_cons_iff, docChar_eq_iff (by decide),
      docChar_eq_iff (by decide)]
    refine or_congr (and_congr_right' ih) (and_congr_right' ?_)
    rcases l with _ | ⟨d, _ | ⟨e, l⟩⟩
    · rfl
    · simp [List.cons_prefix_cons]
    · simp [List.cons_prefix_cons, hslash]

/-- Of the characters that end a line, a documentation comment holds the line breaks of Unicode. -/
theorem endsLine_docChar_iff {c : Char} : EndsLine (docChar c) ↔ c ∈ unicodeBreaks := by
  have hend := docChar_notMem c
  simp only [List.mem_cons, List.not_mem_nil, or_false, not_or] at hend
  rw [EndsLine, or_iff_right hend.2.2.1, or_iff_right hend.2.2.2]
  simp [unicodeBreaks, docChar_eq_iff]

/-- Wherever a line break of Unicode stands in the text, it goes on with the slashes of a
documentation comment. -/
def Stays (text : List Char) : Prop :=
  EachBehind (fun c rest => c ∈ unicodeBreaks → StartsDoc rest) text

instance : DecidablePred Stays := fun text => inferInstanceAs (Decidable (EachBehind _ text))

/-- A row of a documentation comment: all lines of what is written between a start with slashes and
an end start with slashes exactly if the text stays in the comment. -/
theorem isDoc_row_iff {lead trail : List Char} (hlead : StartsDoc lead)
    (hends : Unbroken (lead ++ trail)) (htrail : ∀ c ∈ trail.head?, c ≠ '\t' ∧ c ≠ '/')
    (text : String) :
    IsDoc (lead ++ (docText text).toList ++ trail ++ ['\n']) ↔ Stays text.toList := by
  have hfollow : ∀ c ∈ (trail ++ ['\n']).head?, c ≠ '\t' ∧ c ≠ '/' := by
    cases trail with
    | nil => simp
    | cons c trail => exact htrail
  -- In the writer's own parts no line ends but with the last character.
  have hquietLead : EachBehind
      (fun c rest => Resumes c (rest ++ ((docText text).toList ++ (trail ++ ['\n'])))) lead :=
    eachBehind_of_forall fun c hc _ hend => absurd hend (hends c (List.mem_append_left trail hc))
  have hquietTrail : EachBehind (fun c rest => Resumes c (rest ++ ['\n'])) trail :=
    eachBehind_of_forall fun c hc _ hend => absurd hend (hends c (List.mem_append_right lead hc))
  have hlast : EachBehind Resumes ['\n'] := by simp [Resumes]
  have htext : EachBehind (fun c rest => Resumes c (rest ++ (trail ++ ['\n'])))
      (docText text).toList ↔ Stays text.toList := by
    rw [docText, String.toList_ofList, eachBehind_map_iff]
    refine eachBehind_congr fun c rest => ?_
    rw [Resumes, endsLine_docChar_iff, startsDoc_append_iff hfollow, startsDoc_map_docChar_iff]
    simp
  rw [List.append_assoc, List.append_assoc, isDoc_iff (by simp), eachBehind_append_iff,
    eachBehind_append_iff, eachBehind_append_iff, ← htext]
  constructor
  · exact fun h => h.2.2.1
  · exact fun h => ⟨hlead.append _, hquietLead, h, hquietTrail, hlast⟩

/-! ## Summaries -/

/-- The angle brackets of a text. -/
def angles (s : String) : List Char := s.toList.filter fun c => c = '<' || c = '>'

/-- A text brings no angle brackets into a documentation comment. -/
theorem angles_docText (text : String) : angles (docText text) = [] := by
  rw [angles, docText, String.toList_ofList, List.filter_eq_nil_iff]
  intro c hc
  obtain ⟨d, -, rfl⟩ := List.mem_map.1 hc
  have hangle := docChar_notMem d
  simp_all

/-- The angle brackets of two texts, one behind the other. -/
theorem angles_append (s t : String) : angles (s ++ t) = angles s ++ angles t := by
  rw [angles, String.toList_append, List.filter_append, angles, angles]

/-- A caption stays in its comment exactly if the name and the description do. -/
theorem stays_caption_iff {p : Property} {text : String} (h : caption? p = some text) :
    Stays text.toList ↔ ∀ t ∈ p.name.toList ++ p.description.toList, Stays t.toList := by
  have hcolon : ∀ l r, Stays (l ++ ':' :: ' ' :: r) ↔ Stays l ∧ Stays r := by
    intro l r
    rw [Stays, eachBehind_append_iff, eachBehind_cons_iff, eachBehind_cons_iff]
    refine and_congr (eachBehind_congr fun c rest => ?_) ?_
    · rw [startsDoc_append_iff (by simp)]
    · rw [and_iff_right fun hc => absurd hc (by decide),
        and_iff_right fun hc => absurd hc (by decide), Stays]
  have hfails := exists_caption_iff (P := fun l => ¬ Stays l) (by simp [Stays])
    (fun l r => by rw [hcolon, Classical.not_and_iff_not_or_not]) h
  simpa using not_congr hfails

/-- The text begins a line, or goes on behind one that has ended. -/
def AtLineStart (before : String) : Prop := before = "" ∨ '\n' ∈ before.toList.getLast?

/-- Behind a text that ends with a line feed, a line begins. -/
theorem atLineStart_append (s : String) {t : String} (ht : '\n' ∈ t.toList.getLast?) :
    AtLineStart (s ++ t) := by
  refine .inr ?_
  rw [String.toList_append, List.getLast?_append, Option.mem_def.1 ht]
  rfl

/-- What becomes of the texts of a summary. -/
structure Summarises (summary : String) (texts : List String) : Prop where
  /-- All lines start with slashes exactly if the texts stay in the comment. -/
  isDoc_iff : IsDoc summary.toList ↔ ∀ text ∈ texts, Stays text.toList
  /-- The last line has ended. -/
  ended : AtLineStart summary
  /-- If there is a text, the angle brackets are those of two tags. -/
  angles : texts = [] ∨ angles summary = ['<', '>', '<', '>']

/-- No summary is written if there is no text. -/
theorem summarises_nil : Summarises "" [] where
  isDoc_iff := by simp [IsDoc, lines]
  ended := .inl rfl
  angles := .inl rfl

/-- A summary of one line holds its text between two tags. -/
theorem summarises_summaryLine {indent lead : String}
    (hstart : StartsDoc (indent ++ "/// <summary>" ++ lead).toList)
    (hends : Unbroken ((indent ++ "/// <summary>" ++ lead).toList ++ "</summary>".toList))
    (hangles : angles (indent ++ "/// <summary>" ++ lead) = ['<', '>']) (name : Option String) :
    Summarises (summaryLine indent lead name) name.toList := by
  cases name with
  | none => exact summarises_nil
  | some text =>
    refine ⟨?_, atLineStart_append _ (by decide), .inr ?_⟩
    · simpa [summaryLine] using isDoc_row_iff hstart hends (by simp) text
    · rw [summaryLine, angles_append, angles_append, angles_docText, hangles]
      decide +kernel

/-- The summary of a property holds its caption between two tags on lines of their own. -/
theorem summarises_propertySummary (p : Property) :
    Summarises (propertySummary p) (p.name.toList ++ p.description.toList) := by
  rw [propertySummary_eq]
  cases hcaption : caption? p with
  | none =>
    obtain ⟨hname, hdescription⟩ := caption?_eq_none_iff.1 hcaption
    rw [hname, hdescription]
    exact summarises_nil
  | some text =>
    refine ⟨?_, atLineStart_append _ (by decide), .inr ?_⟩
    · have hrow : IsDoc ("\t\t/// ".toList ++ (docText text).toList ++ [] ++ ['\n']) ↔
          Stays text.toList := isDoc_row_iff (by decide) (by decide) (by simp) text
      have hwhole : ("\t\t///<summary>\n\t\t/// " ++ docText text ++
          "\n\t\t///</summary>\n").toList = "\t\t///<summary>".toList ++ '\n' ::
          ("\t\t/// ".toList ++ (docText text).toList ++ [] ++ '\n' ::
            "\t\t///</summary>\n".toList) := by simp
      have hfirst : IsDoc ("\t\t///<summary>".toList ++ ['\n']) := by decide
      have hlast : IsDoc "\t\t///</summary>\n".toList := by decide
      rw [hwhole, isDoc_append_lineFeed, and_iff_right hfirst, isDoc_append_lineFeed,
        and_iff_left hlast, hrow, stays_caption_iff hcaption]
    · rw [angles_append, angles_append, angles_docText]
      decide +kernel

end Comment

namespace Writer

open Comment

/-- The summary stands in the draft, on lines of its own. -/
def SummaryAt (d : Draft) (summary : String) : Prop :=
  ∃ before after, AtLineStart before ∧ d = .ofString before ++ .ofString summary ++ after

/-- A summary that follows texts of which the last has ended its line, whatever follows it. -/
theorem summaryAt_concat (texts : List String) {summary : String} {parts : List Draft}
    (h : AtLineStart (String.join texts)) :
    SummaryAt (Draft.concat (texts.map Draft.ofString ++ .ofString summary :: parts)) summary := by
  refine ⟨String.join texts, Draft.concat parts, h, ?_⟩
  rw [Draft.concat_append, Draft.concat_map_ofString, Draft.concat_cons, Draft.append_assoc]

/-- The drafts in which a writer puts a summary, with the summary and the texts it is about: the
name of a type in its class and in its interface, the name of a property in an interface and at its
static getter, and the name and the description of a property in a class. -/
inductive Describes (w : Writer) : Draft → String → List String → Prop
  /-- A class has the name of its type. -/
  | classOf (t : ContentType) :
    w.Describes (w.classOf t) (summaryLine "\t" "" t.name) t.name.toList
  /-- An interface has the name of its mixin. -/
  | interfaceOf (t : ContentType) :
    w.Describes (w.interfaceOf t) (summaryLine "\t" "" t.name) t.name.toList
  /-- A property in an interface has its name. -/
  | interfaceMember (p : Property) :
    w.Describes (w.interfaceMember p) (summaryLine "\t\t" "" p.name) p.name.toList
  /-- A static getter has the name of its property. -/
  | getter (owner : ContentType) (p : Property) :
    w.Describes (w.getter owner p) (summaryLine "\t\t" "Static getter for " p.name) p.name.toList
  /-- The code of a member has the name and the description of its property. -/
  | memberCode (m : Member) :
    w.Describes (w.memberCode m) (propertySummary m.property)
      (m.property.name.toList ++ m.property.description.toList)

variable {w : Writer}

/-- The summary stands where it is said to. -/
theorem Describes.summaryAt {d : Draft} {summary : String} {texts : List String}
    (h : w.Describes d summary texts) : SummaryAt d summary := by
  cases h with
  | classOf t => exact summaryAt_concat [] (.inl rfl)
  | interfaceOf t =>
    refine summaryAt_concat
      ["\t// Mixin Content Type with alias \"", t.aliasName, "\"\n"] ?_
    have hjoin : String.join ["\t// Mixin Content Type with alias \"", t.aliasName, "\"\n"] =
        "\t// Mixin Content Type with alias \"" ++ t.aliasName ++ "\"\n" := by
      simp [String.join_cons, String.append_assoc]
    exact hjoin ▸ atLineStart_append _ (by decide)
  | interfaceMember p => exact summaryAt_concat [] (.inl rfl)
  | getter owner p => exact summaryAt_concat ["\n"] (.inr (by decide))
  | memberCode m => exact summaryAt_concat [] (.inl rfl)

/-- All lines of a summary start, behind tabs, with the slashes of a documentation comment exactly
if each of its texts goes on with them wherever it has a line break of Unicode. Whatever the texts,
the summary begins a line and ends one, and all angle brackets in it are those of its tags. -/
theorem summary_stays_iff {d : Draft} {summary : String} {texts : List String}
    (h : w.Describes d summary texts) :
    SummaryAt d summary ∧ AtLineStart summary ∧
      (texts = [] ∨ angles summary = ['<', '>', '<', '>']) ∧
      (IsDoc summary.toList ↔ ∀ text ∈ texts, Stays text.toList) := by
  have hsummarises : Summarises summary texts := by
    cases h with
    | classOf t => exact summarises_summaryLine (by decide) (by decide) (by decide) _
    | interfaceOf t => exact summarises_summaryLine (by decide) (by decide) (by decide) _
    | interfaceMember p => exact summarises_summaryLine (by decide) (by decide) (by decide) _
    | getter owner p => exact summarises_summaryLine (by decide) (by decide) (by decide) _
    | memberCode m => exact summarises_propertySummary m.property
  exact ⟨h.summaryAt, hsummarises.ended, hsummarises.angles, hsummarises.isDoc_iff⟩

/-- A page of the given name, with a property that is described on two lines. -/
def namedPage (name : String) : ContentType :=
  { id := 1, aliasName := "page", className := "Page", itemType := .content, name,
    properties :=
      [{ aliasName := "title", memberName := "Title", type := .string, name := "Title",
         description := "The text of <h1>\r\nin the page" }] }

/-- The writer of the model of the page. -/
def namedWriter (name : String) : Writer :=
  ⟨⟨.build [] ⟨[namedPage name]⟩ ⟨"Site"⟩, ⟨[namedPage name]⟩, ⟨⟨"Site"⟩, []⟩⟩, {}⟩

/-- Neither the markup in the description nor its line feed leaves the comment. -/
theorem heading_in_summary :
    Hierarchy.ofTypes .sourceCode [namedPage "Home"] = .ok (namedWriter "Home").hierarchy ∧
      ∀ p ∈ (namedPage "Home").properties,
        SummaryAt ((namedWriter "Home").memberCode ⟨p, .value⟩) (propertySummary p) ∧
          angles (propertySummary p) = ['<', '>', '<', '>'] ∧
          IsDoc (propertySummary p).toList := by
  refine ⟨Hierarchy.ofTypes_sourceCode_eq_ok (by decide +kernel), fun p hp => ?_⟩
  obtain ⟨hat, -, hangles, hdoc⟩ :=
    summary_stays_iff (.memberCode (w := namedWriter "Home") ⟨p, .value⟩)
  obtain rfl := List.mem_singleton.1 hp
  exact ⟨hat, hangles.resolve_left (by decide), hdoc.2 (by decide +kernel)⟩

/-- A name with a line separator of Unicode gives the summary of the class a second line, which is
code and not a comment. -/
theorem separator_leaves_summary :
    Hierarchy.ofTypes .sourceCode [namedPage "Home\u2028page"] =
        .ok (namedWriter "Home\u2028page").hierarchy ∧
      SummaryAt ((namedWriter "Home\u2028page").classOf (namedPage "Home\u2028page"))
        (summaryLine "\t" "" "Home\u2028page") ∧
      lines (summaryLine "\t" "" "Home\u2028page").toList =
        ["\t/// <summary>Home".toList, "page</summary>".toList] ∧
      ¬ IsDoc (summaryLine "\t" "" "Home\u2028page").toList := by
  have hlines : lines (summaryLine "\t" "" "Home\u2028page").toList =
      ["\t/// <summary>Home".toList, "page</summary>".toList] := by decide +kernel
  refine ⟨Hierarchy.ofTypes_sourceCode_eq_ok (by decide +kernel), (Describes.classOf _).summaryAt,
    hlines, fun hdoc => ?_⟩
  rw [IsDoc, hlines] at hdoc
  exact absurd (hdoc "page</summary>".toList (by simp)) (by decide)

end Writer

end ContentModels
