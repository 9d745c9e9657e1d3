import ContentModels.Proofs.TypeRef.Failing

/-!
# Reading follows the grammar

`TypeRef.parse` takes a text for a type exactly if the grammar derives it with that value
(`parse_eq_ok_iff`).

What is read is derived, by the lengths of what is read. For the other direction, the induction is
on the derivation and says what is read in front of a rest. The ranks of a type stand at its end, so
that a type is read together with them: a derivation says with which type the ranks behind it are
read on, or misread (`Derives.goesOn`). What may stand behind a type decides that its parts are read
as far as they go.
-/

namespace ContentModels

namespace TypeRef

/-! ## Keywords -/

/-- A keyword stands for the type that has it. -/
theorem ofKeyword?_eq {name word : String} (h : (name, word) ∈ keywords) :
    ofKeyword? word = some (.named ⟨"System"⟩ name [] []) := by
  unfold ofKeyword?
  cases hfind : keywords.find? fun entry => entry.2 = word with
  | none => exact absurd (decide_eq_true rfl) (List.find?_eq_none.1 hfind _ h)
  | some entry =>
    have hword := List.find?_some hfind
    rw [decide_eq_true_eq] at hword
    have hname := (keywords_sound _ (List.mem_of_find?_eq_some hfind)).2 _ h hword
    simp only at hname
    rw [Option.map_some, hname]
    rfl

/-- A word that is no keyword stands for no type. -/
theorem ofKeyword?_eq_none {word : String} (h : word ∉ keywords.map Prod.snd) :
    ofKeyword? word = none := by
  unfold ofKeyword?
  rw [Option.map_eq_none_iff, List.find?_eq_none]
  intro entry hentry heq
  exact h (of_decide_eq_true heq ▸ List.mem_map_of_mem hentry)

/-! ## The names of a type -/

/-- The head holds the names of the path. -/
def Head.Names (h : Head) (p : Path) : Prop :=
  h.rooted = p.rooted ∧ h.first :: h.dotted = p.segments ++ [p.outer] ∧ h.nested = p.nested

/-- Dots behind all names but the last are dots before all names but the first. -/
theorem append_marked_eq {first outer : String} {dotted segments : List String}
    (h : first :: dotted = segments ++ [outer]) :
    first.toList ++ marked '.' dotted = ended '.' segments ++ outer.toList := by
  cases segments with
  | nil =>
    obtain ⟨rfl, rfl⟩ := List.cons.inj h
    simp [marked, ended]
  | cons s segments =>
    obtain ⟨rfl, hdotted⟩ := List.cons.inj h
    have hlast : marked '.' dotted = marked '.' segments ++ ['.'] ++ outer.toList := by
      simp [hdotted, marked]
    rw [hlast, marked_append]
    simp [ended]

/-- The text of a path, by the names of its head. -/
theorem Head.Names.text_eq {h : Head} {p : Path} (hp : h.Names p) :
    p.text = (if p.rooted then rootMark else []) ++
      (h.first.toList ++ (marked '.' h.dotted ++ marked '+' h.nested)) := by
  obtain ⟨-, hsegments, hnested⟩ := hp
  unfold Path.text
  rw [← List.append_assoc (ended _ _), ← append_marked_eq hsegments, hnested, List.append_assoc]
  rfl

/-- Identifiers are the names of a path. -/
theorem exists_path {h : Head} (hfirst : IsIdentifier h.first)
    (hdotted : ∀ s ∈ h.dotted, IsIdentifier s) (hnested : ∀ s ∈ h.nested, IsIdentifier s) :
    ∃ p : Path, h.Names p := by
  have hne : h.first :: h.dotted ≠ [] := List.cons_ne_nil _ _
  have hall : ∀ s ∈ h.first :: h.dotted, IsIdentifier s := List.forall_mem_cons.2 ⟨hfirst, hdotted⟩
  exact ⟨⟨h.rooted, (h.first :: h.dotted).dropLast, (h.first :: h.dotted).getLast hne, h.nested,
      fun s hs => hall s (List.dropLast_subset _ hs), hall _ (List.getLast_mem hne), hnested⟩,
    rfl, (List.dropLast_concat_getLast hne).symm, rfl⟩

/-- A path has a head. -/
theorem exists_head (p : Path) : ∃ h : Head, h.Names p := by
  cases hsegments : p.segments with
  | nil => exact ⟨⟨p.rooted, p.outer, [], p.nested⟩, rfl, by simp [hsegments], rfl⟩
  | cons s segments =>
    exact ⟨⟨p.rooted, s, segments ++ [p.outer], p.nested⟩, rfl, by simp [hsegments], rfl⟩

/-- The names of a head are identifiers. -/
theorem Head.Names.isIdentifier {h : Head} {p : Path} (hp : h.Names p) :
    IsIdentifier h.first ∧ (∀ s ∈ h.dotted, IsIdentifier s) ∧ ∀ s ∈ h.nested, IsIdentifier s := by
  obtain ⟨-, hsegments, hnested⟩ := hp
  have hall : ∀ s ∈ h.first :: h.dotted, IsIdentifier s := by
    rw [hsegments]
    intro s hs
    rcases List.mem_append.1 hs with hs | hs
    · exact p.segments_identifiers s hs
    · exact List.mem_singleton.1 hs ▸ p.outer_identifier
  rw [List.forall_mem_cons] at hall
  exact ⟨hall.1, hall.2, hnested ▸ p.nested_identifiers⟩

/-- Without dots, the first name is the last one. -/
theorem Head.Names.dotted_eq_nil_iff {h : Head} {p : Path} (hp : h.Names p) :
    h.dotted = [] ↔ p.segments = [] ∧ h.first = p.outer := by
  obtain ⟨-, hsegments, -⟩ := hp
  cases hs : p.segments with
  | nil =>
    rw [hs] at hsegments
    simp [(List.cons.inj hsegments).1, (List.cons.inj hsegments).2]
  | cons s segments =>
    rw [hs] at hsegments
    obtain ⟨-, hdotted⟩ := List.cons.inj hsegments
    simp [hdotted]

/-- The type of a head is the one that the path names, or that of a keyword. -/
theorem Head.Names.type_eq {h : Head} {p : Path} (hp : h.Names p) (args : List TypeRef) :
    h.type args =
      if p.rooted = false ∧ p.segments = [] ∧ p.nested = [] ∧ args = [] then
        (ofKeyword? p.outer).getD (p.type args)
      else p.type args := by
  have hdotted := hp.dotted_eq_nil_iff
  obtain ⟨hrooted, hsegments, hnested⟩ := hp
  have hspelled : named (.ofSegments (h.first :: h.dotted).dropLast)
      ((h.first :: h.dotted).getLastD h.first) h.nested args = p.type args := by
    rw [hsegments, hnested, List.dropLast_concat, List.getLastD_concat]
    rfl
  unfold Head.type
  dsimp only
  rw [hspelled, hrooted, hnested]
  by_cases hlone : h.dotted = []
  · obtain ⟨hnil, hfirst⟩ := hdotted.1 hlone
    simp [hlone, hnil, hfirst, and_assoc]
  · have hsome : p.segments ≠ [] := by
      intro hnil
      rw [hnil] at hsegments
      exact hlone (List.cons.inj hsegments).2
    simp [hlone, hsome]

/-- Unless the path is a keyword, the type of its head is the one that it names. -/
theorem Head.Names.type_eq_type {h : Head} {p : Path} (hp : h.Names p) {args : List TypeRef}
    (hkeyword : ¬ p.IsKeyword args) : h.type args = p.type args := by
  rw [hp.type_eq]
  split
  · rename_i hlone
    have hnot : p.outer ∉ keywords.map Prod.snd := fun hmem =>
      hkeyword ⟨hlone.1, hlone.2.1, hlone.2.2.1, hlone.2.2.2, hmem⟩
    rw [ofKeyword?_eq_none hnot]
    rfl
  · rfl

/-- The type of a lone keyword is the one that it stands for. -/
theorem Head.Names.type_eq_system {h : Head} {p : Path} (hp : h.Names p) {args : List TypeRef}
    (hkeyword : p.IsKeyword args) {name : String} (hname : (name, p.outer) ∈ keywords) :
    h.type args = .named ⟨"System"⟩ name [] [] := by
  obtain ⟨hrooted, hsegments, hnested, hargs, -⟩ := hkeyword
  rw [hp.type_eq, if_pos ⟨hrooted, hsegments, hnested, hargs⟩, ofKeyword?_eq hname]
  rfl

/-- A head with a list of arguments behind it is derived. -/
theorem Head.Names.derivesBase {h : Head} {p : Path} (hp : h.Names p) {l : List Char}
    {args : List TypeRef} (hl : DerivesList l args) : DerivesBase (p.text ++ l) (h.type args) := by
  by_cases hkeyword : p.IsKeyword args
  · obtain ⟨⟨name, word⟩, hentry, rfl⟩ := List.mem_map.1 hkeyword.2.2.2.2
    rw [hp.type_eq_system hkeyword hentry]
    obtain ⟨hrooted, hsegments, hnested, rfl, -⟩ := hkeyword
    obtain rfl := hl.eq_nil
    have htext : p.text ++ [] = p.outer.toList := by
      simp [Path.text, hrooted, hsegments, hnested, ended, marked]
    rw [htext]
    exact .keyword hentry
  · rw [hp.type_eq_type hkeyword]
    exact .named hl hkeyword

/-! ## What is read is derived -/

/-- What is read as names are identifiers, each with the separator before it. -/
theorem exists_names_of_readNames {separator : Char} {opened s rest : List Char}
    {names : List String} (h : Yields (readNames separator opened s) names rest) :
    (∀ n ∈ names, IsIdentifier n) ∧ s = marked separator names ++ rest := by
  induction names generalizing s with
  | nil =>
    rcases yields_readNames_iff.1 h with ⟨-, rfl, -⟩ | ⟨_, _, _, hnames, -⟩
    · exact ⟨by simp, rfl⟩
    · cases hnames
  | cons n names ih =>
    rcases yields_readNames_iff.1 h with ⟨hnames, -⟩ | ⟨_, _, after, hnames, hident, rfl, -, hafter⟩
    · cases hnames
    · obtain ⟨rfl, rfl⟩ := List.cons.inj hnames
      obtain ⟨hall, rfl⟩ := ih hafter
      exact ⟨List.forall_mem_cons.2 ⟨hident, hall⟩, by simp [marked]⟩

/-- Names that are read as a head are the text of a path. -/
theorem exists_path_of_readHead {s rest : List Char} {head : Head}
    (h : Yields (readHead s) head rest) : ∃ p : Path, head.Names p ∧ s = p.text ++ rest := by
  obtain ⟨hrooted, hfirst, after, after', hs, -, hdotted, hnested⟩ := yields_readHead_iff.1 h
  obtain ⟨hdots, rfl⟩ := exists_names_of_readNames hdotted
  obtain ⟨hpluses, rfl⟩ := exists_names_of_readNames hnested
  obtain ⟨p, hp⟩ := exists_path hfirst hdots hpluses
  refine ⟨p, hp, ?_⟩
  rw [eq_rootMark_append_unrooted s, hs, hp.text_eq, ← hp.1, hrooted]
  simp only [List.append_assoc]

/-- What is read as a placeholder is derived. -/
theorem exists_derivesBase_of_readPlaceholder {opened s rest : List Char} {t : TypeRef}
    (h : Yields (readPlaceholder opened s) t rest) :
    ∃ l, '{' :: s = l ++ rest ∧ DerivesBase l t := by
  obtain ⟨aliasName, halias, ⟨rfl, rfl⟩ | ⟨word, kind, hident, hkind, rfl, rfl⟩⟩ :=
    yields_readPlaceholder_iff.1 h
  · exact ⟨_, by simp, .model halias⟩
  · exact ⟨_, by simp, .modelOf halias hident hkind⟩

/-- What is read as ranks makes an array of a type in front of them. -/
theorem exists_derives_of_readRanks {s rest l : List Char} {t t' : TypeRef}
    (h : Yields (readRanks t s) t' rest) (hl : Derives l t) :
    ∃ ranks, s = ranks ++ rest ∧ Derives (l ++ ranks) t' := by
  rcases yields_readRanks_iff.1 h with ⟨rfl, rfl, -⟩ | ⟨blanks, after, hblanks, hs, hafter⟩
  · exact ⟨[], rfl, by rwa [List.append_nil]⟩
  · have hlt : after.length < s.length := by
      rw [hs, List.length_cons, List.length_append, List.length_cons]
      omega
    obtain ⟨ranks, rfl, hderived⟩ := exists_derives_of_readRanks hafter (hl.array hblanks)
    exact ⟨'[' :: blanks ++ [']'] ++ ranks, by simp [hs], by rwa [← List.append_assoc]⟩
termination_by s.length
decreasing_by exact hlt

mutual

/-- What is read as a type is derived. -/
theorem exists_derives_of_readType {s rest : List Char} {t : TypeRef}
    (h : Yields (readType s) t rest) : ∃ l, s = l ++ rest ∧ Derives l t := by
  rcases yields_readType_iff.1 h with ⟨s', base, after, rfl, hbase, hranks⟩ |
    ⟨-, head, after, hhead, ⟨-, hranks⟩ | ⟨s', args, after', rfl, hargs, hranks⟩⟩
  · obtain ⟨l, hl, hderives⟩ := exists_derivesBase_of_readPlaceholder hbase
    obtain ⟨ranks, rfl, hderived⟩ := exists_derives_of_readRanks hranks (.base hderives)
    exact ⟨l ++ ranks, by rw [hl, List.append_assoc], hderived⟩
  · obtain ⟨p, hp, rfl⟩ := exists_path_of_readHead hhead
    have hderives : DerivesBase (p.text ++ []) (head.type []) := hp.derivesBase .none
    obtain ⟨ranks, rfl, hderived⟩ := exists_derives_of_readRanks hranks (.base hderives)
    exact ⟨p.text ++ [] ++ ranks, by simp, hderived⟩
  · have hlt : s'.length + 1 < s.length := hhead.rest_bound
    obtain ⟨p, hp, rfl⟩ := exists_path_of_readHead hhead
    obtain ⟨l, rfl, hl⟩ := exists_derives_of_readArguments hargs
    have hderives := hp.derivesBase (.some hl)
    obtain ⟨ranks, rfl, hderived⟩ := exists_derives_of_readRanks hranks (.base hderives)
    exact ⟨p.text ++ '<' :: l ++ ranks, by simp, hderived⟩
termination_by 2 * s.length
decreasing_by omega

/-- What is read as arguments is derived. -/
theorem exists_derives_of_readArguments {opened s rest : List Char} {args : List TypeRef}
    (h : Yields (readArguments opened s) args rest) :
    ∃ l, s = l ++ rest ∧ DerivesArguments l args := by
  have hle : (skipBlanks s).val.length ≤ s.length := (skipBlanks s).property
  obtain ⟨before, hbefore, hs⟩ := exists_blanks s
  obtain ⟨t, after, htype, hrest⟩ := yields_readArguments_iff.1 h
  have hlt : after.length < (skipBlanks s).val.length := htype.rest_bound
  obtain ⟨l, hl, hderives⟩ := exists_derives_of_readType htype
  obtain ⟨blanks, hblanks, hafter⟩ := exists_blanks after
  rcases hrest with ⟨rfl, hclose⟩ | ⟨args', after', rfl, hcomma, -, hargs⟩
  · refine ⟨_, ?_, .last hbefore hderives hblanks⟩
    rw [hs, hl, hafter, hclose]
    simp
  · have hlt' : after'.length < after.length := by
      rw [hafter, hcomma, List.length_append, List.length_cons]
      omega
    obtain ⟨l', rfl, hl'⟩ := exists_derives_of_readArguments hargs
    refine ⟨_, ?_, .more hbefore hderives hblanks hl'⟩
    rw [hs, hl, hafter, hcomma]
    simp
termination_by 2 * s.length + 1
decreasing_by all_goals omega

end

/-! ## What is derived is read -/

/-- What may stand behind the names of a type: nothing that goes on with them. -/
def EndsNames (rest : List Char) : Prop :=
  ∀ c ∈ rest.head?, isNamePart c = false ∧ c ≠ '.' ∧ c ≠ '+' ∧ c ≠ ':'

/-- What may stand behind a type without ranks: a rank, or what follows an argument. -/
def EndsBase (rest : List Char) : Prop :=
  ∀ c ∈ rest.head?, c = '[' ∨ c = '>' ∨ c = ',' ∨ isBlank c = true

/-- Behind a type without ranks, its names have ended, and its arguments too. -/
theorem EndsBase.endsNames {rest : List Char} (h : EndsBase rest) :
    EndsNames rest ∧ '<' ∉ rest.head? := by
  have hblank : ∀ c, isBlank c = true → c = ' ' ∨ c = '\t' ∨ c = '\r' ∨ c = '\n' := by
    intro c hc
    simpa [isBlank, or_assoc] using hc
  constructor
  · intro c hc
    rcases h c hc with rfl | rfl | rfl | hc
    · decide
    · decide
    · decide
    · rcases hblank c hc with rfl | rfl | rfl | rfl <;> decide
  · intro hc
    rcases h '<' hc with hc | hc | hc | hc <;> revert hc <;> decide

/-- What stands behind the names of a path does not go on with them. -/
structure EndsPath (p : Path) (rest : List Char) : Prop where
  /-- The last name does not go on. -/
  name : ∀ c ∈ rest.head?, isNamePart c = false
  /-- No name follows behind a dot. Behind nested names, none could. -/
  dot : p.nested = [] → '.' ∉ rest.head?
  /-- No nested name follows. -/
  plus : '+' ∉ rest.head?
  /-- The names are not the mark of the root up to its colons. -/
  root : p.text = "global".toList → ¬ "::".toList <+: rest

/-- What may stand behind all names ends every path. -/
theorem EndsNames.endsPath {rest : List Char} (h : EndsNames rest) (p : Path) :
    EndsPath p rest where
  name c hc := (h c hc).1
  dot _ hc := (h _ hc).2.1 rfl
  plus hc := (h _ hc).2.2.1 rfl
  root := by
    rintro - ⟨l, rfl⟩
    exact (h ':' rfl).2.2.2 rfl

/-- What stands behind a text does not go on with it, should it be a path without arguments. -/
def EndsBare (l rest : List Char) : Prop :=
  ∀ p : Path, l = p.text → EndsPath p rest ∧ '<' ∉ rest.head?

/-- What may stand behind a type without ranks ends every path. -/
theorem EndsBase.endsBare {rest : List Char} (h : EndsBase rest) (l : List Char) :
    EndsBare l rest :=
  fun p _ => ⟨h.endsNames.1.endsPath p, h.endsNames.2⟩

/-- In front of names with marks before them stands a mark, or what follows where there are none. -/
theorem mem_head?_marked_append {mark c : Char} {names : List String} {rest : List Char}
    (hc : c ∈ (marked mark names ++ rest).head?) : c = mark ∨ c ∈ rest.head? := by
  cases names with
  | nil => exact .inr hc
  | cons n names => exact .inl (by simpa [marked, eq_comm] using hc)

/-- Names with separators before them are read up to what is no name. -/
theorem yields_readNames {separator : Char} {opened rest : List Char} {names : List String}
    (hnames : ∀ n ∈ names, IsIdentifier n) (hseparator : isNamePart separator = false)
    (hstop : ∀ c ∈ rest.head?, isNamePart c = false) (hrest : separator ∉ rest.head?) :
    Yields (readNames separator opened (marked separator names ++ rest)) names rest := by
  induction names with
  | nil => exact yields_readNames_iff.2 (.inl ⟨rfl, rfl, hrest⟩)
  | cons n names ih =>
    rw [List.forall_mem_cons] at hnames
    refine yields_readNames_iff.2 (.inr ⟨n, names, marked separator names ++ rest, rfl, hnames.1,
      by simp [marked], fun c hc => ?_, ih hnames.2⟩)
    rcases mem_head?_marked_append hc with rfl | hc
    · exact hseparator
    · exact hstop c hc

/-- Behind the first name of a type stands a separator, or what follows all names. -/
theorem mem_head?_names_append {c : Char} {dotted nested : List String} {rest : List Char}
    (hc : c ∈ (marked '.' dotted ++ (marked '+' nested ++ rest)).head?) :
    c = '.' ∨ c = '+' ∨ c ∈ rest.head? :=
  (mem_head?_marked_append hc).imp_right mem_head?_marked_append

/-- The first name of a type ends where a separator stands, or what follows all names. -/
theorem isNamePart_head?_names_append {dotted nested : List String} {rest : List Char}
    (hrest : ∀ c ∈ rest.head?, isNamePart c = false) :
    ∀ c ∈ (marked '.' dotted ++ (marked '+' nested ++ rest)).head?, isNamePart c = false := by
  intro c hc
  rcases mem_head?_names_append hc with rfl | rfl | hc
  · decide
  · decide
  · exact hrest c hc

/-- The mark of the root stands in front of the text of a rooted path, and of no other. -/
theorem isRooted_text_append {h : Head} {p : Path} (hp : h.Names p) {rest : List Char}
    (hstop : ∀ c ∈ rest.head?, isNamePart c = false)
    (hroot : p.text = "global".toList → ¬ "::".toList <+: rest) :
    isRooted (p.text ++ rest) = p.rooted := by
  unfold isRooted
  cases hrooted : p.rooted with
  | true =>
    rw [List.isPrefixOf_iff_prefix, hp.text_eq, hrooted, if_pos rfl, List.append_assoc]
    exact List.prefix_append _ _
  | false =>
    rw [Bool.eq_false_iff, ne_eq, List.isPrefixOf_iff_prefix]
    rintro ⟨l, hl⟩
    -- The first name would be `global`, with the colons behind it.
    have htext : p.text = h.first.toList ++ (marked '.' h.dotted ++ marked '+' h.nested) := by
      rw [hp.text_eq, hrooted, if_neg Bool.false_ne_true, List.nil_append]
    have hmark : rootMark = "global".toList ++ "::".toList := by decide
    rw [htext, hmark, List.append_assoc, List.append_assoc, List.append_assoc] at hl
    have hglobal : ∀ c ∈ "global".toList, (!isNamePart c) = false := fun c hc => by
      rw [isIdentifier_global.isNamePart c hc]
      rfl
    have hfirst : ∀ c ∈ h.first.toList, (!isNamePart c) = false := fun c hc => by
      rw [hp.isIdentifier.1.isNamePart c hc]
      rfl
    obtain ⟨hname, hend⟩ := append_inj_of_separator hglobal hfirst (by simp; decide)
      (fun c hc => by rw [isNamePart_head?_names_append hstop c hc]; rfl) hl
    -- A separator in the place of the colons shows that no further name is there.
    cases hdotted : h.dotted with
    | cons n names => rw [hdotted] at hend; cases hend
    | nil =>
      cases hnested : h.nested with
      | cons n names => rw [hdotted, hnested] at hend; cases hend
      | nil =>
        rw [hdotted, hnested] at hend htext
        refine hroot ?_ ⟨l, hend⟩
        rw [htext, hname]
        exact List.append_nil _

/-- Behind the mark of the root, or where there is none, stand the names of a path. -/
theorem unrooted_text_append {h : Head} {p : Path} (hp : h.Names p) {rest : List Char}
    (hstop : ∀ c ∈ rest.head?, isNamePart c = false)
    (hroot : p.text = "global".toList → ¬ "::".toList <+: rest) :
    (unrooted (p.text ++ rest)).val =
      h.first.toList ++ (marked '.' h.dotted ++ (marked '+' h.nested ++ rest)) := by
  have hsplit := eq_rootMark_append_unrooted (p.text ++ rest)
  have htext : p.text ++ rest = (if p.rooted then rootMark else []) ++
      (h.first.toList ++ (marked '.' h.dotted ++ (marked '+' h.nested ++ rest))) := by
    rw [hp.text_eq]
    simp only [List.append_assoc]
  rw [isRooted_text_append hp hstop hroot] at hsplit
  exact List.append_cancel_left (hsplit.symm.trans htext)

/-- The text of a path is read as its head. -/
theorem exists_yields_readHead {p : Path} {rest : List Char} (hrest : EndsPath p rest) :
    ∃ head : Head, head.Names p ∧ Yields (readHead (p.text ++ rest)) head rest := by
  obtain ⟨head, hp⟩ := exists_head p
  have hrooted := isRooted_text_append hp hrest.name hrest.root
  have hunrooted := unrooted_text_append hp hrest.name hrest.root
  obtain ⟨hfirst, hdotted, hnested⟩ := hp.isIdentifier
  refine ⟨head, hp, yields_readHead_iff.2 ⟨by rw [hp.1, hrooted], hfirst, _, _, hunrooted,
    isNamePart_head?_names_append hrest.name,
    yields_readNames hdotted (by decide) (fun c hc => ?_) fun hc => ?_,
    yields_readNames hnested (by decide) hrest.name hrest.plus⟩⟩
  · exact @isNamePart_head?_names_append [] head.nested rest hrest.name c hc
  rw [hp.2.2] at hc
  cases hplus : p.nested with
  | nil =>
    rw [hplus] at hc
    exact hrest.dot hplus hc
  | cons n names =>
    rw [hplus] at hc
    simp [marked] at hc

/-- Where a brace stands, a type can start. -/
theorem startsType_brace (s : List Char) : startsType ('{' :: s) = true := by
  obtain ⟨r, hnext, -⟩ := exists_next?_of_eq (s := '{' :: s) rfl
  rw [startsType, hnext]
  rfl

/-- Where no brace stands, a type starts with a name. -/
theorem startsType_of_notMem {s : List Char} (h : '{' ∉ s.head?) :
    startsType s = startsName (unrooted s).val := by
  rw [startsType, next?_eq_none_iff.2 h]
  rfl

/-- Where a type is read, one can start. -/
theorem startsType_of_yields {s rest : List Char} {t : TypeRef} (h : Yields (readType s) t rest) :
    startsType s = true := by
  rcases yields_readType_iff.1 h with ⟨s', _, _, hs, -⟩ | ⟨hbrace, head, after, hhead, -⟩
  · rw [hs]
    exact startsType_brace s'
  · obtain ⟨-, hfirst, after, -, hs, -⟩ := yields_readHead_iff.1 hhead
    rw [startsType_of_notMem hbrace, hs]
    exact startsName_append hfirst after

/-- Where a type can start, no blank stands in front. -/
theorem isBlank_of_startsType {s : List Char} (h : startsType s = true) :
    ∀ c ∈ s.head?, isBlank c = false := by
  intro c hc
  obtain ⟨l, rfl⟩ : ∃ l, s = c :: l := by
    cases s with
    | nil => cases hc
    | cons d l => exact ⟨l, by rw [Option.some.inj hc]⟩
  have hfront : c = '{' ∨ c = 'g' ∨ isNameStart c = true := by
    unfold startsType at h
    rw [Bool.or_eq_true] at h
    rcases h with h | h
    · obtain ⟨r, hnext⟩ := Option.isSome_iff_exists.1 h
      exact .inl (List.cons.inj (next?_eq_some.1 hnext)).1
    · refine .inr ?_
      unfold unrooted at h
      split at h
      · rename_i hrooted
        obtain ⟨l', hl'⟩ := List.isPrefixOf_iff_prefix.1 hrooted
        exact .inl (List.cons.inj hl').1.symm
      · exact .inr h
  rcases hfront with rfl | rfl | hname
  · decide
  · decide
  · rw [Bool.eq_false_iff]
    intro hblank
    simp only [isBlank, Bool.or_eq_true, decide_eq_true_eq] at hblank
    rcases hblank with ((rfl | rfl) | rfl) | rfl <;> exact absurd hname (by decide)

/-- The names of a type are not empty, so that they start what they stand in front of. -/
theorem mem_text_of_mem_head? {p : Path} {rest : List Char} {c : Char}
    (hc : c ∈ (p.text ++ rest).head?) : c ∈ p.text := by
  have hne : p.text ≠ [] := by
    intro hnil
    simp only [Path.text, List.append_eq_nil_iff] at hnil
    exact p.outer_identifier.toList_ne_nil hnil.2.2.1
  rw [List.head?_append, List.head?_eq_some_head hne] at hc
  exact Option.some.inj hc ▸ List.head_mem hne

/-- No brace stands in front of the names of a type. -/
theorem brace_notMem_head?_text_append (p : Path) (rest : List Char) :
    '{' ∉ (p.text ++ rest).head? := by
  intro hc
  rcases Path.isNamePart_or_mark (mem_text_of_mem_head? hc) with h | h | h | h <;>
    revert h <;> decide

/-! ### Reading on -/

/-- The one reader goes on as the other: it gives its values, and tells its misreadings. -/
structure GoesOn {α : Type} {p q : List Char → Prop} (x : Except Misreading (α × Subtype p))
    (y : Except Misreading (α × Subtype q)) : Prop where
  /-- It gives the values of the other one, and leaves its rests. -/
  value : ∀ {a rest}, Yields y a rest → Yields x a rest
  /-- It tells the misreadings of the other one. -/
  failure : ∀ {m}, y = .error m → x = .error m

/-- What goes on as something that goes on, goes on as that does. -/
theorem GoesOn.trans {α : Type} {p q r : List Char → Prop} {x : Except Misreading (α × Subtype p)}
    {y : Except Misreading (α × Subtype q)} {z : Except Misreading (α × Subtype r)}
    (h : GoesOn x y) (h' : GoesOn y z) : GoesOn x z :=
  ⟨fun hz => h.value (h'.value hz), fun hz => h.failure (h'.failure hz)⟩

/-- Readers give one value or tell one misreading, so that the other goes on as the one as well. -/
theorem GoesOn.symm {α : Type} {p q : List Char → Prop} {x : Except Misreading (α × Subtype p)}
    {y : Except Misreading (α × Subtype q)} (h : GoesOn x y) : GoesOn y x := by
  cases y with
  | ok read =>
    obtain ⟨r, rfl, hr⟩ := h.value ⟨read.2, rfl, rfl⟩
    exact ⟨fun hx => yields_ok_iff.2 ((yields_ok_iff.1 hx).imp_right (hr.symm.trans ·)), nofun⟩
  | error m =>
    obtain rfl := h.failure rfl
    exact ⟨fun hx => absurd hx not_yields_error, fun hx => Except.error.inj hx ▸ rfl⟩

/-- Behind a rank, ranks go on with the array. -/
theorem goesOn_rank {t : TypeRef} {blanks rest : List Char} (hblanks : IsBlankRun blanks) :
    GoesOn (readRanks t ('[' :: (blanks ++ ']' :: rest))) (readRanks (.array t) rest) where
  value h := yields_readRanks_iff.2 (.inr ⟨blanks, rest, hblanks, rfl, h⟩)
  failure h := readRanks_eq_error_iff.2 ⟨blanks, _, hblanks, rfl, .inr ⟨rest, rfl, h⟩⟩

/-- Behind a placeholder, a type goes on with its ranks. -/
theorem goesOn_placeholder {t : TypeRef} {s rest : List Char}
    (h : Yields (readPlaceholder ('{' :: s) s) t rest) :
    GoesOn (readType ('{' :: s)) (readRanks t rest) where
  value hranks := yields_readType_iff.2 (.inl ⟨s, t, rest, rfl, h, hranks⟩)
  failure hranks := readType_eq_error_iff.2 (.inl ⟨s, rfl, .inr ⟨t, rest, h, hranks⟩⟩)

/-- Behind the names of a type without arguments, it goes on with its ranks. -/
theorem goesOn_names {head : Head} {s rest : List Char} (hbrace : '{' ∉ s.head?)
    (hhead : Yields (readHead s) head rest) (hlist : '<' ∉ rest.head?) :
    GoesOn (readType s) (readRanks (head.type []) rest) where
  value hranks := yields_readType_iff.2 (.inr ⟨hbrace, head, rest, hhead, .inl ⟨hlist, hranks⟩⟩)
  failure hranks := readType_eq_error_iff.2
    (.inr ⟨hbrace, .inr ⟨head, rest, hhead, .inl ⟨hlist, hranks⟩⟩⟩)

/-- Behind the arguments of a type, it goes on with its ranks. -/
theorem goesOn_arguments {head : Head} {args : List TypeRef} {s after rest : List Char}
    (hbrace : '{' ∉ s.head?) (hhead : Yields (readHead s) head ('<' :: after))
    (hargs : Yields (readArguments ('<' :: after) after) args rest) :
    GoesOn (readType s) (readRanks (head.type args) rest) where
  value hranks := yields_readType_iff.2
    (.inr ⟨hbrace, head, _, hhead, .inr ⟨after, args, rest, rfl, hargs, hranks⟩⟩)
  failure hranks := readType_eq_error_iff.2
    (.inr ⟨hbrace, .inr ⟨head, _, hhead, .inr ⟨after, rfl, .inr ⟨args, rest, hargs, hranks⟩⟩⟩⟩)

/-- Behind a path without arguments, a type goes on with the ranks of what the path stands for. -/
theorem goesOn_path {p : Path} {t : TypeRef} {rest : List Char}
    (htype : ∀ head : Head, head.Names p → head.type [] = t) (hrest : EndsBare p.text rest) :
    GoesOn (readType (p.text ++ rest)) (readRanks t rest) := by
  obtain ⟨hpath, hlist⟩ := hrest p rfl
  obtain ⟨head, hp, hhead⟩ := exists_yields_readHead hpath
  rw [← htype head hp]
  exact goesOn_names (brace_notMem_head?_text_append p rest) hhead hlist

/-! ### Arguments -/

/-- What follows an argument may stand behind blanks. -/
theorem endsBase_append {blanks rest : List Char} (hblanks : IsBlankRun blanks)
    (hrest : EndsBase rest) : EndsBase (blanks ++ rest) := by
  cases blanks with
  | nil => exact hrest
  | cons b blanks =>
    intro c hc
    obtain rfl : b = c := by simpa using hc
    exact .inr (.inr (.inr (hblanks b List.mem_cons_self)))

/-- Behind an argument with its blanks, what sets it off may stand. -/
theorem endsBase_argument {after : List Char} (hafter : IsBlankRun after) {mark : Char}
    (hmark : mark = '>' ∨ mark = ',') (rest : List Char) : EndsBase (after ++ mark :: rest) :=
  endsBase_append hafter fun c hc => by
    obtain rfl : mark = c := by simpa using hc
    exact .inr (hmark.imp_right .inl)

/-- What stands behind arguments stands behind the mark that sets off the first of them. -/
theorem argument_append (before l after tail rest : List Char) (mark : Char) :
    before ++ (l ++ (after ++ mark :: tail)) ++ rest =
      before ++ (l ++ (after ++ mark :: (tail ++ rest))) := by
  simp

/-- Behind an argument, with its blanks, no rank is read. -/
theorem yields_readRanks_of_ends {t : TypeRef} {blanks rest : List Char}
    (hblanks : IsBlankRun blanks) (hrest : '[' ∉ rest.head?) :
    Yields (readRanks t (blanks ++ rest)) t (blanks ++ rest) := by
  refine yields_readRanks_iff.2 (.inl ⟨rfl, rfl, ?_⟩)
  cases blanks with
  | nil => exact hrest
  | cons b blanks =>
    intro hc
    obtain rfl : b = '[' := by simpa using hc
    exact absurd (hblanks '[' List.mem_cons_self) (by decide)

/-- A type is read behind blanks as it is without. -/
theorem yields_readType_skipBlanks {blanks s rest : List Char} {t : TypeRef}
    (hblanks : IsBlankRun blanks) (h : Yields (readType s) t rest) :
    Yields (readType (skipBlanks (blanks ++ s)).val) t rest := by
  rwa [skipBlanks_append hblanks (isBlank_of_startsType (startsType_of_yields h))]

/-! ### Derivations -/

mutual

/-- Behind a text that is derived as a type, a type goes on with the ranks of that one. -/
theorem Derives.goesOn : ∀ {l rest : List Char} {t : TypeRef}, Derives l t → EndsBare l rest →
    GoesOn (readType (l ++ rest)) (readRanks t rest)
  | _, _, _, .base h, hrest => h.goesOn hrest
  | _, rest, _, @Derives.array l blanks _ h hblanks, _ => by
    have hend : EndsBase ('[' :: (blanks ++ ']' :: rest)) := by simp [EndsBase]
    have hassoc : l ++ ('[' :: blanks ++ [']']) ++ rest = l ++ '[' :: (blanks ++ ']' :: rest) := by
      simp
    rw [hassoc]
    exact (h.goesOn (hend.endsBare l)).trans (goesOn_rank hblanks)

/-- Behind a text that is derived as a type without ranks, a type goes on with the ranks of that
one. -/
theorem DerivesBase.goesOn : ∀ {l rest : List Char} {t : TypeRef}, DerivesBase l t →
    EndsBare l rest → GoesOn (readType (l ++ rest)) (readRanks t rest)
  | _, rest, _, @DerivesBase.model aliasName halias, _ => by
    have hassoc : '{' :: aliasName.toList ++ ['}'] ++ rest =
        '{' :: (aliasName.toList ++ '}' :: rest) := by simp
    rw [hassoc]
    exact goesOn_placeholder (yields_readPlaceholder_iff.2 ⟨_, halias, .inl ⟨rfl, rfl⟩⟩)
  | _, rest, _, @DerivesBase.modelOf aliasName word _ halias hword hkind, _ => by
    have hassoc : '{' :: aliasName.toList ++ (':' :: word.toList ++ ['}']) ++ rest =
        '{' :: (aliasName.toList ++ ':' :: (word.toList ++ '}' :: rest)) := by simp
    rw [hassoc]
    exact goesOn_placeholder
      (yields_readPlaceholder_iff.2 ⟨_, halias, .inr ⟨_, _, hword, hkind, rfl, rfl⟩⟩)
  | _, rest, _, @DerivesBase.keyword _ word hentry, hrest => by
    let p : Path := ⟨false, [], word, [], by simp, isIdentifier_of_mem_keywords hentry, by simp⟩
    have hkeyword : p.IsKeyword [] := ⟨rfl, rfl, rfl, rfl, List.mem_map_of_mem hentry⟩
    have htext : word.toList = p.text := by simp [p, Path.text, ended, marked]
    rw [htext] at hrest ⊢
    exact goesOn_path (fun head hp => hp.type_eq_system hkeyword hentry) hrest
  | _, _, _, .named hlist hkeyword, hrest => by
    rw [List.append_assoc]
    exact hlist.goesOn (fun head hp => hp.type_eq_type hkeyword) hrest

/-- Behind a path with a list of arguments, a type goes on with the ranks of the type of its
head. -/
theorem DerivesList.goesOn : ∀ {p : Path} {l rest : List Char} {args : List TypeRef} {t : TypeRef},
    DerivesList l args → (∀ head : Head, head.Names p → head.type args = t) →
    EndsBare (p.text ++ l) rest → GoesOn (readType (p.text ++ (l ++ rest))) (readRanks t rest)
  | p, _, _, _, _, .none, htype, hrest => by
    rw [List.append_nil] at hrest
    exact goesOn_path htype hrest
  | p, _, rest, _, _, .some (l := l) hargs, htype, _ => by
    have hnames : EndsNames ('<' :: (l ++ rest)) := by
      simp [EndsNames]; decide
    obtain ⟨head, hp, hhead⟩ := exists_yields_readHead (hnames.endsPath p)
    rw [← htype head hp]
    exact goesOn_arguments (brace_notMem_head?_text_append p _) hhead hargs.yields_readArguments

/-- A text that is derived as arguments is read as them. -/
theorem DerivesArguments.yields_readArguments : ∀ {opened l rest : List Char}
    {args : List TypeRef}, DerivesArguments l args →
    Yields (readArguments opened (l ++ rest)) args rest
  | opened, _, rest, _, @DerivesArguments.last before l after _ hbefore h hafter => by
    -- The argument ends where its blanks begin, and starts where those in front of it end.
    have hend := endsBase_argument hafter (.inl rfl) rest
    have htype := (h.goesOn (hend.endsBare l)).value (yields_readRanks_of_ends hafter (by simp))
    rw [argument_append]
    exact yields_readArguments_iff.2 ⟨_, _, yields_readType_skipBlanks hbefore htype,
      .inl ⟨rfl, skipBlanks_append hafter (by simp; decide)⟩⟩
  | opened, _, rest, _, @DerivesArguments.more before l after l' _ _ hbefore h hafter hargs => by
    -- The reader goes past a comma only where it sees the next argument start.
    have hmore : Yields (readArguments opened (l' ++ rest)) _ rest := hargs.yields_readArguments
    obtain ⟨t', after', htype', -⟩ := yields_readArguments_iff.1 hmore
    have hend := endsBase_argument hafter (.inr rfl) (l' ++ rest)
    have htype := (h.goesOn (hend.endsBare l)).value (yields_readRanks_of_ends hafter (by simp))
    rw [argument_append]
    exact yields_readArguments_iff.2 ⟨_, _, yields_readType_skipBlanks hbefore htype,
      .inr ⟨_, l' ++ rest, rfl, skipBlanks_append hafter (by simp; decide),
        startsType_of_yields htype', hmore⟩⟩

end

/-! ## Whole texts -/

/-- A text is taken for a type if it is derived as one. -/
theorem parse_eq_ok_iff {s : String} {t : TypeRef} : parse s = .ok t ↔ Derives s.toList t := by
  have hyields : parse s = .ok t ↔ Yields (readType s.toList) t [] := by
    unfold parse
    dsimp only
    constructor
    · intro h
      split at h
      · cases h
      · rename_i hread
        obtain rfl := Except.ok.inj h
        exact ⟨_, hread, rfl⟩
      · cases h
    · rintro ⟨⟨rest, hlt⟩, hread, rfl⟩
      rw [hread]
  rw [hyields]
  constructor
  · intro h
    obtain ⟨l, hl, hderives⟩ := exists_derives_of_readType h
    rwa [hl, List.append_nil]
  · intro h
    have hranks : Yields (readRanks t []) t [] := yields_readRanks_iff.2 (.inl ⟨rfl, rfl, by simp⟩)
    have hend : EndsBase [] := by simp [EndsBase]
    have hyields := (h.goesOn (hend.endsBare s.toList)).value hranks
    rwa [List.append_nil] at hyields

/-- Exactly the texts that the grammar derives are taken for types, each for the one with which it
is derived, and no text is derived with two. A text with white space elsewhere than at its places is
refused. -/
theorem parse_iff_derives (s : String) (t : TypeRef) :
    (parse s = .ok t ↔ Derives s.toList t) ∧
      (∀ t', Derives s.toList t → Derives s.toList t' → t = t') ∧
      (¬ WhiteSpaceInPlace s.toList → ∃ report, parse s = .error report) := by
  refine ⟨parse_eq_ok_iff, fun t' h h' => ?_, fun hspace => ?_⟩
  · have hsame := (parse_eq_ok_iff.2 h).symm.trans (parse_eq_ok_iff.2 h')
    exact Except.ok.inj hsame
  · cases hparse : parse s with
    | error report => exact ⟨report, rfl⟩
    | ok u => exact absurd (parse_eq_ok_iff.1 hparse).whiteSpaceInPlace hspace

/-- A list of numbers, with blanks at their places, is derived and taken for its type alone; two
names with a blank between them are refused. -/
theorem list_derived :
    parse "List< int >[ ]" =
        .ok (.array (.named .global "List" [] [.named ⟨"System"⟩ "Int32" [] []])) ∧
      (∀ t', Derives "List< int >[ ]".toList t' →
        .array (.named .global "List" [] [.named ⟨"System"⟩ "Int32" [] []]) = t') ∧
      ¬ WhiteSpaceInPlace "Foo Bar".toList ∧ ∃ report, parse "Foo Bar" = .error report := by
  have hblank : IsBlankRun [' '] := List.forall_mem_singleton.2 (by decide)
  have hint : Derives "int".toList (.named ⟨"System"⟩ "Int32" [] []) := .base (.keyword (by decide))
  let p : Path := ⟨false, [], "List", [], by simp, by unfold IsIdentifier; decide, by simp⟩
  have hargs : DerivesList "< int >".toList [.named ⟨"System"⟩ "Int32" [] []] :=
    .some (.last hblank hint hblank)
  have htext : "List< int >".toList = p.text ++ "< int >".toList := by
    simp [p, Path.text, ended, marked]
  have hlist : DerivesBase "List< int >".toList (p.type [.named ⟨"System"⟩ "Int32" [] []]) := by
    rw [htext]
    exact .named hargs fun hkeyword => by cases hkeyword.2.2.2.1
  have hderives : Derives "List< int >[ ]".toList
      (.array (.named .global "List" [] [.named ⟨"System"⟩ "Int32" [] []])) :=
    .array (.base hlist) hblank
  have hspace : ¬ WhiteSpaceInPlace "Foo Bar".toList := by
    intro hplace
    rcases (hplace "Foo".toList "Bar".toList ' ' rfl (by decide)).2 with
      ⟨l, blanks, d, hl, -, hd⟩ | ⟨l, blanks, d, hl, -, hd⟩
    · have hmem : d ∈ "Foo".toList := hl ▸ List.mem_append_right l List.mem_cons_self
      rcases hd with rfl | rfl | rfl <;> revert hmem <;> decide
    · have hmem : d ∈ "Bar".toList := hl ▸ List.mem_append_right blanks List.mem_cons_self
      rcases hd with rfl | rfl <;> revert hmem <;> decide
  obtain ⟨hiff, hunique, -⟩ := parse_iff_derives "List< int >[ ]"
    (.array (.named .global "List" [] [.named ⟨"System"⟩ "Int32" [] []]))
  obtain ⟨-, -, hrefused⟩ := parse_iff_derives "Foo Bar" .string
  exact ⟨hiff.2 hderives, fun t' h' => hunique t' hderives h', hspace, hrefused hspace⟩

end TypeRef

end ContentModels
