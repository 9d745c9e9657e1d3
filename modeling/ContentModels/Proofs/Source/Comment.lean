import ContentModels.Source.Comment
import ContentModels.Proofs.TypeRef.Reading

/-!
# Texts in comments

What becomes of a text of the outside in a comment. A documentation comment leaves all characters
as they are but a few, for which others stand that it never changes (`Comment.docChar_eq_iff`), so
that the summary of a property is that of one text, its caption (`propertySummary_eq`). A note is
broken at the first space behind its width, and what follows the space is broken in the same way
(`noteLines_eq_or`), so that what holds of notes is proved by induction on what is left of them
(`note_induction`).
-/

namespace ContentModels

namespace Comment

/-- A documentation comment holds a character exactly where the text does, unless it is one of those
that stand for others or one that others stand for. -/
theorem docChar_eq_iff {c d : Char} (hd : d ∉ ['<', '>', '\r', '\n', '\x7b', '\x7d', ' ']) :
    docChar c = d ↔ c = d := by
  simp only [List.mem_cons, List.not_mem_nil, or_false, not_or] at hd
  obtain ⟨hlt, hgt, hcr, hlf, hopen, hclose, hspace⟩ := hd
  unfold docChar
  by_cases hc : c = '<'
  · rw [if_pos hc]
    exact iff_of_false (Ne.symm hopen) fun h => hlt (h.symm.trans hc)
  by_cases hc' : c = '>'
  · rw [if_neg hc, if_pos hc']
    exact iff_of_false (Ne.symm hclose) fun h => hgt (h.symm.trans hc')
  rw [if_neg hc, if_neg hc']
  split
  · rename_i hend
    refine iff_of_false (Ne.symm hspace) ?_
    rintro rfl
    simp [hcr, hlf] at hend
  · rfl

/-- A documentation comment of one line holds no angle brackets of a text, and nothing that ends a
line of a file. -/
theorem docChar_notMem (c : Char) : docChar c ∉ ['<', '>', '\r', '\n'] := by
  unfold docChar
  by_cases hc : c = '<'
  · rw [if_pos hc]
    decide
  by_cases hc' : c = '>'
  · rw [if_neg hc, if_pos hc']
    decide
  rw [if_neg hc, if_neg hc']
  split
  · decide
  · rename_i hend
    simp_all

/-- A documentation comment holds the characters of two texts, one behind the other, as it holds
those of each. -/
theorem docText_append (s t : String) : docText (s ++ t) = docText s ++ docText t := by
  simp [docText, String.ofList_append]

/-- The text that the summary of a property holds: its name and, behind a colon, its description.
There is none if the property has neither. -/
def caption? (p : Property) : Option String :=
  match p.name, p.description with
  | none, none => none
  | name, description =>
    some (name.getD "" ++ match description with
      | some description => ": " ++ description
      | none => "")

/-- A property without a name and without a description has no caption. -/
theorem caption?_eq_none_iff {p : Property} :
    caption? p = none ↔ p.name = none ∧ p.description = none := by
  unfold caption?
  cases p.name <;> cases p.description <;> simp

/-- The summary of a property is that of its caption. -/
theorem propertySummary_eq (p : Property) :
    propertySummary p = match caption? p with
      | none => ""
      | some text => "\t\t///<summary>\n\t\t/// " ++ docText text ++ "\n\t\t///</summary>\n" := by
  have hempty : docText "" = "" := rfl
  have hcolon : docText ": " = ": " := rfl
  unfold propertySummary caption?
  cases p.name with
  | none =>
    cases p.description with
    | none => rfl
    | some description => simp [docText_append, hempty, hcolon, String.append_assoc]
  | some name =>
    cases p.description with
    | none => simp
    | some description => simp [docText_append, hcolon, String.append_assoc]

/-- What a text has exactly if one of two others has it that it puts together with a colon between
them, a caption has exactly if the name or the description has it. -/
theorem exists_caption_iff {P : List Char → Prop} (hnil : ¬ P [])
    (hcolon : ∀ l r, P (l ++ ':' :: ' ' :: r) ↔ P l ∨ P r) {p : Property} {text : String}
    (h : caption? p = some text) :
    P text.toList ↔ ∃ t ∈ p.name.toList ++ p.description.toList, P t.toList := by
  unfold caption? at h
  cases hname : p.name with
  | none =>
    cases hdescription : p.description with
    | none => simp [hname, hdescription] at h
    | some description =>
      obtain rfl : ": " ++ description = text := by simpa [hname, hdescription] using h
      simpa [hnil] using hcolon [] description.toList
  | some name =>
    cases hdescription : p.description with
    | none =>
      obtain rfl : name = text := by simpa [hname, hdescription] using h
      simp
    | some description =>
      obtain rfl : name ++ (": " ++ description) = text := by simpa [hname, hdescription] using h
      simpa using hcolon name.toList description.toList

/-- The empty note has no lines. -/
@[simp]
theorem noteLines_nil : noteLines [] = [] := by
  rw [noteLines]
  rfl

/-- A note without a space behind the width is one line. Of any other, the first line goes up to the
first such space, and the further lines are those of what stands behind it. -/
theorem noteLines_eq_or {note : List Char} (hne : note ≠ []) :
    ' ' ∉ note.drop noteWidth ∧ noteLines note = [note] ∨
      ∃ line rest, note = line ++ ' ' :: rest ∧ noteWidth ≤ line.length ∧
        ' ' ∉ line.drop noteWidth ∧ noteLines note = line :: noteLines rest := by
  obtain ⟨word, hword⟩ : ∃ word, (note.drop noteWidth).takeWhile (· ≠ ' ') = word := ⟨_, rfl⟩
  obtain ⟨gap, hgap⟩ : ∃ gap, (note.drop noteWidth).dropWhile (· ≠ ' ') = gap := ⟨_, rfl⟩
  have hsplit : note.drop noteWidth = word ++ gap := by
    rw [← hword, ← hgap, List.takeWhile_append_dropWhile]
  have hspace : ' ' ∉ word := by
    intro hmem
    have hall := List.all_takeWhile (p := (· ≠ ' ')) (l := note.drop noteWidth)
    rw [hword, List.all_eq_true] at hall
    simpa using hall ' ' hmem
  rw [noteLines, if_neg (by simpa using hne)]
  dsimp only
  split
  · rename_i hnext
    have hnext : ' ' ∉ gap.head? := hgap ▸ next?_eq_none_iff.1 hnext
    have hnil : gap = [] := by
      cases gap with
      | nil => rfl
      | cons c rest =>
        -- What the gap starts with is not dropped, so that it is a space.
        have hc := head?_dropWhile_eq_false (p := (· ≠ ' ')) (l := note.drop noteWidth) c
          (hgap ▸ rfl)
        obtain rfl : c = ' ' := by simpa using hc
        exact absurd rfl hnext
    exact .inl ⟨by rwa [hsplit, hnil, List.append_nil], rfl⟩
  · rename_i r hnext
    have hcut : gap = ' ' :: r.val := hgap ▸ next?_eq_some.1 hnext
    have hfull : (note.take noteWidth).length = noteWidth := by
      have hlength := congrArg List.length hsplit
      rw [hcut, List.length_drop, List.length_append, List.length_cons] at hlength
      rw [List.length_take, Nat.min_eq_left]
      omega
    refine .inr ⟨note.take noteWidth ++ word, r.val, ?_, ?_, ?_, ?_⟩
    · rw [List.append_assoc, ← hcut, ← hsplit, List.take_append_drop]
    · rw [List.length_append, hfull]
      exact Nat.le_add_right _ _
    · rwa [List.drop_append_of_le_length (Nat.le_of_eq hfull.symm),
        List.drop_of_length_le (Nat.le_of_eq hfull), List.nil_append]
    · rw [← hword]
      rfl

/-- What holds of the empty note, of each that is one line, and with what stands behind the first
space that is left out also of the whole, holds of all notes. -/
@[elab_as_elim]
theorem note_induction {motive : List Char → Prop} (empty : motive [])
    (last : ∀ note, note ≠ [] → ' ' ∉ note.drop noteWidth → noteLines note = [note] → motive note)
    (further : ∀ line rest, noteWidth ≤ line.length → ' ' ∉ line.drop noteWidth →
      noteLines (line ++ ' ' :: rest) = line :: noteLines rest → motive rest →
      motive (line ++ ' ' :: rest))
    (note : List Char) : motive note := by
  by_cases hne : note = []
  · exact hne ▸ empty
  · rcases noteLines_eq_or hne with ⟨hspace, hlines⟩ | ⟨line, rest, hnote, hwidth, hspace, hlines⟩
    · exact last note hne hspace hlines
    · rw [hnote] at hlines ⊢
      exact further line rest hwidth hspace hlines (note_induction empty last further rest)
termination_by note.length
decreasing_by
  rw [hnote, List.length_append, List.length_cons]
  omega

end Comment

end ContentModels
