import ContentModels.Fault

/-!
# Drafts

A draft is text in the making: what has been written and, if writing came to a fault, that fault.
Nothing is written behind a fault. Drafts are put together by `++`, for which the empty draft is
neutral and grouping does not matter.
-/

namespace ContentModels

/-- Text in the making: what has been written, and the fault that ended the writing, if any. -/
@[ext]
structure Draft where
  text : String
  fault : Option Fault := none
deriving DecidableEq

namespace Draft

/-- The draft of a text that is written in full. -/
def ofString (text : String) : Draft := ⟨text, none⟩

instance : Coe String Draft := ⟨ofString⟩

/-- The draft that comes to a fault at once. -/
def fail (fault : Fault) : Draft := ⟨"", some fault⟩

/-- Writes the second draft behind the first, unless that has come to a fault. -/
def append (a b : Draft) : Draft :=
  match a.fault with
  | some _ => a
  | none => ⟨a.text ++ b.text, b.fault⟩

instance : Append Draft := ⟨append⟩

/-- Writes several drafts, one behind the other. -/
def concat (parts : List Draft) : Draft := parts.foldl append (ofString "")

/-- Writes several drafts with a separator between them. -/
def join (separator : String) : List Draft → Draft
  | [] => ofString ""
  | first :: rest => rest.foldl (fun draft part => draft ++ ofString separator ++ part) first

/-- The text of a draft that is written in full, or its fault. -/
def toExcept (d : Draft) : Except Fault String :=
  match d.fault with
  | some fault => .error fault
  | none => .ok d.text

theorem append_def (a b : Draft) :
    a ++ b = match a.fault with
      | some _ => a
      | none => ⟨a.text ++ b.text, b.fault⟩ := rfl

/-- Nothing is written behind a fault. -/
theorem append_of_fault {a : Draft} (h : a.fault.isSome) (b : Draft) : a ++ b = a := by
  obtain ⟨fault, h⟩ := Option.isSome_iff_exists.1 h
  simp [append_def, h]

/-- Grouping does not matter. -/
theorem append_assoc (a b c : Draft) : a ++ b ++ c = a ++ (b ++ c) := by
  simp only [append_def]
  rcases a with ⟨s, _ | f⟩
  · rcases b with ⟨t, _ | g⟩ <;> simp [String.append_assoc]
  · simp

/-- The empty draft is neutral on the left. -/
theorem empty_append (a : Draft) : ofString "" ++ a = a := by
  simp [append_def, ofString]

/-- The empty draft is neutral on the right. -/
theorem append_empty (a : Draft) : a ++ ofString "" = a := by
  rcases a with ⟨s, _ | f⟩ <;> simp [append_def, ofString]

end Draft

end ContentModels
