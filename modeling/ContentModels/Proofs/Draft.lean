import ContentModels.Draft

/-!
# The faults and the parts of drafts

The first fault among the parts of a draft is that of the draft (`Draft.fault_append`,
`fault_concat`). A draft is therefore written in full if all its parts are, and then its text is
theirs, one behind the other. What a draft is put together from stays part of it (`Draft.Holds`), up
to the first fault, which ends it (`join_append_of_fault`).
-/

namespace ContentModels

namespace Draft

/-- A draft without a fault is that of its text. -/
theorem eq_ofString_iff {d : Draft} {s : String} :
    d = ofString s ↔ d.fault = none ∧ d.text = s := by
  rw [Draft.ext_iff]
  exact and_comm

/-- The text of a draft can be had if the draft is written in full. -/
theorem toExcept_eq_ok_iff {d : Draft} {s : String} : d.toExcept = .ok s ↔ d = ofString s := by
  rw [eq_ofString_iff]
  unfold toExcept
  cases d.fault <;> simp

/-- The fault of a draft can be had if the draft has come to one. -/
theorem toExcept_eq_error_iff {d : Draft} {fault : Fault} :
    d.toExcept = .error fault ↔ d.fault = some fault := by
  unfold toExcept
  cases d.fault <;> simp

/-- Texts written one behind the other are one text. -/
theorem ofString_append (s t : String) : ofString s ++ ofString t = ofString (s ++ t) := rfl

/-- A draft is written in full if it has come to no fault. -/
theorem exists_toExcept_iff {d : Draft} : (∃ s, d.toExcept = .ok s) ↔ d.fault = none := by
  simp [toExcept_eq_ok_iff, eq_ofString_iff]

/-- A text comes to no fault. -/
@[simp]
theorem fault_ofString (s : String) : (ofString s).fault = none := rfl

/-- The first fault among drafts is that of the first one or, if it has none, the first among the
others. -/
@[simp]
theorem findSome?_fault_cons (d : Draft) (parts : List Draft) :
    (d :: parts).findSome? fault = d.fault.or (parts.findSome? fault) := by
  rw [List.findSome?_cons]
  cases d.fault <;> rfl

/-- Two drafts written one behind the other come to the fault of the first or, if it has none, to
that of the second. -/
@[simp]
theorem fault_append (a b : Draft) : (a ++ b).fault = a.fault.or b.fault := by
  rw [append_def]
  cases ha : a.fault with
  | none => rfl
  | some f => exact ha

/-- Two drafts written one behind the other are written in full if both are. -/
theorem fault_append_eq_none_iff {a b : Draft} :
    (a ++ b).fault = none ↔ a.fault = none ∧ b.fault = none := by
  rw [fault_append, Option.or_eq_none_iff]

/-- Drafts written with a separator between them come to the first fault among them. -/
@[simp]
theorem fault_join (separator : String) (parts : List Draft) :
    (join separator parts).fault = parts.findSome? fault := by
  have hfold : ∀ (rest : List Draft) (d : Draft),
      (rest.foldl (fun draft part => draft ++ ofString separator ++ part) d).fault =
        d.fault.or (rest.findSome? fault) := by
    intro rest
    induction rest with
    | nil => simp
    | cons e rest ih =>
      intro d
      rw [List.foldl_cons, ih, fault_append, fault_append, fault_ofString, Option.or_none,
        Option.or_assoc, findSome?_fault_cons]
  cases parts with
  | nil => rfl
  | cons d rest => rw [join, hfold, findSome?_fault_cons]

/-- Drafts written with a separator between them are written in full if all of them are. -/
theorem fault_join_eq_none_iff {separator : String} {parts : List Draft} :
    (join separator parts).fault = none ↔ ∀ d ∈ parts, d.fault = none := by
  rw [fault_join, List.findSome?_eq_none_iff]

/-- Texts written with a separator between them are the joined text. -/
theorem join_map_ofString (separator : String) (texts : List String) :
    join separator (texts.map ofString) = ofString (separator.intercalate texts) := by
  have hfold : ∀ (rest : List String) (s : String),
      (rest.map ofString).foldl (fun draft part => draft ++ ofString separator ++ part)
        (ofString s) = ofString (separator.intercalate (s :: rest)) := by
    intro rest
    induction rest with
    | nil => simp
    | cons t rest ih =>
      intro s
      rw [List.map_cons, List.foldl_cons, ofString_append, ofString_append, ih,
        String.intercalate_cons_append, String.intercalate_cons_cons]
  cases texts with
  | nil => simp [join]
  | cons s rest => exact hfold rest s

/-! ## Parts -/

/-- No drafts are put together to the empty one. -/
theorem concat_nil : concat [] = ofString "" := rfl

/-- Drafts that are put together are the first one and, behind it, the others put together. -/
theorem concat_cons (d : Draft) (parts : List Draft) : concat (d :: parts) = d ++ concat parts := by
  have hfold : ∀ (parts : List Draft) (a b : Draft),
      parts.foldl append (a ++ b) = a ++ parts.foldl append b := by
    intro parts
    induction parts with
    | nil => exact fun _ _ => rfl
    | cons e parts ih =>
      intro a b
      rw [List.foldl_cons, List.foldl_cons, ← ih]
      exact congrArg (parts.foldl append) (append_assoc a b e)
  have hempty : append (ofString "") d = d ++ ofString "" := by
    rw [append_empty]
    exact empty_append d
  rw [concat, List.foldl_cons, hempty, hfold, concat]

/-- Drafts are put together one behind the other. -/
theorem concat_append (parts rest : List Draft) :
    concat (parts ++ rest) = concat parts ++ concat rest := by
  induction parts with
  | nil => exact (empty_append (concat rest)).symm
  | cons d parts ih => rw [List.cons_append, concat_cons, concat_cons, ih, append_assoc]

/-- Texts that are put together are one text. -/
theorem concat_map_ofString (texts : List String) :
    concat (texts.map ofString) = ofString (String.join texts) := by
  induction texts with
  | nil => rfl
  | cons s texts ih => rw [List.map_cons, concat_cons, ih, ofString_append, String.join_cons]

/-- Drafts that are put together come to the first fault among them. -/
@[simp]
theorem fault_concat (parts : List Draft) : (concat parts).fault = parts.findSome? fault := by
  induction parts with
  | nil => rfl
  | cons d parts ih => rw [concat_cons, fault_append, ih, findSome?_fault_cons]

/-- The first draft and then the others, with the separator before each. -/
theorem join_cons_cons (separator : String) (d e : Draft) (parts : List Draft) :
    join separator (d :: e :: parts) = d ++ ofString separator ++ join separator (e :: parts) := by
  have hfold : ∀ (parts : List Draft) (a b : Draft),
      parts.foldl (fun draft part => draft ++ ofString separator ++ part) (a ++ b) =
        a ++ parts.foldl (fun draft part => draft ++ ofString separator ++ part) b := by
    intro parts
    induction parts with
    | nil => exact fun _ _ => rfl
    | cons f parts ih =>
      intro a b
      rw [List.foldl_cons, List.foldl_cons, ← ih, append_assoc a b, append_assoc a]
  rw [join, List.foldl_cons, hfold, join]

/-- The first draft and then the others, if there are any, with the separator behind the first. -/
theorem join_cons_of_ne_nil (separator : String) (d : Draft) {parts : List Draft}
    (h : parts ≠ []) :
    join separator (d :: parts) = d ++ ofString separator ++ join separator parts := by
  cases parts with
  | nil => exact absurd rfl h
  | cons e parts => exact join_cons_cons separator d e parts

/-- Drafts that are written in full, with a separator between them, are the joined texts. -/
theorem join_eq_ofString {separator : String} {parts : List Draft}
    (h : ∀ d ∈ parts, d.fault = none) :
    join separator parts = ofString (separator.intercalate (parts.map text)) := by
  have htexts : (parts.map text).map ofString = parts := by
    rw [List.map_map]
    refine (List.map_congr_left fun d hd => ?_).trans (List.map_id parts)
    exact (eq_ofString_iff.2 ⟨h d hd, rfl⟩).symm
  rw [← join_map_ofString, htexts]

/-- Drafts with a separator between them end with the first that has come to a fault. -/
theorem join_append_of_fault {separator : String} {before : List Draft} {d : Draft}
    (hbefore : ∀ e ∈ before, e.fault = none) (hd : d.fault.isSome) (after : List Draft) :
    join separator (before ++ d :: after) =
      ofString (String.join (before.map fun e => e.text ++ separator)) ++ d := by
  induction before with
  | nil =>
    have hfirst : join separator (d :: after) = d := by
      cases after with
      | nil => rfl
      | cons e after =>
        rw [join_cons_cons, append_of_fault hd, append_of_fault hd]
    exact hfirst.trans (empty_append d).symm
  | cons e before ih =>
    have he : e = ofString e.text := eq_ofString_iff.2 ⟨hbefore e List.mem_cons_self, rfl⟩
    have hrest := ih fun f hf => hbefore f (List.mem_cons_of_mem e hf)
    have hne : before ++ d :: after ≠ [] := by simp
    calc join separator (e :: (before ++ d :: after))
        = e ++ ofString separator ++ join separator (before ++ d :: after) :=
          join_cons_of_ne_nil separator e hne
      _ = ofString (e.text ++ separator) ++
            (ofString (String.join (before.map fun e => e.text ++ separator)) ++ d) := by
          rw [hrest, ← ofString_append, ← he]
      _ = ofString (String.join ((e :: before).map fun e => e.text ++ separator)) ++ d := by
          rw [← append_assoc, ofString_append, List.map_cons, String.join_cons]

/-- The draft `part` is written within `d`, unless the writing has come to a fault before. -/
def Holds (d part : Draft) : Prop := ∃ before after, d = before ++ part ++ after

/-- A draft holds itself. -/
theorem Holds.refl (d : Draft) : d.Holds d :=
  ⟨ofString "", ofString "", by rw [empty_append, append_empty]⟩

/-- A part of a part is a part. -/
theorem Holds.trans {d e f : Draft} (hde : d.Holds e) (hef : e.Holds f) : d.Holds f := by
  obtain ⟨before, after, rfl⟩ := hde
  obtain ⟨before', after', rfl⟩ := hef
  exact ⟨before ++ before', after' ++ after, by simp only [append_assoc]⟩

/-- What the first of two drafts holds, both hold. -/
theorem holds_append_left (d e : Draft) : (d ++ e).Holds d := ⟨ofString "", e, by rw [empty_append]⟩

/-- What the second of two drafts holds, both hold. -/
theorem holds_append_right (d e : Draft) : (d ++ e).Holds e :=
  ⟨d, ofString "", by rw [append_empty]⟩

/-- Drafts that are put together hold each of them. -/
theorem holds_concat {d : Draft} {parts : List Draft} (hd : d ∈ parts) :
    (concat parts).Holds d := by
  obtain ⟨before, after, rfl⟩ := List.append_of_mem hd
  rw [concat_append, concat_cons]
  exact (holds_append_right _ _).trans (holds_append_left _ _)

/-- Drafts that are put together hold any that follow one another among them. -/
theorem holds_concat_append (before parts after : List Draft) :
    (concat (before ++ (parts ++ after))).Holds (concat parts) := by
  rw [concat_append, concat_append]
  exact (holds_append_right _ _).trans (holds_append_left _ _)

/-- Drafts with a separator between them hold each of them. -/
theorem holds_join {separator : String} {d : Draft} {parts : List Draft} (hd : d ∈ parts) :
    (join separator parts).Holds d := by
  induction parts with
  | nil => cases hd
  | cons e parts ih =>
    cases parts with
    | nil => exact List.mem_singleton.1 hd ▸ Holds.refl _
    | cons f parts =>
      rw [join_cons_cons]
      rcases List.mem_cons.1 hd with rfl | hd
      · exact (holds_append_left _ _).trans (holds_append_left _ _)
      · exact (holds_append_right _ _).trans (ih hd)

/-- The parts of a draft that is written in full are, and their texts are parts of its text. -/
theorem Holds.exists_text {d part : Draft} (h : d.Holds part) {s : String}
    (hs : d.toExcept = .ok s) : ∃ t, part.toExcept = .ok t ∧ t.toList <:+: s.toList := by
  obtain ⟨before, after, rfl⟩ := h
  obtain ⟨hfault, rfl⟩ := eq_ofString_iff.1 (toExcept_eq_ok_iff.1 hs)
  rw [fault_append_eq_none_iff, fault_append_eq_none_iff] at hfault
  obtain ⟨⟨hbefore, hpart⟩, -⟩ := hfault
  refine ⟨part.text, toExcept_eq_ok_iff.2 (eq_ofString_iff.2 ⟨hpart, rfl⟩),
    before.text.toList, after.text.toList, ?_⟩
  simp [append_def, hbefore, hpart]

/-- A text that is part of a draft written in full is part of its text. -/
theorem Holds.infix_of_ofString {d : Draft} {part s : String} (h : d.Holds (ofString part))
    (hs : d.toExcept = .ok s) : part.toList <:+: s.toList := by
  obtain ⟨t, ht, hinfix⟩ := h.exists_text hs
  obtain rfl : part = t := Except.ok.inj ht
  exact hinfix

end Draft

end ContentModels
