import ContentModels.Span
import Mathlib.Data.List.Basic

/-!
# Places in texts

A place in a text is told by the number of bytes that stand before it. What stands before a place
that a reader tells is often the longest text of some kind at the front (`IsLongestFront`).

Not every number of bytes is a place: it has to be a boundary between characters (`IsBoundary`). A
span marks a piece of the text exactly if both of its ends are (`Span.isSome_slice_iff`).
-/

namespace ContentModels

/-- Two texts, one behind the other, take the bytes of both. -/
theorem byteLength_append (l l' : List Char) :
    byteLength (l ++ l') = byteLength l + byteLength l' := by
  induction l with
  | nil => simp [byteLength]
  | cons c l ih =>
    rw [List.cons_append, byteLength, ih, byteLength, Nat.add_assoc]

/-- The bytes that stand before what remains of a text are those of its front. -/
theorem byteLength_sub_of_eq {s front rest : List Char} (h : s = front ++ rest) :
    byteLength s - byteLength rest = byteLength front := by
  rw [h, byteLength_append, Nat.add_sub_cancel]

/-- The characters of a text take its bytes. -/
theorem byteLength_toList (s : String) : byteLength s.toList = s.utf8ByteSize := by
  have hchars : ∀ l : List Char, byteLength l = (String.ofList l).utf8ByteSize := fun l => by
    induction l with
    | nil => rfl
    | cons c l ih =>
      rw [byteLength, ih, String.ofList_cons, String.utf8ByteSize_append,
        String.utf8ByteSize_singleton]
  rw [hchars, String.ofList_toList]

/-- The empty text alone takes no bytes. -/
theorem byteLength_eq_zero_iff {l : List Char} : byteLength l = 0 ↔ l = [] := by
  cases l with
  | nil => simp [byteLength]
  | cons c l =>
    have hpos := c.utf8Size_pos
    simp only [byteLength, reduceCtorEq, iff_false]
    omega

/-- A span ends where it is told to, unless that is before its start. -/
theorem Span.stop_between {start stop : Nat} (h : start ≤ stop) :
    (Span.between start stop).stop = stop :=
  Nat.max_eq_left h

/-- So many bytes stand before a character of the text, or before its end. -/
def IsBoundary (s : List Char) (n : Nat) : Prop := ∃ front, front <+: s ∧ byteLength front = n

/-- A text ends at a boundary. -/
theorem isBoundary_byteLength (s : List Char) : IsBoundary s (byteLength s) :=
  ⟨s, List.prefix_rfl, rfl⟩

/-- A text starts at a boundary. -/
theorem isBoundary_zero (s : List Char) : IsBoundary s 0 := ⟨[], List.nil_prefix, rfl⟩

/-- What remains of a text starts at a boundary. -/
theorem isBoundary_sub_of_isSuffix {s rest : List Char} (h : rest <:+ s) :
    IsBoundary s (byteLength s - byteLength rest) := by
  obtain ⟨front, rfl⟩ := h
  exact ⟨front, List.prefix_append front rest, (byteLength_sub_of_eq rfl).symm⟩

/-- Of two fronts of a text, the one that takes no more bytes is a front of the other. -/
theorem isPrefix_of_byteLength_le {s front front' : List Char} (h : front <+: s)
    (h' : front' <+: s) (hle : byteLength front ≤ byteLength front') : front <+: front' := by
  rcases List.prefix_or_prefix_of_prefix h h' with hfront | ⟨piece, rfl⟩
  · exact hfront
  · -- What the longer front has more takes no bytes.
    rw [byteLength_append] at hle
    have hpiece : byteLength piece = 0 := by omega
    simp [byteLength_eq_zero_iff.1 hpiece]

/-- No boundary lies within a character. -/
theorem not_isBoundary_of_lt {front rest : List Char} {c : Char} {n : Nat}
    (hlt : byteLength front < n) (hn : n < byteLength front + c.utf8Size) :
    ¬ IsBoundary (front ++ c :: rest) n := by
  rintro ⟨front', hfront', rfl⟩
  have hmore : front <+: front' :=
    isPrefix_of_byteLength_le (List.prefix_append front _) hfront' (Nat.le_of_lt hlt)
  obtain ⟨piece, rfl⟩ := hmore
  rw [byteLength_append] at hlt hn
  -- The piece behind the front is not empty, so that it starts with the character.
  cases piece with
  | nil => exact absurd hlt (Nat.lt_irrefl _)
  | cons d piece =>
    rw [List.prefix_append_right_inj, List.cons_prefix_cons] at hfront'
    rw [byteLength, hfront'.1] at hn
    omega

/-- What is left behind a number of bytes stands behind a front of so many. -/
theorem Span.dropBytes_eq_some_iff {n : Nat} {s rest : List Char} :
    dropBytes n s = some rest ↔ ∃ front, s = front ++ rest ∧ byteLength front = n := by
  induction s generalizing n with
  | nil =>
    simp only [dropBytes, List.nil_eq, List.append_eq_nil_iff]
    constructor
    · intro h
      split at h
      · rename_i hn
        exact ⟨[], ⟨rfl, (Option.some.inj h).symm⟩, hn.symm⟩
      · cases h
    · rintro ⟨front, ⟨rfl, rfl⟩, rfl⟩
      rfl
  | cons c s ih =>
    have hpos := c.utf8Size_pos
    unfold dropBytes
    constructor
    · intro h
      split at h
      · rename_i hn
        exact ⟨[], (Option.some.inj h), hn.symm⟩
      · split at h
        · rename_i hle
          obtain ⟨front, rfl, hfront⟩ := ih.1 h
          exact ⟨c :: front, rfl, by rw [byteLength]; omega⟩
        · cases h
    · rintro ⟨front, hs, hfront⟩
      cases front with
      | nil =>
        obtain rfl : 0 = n := hfront
        exact congrArg some hs
      | cons d front =>
        obtain ⟨rfl, rfl⟩ := List.cons.inj hs
        rw [byteLength] at hfront
        rw [if_neg (by omega), if_pos (by omega)]
        exact ih.2 ⟨front, rfl, by omega⟩

/-- The piece of a number of bytes is the front of so many. -/
theorem Span.takeBytes_eq_some_iff {n : Nat} {s piece : List Char} :
    takeBytes n s = some piece ↔ piece <+: s ∧ byteLength piece = n := by
  induction s generalizing n piece with
  | nil =>
    simp only [takeBytes, List.prefix_nil]
    constructor
    · intro h
      split at h
      · rename_i hn
        obtain rfl : [] = piece := Option.some.inj h
        exact ⟨rfl, hn.symm⟩
      · cases h
    · rintro ⟨rfl, rfl⟩
      rfl
  | cons c s ih =>
    have hpos := c.utf8Size_pos
    unfold takeBytes
    constructor
    · intro h
      split at h
      · rename_i hn
        obtain rfl : [] = piece := Option.some.inj h
        exact ⟨List.nil_prefix, hn.symm⟩
      · split at h
        · rename_i hle
          obtain ⟨piece', hpiece', rfl⟩ := Option.map_eq_some_iff.1 h
          obtain ⟨hbegins, hbytes⟩ := ih.1 hpiece'
          exact ⟨List.cons_prefix_cons.2 ⟨rfl, hbegins⟩, by rw [byteLength]; omega⟩
        · cases h
    · rintro ⟨hbegins, hbytes⟩
      cases piece with
      | nil =>
        obtain rfl : 0 = n := hbytes
        rfl
      | cons d piece =>
        obtain ⟨rfl, hpiece⟩ := List.cons_prefix_cons.1 hbegins
        rw [byteLength] at hbytes
        have hrest : takeBytes (n - d.utf8Size) s = some piece := ih.2 ⟨hpiece, by omega⟩
        rw [if_neg (by omega), if_pos (by omega), hrest]
        rfl

/-- A span marks the piece of the text that stands between its ends. -/
theorem Span.slice_eq_some {span : Span} {source : String} {front piece rest : List Char}
    (h : source.toList = front ++ piece ++ rest) (hstart : span.start = byteLength front)
    (hstop : span.stop = byteLength (front ++ piece)) :
    span.slice source = some (String.ofList piece) := by
  rw [List.append_assoc] at h
  rw [byteLength_append] at hstop
  have hdrop : dropBytes span.start source.toList = some (piece ++ rest) :=
    dropBytes_eq_some_iff.2 ⟨front, h, hstart.symm⟩
  have htake : takeBytes span.length (piece ++ rest) = some piece :=
    takeBytes_eq_some_iff.2 ⟨List.prefix_append piece rest, by rw [length]; omega⟩
  rw [slice, hdrop, Option.bind_eq_bind, Option.bind_some, htake]
  rfl

/-- A span marks a piece of the text exactly if it starts and ends at boundaries. -/
theorem Span.isSome_slice_iff {span : Span} {source : String} :
    (span.slice source).isSome ↔
      IsBoundary source.toList span.start ∧ IsBoundary source.toList span.stop := by
  have hle := span.start_le_stop
  constructor
  · intro h
    obtain ⟨text, htext⟩ := Option.isSome_iff_exists.1 h
    obtain ⟨rest, hrest, htext⟩ := Option.bind_eq_some_iff.1 htext
    obtain ⟨piece, hpiece, -⟩ := Option.bind_eq_some_iff.1 htext
    obtain ⟨front, hs, hfront⟩ := dropBytes_eq_some_iff.1 hrest
    obtain ⟨hbegins, hbytes⟩ := takeBytes_eq_some_iff.1 hpiece
    rw [hs]
    refine ⟨⟨front, List.prefix_append front rest, hfront⟩,
      ⟨front ++ piece, (List.prefix_append_right_inj front).2 hbegins, ?_⟩⟩
    rw [byteLength_append, hfront, hbytes, length]
    omega
  · rintro ⟨⟨front, hfront, hstart⟩, ⟨front', hfront', hstop⟩⟩
    obtain ⟨piece, rfl⟩ := isPrefix_of_byteLength_le hfront hfront' (by omega)
    obtain ⟨rest, hs⟩ := hfront'
    rw [slice_eq_some hs.symm hstart.symm hstop.symm]
    rfl

/-- Of two fronts of a text, the one with less behind it is at least as long. -/
theorem length_le_of_append_eq {front rest front' rest' : List Char}
    (h : front ++ rest = front' ++ rest') (hle : rest.length ≤ rest'.length) :
    front'.length ≤ front.length := by
  have hlengths := congrArg List.length h
  rw [List.length_append, List.length_append] at hlengths
  omega

/-- The text is the longest one with the property that stands at the front of `s`. -/
structure IsLongestFront (p : List Char → Prop) (s front : List Char) : Prop where
  /-- It stands at the front. -/
  atFront : front <+: s
  /-- It has the property. -/
  holds : p front
  /-- No longer text at the front has the property. -/
  longest : ∀ l, l <+: s → p l → l.length ≤ front.length

end ContentModels
