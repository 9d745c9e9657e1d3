/-!
# What remains of a text

A reader in this library takes a list of characters and gives back what it read together with what
remains. The types `Remainder` and `Shorter` keep that the rest is no longer than the text, or
shorter, which is why reading ends. Remainders compose: what remains of the rest of a text remains
of the text.
-/

namespace ContentModels

/-- What remains of `s` after some characters, possibly none, have been read. -/
abbrev Remainder (s : List Char) := { rest : List Char // rest.length ≤ s.length }

/-- What remains of `s` after at least one character has been read. -/
abbrev Shorter (s : List Char) := { rest : List Char // rest.length < s.length }

/-- Dropping characters from the front makes no list longer. -/
theorem length_dropWhile_le {α : Type} (p : α → Bool) (l : List α) :
    (l.dropWhile p).length ≤ l.length := by
  induction l with
  | nil => simp
  | cons a l ih =>
    rw [List.dropWhile_cons]
    split
    · simp only [List.length_cons]; omega
    · simp

namespace Remainder

variable {s : List Char}

/-- The whole text, of which nothing has been read. -/
def all (s : List Char) : Remainder s := ⟨s, Nat.le_refl s.length⟩

/-- What remains behind the characters at the front that are of the given class. -/
def dropWhile (p : Char → Bool) (s : List Char) : Remainder s :=
  ⟨s.dropWhile p, length_dropWhile_le p s⟩

/-- What remains behind the first `n` characters. -/
def drop (n : Nat) (s : List Char) : Remainder s :=
  ⟨s.drop n, List.length_drop ▸ Nat.sub_le s.length n⟩

/-- What remains of the rest remains of the text. -/
def trans (r : Remainder s) (r' : Remainder r.val) : Remainder s :=
  ⟨r'.val, Nat.le_trans r'.property r.property⟩

/-- What remains of the rest after a further character remains of the text after a character. -/
def further (r : Remainder s) (r' : Shorter r.val) : Shorter s :=
  ⟨r'.val, Nat.lt_of_lt_of_le r'.property r.property⟩

/-- What remains of a text remains of it behind one more character. -/
def cons (c : Char) (r : Remainder s) : Shorter (c :: s) :=
  ⟨r.val, Nat.lt_succ_of_le r.property⟩

/-- Twice the length of a remainder stays below the next odd number. -/
theorem two_mul_length_lt (r : Remainder s) : 2 * r.val.length < 2 * s.length + 1 := by
  have := r.property; omega

end Remainder

namespace Shorter

variable {s : List Char}

/-- A text behind its first character. -/
def tail (c : Char) (s : List Char) : Shorter (c :: s) := ⟨s, Nat.lt_succ_self s.length⟩

/-- What remains after a character remains. -/
def toRemainder (r : Shorter s) : Remainder s := ⟨r.val, Nat.le_of_lt r.property⟩

/-- What remains of the rest remains of the text after a character. -/
def trans (r : Shorter s) (r' : Remainder r.val) : Shorter s :=
  ⟨r'.val, Nat.lt_of_le_of_lt r'.property r.property⟩

/-- What remains of a text remains of it behind one more character. -/
def cons (c : Char) (r : Shorter s) : Shorter (c :: s) := r.toRemainder.cons c

/-- Twice the length of a shorter remainder leaves room for one. -/
theorem two_mul_length_lt (r : Shorter s) : 2 * r.val.length + 1 < 2 * s.length := by
  have := r.property; omega

end Shorter

/-- Reads the given character. -/
def next? (c : Char) : (s : List Char) → Option (Shorter s)
  | [] => none
  | d :: r => if d = c then some (.tail d r) else none

/-- A character is read where it stands in front, and what is behind it remains. -/
theorem next?_eq_some {c : Char} {s : List Char} {r : Shorter s} :
    next? c s = some r ↔ s = c :: r.val := by
  cases s with
  | nil => simp [next?]
  | cons d s =>
    obtain ⟨r, hr⟩ := r
    by_cases h : d = c
    · simp [next?, Shorter.tail, h]
    · simp [next?, h]

end ContentModels
