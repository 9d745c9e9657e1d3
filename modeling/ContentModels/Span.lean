/-!
# Spans

A range of byte offsets into a text. A span never runs backwards, and it marks a piece of the text
only where both of its ends are boundaries between characters.
-/

namespace ContentModels

/-- The number of bytes that a list of characters takes. -/
def byteLength : List Char → Nat
  | [] => 0
  | c :: cs => c.utf8Size + byteLength cs

/-- A range of byte offsets. -/
structure Span where
  /-- The offset of the first byte. -/
  start : Nat
  /-- The offset behind the last byte. -/
  stop : Nat
  /-- A span does not run backwards. -/
  start_le_stop : start ≤ stop
deriving DecidableEq

namespace Span

/-- The span from `start` to `stop`, and the empty span at `start` where `stop` comes before. -/
def between (start stop : Nat) : Span := ⟨start, max stop start, by omega⟩

/-- The number of bytes in a span. -/
def length (s : Span) : Nat := s.stop - s.start

/-- Whether a span holds no byte. -/
def isEmpty (s : Span) : Bool := s.start = s.stop

/-- The least span that covers both. -/
def union (s t : Span) : Span :=
  ⟨min s.start t.start, max s.stop t.stop, by have := s.start_le_stop; omega⟩

/-- What follows the first `n` bytes, if that is a boundary between characters. -/
def dropBytes (n : Nat) : List Char → Option (List Char)
  | [] => if n = 0 then some [] else none
  | c :: cs =>
    if n = 0 then some (c :: cs)
    else if c.utf8Size ≤ n then dropBytes (n - c.utf8Size) cs
    else none

/-- The characters that make up the first `n` bytes, if that is a boundary between characters. -/
def takeBytes (n : Nat) : List Char → Option (List Char)
  | [] => if n = 0 then some [] else none
  | c :: cs =>
    if n = 0 then some []
    else if c.utf8Size ≤ n then (takeBytes (n - c.utf8Size) cs).map (c :: ·)
    else none

/-- The piece of `source` that a span marks, if both ends are boundaries between its characters. -/
def slice (s : Span) (source : String) : Option String := do
  let rest ← dropBytes s.start source.toList
  let piece ← takeBytes s.length rest
  return String.ofList piece

end Span

end ContentModels
