import ContentModels.Toml.Table
import ContentModels.Toml.Text

/-!
# TOML scalars

The values that are written without quotes and brackets: truth values, integers, floats, dates and
times. Each is one word, and a word may hold spaces, as a date with a time behind it does.

An integer is known by its form, which is all that reading asks for: `0x`, and decimal digits with
an underscore and a letter somewhere behind, are formed like integers. That they have no value is a
fault only where the value is looked at.
-/

namespace ContentModels.Toml

/-! ## Digits -/

/-- The value of digits in a base, an underscore being allowed between two of them. -/
def digits? (base : Nat) (digit? : Char → Option Nat) (s : List Char) : Option Nat :=
  go none s
where
  /-- The value of what is left behind digits of the given value. -/
  go (value : Option Nat) : List Char → Option Nat
    | [] => value
    | '_' :: c :: r =>
      match value, digit? c with
      | some n, some d => go (some (base * n + d)) r
      | _, _ => none
    | c :: r =>
      match digit? c with
      | some d => go (some (base * value.getD 0 + d)) r
      | none => none

/-- The value of a digit below a base of at most sixteen. -/
def digitBelow? (base : Nat) (c : Char) : Option Nat := (hexDigit? c).filter (· < base)

/-- The value of decimal digits. -/
def decimal? (s : List Char) : Option Nat := digits? 10 (digitBelow? 10) s

/-- The value of decimal digits that do not start with a needless zero. -/
def canonical? (s : List Char) : Option Nat :=
  match s with
  | '0' :: _ :: _ => none
  | s => decimal? s

/-- A sign, and what stands behind it. -/
def sign : List Char → Int × List Char
  | '-' :: r => (-1, r)
  | '+' :: r => (1, r)
  | s => (1, s)

/-! ## Numbers -/

/-- Whether a character starts an exponent. -/
def isExponentMark (c : Char) : Bool := c = 'e' || c = 'E'

/-- Whether a character is a digit of base sixteen. -/
def isHexDigit (c : Char) : Bool := (hexDigit? c).isSome

/-- Whether each underscore stands between two digits of base sixteen. The first argument tells
whether such a digit stands in front of the text. -/
def isSpaced (behindDigit : Bool) : List Char → Bool
  | [] => true
  | '_' :: c :: r => behindDigit && isHexDigit c && isSpaced true r
  | ['_'] => false
  | c :: r => isSpaced (isHexDigit c) r

/-- Whether a text is formed like a decimal integer without a sign: digits that do not start with a
needless zero, and nothing more or, from an underscore on, what holds no space and makes up no
float. -/
def isDecimalForm (s : List Char) : Bool :=
  let rest := s.dropWhile Char.isDigit
  match s with
  | '0' :: r => r.isEmpty
  | c :: _ =>
    c.isDigit && isSpaced false s && !rest.any (fun c => c = ' ' || c = '.' || isExponentMark c) &&
      match rest with
      | [] => true
      | c :: _ => c = '_'
  | [] => false

/-- The digits behind the mark of a base. There need not be any. -/
def based? (base : Nat) (s : List Char) : Option (Option Int) :=
  if s.isEmpty then some none
  else (digits? base (digitBelow? base) s).map fun n => some (Int.ofNat n)

/-- The value of what is formed like an integer: decimal with or without a sign, or in base 16, 8 or
2 behind `0x`, `0o`, `0b`. -/
def integer? : List Char → Option (Option Int)
  | '0' :: 'x' :: r => based? 16 r
  | '0' :: 'o' :: r => based? 8 r
  | '0' :: 'b' :: r => based? 2 r
  | s =>
    if isDecimalForm (sign s).2 then
      some ((decimal? (sign s).2).map fun n => (sign s).1 * n)
    else none

/-- A float: an integer with a fraction, an exponent, or both; or one of the words `inf` and `nan`.
Its sign may stand in front. -/
def float? (s : List Char) : Option (Option Decimal) :=
  let body := (sign s).2
  if body = "inf".toList ∨ body = "nan".toList then some none
  else
    let mantissa := body.takeWhile (!isExponentMark ·)
    let whole := mantissa.takeWhile (· ≠ '.')
    match body.dropWhile (!isExponentMark ·), mantissa.dropWhile (· ≠ '.') with
    | [], [] => none
    | mark, point => do
      let n ← canonical? whole
      let exponent ← match mark with
        | [] => some 0
        | _ :: written => (decimal? (sign written).2).map fun e => (sign written).1 * e
      match point with
      | [] => some (some ⟨n, exponent⟩)
      | _ :: fraction =>
        let m ← decimal? fraction
        let places := (fraction.filter (· ≠ '_')).length
        some (some ⟨n * Nat.pow 10 places + m, exponent - places⟩)

/-! ## Dates and times -/

/-- The value of exactly two digits. -/
def twoDigits? : List Char → Option Nat
  | [a, b] => if a.isDigit && b.isDigit then decimal? [a, b] else none
  | _ => none

/-- Whether a year has a leap day. -/
def isLeapYear (year : Nat) : Bool := year % 4 = 0 && (year % 100 ≠ 0 || year % 400 = 0)

/-- The number of days in a month. -/
def daysIn (year month : Nat) : Nat :=
  if month = 2 then if isLeapYear year then 29 else 28
  else if month ∈ [4, 6, 9, 11] then 30
  else 31

/-- Whether a text is a date, such as `1979-05-27`. -/
def isDate (s : List Char) : Bool :=
  match s with
  | [a, b, c, d, '-', e, f, '-', g, h] =>
    match twoDigits? [a, b], twoDigits? [c, d], twoDigits? [e, f], twoDigits? [g, h] with
    | some century, some year, some month, some day =>
      1 ≤ month && month ≤ 12 && 1 ≤ day && day ≤ daysIn (100 * century + year) month
    | _, _, _, _ => false
  | _ => false

/-- Whether two digits give a number up to the given one. -/
def isUpTo (limit : Nat) (s : List Char) : Bool :=
  match twoDigits? s with
  | some n => n ≤ limit
  | none => false

/-- Whether a text is a time, such as `07:32:00` or `07:32:00.999`. A leap second is a time. -/
def isTime (s : List Char) : Bool :=
  match s with
  | a :: b :: ':' :: c :: d :: ':' :: e :: f :: fraction =>
    isUpTo 23 [a, b] && isUpTo 59 [c, d] && isUpTo 60 [e, f] &&
      match fraction with
      | [] => true
      | '.' :: digits => !digits.isEmpty && digits.all Char.isDigit
      | _ => false
  | _ => false

/-- Whether a text is an offset from universal time, such as `Z` or `+01:00`. -/
def isOffset (s : List Char) : Bool :=
  match s with
  | [c] => c = 'Z' || c = 'z'
  | [sign, a, b, ':', c, d] =>
    (sign = '+' || sign = '-') && isUpTo 23 [a, b] && isUpTo 59 [c, d]
  | _ => false

/-- Whether a character can start an offset. -/
def isOffsetStart (c : Char) : Bool := c ∈ ['Z', 'z', '+', '-']

/-- Whether a text is a time, with an offset or without. -/
def isTimeWithOffset (s : List Char) : Bool :=
  let offset := s.dropWhile (!isOffsetStart ·)
  isTime (s.takeWhile (!isOffsetStart ·)) && (offset.isEmpty || isOffset offset)

/-- Whether a text is a date, a time, or a date and a time with an offset or without. -/
def isDateTime (s : List Char) : Bool :=
  isDate s || isTime s ||
    match s.drop 10 with
    | mark :: time =>
      isDate (s.take 10) && (mark = 'T' || mark = 't' || mark = ' ') && isTimeWithOffset time
    | [] => false

/-! ## Words -/

/-- Whether a character can be part of a word: all but white space, the start of a comment, and what
parts keys, values, arrays and tables from each other. -/
def isWordPart (c : Char) : Bool :=
  c ∉ [' ', '\t', '\r', '\n', '#', ',', '=', '[', ']', '\x7b', '\x7d']

/-- Reads the first character of what goes on with a word behind spaces. A quote starts a string
there. -/
def readWordStart? : (s : List Char) → Option (Char × Shorter s)
  | [] => none
  | c :: r => if isWordPart c && c ≠ '"' && c ≠ '\'' then some (c, .tail c r) else none

/-- The word at the front of the text, and what remains behind it. A word goes on behind spaces and
tabs as long as more of it follows, as a time does behind a date. -/
def splitWord (s : List Char) : List Char × Remainder s :=
  let start := s.takeWhile isWordPart
  let rest := Remainder.dropWhile isWordPart s
  let gap := rest.trans (skipSpaces rest.val)
  match readWordStart? gap.val with
  | none => (start, rest)
  | some (c, r) =>
    let read := gap.further r
    let more := splitWord read.val
    (start ++ rest.val.takeWhile isSpace ++ c :: more.1, read.toRemainder.trans more.2)
termination_by s.length
decreasing_by exact read.property

/-- The value that a word is. -/
def Value.ofWord? (s : List Char) : Option Value :=
  if s = "true".toList then some (.boolean true)
  else if s = "false".toList then some (.boolean false)
  else if isDateTime s then some .dateTime
  else match integer? s with
    | some n => some (.integer n)
    | none => (float? s).map .float

/-! ## Sizes -/

/-- The number of decimal digits of a number; none for zero. -/
def digitCount (n : Nat) : Nat := if n = 0 then 0 else (Nat.toDigits 10 n).length

/-- The least number that rounds to no finite number of 64 bits. -/
def floatLimit : Nat := Nat.pow 2 1024 - Nat.pow 2 970

/-- Whether a number rounds to a finite one of 64 bits. The numbers of digits settle all cases but
those near the limit, which is between `10 ^ 308` and `10 ^ 309`. -/
def Decimal.isFinite (d : Decimal) : Bool :=
  let size := digitCount d.significand + d.exponent
  if d.significand = 0 ∨ size ≤ 308 then true
  else if 309 < size then false
  else if 0 ≤ d.exponent then d.significand * Nat.pow 10 d.exponent.toNat < floatLimit
  else d.significand < floatLimit * Nat.pow 10 (-d.exponent).toNat

/-- Whether an integer fits into 128 bits, with or without a sign. -/
def isWide (n : Int) : Bool := -Int.ofNat (Nat.pow 2 127) ≤ n && n < Int.ofNat (Nat.pow 2 128)

end ContentModels.Toml
