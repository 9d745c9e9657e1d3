import ContentModels.TypeRef.Reader

/-!
# Parsers in contexts

A parser takes a text and comes to a value or to a failure, and a failure is told by the contexts in
which it lies, innermost first: each names a construct and where it begins. What is tried and fails
is taken back, and something else is done in its place, unless the failure is final; a cut makes it
final. A failure in no context does not tell anything.

The readers of `TypeRef.Reader` look ahead instead, and tell each misreading where they come to it.
With the parsers here, the same grammar can be put together from its parts alone.
-/

namespace ContentModels

/-- A construct in which a parser is: the mistake that is told of it if it fails, and the text from
where it begins. -/
structure Context where
  mistake : Mistake
  opened : List Char

/-- What a parser comes to, with what remains of the text. -/
inductive Outcome (α : Type) where
  /-- A value. -/
  | value (a : α) (rest : List Char)
  /-- A failure, which may be final, and the contexts in which it lies, innermost first. -/
  | failure (isFinal : Bool) (contexts : List Context) (rest : List Char)

/-- A parser takes a text. -/
def Parser (α : Type) := List Char → Outcome α

namespace Parser

variable {α β : Type}

instance : Monad Parser where
  pure a := fun s => .value a s
  bind p f := fun s =>
    match p s with
    | .value a rest => f a rest
    | .failure isFinal contexts rest => .failure isFinal contexts rest

variable {p : Parser α} {a : α} {s rest : List Char} {isFinal : Bool} {contexts : List Context}

/-- Behind a value, what comes next goes on with what remains. -/
theorem bind_of_value {f : α → Parser β} (h : p s = .value a rest) : (p >>= f) s = f a rest := by
  show (match p s with
    | .value a rest => f a rest
    | .failure isFinal contexts rest => .failure isFinal contexts rest) = f a rest
  rw [h]

/-- Behind a failure, nothing comes next. -/
theorem bind_of_failure {f : α → Parser β} (h : p s = .failure isFinal contexts rest) :
    (p >>= f) s = .failure isFinal contexts rest := by
  show (match p s with
    | .value a rest => f a rest
    | .failure isFinal contexts rest => .failure isFinal contexts rest) =
      .failure isFinal contexts rest
  rw [h]

/-- What comes next goes by what comes before. -/
theorem bind_congr_at {q : Parser α} {f : α → Parser β} (h : p s = q rest) :
    (p >>= f) s = (q >>= f) rest := by
  cases hq : q rest with
  | value a rest' => rw [bind_of_value (h.trans hq), bind_of_value hq]
  | failure isFinal contexts rest' => rw [bind_of_failure (h.trans hq), bind_of_failure hq]

instance : LawfulMonad Parser :=
  .mk' Parser (fun p => funext fun s => by
      simp only [Functor.map]
      cases p s <;> rfl)
    (fun _ _ => rfl)
    (fun p f g => funext fun s => by
      simp only [bind]
      cases p s <;> rfl)

/-! ## Characters -/

/-- What remains of the text. -/
def remaining : Parser (List Char) := fun s => .value s s

/-- What remains of the text is at hand. -/
theorem remaining_bind (f : List Char → Parser α) (s : List Char) :
    (remaining >>= f) s = f s s := rfl

/-- Takes a character of the class. -/
def satisfying (p : Char → Bool) : Parser Char
  | [] => .failure false [] []
  | c :: s => if p c then .value c s else .failure false [] (c :: s)

/-- Takes exactly the given text. -/
def exactly (l : List Char) : Parser Unit := fun s =>
  if l.isPrefixOf s then .value () (s.drop l.length) else .failure false [] s

/-- A character that stands in front is taken. -/
theorem exactly_cons (c : Char) (s : List Char) : exactly [c] (c :: s) = .value () s := by
  simp [exactly]

/-- A character that does not stand in front is not taken. -/
theorem exactly_of_notMem {c : Char} (h : c ∉ s.head?) : exactly [c] s = .failure false [] s := by
  cases s with
  | nil => rfl
  | cons d s =>
    have hne : c ≠ d := fun heq => h (heq ▸ rfl)
    simp [exactly, hne]

/-- Takes the characters of the class that stand in front. -/
def run (p : Char → Bool) : Parser (List Char) := fun s => .value (s.takeWhile p) (s.dropWhile p)

/-- Takes the characters of the class that stand in front, at least one. -/
def run₁ (p : Char → Bool) : Parser (List Char) := fun s =>
  if (s.takeWhile p).isEmpty then .failure false [] s else run p s

/-! ## Failures -/

/-- Makes failures final. -/
def cut (p : Parser α) : Parser α := fun s =>
  match p s with
  | .value a rest => .value a rest
  | .failure _ contexts rest => .failure true contexts rest

/-- A cut keeps values. -/
theorem cut_of_value (h : p s = .value a rest) : cut p s = .value a rest := by
  rw [cut, h]

/-- A cut makes a failure final. -/
theorem cut_of_failure (h : p s = .failure isFinal contexts rest) :
    cut p s = .failure true contexts rest := by
  rw [cut, h]

/-- Puts failures into the context, around those in which they lie. -/
def within (context : Context) (p : Parser α) : Parser α := fun s =>
  match p s with
  | .value a rest => .value a rest
  | .failure isFinal contexts rest => .failure isFinal (contexts ++ [context]) rest

/-- A context keeps values. -/
theorem within_of_value {context : Context} (h : p s = .value a rest) :
    within context p s = .value a rest := by
  rw [within, h]

/-- A failure lies in a context as well as in those before. -/
theorem within_of_failure {context : Context} (h : p s = .failure isFinal contexts rest) :
    within context p s = .failure isFinal (contexts ++ [context]) rest := by
  rw [within, h]

/-- Takes back a failure, for nothing in its place. -/
def optional (p : Parser α) : Parser (Option α) := fun s =>
  match p s with
  | .value a rest => .value (some a) rest
  | .failure false _ _ => .value none s
  | .failure true contexts rest => .failure true contexts rest

/-- What is optional gives a value that is there. -/
theorem optional_of_value (h : p s = .value a rest) : optional p s = .value (some a) rest := by
  rw [optional, h]

/-- What is optional need not be there. -/
theorem optional_of_failure (h : p s = .failure false contexts rest) :
    optional p s = .value none s := by
  rw [optional, h]

/-- What is optional fails finally. -/
theorem optional_of_final (h : p s = .failure true contexts rest) :
    optional p s = .failure true contexts rest := by
  rw [optional, h]

/-- Takes back a failure of the first parser, for the second one in its place. -/
def either (p q : Parser α) : Parser α := fun s =>
  match p s with
  | .value a rest => .value a rest
  | .failure false _ _ => q s
  | .failure true contexts rest => .failure true contexts rest

/-- The first parser gives its values. -/
theorem either_of_value {q : Parser α} (h : p s = .value a rest) :
    either p q s = .value a rest := by
  rw [either, h]

/-- The second parser comes in the place of a failure of the first. -/
theorem either_of_failure {q : Parser α} (h : p s = .failure false contexts rest) :
    either p q s = q s := by
  rw [either, h]

/-- A final failure of the first parser leaves no place for the second. -/
theorem either_of_final {q : Parser α} (h : p s = .failure true contexts rest) :
    either p q s = .failure true contexts rest := by
  rw [either, h]

/-- Goes on with what the function makes of the value; without, it is a failure from the start. -/
def mapWhere (f : α → Option β) (p : Parser α) : Parser β := fun s =>
  match p s with
  | .value a rest =>
    match f a with
    | some b => .value b rest
    | none => .failure false [] s
  | .failure isFinal contexts rest => .failure isFinal contexts rest

/-- Repeats the parser until it fails, and takes that failure back. -/
def repeated (p : Parser α) : Parser (List α) := fun s =>
  match p s with
  | .value a rest =>
    -- A parser that takes nothing would be repeated forever.
    if rest.length < s.length then
      match repeated p rest with
      | .value as rest' => .value (a :: as) rest'
      | .failure isFinal contexts rest' => .failure isFinal contexts rest'
    else .failure true [] s
  | .failure false _ _ => .value [] s
  | .failure true contexts rest => .failure true contexts rest
termination_by s => s.length

/-- A parser that fails is repeated no further. -/
theorem repeated_of_failure (h : p s = .failure false contexts rest) :
    repeated p s = .value [] s := by
  rw [repeated, h]

/-- A parser that fails finally is not repeated. -/
theorem repeated_of_final (h : p s = .failure true contexts rest) :
    repeated p s = .failure true contexts rest := by
  rw [repeated, h]

/-- A parser that takes something is repeated. -/
theorem repeated_of_value (h : p s = .value a rest) (hlt : rest.length < s.length) :
    repeated p s = (do return a :: (← repeated p)) rest := by
  rw [repeated, h]
  dsimp only
  rw [if_pos hlt]
  cases hrest : repeated p rest with
  | value as rest' =>
    rw [bind_of_value hrest]
    rfl
  | failure isFinal contexts rest' => rw [bind_of_failure hrest]

/-- Repeats the parser, at least once, with the separator in between. With a failure behind a
separator, the separator is taken back as well. -/
def separated (p : Parser α) (separator : Parser Unit) : Parser (List α) := do
  let a ← p
  let as ← repeated do
    separator
    p
  return a :: as

end Parser

end ContentModels
