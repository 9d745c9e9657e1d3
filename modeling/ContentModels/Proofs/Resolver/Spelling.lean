import ContentModels.TypeRef.Basic

/-!
# How code spells a type

A `Spelling` is a type as code writes it: a name with generic arguments, or an array. Its text is
uniquely readable as long as the names hold none of the characters that set off arguments and arrays
(`Spelling.text_injective`).

The proof reads two texts from the left at once, with whatever follows them. Brackets are written
behind the element, so a reader only learns how many arrays a spelling is made of when it comes to
something else: up to that point, two texts agree in the element and in what is left of the brackets
(`Spelling.agree_of_text_append`).
-/

namespace ContentModels

/-- A type as code spells it. -/
inductive Spelling where
  /-- A name with its generic arguments. -/
  | name (head : String) (args : List Spelling)
  /-- An array of one dimension. -/
  | array (element : Spelling)

/-- Whether the character sets off the arguments of a type, or an array. -/
def isDelimiter (c : Char) : Bool := c = '<' || c = '>' || c = ',' || c = '['

/-- The text holds no character that sets off arguments or arrays. -/
def Undelimited (s : String) : Prop := ∀ c ∈ s.toList, isDelimiter c = false

/-- Two texts that go on to the same end agree where both end in front of the first separator, or
with nothing left. -/
theorem append_inj_of_separator {separates : Char → Bool} {l l' rest rest' : List Char}
    (hl : ∀ c ∈ l, separates c = false) (hl' : ∀ c ∈ l', separates c = false)
    (hrest : ∀ c ∈ rest.head?, separates c = true) (hrest' : ∀ c ∈ rest'.head?, separates c = true)
    (h : l ++ rest = l' ++ rest') : l = l' ∧ rest = rest' := by
  induction l generalizing l' with
  | nil =>
    cases l' with
    | nil => exact ⟨rfl, h⟩
    | cons c l' =>
      have hc : separates c = true := hrest c (by rw [show rest = _ from h]; rfl)
      rw [hl' c List.mem_cons_self] at hc
      cases hc
  | cons c l ih =>
    cases l' with
    | nil =>
      have hc : separates c = true := hrest' c (by rw [show rest' = _ from h.symm]; rfl)
      rw [hl c List.mem_cons_self] at hc
      cases hc
    | cons c' l' =>
      obtain ⟨rfl, htail⟩ := List.cons.inj h
      obtain ⟨rfl, hrests⟩ := ih (fun d hd => hl d (List.mem_cons_of_mem c hd))
        (fun d hd => hl' d (List.mem_cons_of_mem c hd)) htail
      exact ⟨rfl, hrests⟩

namespace Spelling

mutual

/-- The text of a spelling. -/
def text : Spelling → String
  | .name head args => head ++ TypeRef.argumentList (texts args)
  | .array element => element.text ++ "[]"

/-- The texts of several spellings. -/
def texts : List Spelling → List String
  | [] => []
  | e :: es => e.text :: texts es

end

mutual

/-- The names of the spelling, those in generic arguments included, are undelimited. -/
def Readable : Spelling → Prop
  | .name head args => Undelimited head ∧ ReadableAll args
  | .array element => element.Readable

/-- The names of several spellings are undelimited. -/
def ReadableAll : List Spelling → Prop
  | [] => True
  | e :: es => e.Readable ∧ ReadableAll es

end

/-- The array of arrays, of the given number of dimensions, with the given elements. -/
def arrays : Nat → Spelling → Spelling
  | 0, e => e
  | n + 1, e => .array (arrays n e)

/-- The brackets of that many arrays. -/
def brackets : Nat → List Char
  | 0 => []
  | n + 1 => '[' :: ']' :: brackets n

/-- What stands behind the name of a type with arguments, each argument with the comma before it,
the end of the list included. -/
def closing : List Spelling → List Char
  | [] => ['>']
  | e :: es => ',' :: ' ' :: (e.text.toList ++ closing es)

/-! ## Texts as lists of characters -/

/-- One more pair of brackets can be written before the others as well. -/
theorem brackets_append (n : Nat) : brackets n ++ ['[', ']'] = brackets (n + 1) := by
  induction n with
  | zero => rfl
  | succ n ih => exact congrArg (fun l => '[' :: ']' :: l) ih

/-- Behind an argument stand the other ones and the end of the list. -/
theorem toList_intercalate_texts (e : Spelling) (es : List Spelling) :
    (", ".intercalate (texts (e :: es))).toList ++ ['>'] = e.text.toList ++ closing es := by
  induction es generalizing e with
  | nil => simp [texts, closing]
  | cons f es ih =>
    have hrest := ih f
    unfold texts at hrest ⊢
    unfold texts
    rw [String.intercalate_cons_cons, String.toList_append, String.toList_append, List.append_assoc,
      hrest, closing, List.append_assoc]
    rfl

/-- The text of a name without arguments. -/
theorem toList_text_name (head : String) : (name head []).text.toList = head.toList := by
  simp [text, texts, TypeRef.argumentList]

/-- The text of a name with arguments: the first comma gives way to the angle bracket. -/
theorem toList_text_name_cons (head : String) (e : Spelling) (es : List Spelling) :
    (name head (e :: es)).text.toList = head.toList ++ '<' :: (e.text.toList ++ closing es) := by
  have hlist : TypeRef.argumentList (texts (e :: es)) =
      "<" ++ ", ".intercalate (texts (e :: es)) ++ ">" := rfl
  rw [← toList_intercalate_texts, text, hlist]
  simp

/-- The text of an array. -/
theorem toList_text_array (e : Spelling) : (array e).text.toList = e.text.toList ++ ['[', ']'] := by
  simp [text]

/-! ## Unique readability -/

/-- What may stand behind a spelling inside of another one: nothing, the next argument, the end of
the arguments, or the brackets of an array. -/
def Stops (rest : List Char) : Prop :=
  ∀ c ∈ rest.head?, c = '>' ∨ c = ',' ∨ c = '['

/-- What may stand behind a spelling and all the brackets that belong to it. -/
def Closes (rest : List Char) : Prop := ∀ c ∈ rest.head?, c = '>' ∨ c = ','

/-- Nothing is more for arguments to end than to be done with the brackets. -/
theorem Closes.stops {rest : List Char} (h : Closes rest) : Stops rest :=
  fun c hc => (h c hc).imp_right .inl

/-- Behind an argument, its brackets are done with. -/
theorem closes_closing (es : List Spelling) (rest : List Char) : Closes (closing es ++ rest) := by
  intro c hc
  cases es <;> simp_all [closing, eq_comm]

/-- Brackets agree in their number if no bracket follows. -/
theorem brackets_append_inj {n n' : Nat} {rest rest' : List Char} (hrest : Closes rest)
    (hrest' : Closes rest') (h : brackets n ++ rest = brackets n' ++ rest') :
    n = n' ∧ rest = rest' := by
  induction n generalizing n' with
  | zero =>
    cases n' with
    | zero => exact ⟨rfl, h⟩
    | succ n' =>
      have hbracket := hrest '[' (by rw [show rest = _ from h]; rfl)
      simp at hbracket
  | succ n ih =>
    cases n' with
    | zero =>
      have hbracket := hrest' '[' (by rw [show rest' = _ from h.symm]; rfl)
      simp at hbracket
    | succ n' =>
      obtain ⟨rfl, hrests⟩ := ih (List.cons.inj (List.cons.inj h).2).2
      exact ⟨rfl, hrests⟩

/-- What may stand behind a spelling is set off from a name. -/
theorem Stops.isDelimiter {rest : List Char} (h : Stops rest) :
    ∀ c ∈ rest.head?, isDelimiter c = true := by
  intro c hc
  rcases h c hc with rfl | rfl | rfl <;> rfl

/-- No arguments follow what is complete. -/
theorem Stops.ne_cons_lt {rest : List Char} (h : Stops rest) (l : List Char) : rest ≠ '<' :: l := by
  rintro rfl
  have hbracket := h '<' rfl
  simp at hbracket

/-- Brackets may stand behind a spelling. -/
theorem stops_brackets_append (n : Nat) {rest : List Char} (h : Stops rest) :
    Stops (brackets n ++ rest) := by
  cases n with
  | zero => exact h
  | succ n =>
    intro c hc
    obtain rfl : '[' = c := by simpa [brackets] using hc
    exact .inr (.inr rfl)

/-- Every spelling is a name, or the array of arrays of one. -/
theorem exists_arrays (e : Spelling) : ∃ n head args, e = arrays n (name head args) := by
  cases e with
  | name head args => exact ⟨0, head, args, rfl⟩
  | array e =>
    obtain ⟨n, head, args, rfl⟩ := e.exists_arrays
    exact ⟨n + 1, head, args, rfl⟩

/-- The text of an array of arrays. -/
theorem toList_text_arrays (n : Nat) (e : Spelling) :
    (arrays n e).text.toList = e.text.toList ++ brackets n := by
  induction n with
  | zero => simp [arrays, brackets]
  | succ n ih => rw [arrays, toList_text_array, ih, List.append_assoc, brackets_append]

/-- Arrays add no names. -/
theorem readable_arrays {n : Nat} {e : Spelling} : (arrays n e).Readable ↔ e.Readable := by
  induction n with
  | zero => rfl
  | succ n ih => rw [arrays, Readable, ih]

/-- Where the texts of two names with arguments go on to the same end, the names agree, if argument
lists do that are written alike. -/
theorem name_append_inj {head head' : String} {args args' : List Spelling} {rest rest' : List Char}
    (hhead : Undelimited head) (hhead' : Undelimited head') (hrest : Stops rest)
    (hrest' : Stops rest')
    (hargs : ∀ {r r' : List Char}, closing args ++ r = closing args' ++ r' → args = args' ∧ r = r')
    (h : (name head args).text.toList ++ rest = (name head' args').text.toList ++ rest') :
    name head args = name head' args' ∧ rest = rest' := by
  have hbracket : ∀ (l : List Char), ∀ c ∈ ('<' :: l).head?, isDelimiter c = true := by
    intro l c hc
    obtain rfl : '<' = c := Option.some.inj hc
    rfl
  -- Either both names have arguments, or neither has.
  cases args with
  | nil =>
    rw [toList_text_name] at h
    cases args' with
    | nil =>
      rw [toList_text_name] at h
      obtain ⟨heads, hend⟩ :=
        append_inj_of_separator hhead hhead' hrest.isDelimiter hrest'.isDelimiter h
      rw [String.toList_injective heads]
      exact ⟨rfl, hend⟩
    | cons f fs =>
      rw [toList_text_name_cons, List.append_assoc] at h
      obtain ⟨-, hend⟩ :=
        append_inj_of_separator hhead hhead' hrest.isDelimiter (hbracket _) h
      exact absurd hend (hrest.ne_cons_lt _)
  | cons e es =>
    rw [toList_text_name_cons, List.append_assoc] at h
    cases args' with
    | nil =>
      rw [toList_text_name] at h
      obtain ⟨-, hend⟩ :=
        append_inj_of_separator hhead hhead' (hbracket _) hrest'.isDelimiter h
      exact absurd hend.symm (hrest'.ne_cons_lt _)
    | cons f fs =>
      rw [toList_text_name_cons, List.append_assoc] at h
      obtain ⟨heads, hlists⟩ :=
        append_inj_of_separator hhead hhead' (hbracket _) (hbracket _) h
      have hclosing : closing (e :: es) ++ rest = closing (f :: fs) ++ rest' :=
        congrArg (fun l => ',' :: ' ' :: l) (List.cons.inj hlists).2
      obtain ⟨hsame, hend⟩ := hargs hclosing
      rw [String.toList_injective heads, hsame]
      exact ⟨rfl, hend⟩

mutual

/-- Where the texts of two spellings go on to the same end, the spellings agree but for the brackets
at their ends, and so does what follows. -/
theorem agree_of_text_append : ∀ (e e' : Spelling) {rest rest' : List Char},
    e.Readable → e'.Readable → Stops rest → Stops rest' →
    e.text.toList ++ rest = e'.text.toList ++ rest' →
    ∃ n n' core, e = arrays n core ∧ e' = arrays n' core ∧
      brackets n ++ rest = brackets n' ++ rest'
  | .array e, e', rest, rest', he, he', hrest, hrest', h => by
    -- The brackets of the array become part of what follows the element.
    have hmore : Stops ('[' :: ']' :: rest) := stops_brackets_append 1 hrest
    rw [toList_text_array, List.append_assoc] at h
    obtain ⟨n, n', core, rfl, rfl, hend⟩ := agree_of_text_append e e' he he' hmore hrest' h
    refine ⟨n + 1, n', core, rfl, rfl, ?_⟩
    rw [← brackets_append, List.append_assoc]
    exact hend
  | .name head args, e', rest, rest', he, he', hrest, hrest', h => by
    obtain ⟨n', head', args', rfl⟩ := e'.exists_arrays
    have hname := readable_arrays.1 he'
    rw [toList_text_arrays, List.append_assoc] at h
    have hmore : Stops (brackets n' ++ rest') := stops_brackets_append n' hrest'
    obtain ⟨hsame, hend⟩ := name_append_inj he.1 hname.1 hrest hmore
      (fun hclosing => closing_append_inj args args' he.2 hname.2 hclosing) h
    exact ⟨0, n', name head args, rfl, by rw [hsame], hend⟩

/-- Where the rests of two argument lists go on to the same end, they hold the same arguments. -/
theorem closing_append_inj : ∀ (es es' : List Spelling) {rest rest' : List Char},
    ReadableAll es → ReadableAll es' → closing es ++ rest = closing es' ++ rest' →
    es = es' ∧ rest = rest'
  | [], [], _, _, _, _, h => ⟨rfl, (List.cons.inj h).2⟩
  | [], _ :: _, _, _, _, _, h => by simp [closing] at h
  | _ :: _, [], _, _, _, _, h => by simp [closing] at h
  | e :: es, e' :: es', rest, rest', he, he', h => by
    have htexts : e.text.toList ++ (closing es ++ rest) =
        e'.text.toList ++ (closing es' ++ rest') := by
      simpa [closing] using h
    have hclose := closes_closing es rest
    have hclose' := closes_closing es' rest'
    obtain ⟨n, n', core, hcore, hcore', hends⟩ :=
      agree_of_text_append e e' he.1 he'.1 hclose.stops hclose'.stops htexts
    -- No bracket can follow an argument, so that all of them are read.
    obtain ⟨rfl, hclosing⟩ := brackets_append_inj hclose hclose' hends
    obtain ⟨rfl, hend⟩ := closing_append_inj es es' he.2 he'.2 hclosing
    exact ⟨by rw [hcore, hcore'], hend⟩

end

/-- A text is that of one readable spelling. -/
theorem text_injective {e e' : Spelling} (he : e.Readable) (he' : e'.Readable)
    (h : e.text = e'.text) : e = e' := by
  have hnone : Closes [] := by simp [Closes]
  obtain ⟨n, n', core, rfl, rfl, hend⟩ :=
    agree_of_text_append e e' he he' hnone.stops hnone.stops (by rw [h])
  obtain ⟨rfl, -⟩ := brackets_append_inj hnone hnone hend
  rfl

end Spelling

end ContentModels
