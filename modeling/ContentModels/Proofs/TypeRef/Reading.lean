import ContentModels.Proofs.TypeRef.Grammar
import ContentModels.TypeRef.Reader

/-!
# What the readers of type references do

For each reader of `TypeRef.Reader`, one lemma says which value it gives and what it leaves, by what
the readers it is made of give and leave. The lemmas speak of the rest as a list of characters
(`TypeRef.Yields`), so the bounds on its length, which the readers carry in their types, are not
seen outside of this file.
-/

namespace ContentModels

/-! ## Characters and names -/

/-- Behind a run of characters of a class comes another character, or the end. -/
theorem head?_dropWhile_eq_false {p : Char → Bool} {l : List Char} :
    ∀ c ∈ (l.dropWhile p).head?, p c = false := by
  intro c hc
  have hhead := List.head?_dropWhile_not p l
  rw [Option.mem_def.1 hc] at hhead
  simpa using hhead

/-- A run of characters of a class goes as far as possible. -/
theorem takeWhile_dropWhile_append {p : Char → Bool} {l rest : List Char}
    (hl : ∀ c ∈ l, p c = true) (hrest : ∀ c ∈ rest.head?, p c = false) :
    (l ++ rest).takeWhile p = l ∧ (l ++ rest).dropWhile p = rest := by
  rw [List.takeWhile_append_of_pos hl, List.dropWhile_append_of_pos hl]
  cases rest with
  | nil => simp
  | cons c rest => simp [hrest c rfl]

/-- The given character is not read where another one stands in front, or none. -/
theorem next?_eq_none_iff {c : Char} {s : List Char} : next? c s = none ↔ c ∉ s.head? := by
  cases s with
  | nil => simp [next?]
  | cons d s => simp [next?, eq_comm]

/-- The given character is read where it stands in front. -/
theorem exists_next?_of_eq {c : Char} {s l : List Char} (h : s = c :: l) :
    ∃ r : Shorter s, next? c s = some r ∧ r.val = l := by
  subst h
  exact ⟨.tail c l, by simp [next?], rfl⟩

/-- A name is read where it is the longest identifier at the front. -/
theorem exists_readName?_iff {s rest : List Char} {name : String} :
    (∃ r : Shorter s, readName? s = some (name, r) ∧ r.val = rest) ↔
      IsIdentifier name ∧ s = name.toList ++ rest ∧ ∀ c ∈ rest.head?, isNamePart c = false := by
  unfold IsIdentifier
  constructor
  · rintro ⟨r, h, rfl⟩
    cases s with
    | nil => cases h
    | cons c l =>
      rw [readName?] at h
      split at h
      · rename_i hstart
        obtain ⟨rfl, rfl⟩ := Prod.mk.inj (Option.some.inj h)
        refine ⟨?_, ?_, head?_dropWhile_eq_false⟩
        · simp [isIdentifier, hstart]
        · simp [Remainder.cons, Remainder.dropWhile]
      · cases h
  · rintro ⟨hname, hs, hrest⟩
    cases hl : name.toList with
    | nil =>
      rw [hl] at hname
      cases hname
    | cons c l =>
      rw [hl] at hname hs
      subst hs
      unfold isIdentifier at hname
      rw [Bool.and_eq_true, List.all_eq_true] at hname
      obtain ⟨htake, hdrop⟩ := takeWhile_dropWhile_append hname.2 hrest
      refine ⟨(Remainder.dropWhile isNamePart (l ++ rest)).cons c, ?_, hdrop⟩
      show readName? (c :: (l ++ rest)) = _
      have htext : String.ofList (c :: l) = name := by rw [← hl, String.ofList_toList]
      rw [readName?, if_pos hname.1, htake, htext]

/-- Where an identifier stands in front, a name is read that goes at least as far. -/
theorem exists_readName?_of_eq {s rest : List Char} {name : String} (hname : IsIdentifier name)
    (hs : s = name.toList ++ rest) :
    ∃ (name' : String) (r : Shorter s), readName? s = some (name', r) ∧
      r.val.length ≤ rest.length := by
  subst hs
  unfold IsIdentifier at hname
  cases hl : name.toList with
  | nil =>
    rw [hl] at hname
    cases hname
  | cons c l =>
    rw [hl, isIdentifier, Bool.and_eq_true, List.all_eq_true] at hname
    refine ⟨_, _, if_pos hname.1, ?_⟩
    show ((l ++ rest).dropWhile isNamePart).length ≤ rest.length
    rw [List.dropWhile_append_of_pos hname.2]
    exact length_dropWhile_le isNamePart rest

/-- Where an identifier stands in front, a name starts. -/
theorem startsName_append {name : String} (h : IsIdentifier name) (rest : List Char) :
    startsName (name.toList ++ rest) = true := by
  unfold IsIdentifier at h
  cases hl : name.toList with
  | nil =>
    rw [hl] at h
    cases h
  | cons c l =>
    rw [hl] at h
    exact (Bool.and_eq_true_iff.1 h).1

/-- The name of an item type is recognised in letters of any case. -/
theorem ItemType.ofName?_eq_some_iff {word : String} {kind : ItemType} :
    ofName? word = some kind ↔
      word.toList.map Char.toLower = kind.name.toList.map Char.toLower := by
  have hletters : ∀ k : ItemType, sameLetters k.name word = true ↔
      word.toList.map Char.toLower = k.name.toList.map Char.toLower := by
    intro k
    rw [sameLetters, beq_iff_eq, eq_comm]
  have hdistinct : ∀ k k' : ItemType,
      k.name.toList.map Char.toLower = k'.name.toList.map Char.toLower → k = k' := by
    intro k k'
    cases k <;> cases k' <;> decide
  have hfound : ∀ k, ofName? word = some k → sameLetters k.name word = true := by
    intro k hk
    have hk : all.find? (fun k => sameLetters k.name word) = some k := hk
    have hletters := List.find?_some hk
    exact hletters
  constructor
  · intro h
    exact (hletters kind).1 (hfound kind h)
  · intro h
    have hmem : kind ∈ all := by cases kind <;> decide
    cases hfind : ofName? word with
    | none => exact absurd ((hletters kind).2 h) (List.find?_eq_none.1 hfind kind hmem)
    | some k => rw [hdistinct k kind (((hletters k).1 (hfound k hfind)).symm.trans h)]

namespace TypeRef

/-! ## Blanks and values -/

/-- The text in front of what remains behind blanks is blank. -/
theorem exists_blanks (s : List Char) :
    ∃ blanks, IsBlankRun blanks ∧ s = blanks ++ (skipBlanks s).val :=
  ⟨s.takeWhile isBlank, fun c hc => List.all_eq_true.1 List.all_takeWhile c hc,
    List.takeWhile_append_dropWhile.symm⟩

/-- Behind skipped blanks, no blank stands. -/
theorem isBlank_head?_skipBlanks (s : List Char) :
    ∀ c ∈ (skipBlanks s).val.head?, isBlank c = false :=
  head?_dropWhile_eq_false

/-- Blanks are skipped up to what follows them. -/
theorem skipBlanks_append {blanks rest : List Char} (hblanks : IsBlankRun blanks)
    (hrest : ∀ c ∈ rest.head?, isBlank c = false) : (skipBlanks (blanks ++ rest)).val = rest :=
  (takeWhile_dropWhile_append hblanks hrest).2

/-- The reader gives the value, and the rest remains. -/
def Yields {α : Type} {p : List Char → Prop} (x : Except Misreading (α × Subtype p)) (a : α)
    (rest : List Char) : Prop :=
  ∃ r : Subtype p, x = .ok (a, r) ∧ r.val = rest

/-- The rest is as short as the reader promises. -/
theorem Yields.rest_bound {α : Type} {p : List Char → Prop}
    {x : Except Misreading (α × Subtype p)} {a : α} {rest : List Char} (h : Yields x a rest) :
    p rest := by
  obtain ⟨r, -, rfl⟩ := h
  exact r.property

/-- A reader that succeeds gives its value and leaves its rest. -/
theorem yields_ok_iff {α : Type} {p : List Char → Prop} {a b : α} {r : Subtype p}
    {rest : List Char} : Yields (.ok (a, r)) b rest ↔ a = b ∧ r.val = rest := by
  constructor
  · rintro ⟨r', heq, hrest⟩
    obtain ⟨rfl, rfl⟩ := Prod.mk.inj (Except.ok.inj heq)
    exact ⟨rfl, hrest⟩
  · rintro ⟨rfl, hrest⟩
    exact ⟨r, rfl, hrest⟩

/-- A reader that fails gives no value. -/
theorem not_yields_error {α : Type} {p : List Char → Prop} {a : α} {m : Misreading}
    {rest : List Char} : ¬ Yields (p := p) (.error m) a rest := by
  simp [Yields]

/-! ## Names -/

/-- Names are read one by one, as long as the separator stands in front. -/
theorem yields_readNames_iff {separator : Char} {opened s rest : List Char} {names : List String} :
    Yields (readNames separator opened s) names rest ↔
      (names = [] ∧ rest = s ∧ separator ∉ s.head?) ∨
        ∃ name names' after, names = name :: names' ∧ IsIdentifier name ∧
          s = separator :: (name.toList ++ after) ∧ (∀ c ∈ after.head?, isNamePart c = false) ∧
          Yields (readNames separator opened after) names' rest := by
  rw [readNames]
  constructor
  · intro h
    split at h
    · rename_i hnext
      obtain ⟨rfl, rfl⟩ := yields_ok_iff.1 h
      exact .inl ⟨rfl, rfl, next?_eq_none_iff.1 hnext⟩
    · rename_i r hnext
      split at h
      · cases not_yields_error h
      · rename_i name r' hname
        dsimp only at h
        split at h
        · cases not_yields_error h
        · rename_i names' r'' hnames
          obtain ⟨rfl, rfl⟩ := yields_ok_iff.1 h
          obtain ⟨hident, hs, hstop⟩ := exists_readName?_iff.1 ⟨r', hname, rfl⟩
          refine .inr ⟨name, names', r'.val, rfl, hident, ?_, hstop, r'', hnames, rfl⟩
          rw [← hs]
          exact next?_eq_some.1 hnext
  · rintro (⟨rfl, rfl, hnext⟩ | ⟨name, names', after, rfl, hident, hs, hstop, hnames⟩)
    · rw [next?_eq_none_iff.2 hnext]
      exact yields_ok_iff.2 ⟨rfl, rfl⟩
    · obtain ⟨r, hnext, hr⟩ := exists_next?_of_eq hs
      obtain ⟨r', hname, hr'⟩ := exists_readName?_iff.2 ⟨hident, hr, hstop⟩
      have hval : (r.trans r'.toRemainder).val = after := hr'
      rw [← hval] at hnames
      obtain ⟨r'', hnames, hr''⟩ := hnames
      rw [hnext]
      dsimp only
      rw [hname]
      dsimp only
      rw [hnames]
      exact yields_ok_iff.2 ⟨rfl, hr''⟩

/-- In front of an unrooted text stands the mark of the root, if the text is rooted. -/
theorem eq_rootMark_append_unrooted (s : List Char) :
    s = (if isRooted s then rootMark else []) ++ (unrooted s).val := by
  unfold unrooted
  split
  · rename_i hrooted
    obtain ⟨l, rfl⟩ := List.isPrefixOf_iff_prefix.1 hrooted
    simp [Remainder.drop]
  · rfl

/-- The names of a type are the first one, those behind dots and those behind plus signs. -/
theorem yields_readHead_iff {s rest : List Char} {head : Head} :
    Yields (readHead s) head rest ↔
      head.rooted = isRooted s ∧ IsIdentifier head.first ∧
        ∃ after after', (unrooted s).val = head.first.toList ++ after ∧
          (∀ c ∈ after.head?, isNamePart c = false) ∧
          Yields (readNames '.' s after) head.dotted after' ∧
          Yields (readNames '+' s after') head.nested rest := by
  unfold readHead
  dsimp only
  constructor
  · intro h
    split at h
    · cases not_yields_error h
    · rename_i first r hname
      obtain ⟨hident, hs, hstop⟩ := exists_readName?_iff.1 ⟨r, hname, rfl⟩
      split at h
      · cases not_yields_error h
      · rename_i dotted r' hdotted
        split at h
        · cases not_yields_error h
        · rename_i nested r'' hnested
          obtain ⟨rfl, rfl⟩ := yields_ok_iff.1 h
          exact ⟨rfl, hident, r.val, r'.val, hs, hstop, ⟨r', hdotted, rfl⟩, r'', hnested, rfl⟩
  · obtain ⟨rooted, first, dotted, nested⟩ := head
    rintro ⟨rfl, hident, after, after', hs, hstop, hdotted, hnested⟩
    obtain ⟨r, hname, hr⟩ := exists_readName?_iff.2 ⟨hident, hs, hstop⟩
    rw [← hr] at hdotted
    obtain ⟨r', hdotted, hr'⟩ := hdotted
    rw [← hr'] at hnested
    obtain ⟨r'', hnested, hr''⟩ := hnested
    rw [hname]
    dsimp only
    rw [hdotted]
    dsimp only
    rw [hnested]
    exact yields_ok_iff.2 ⟨rfl, hr''⟩

/-! ## Placeholders and ranks -/

/-- A placeholder ends with a brace. -/
theorem yields_readBrace_iff {opened s rest : List Char} {target : Placeholder} {t : TypeRef} :
    Yields (readBrace opened target s) t rest ↔ t = .model target ∧ s = '}' :: rest := by
  unfold readBrace
  constructor
  · intro h
    split at h
    · cases not_yields_error h
    · rename_i r hnext
      obtain ⟨rfl, rfl⟩ := yields_ok_iff.1 h
      exact ⟨rfl, next?_eq_some.1 hnext⟩
  · rintro ⟨rfl, rfl⟩
    obtain ⟨r, hnext, hr⟩ := exists_next?_of_eq (c := '}') rfl
    rw [hnext]
    exact yields_ok_iff.2 ⟨rfl, hr⟩

/-- Behind its opening brace, a placeholder holds an alias and, behind a colon, the name of an item
type. -/
theorem yields_readPlaceholder_iff {opened s rest : List Char} {t : TypeRef} :
    Yields (readPlaceholder opened s) t rest ↔
      ∃ aliasName, IsAlias aliasName ∧
        ((t = .model ⟨aliasName, none⟩ ∧ s = aliasName.toList ++ '}' :: rest) ∨
          ∃ word kind, IsIdentifier word ∧
            word.toList.map Char.toLower = kind.name.toList.map Char.toLower ∧
            t = .model ⟨aliasName, some kind⟩ ∧
            s = aliasName.toList ++ ':' :: (word.toList ++ '}' :: rest)) := by
  unfold readPlaceholder
  dsimp only
  have hfront : s.takeWhile isNamePart ++ (Remainder.dropWhile isNamePart s).val = s :=
    List.takeWhile_append_dropWhile
  constructor
  · intro h
    split at h
    · cases not_yields_error h
    · rename_i hname
      have halias : IsAlias (String.ofList (s.takeWhile isNamePart)) := by
        unfold IsAlias
        rw [String.toList_ofList]
        exact ⟨by simpa using hname, fun c hc => List.all_eq_true.1 List.all_takeWhile c hc⟩
      refine ⟨_, halias, ?_⟩
      rw [String.toList_ofList]
      split at h
      · split at h
        · cases not_yields_error h
        · rename_i t' r hbrace
          obtain ⟨rfl, hrest⟩ := yields_ok_iff.1 h
          obtain ⟨rfl, hs⟩ := yields_readBrace_iff.1 ⟨r, hbrace, hrest⟩
          exact .inl ⟨rfl, by rw [← hs, hfront]⟩
      · rename_i r' hcolon
        split at h
        · cases not_yields_error h
        · rename_i word r'' hword
          split at h
          · cases not_yields_error h
          · rename_i kind hkind
            split at h
            · cases not_yields_error h
            · rename_i t' r hbrace
              obtain ⟨rfl, hrest⟩ := yields_ok_iff.1 h
              obtain ⟨rfl, hs⟩ := yields_readBrace_iff.1 ⟨r, hbrace, hrest⟩
              obtain ⟨hident, hs', -⟩ := exists_readName?_iff.1 ⟨r'', hword, rfl⟩
              refine .inr ⟨word, kind, hident, ItemType.ofName?_eq_some_iff.1 hkind, rfl, ?_⟩
              rw [← hs, ← hs', ← next?_eq_some.1 hcolon, hfront]
  · rintro ⟨aliasName, halias, h⟩
    have htext : String.ofList aliasName.toList = aliasName := String.ofList_toList
    have hname : aliasName.toList.isEmpty = false := by simpa using halias.1
    rcases h with ⟨rfl, hs⟩ | ⟨word, kind, hident, hkind, rfl, hs⟩
    · have hstop : ∀ c ∈ ('}' :: rest).head?, isNamePart c = false := by simp; decide
      obtain ⟨htake, hdrop⟩ := takeWhile_dropWhile_append halias.2 hstop
      rw [← hs] at htake hdrop
      have hval : (Remainder.dropWhile isNamePart s).val = '}' :: rest := hdrop
      have hbrace : Yields (readBrace opened ⟨aliasName, none⟩
          (Remainder.dropWhile isNamePart s).val) (.model ⟨aliasName, none⟩) rest :=
        yields_readBrace_iff.2 ⟨rfl, hval⟩
      obtain ⟨r, hbrace, hr⟩ := hbrace
      have hcolon : next? ':' (Remainder.dropWhile isNamePart s).val = none := by
        rw [next?_eq_none_iff, hval]
        simp
      rw [htake, if_neg (by simp [hname]), hcolon]
      dsimp only
      rw [htext, hbrace]
      exact yields_ok_iff.2 ⟨rfl, hr⟩
    · have hstop : ∀ c ∈ (':' :: (word.toList ++ '}' :: rest)).head?, isNamePart c = false := by
        simp; decide
      obtain ⟨htake, hdrop⟩ := takeWhile_dropWhile_append halias.2 hstop
      rw [← hs] at htake hdrop
      have hval : (Remainder.dropWhile isNamePart s).val = ':' :: (word.toList ++ '}' :: rest) :=
        hdrop
      obtain ⟨r', hcolon, hr'⟩ : ∃ r', next? ':' (Remainder.dropWhile isNamePart s).val = some r' ∧
          r'.val = word.toList ++ '}' :: rest := by
        exact exists_next?_of_eq hval
      have hend : ∀ c ∈ ('}' :: rest).head?, isNamePart c = false := by simp; decide
      obtain ⟨r'', hword, hr''⟩ := exists_readName?_iff.2 ⟨hident, hr', hend⟩
      have hbrace : Yields (readBrace opened ⟨aliasName, some kind⟩ r''.val)
          (.model ⟨aliasName, some kind⟩) rest := yields_readBrace_iff.2 ⟨rfl, hr''⟩
      obtain ⟨r, hbrace, hr⟩ := hbrace
      rw [htake, if_neg (by simp [hname]), hcolon]
      dsimp only
      rw [hword]
      dsimp only
      rw [ItemType.ofName?_eq_some_iff.2 hkind]
      dsimp only
      rw [htext, hbrace]
      exact yields_ok_iff.2 ⟨rfl, hr⟩

/-- Ranks are read one by one, as long as a bracket stands in front. -/
theorem yields_readRanks_iff {t t' : TypeRef} {s rest : List Char} :
    Yields (readRanks t s) t' rest ↔
      (t' = t ∧ rest = s ∧ '[' ∉ s.head?) ∨
        ∃ blanks after, IsBlankRun blanks ∧ s = '[' :: (blanks ++ ']' :: after) ∧
          Yields (readRanks (.array t) after) t' rest := by
  rw [readRanks]
  constructor
  · intro h
    split at h
    · rename_i hnext
      obtain ⟨rfl, rfl⟩ := yields_ok_iff.1 h
      exact .inl ⟨rfl, rfl, next?_eq_none_iff.1 hnext⟩
    · rename_i r hnext
      dsimp only at h
      split at h
      · cases not_yields_error h
      · rename_i r' hnext'
        split at h
        · cases not_yields_error h
        · rename_i t'' r'' hranks
          obtain ⟨rfl, hrest⟩ := yields_ok_iff.1 h
          obtain ⟨blanks, hblanks, hs⟩ := exists_blanks r.val
          refine .inr ⟨blanks, r'.val, hblanks, ?_, r'', hranks, hrest⟩
          rw [← next?_eq_some.1 hnext', ← hs]
          exact next?_eq_some.1 hnext
  · rintro (⟨rfl, rfl, hnext⟩ | ⟨blanks, after, hblanks, hs, hranks⟩)
    · rw [next?_eq_none_iff.2 hnext]
      exact yields_ok_iff.2 ⟨rfl, rfl⟩
    · obtain ⟨r, hnext, hr⟩ := exists_next?_of_eq hs
      have hinner : (skipBlanks r.val).val = ']' :: after := by
        rw [hr]
        exact skipBlanks_append hblanks (by simp; decide)
      obtain ⟨r', hnext', hr'⟩ : ∃ r', next? ']' (skipBlanks r.val).val = some r' ∧
          r'.val = after := by
        exact exists_next?_of_eq hinner
      have hval : (r.trans ((skipBlanks r.val).trans r'.toRemainder)).val = after := hr'
      rw [← hval] at hranks
      obtain ⟨r'', hranks, hr''⟩ := hranks
      rw [hnext]
      dsimp only
      rw [hnext']
      dsimp only
      rw [hranks]
      exact yields_ok_iff.2 ⟨rfl, hr''⟩

/-! ## Types -/

/-- A type is a placeholder or a named type, with the ranks behind it. -/
theorem yields_readType_iff {s rest : List Char} {t : TypeRef} :
    Yields (readType s) t rest ↔
      (∃ s' base after, s = '{' :: s' ∧ Yields (readPlaceholder s s') base after ∧
        Yields (readRanks base after) t rest) ∨
      '{' ∉ s.head? ∧ ∃ head after, Yields (readHead s) head after ∧
        ('<' ∉ after.head? ∧ Yields (readRanks (head.type []) after) t rest ∨
          ∃ after' args after'', after = '<' :: after' ∧
            Yields (readArguments after after') args after'' ∧
            Yields (readRanks (head.type args) after'') t rest) := by
  rw [readType]
  constructor
  · intro h
    split at h
    · rename_i r hnext
      split at h
      · cases not_yields_error h
      · rename_i base r' hbase
        split at h
        · cases not_yields_error h
        · rename_i t' r'' hranks
          obtain ⟨rfl, hrest⟩ := yields_ok_iff.1 h
          exact .inl ⟨r.val, base, r'.val, next?_eq_some.1 hnext, ⟨r', hbase, rfl⟩, r'', hranks,
            hrest⟩
    · rename_i hnext
      refine .inr ⟨next?_eq_none_iff.1 hnext, ?_⟩
      split at h
      · cases not_yields_error h
      · rename_i head r hhead
        refine ⟨head, r.val, ⟨r, hhead, rfl⟩, ?_⟩
        split at h
        · rename_i hnext'
          split at h
          · cases not_yields_error h
          · rename_i t' r' hranks
            obtain ⟨rfl, hrest⟩ := yields_ok_iff.1 h
            exact .inl ⟨next?_eq_none_iff.1 hnext', r', hranks, hrest⟩
        · rename_i r' hnext'
          dsimp only at h
          split at h
          · cases not_yields_error h
          · rename_i args r'' hargs
            split at h
            · cases not_yields_error h
            · rename_i t' r''' hranks
              obtain ⟨rfl, hrest⟩ := yields_ok_iff.1 h
              exact .inr ⟨r'.val, args, r''.val, next?_eq_some.1 hnext', ⟨r'', hargs, rfl⟩, r''',
                hranks, hrest⟩
  · rintro (⟨s', base, after, hs, hbase, hranks⟩ | ⟨hbrace, head, after, hhead, h⟩)
    · obtain ⟨r, hnext, rfl⟩ := exists_next?_of_eq hs
      obtain ⟨r', hbase, rfl⟩ := hbase
      obtain ⟨r'', hranks, hr⟩ := hranks
      rw [hnext]
      dsimp only
      rw [hbase]
      dsimp only
      rw [hranks]
      exact yields_ok_iff.2 ⟨rfl, hr⟩
    · obtain ⟨(r : Shorter s), hhead, rfl⟩ := hhead
      rw [next?_eq_none_iff.2 hbrace]
      dsimp only
      rw [hhead]
      dsimp only
      rcases h with ⟨hlist, hranks⟩ | ⟨s', args, after, hlist, hargs, hranks⟩
      · obtain ⟨r', hranks, hr⟩ := hranks
        rw [next?_eq_none_iff.2 hlist]
        dsimp only
        rw [hranks]
        exact yields_ok_iff.2 ⟨rfl, hr⟩
      · obtain ⟨r', hnext, rfl⟩ := exists_next?_of_eq hlist
        obtain ⟨r'', hargs, rfl⟩ := hargs
        obtain ⟨q, hranks, hr⟩ := hranks
        have hargs : readArguments r.val (r.trans r'.toRemainder).val = .ok (args, r'') := hargs
        rw [hnext]
        dsimp only
        rw [hargs]
        dsimp only
        rw [hranks]
        exact yields_ok_iff.2 ⟨rfl, hr⟩

/-- Arguments are types, each with an angle bracket or a comma behind it; where a comma stands, a
type has to start behind it. -/
theorem yields_readArguments_iff {opened s rest : List Char} {args : List TypeRef} :
    Yields (readArguments opened s) args rest ↔
      ∃ t after, Yields (readType (skipBlanks s).val) t after ∧
        ((args = [t] ∧ (skipBlanks after).val = '>' :: rest) ∨
          ∃ args' after', args = t :: args' ∧ (skipBlanks after).val = ',' :: after' ∧
            startsType (skipBlanks after').val ∧
            Yields (readArguments opened after') args' rest) := by
  rw [readArguments]
  constructor
  · intro h
    dsimp only at h
    split at h
    · cases not_yields_error h
    · rename_i t r htype
      refine ⟨t, r.val, ⟨r, htype, rfl⟩, ?_⟩
      split at h
      · rename_i r' hclose
        obtain ⟨rfl, hrest⟩ := yields_ok_iff.1 h
        refine .inl ⟨rfl, ?_⟩
        rw [← hrest]
        exact next?_eq_some.1 hclose
      · split at h
        · cases not_yields_error h
        · rename_i r' hcomma
          split at h
          · rename_i hstarts
            split at h
            · cases not_yields_error h
            · rename_i args' r'' hargs
              obtain ⟨rfl, hrest⟩ := yields_ok_iff.1 h
              exact .inr ⟨args', r'.val, rfl, next?_eq_some.1 hcomma, hstarts, r'', hargs, hrest⟩
          · cases not_yields_error h
  · rintro ⟨t, after, htype, h⟩
    obtain ⟨(r : Shorter (skipBlanks s).val), htype, rfl⟩ := htype
    dsimp only
    rw [htype]
    dsimp only
    rcases h with ⟨rfl, hclose⟩ | ⟨args', after', rfl, hcomma, hstarts, hargs⟩
    · obtain ⟨r', hclose, hr⟩ : ∃ r', next? '>' (r.trans (skipBlanks r.val)).val = some r' ∧
          r'.val = rest := exists_next?_of_eq hclose
      rw [hclose]
      exact yields_ok_iff.2 ⟨rfl, hr⟩
    · have hopen : next? '>' (r.trans (skipBlanks r.val)).val = none := by
        have hval : (r.trans (skipBlanks r.val)).val = ',' :: after' := hcomma
        rw [hval, next?_eq_none_iff]
        simp
      obtain ⟨r', hnext, rfl⟩ : ∃ r', next? ',' (r.trans (skipBlanks r.val)).val = some r' ∧
          r'.val = after' := exists_next?_of_eq hcomma
      obtain ⟨r'', hargs, hr⟩ := hargs
      rw [hopen]
      dsimp only
      rw [hnext]
      dsimp only
      rw [if_pos hstarts]
      have hargs : readArguments opened
          ((skipBlanks s).further ((r.trans (skipBlanks r.val)).trans r'.toRemainder)).val =
            .ok (args', r'') := hargs
      rw [hargs]
      exact yields_ok_iff.2 ⟨rfl, hr⟩

end TypeRef

end ContentModels
