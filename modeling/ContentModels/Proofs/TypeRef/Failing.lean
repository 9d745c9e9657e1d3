import ContentModels.Proofs.TypeRef.Reading

/-!
# Where the readers of type references fail

For each reader of `TypeRef.Reader`, one lemma says what it tells when it fails, by what the readers
it is made of give or tell. A misreading is told by the reader that comes to it and goes through
those around it unchanged, so that none of these adds to it.
-/

namespace ContentModels

/-- No name is read where none starts. -/
theorem readName?_eq_none_iff {s : List Char} : readName? s = none ↔ startsName s = false := by
  cases s with
  | nil => simp [readName?, startsName]
  | cons c s => simp [readName?, startsName]

namespace TypeRef

/-! ## Names -/

/-- Names fail where no name stands behind the separator. -/
theorem readNames_eq_error_iff {separator : Char} {opened s : List Char} {m : Misreading} :
    readNames separator opened s = .error m ↔
      ∃ s', s = separator :: s' ∧
        (startsName s' = false ∧ m = ⟨.noIdentifier, opened, s'⟩ ∨
          ∃ name after, IsIdentifier name ∧ s' = name.toList ++ after ∧
            (∀ c ∈ after.head?, isNamePart c = false) ∧
            readNames separator opened after = .error m) := by
  rw [readNames]
  constructor
  · intro h
    split at h
    · cases h
    · rename_i r hnext
      refine ⟨r.val, next?_eq_some.1 hnext, ?_⟩
      split at h
      · rename_i hname
        exact .inl ⟨readName?_eq_none_iff.1 hname, (Except.error.inj h).symm⟩
      · rename_i name r' hname
        dsimp only at h
        split at h
        · rename_i hnames
          obtain ⟨hident, hs, hstop⟩ := exists_readName?_iff.1 ⟨r', hname, rfl⟩
          exact .inr ⟨name, r'.val, hident, hs, hstop, Except.error.inj h ▸ hnames⟩
        · cases h
  · rintro ⟨s', hs, hrest⟩
    obtain ⟨r, hnext, rfl⟩ := exists_next?_of_eq hs
    rw [hnext]
    dsimp only
    rcases hrest with ⟨hname, rfl⟩ | ⟨name, after, hident, hs', hstop, hnames⟩
    · rw [readName?_eq_none_iff.2 hname]
    · obtain ⟨r', hname, rfl⟩ := exists_readName?_iff.2 ⟨hident, hs', hstop⟩
      have hnames : readNames separator opened (r.trans r'.toRemainder).val = .error m := hnames
      rw [hname]
      dsimp only
      rw [hnames]

/-- The names of a type fail where the first one is missing, or one behind a separator. -/
theorem readHead_eq_error_iff {s : List Char} {m : Misreading} :
    readHead s = .error m ↔
      startsName (unrooted s).val = false ∧ m = ⟨.noTypeName, s, (unrooted s).val⟩ ∨
        ∃ first after, IsIdentifier first ∧ (unrooted s).val = first.toList ++ after ∧
          (∀ c ∈ after.head?, isNamePart c = false) ∧
          (readNames '.' s after = .error m ∨
            ∃ dotted after', Yields (readNames '.' s after) dotted after' ∧
              readNames '+' s after' = .error m) := by
  unfold readHead
  dsimp only
  constructor
  · intro h
    split at h
    · rename_i hname
      exact .inl ⟨readName?_eq_none_iff.1 hname, (Except.error.inj h).symm⟩
    · rename_i first r hname
      obtain ⟨hident, hs, hstop⟩ := exists_readName?_iff.1 ⟨r, hname, rfl⟩
      refine .inr ⟨first, r.val, hident, hs, hstop, ?_⟩
      split at h
      · rename_i hdotted
        exact .inl (Except.error.inj h ▸ hdotted)
      · rename_i dotted r' hdotted
        split at h
        · rename_i hnested
          exact .inr ⟨dotted, r'.val, ⟨r', hdotted, rfl⟩, Except.error.inj h ▸ hnested⟩
        · cases h
  · rintro (⟨hname, rfl⟩ | ⟨first, after, hident, hs, hstop, hrest⟩)
    · rw [readName?_eq_none_iff.2 hname]
    · obtain ⟨r, hname, rfl⟩ := exists_readName?_iff.2 ⟨hident, hs, hstop⟩
      rw [hname]
      dsimp only
      rcases hrest with hdotted | ⟨dotted, after', ⟨r', hdotted, rfl⟩, hnested⟩
      · rw [hdotted]
      · rw [hdotted]
        dsimp only
        rw [hnested]

/-! ## Placeholders and ranks -/

/-- The end of a placeholder is missing where no brace stands. -/
theorem readBrace_eq_error_iff {opened s : List Char} {target : Placeholder} {m : Misreading} :
    readBrace opened target s = .error m ↔
      '}' ∉ s.head? ∧ m = ⟨.openPlaceholder, opened, s⟩ := by
  unfold readBrace
  rw [← next?_eq_none_iff]
  cases next? '}' s with
  | none => simp [eq_comm]
  | some r => simp

/-- The text starts with the name of an item type, in letters of any case and as the longest
identifier there, and the rest is behind it. -/
def StartsItemType (s rest : List Char) : Prop :=
  ∃ (word : String) (kind : ItemType), IsIdentifier word ∧ s = word.toList ++ rest ∧
    (∀ c ∈ rest.head?, isNamePart c = false) ∧
    word.toList.map Char.toLower = kind.name.toList.map Char.toLower

/-- The text starts with the name of an item type exactly if the name that is read is one. -/
theorem startsItemType_iff {s rest : List Char} :
    StartsItemType s rest ↔ ∃ (word : String) (kind : ItemType) (r : Shorter s),
      readName? s = some (word, r) ∧ ItemType.ofName? word = some kind ∧ r.val = rest := by
  constructor
  · rintro ⟨word, kind, hident, hs, hstop, hkind⟩
    obtain ⟨r, hname, hr⟩ := exists_readName?_iff.2 ⟨hident, hs, hstop⟩
    exact ⟨word, kind, r, hname, ItemType.ofName?_eq_some_iff.2 hkind, hr⟩
  · rintro ⟨word, kind, r, hname, hkind, hr⟩
    obtain ⟨hident, hs, hstop⟩ := exists_readName?_iff.1 ⟨r, hname, hr⟩
    exact ⟨word, kind, hident, hs, hstop, ItemType.ofName?_eq_some_iff.1 hkind⟩

/-- Behind its opening brace, a placeholder fails where the alias is missing, where something else
than an item type stands behind a colon, and where its end is missing. -/
theorem readPlaceholder_eq_error_iff {opened s : List Char} {m : Misreading} :
    readPlaceholder opened s = .error m ↔
      (∀ c ∈ s.head?, isNamePart c = false) ∧ m = ⟨.noAlias, opened, s⟩ ∨
        ∃ aliasName after, IsAlias aliasName ∧ s = aliasName.toList ++ after ∧
          (∀ c ∈ after.head?, isNamePart c = false) ∧
          (':' ∉ after.head? ∧ '}' ∉ after.head? ∧ m = ⟨.openPlaceholder, opened, after⟩ ∨
            ∃ after', after = ':' :: after' ∧
              ((∀ rest, ¬ StartsItemType after' rest) ∧ m = ⟨.badItemType, opened, after'⟩ ∨
                ∃ rest, StartsItemType after' rest ∧ '}' ∉ rest.head? ∧
                  m = ⟨.openPlaceholder, opened, rest⟩)) := by
  unfold readPlaceholder
  dsimp only
  constructor
  · intro h
    split at h
    · rename_i hname
      refine .inl ⟨fun c hc => ?_, (Except.error.inj h).symm⟩
      cases s with
      | nil => cases hc
      | cons d s =>
        obtain rfl : d = c := Option.some.inj hc
        rw [Bool.eq_false_iff]
        intro hpart
        simp [hpart] at hname
    · rename_i hname
      refine .inr ⟨String.ofList (s.takeWhile isNamePart), (Remainder.dropWhile isNamePart s).val,
        ⟨?_, ?_⟩, ?_, head?_dropWhile_eq_false, ?_⟩
      · simpa using hname
      · rw [String.toList_ofList]
        exact fun c hc => List.all_eq_true.1 List.all_takeWhile c hc
      · rw [String.toList_ofList]
        exact List.takeWhile_append_dropWhile.symm
      split at h
      · rename_i hcolon
        split at h
        · rename_i hbrace
          obtain ⟨hend, rfl⟩ := readBrace_eq_error_iff.1 hbrace
          exact .inl ⟨next?_eq_none_iff.1 hcolon, hend, (Except.error.inj h).symm⟩
        · cases h
      · rename_i r hcolon
        refine .inr ⟨r.val, next?_eq_some.1 hcolon, ?_⟩
        split at h
        · rename_i hword
          refine .inl ⟨fun rest hrest => ?_, (Except.error.inj h).symm⟩
          obtain ⟨word, kind, r', hname, -⟩ := startsItemType_iff.1 hrest
          cases hword.symm.trans hname
        · rename_i word r' hword
          split at h
          · rename_i hkind
            refine .inl ⟨fun rest hrest => ?_, (Except.error.inj h).symm⟩
            obtain ⟨word', kind, r'', hname, hkind', -⟩ := startsItemType_iff.1 hrest
            obtain ⟨rfl, -⟩ := Prod.mk.inj (Option.some.inj (hword.symm.trans hname))
            cases hkind.symm.trans hkind'
          · rename_i kind hkind
            split at h
            · rename_i hbrace
              obtain ⟨hend, rfl⟩ := readBrace_eq_error_iff.1 hbrace
              exact .inr ⟨r'.val, startsItemType_iff.2 ⟨word, kind, r', hword, hkind, rfl⟩, hend,
                (Except.error.inj h).symm⟩
            · cases h
  · rintro (⟨hname, rfl⟩ | ⟨aliasName, after, halias, hs, hstop, hrest⟩)
    · have hnil : s.takeWhile isNamePart = [] := by
        cases s with
        | nil => rfl
        | cons c s => simp [hname c rfl]
      rw [hnil, if_pos List.isEmpty_nil]
    · obtain ⟨htake, hdrop⟩ := takeWhile_dropWhile_append halias.2 hstop
      have hname : aliasName.toList.isEmpty = false := by simpa using halias.1
      rw [← hs] at htake hdrop
      obtain rfl : (Remainder.dropWhile isNamePart s).val = after := hdrop
      rw [htake, if_neg (by simp [hname])]
      rcases hrest with ⟨hcolon, hend, rfl⟩ | ⟨after', hcolon, hrest⟩
      · rw [next?_eq_none_iff.2 hcolon]
        dsimp only
        rw [readBrace_eq_error_iff.2 ⟨hend, rfl⟩]
      · obtain ⟨r, hnext, rfl⟩ := exists_next?_of_eq hcolon
        rw [hnext]
        dsimp only
        rcases hrest with ⟨hnone, rfl⟩ | ⟨rest, hitem, hend, rfl⟩
        · split
          · rfl
          · rename_i word r' hword
            split
            · rfl
            · rename_i kind hkind
              exact absurd (startsItemType_iff.2 ⟨word, kind, r', hword, hkind, rfl⟩) (hnone _)
        · obtain ⟨word, kind, r', hword, hkind, rfl⟩ := startsItemType_iff.1 hitem
          rw [hword]
          dsimp only
          rw [hkind]
          dsimp only
          rw [readBrace_eq_error_iff.2 ⟨hend, rfl⟩]

/-- Ranks fail where one does not end. -/
theorem readRanks_eq_error_iff {t : TypeRef} {s : List Char} {m : Misreading} :
    readRanks t s = .error m ↔
      ∃ blanks rest, IsBlankRun blanks ∧ s = '[' :: (blanks ++ rest) ∧
        ((∀ c ∈ rest.head?, isBlank c = false ∧ c ≠ ']') ∧ m = ⟨.openRank, s, rest⟩ ∨
          ∃ after, rest = ']' :: after ∧ readRanks (.array t) after = .error m) := by
  rw [readRanks]
  constructor
  · intro h
    split at h
    · cases h
    · rename_i r hnext
      obtain ⟨blanks, hblanks, hr⟩ := exists_blanks r.val
      refine ⟨blanks, (skipBlanks r.val).val, hblanks, ?_, ?_⟩
      · rw [← hr]
        exact next?_eq_some.1 hnext
      dsimp only at h
      split at h
      · rename_i hnext'
        refine .inl ⟨fun c hc => ⟨head?_dropWhile_eq_false c hc, ?_⟩, (Except.error.inj h).symm⟩
        rintro rfl
        exact next?_eq_none_iff.1 hnext' hc
      · rename_i r' hnext'
        split at h
        · rename_i hranks
          exact .inr ⟨r'.val, next?_eq_some.1 hnext', Except.error.inj h ▸ hranks⟩
        · cases h
  · rintro ⟨blanks, rest, hblanks, hs, hrest⟩
    obtain ⟨r, hnext, hr⟩ := exists_next?_of_eq hs
    have hend : ∀ c ∈ rest.head?, isBlank c = false := by
      rcases hrest with ⟨hend, -⟩ | ⟨after, rfl, -⟩
      · exact fun c hc => (hend c hc).1
      · simp; decide
    obtain rfl : (skipBlanks r.val).val = rest := by
      rw [hr]
      exact skipBlanks_append hblanks hend
    rw [hnext]
    dsimp only
    rcases hrest with ⟨hend, rfl⟩ | ⟨after, hrest, hranks⟩
    · rw [next?_eq_none_iff.2 fun hc => (hend _ hc).2 rfl]
    · obtain ⟨r', hnext', rfl⟩ := exists_next?_of_eq hrest
      have hranks : readRanks (.array t) (r.trans ((skipBlanks r.val).trans r'.toRemainder)).val =
          .error m := hranks
      rw [hnext']
      dsimp only
      rw [hranks]

/-! ## Types -/

/-- A type fails where its placeholder does, its names, its arguments or the ranks behind it. -/
theorem readType_eq_error_iff {s : List Char} {m : Misreading} :
    readType s = .error m ↔
      (∃ s', s = '{' :: s' ∧ (readPlaceholder s s' = .error m ∨
        ∃ base after, Yields (readPlaceholder s s') base after ∧ readRanks base after = .error m)) ∨
      '{' ∉ s.head? ∧ (readHead s = .error m ∨
        ∃ head after, Yields (readHead s) head after ∧
          ('<' ∉ after.head? ∧ readRanks (head.type []) after = .error m ∨
            ∃ after', after = '<' :: after' ∧ (readArguments after after' = .error m ∨
              ∃ args after'', Yields (readArguments after after') args after'' ∧
                readRanks (head.type args) after'' = .error m))) := by
  rw [readType]
  constructor
  · intro h
    split at h
    · rename_i r hnext
      refine .inl ⟨r.val, next?_eq_some.1 hnext, ?_⟩
      split at h
      · rename_i hbase
        exact .inl (Except.error.inj h ▸ hbase)
      · rename_i base r' hbase
        split at h
        · rename_i hranks
          exact .inr ⟨base, r'.val, ⟨r', hbase, rfl⟩, Except.error.inj h ▸ hranks⟩
        · cases h
    · rename_i hnext
      refine .inr ⟨next?_eq_none_iff.1 hnext, ?_⟩
      split at h
      · rename_i hhead
        exact .inl (Except.error.inj h ▸ hhead)
      · rename_i head r hhead
        refine .inr ⟨head, r.val, ⟨r, hhead, rfl⟩, ?_⟩
        split at h
        · rename_i hlist
          split at h
          · rename_i hranks
            exact .inl ⟨next?_eq_none_iff.1 hlist, Except.error.inj h ▸ hranks⟩
          · cases h
        · rename_i r' hlist
          refine .inr ⟨r'.val, next?_eq_some.1 hlist, ?_⟩
          dsimp only at h
          split at h
          · rename_i hargs
            exact .inl (Except.error.inj h ▸ hargs)
          · rename_i args r'' hargs
            split at h
            · rename_i hranks
              exact .inr ⟨args, r''.val, ⟨r'', hargs, rfl⟩, Except.error.inj h ▸ hranks⟩
            · cases h
  · rintro (⟨s', hs, hrest⟩ | ⟨hbrace, hrest⟩)
    · obtain ⟨r, hnext, rfl⟩ := exists_next?_of_eq hs
      rw [hnext]
      dsimp only
      rcases hrest with hbase | ⟨base, after, ⟨r', hbase, rfl⟩, hranks⟩
      · rw [hbase]
      · rw [hbase]
        dsimp only
        rw [hranks]
    · rw [next?_eq_none_iff.2 hbrace]
      dsimp only
      rcases hrest with hhead | ⟨head, after, hhead, hrest⟩
      · rw [hhead]
      · obtain ⟨(r : Shorter s), hhead, rfl⟩ := hhead
        rw [hhead]
        dsimp only
        rcases hrest with ⟨hlist, hranks⟩ | ⟨after', hlist, hrest⟩
        · rw [next?_eq_none_iff.2 hlist]
          dsimp only
          rw [hranks]
        · obtain ⟨r', hnext, rfl⟩ := exists_next?_of_eq hlist
          rw [hnext]
          dsimp only
          rcases hrest with hargs | ⟨args, after'', hargs, hranks⟩
          · have hargs : readArguments r.val (r.trans r'.toRemainder).val = .error m := hargs
            rw [hargs]
          · obtain ⟨r'', hargs, rfl⟩ := hargs
            have hargs : readArguments r.val (r.trans r'.toRemainder).val = .ok (args, r'') :=
              hargs
            rw [hargs]
            dsimp only
            rw [hranks]

/-- Arguments fail where one of them does, and where neither their end nor a comma with a type
behind it follows one. -/
theorem readArguments_eq_error_iff {opened s : List Char} {m : Misreading} :
    readArguments opened s = .error m ↔
      readType (skipBlanks s).val = .error m ∨
        ∃ t after, Yields (readType (skipBlanks s).val) t after ∧
          '>' ∉ (skipBlanks after).val.head? ∧
          ((∀ s', (skipBlanks after).val = ',' :: s' → startsType (skipBlanks s').val = false) ∧
              m = ⟨.openArguments, opened, (skipBlanks after).val⟩ ∨
            ∃ s', (skipBlanks after).val = ',' :: s' ∧ startsType (skipBlanks s').val = true ∧
              readArguments opened s' = .error m) := by
  rw [readArguments]
  dsimp only
  constructor
  · intro h
    split at h
    · rename_i htype
      exact .inl (Except.error.inj h ▸ htype)
    · rename_i t r htype
      refine .inr ⟨t, r.val, ⟨r, htype, rfl⟩, ?_⟩
      split at h
      · cases h
      · rename_i hclose
        refine ⟨next?_eq_none_iff.1 hclose, ?_⟩
        split at h
        · rename_i hcomma
          refine .inl ⟨fun s' hs' => ?_, (Except.error.inj h).symm⟩
          obtain ⟨r', hnext, -⟩ := exists_next?_of_eq hs'
          cases hcomma.symm.trans hnext
        · rename_i r' hcomma
          have hcomma : (skipBlanks r.val).val = ',' :: r'.val := next?_eq_some.1 hcomma
          split at h
          · rename_i hstarts
            split at h
            · rename_i hargs
              exact .inr ⟨r'.val, hcomma, hstarts, Except.error.inj h ▸ hargs⟩
            · cases h
          · rename_i hstarts
            refine .inl ⟨fun s' hs' => ?_, (Except.error.inj h).symm⟩
            obtain ⟨-, rfl⟩ := List.cons.inj (hcomma.symm.trans hs')
            exact Bool.eq_false_iff.2 hstarts
  · rintro (htype | ⟨t, after, htype, hopen, hrest⟩)
    · rw [htype]
    · obtain ⟨(r : Shorter (skipBlanks s).val), htype, rfl⟩ := htype
      have hopen : next? '>' (r.trans (skipBlanks r.val)).val = none := next?_eq_none_iff.2 hopen
      rw [htype]
      dsimp only
      rw [hopen]
      dsimp only
      rcases hrest with ⟨hcomma, rfl⟩ | ⟨s', hcomma, hstarts, hargs⟩
      · split
        · rfl
        · rename_i r' hnext
          rw [if_neg (Bool.eq_false_iff.1 (hcomma r'.val (next?_eq_some.1 hnext)))]
          rfl
      · obtain ⟨r', hnext, rfl⟩ : ∃ r', next? ',' (r.trans (skipBlanks r.val)).val = some r' ∧
            r'.val = s' := exists_next?_of_eq hcomma
        have hargs : readArguments opened
            ((skipBlanks s).further ((r.trans (skipBlanks r.val)).trans r'.toRemainder)).val =
              .error m := hargs
        rw [hnext]
        dsimp only
        rw [if_pos hstarts, hargs]

end TypeRef

end ContentModels
