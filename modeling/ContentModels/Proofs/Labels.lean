import ContentModels.Proofs.Namespace.Reading
import ContentModels.Proofs.TypeRef.Mistakes

/-!
# Labels and characters

Where a label of a report begins and where it ends, a reader stood, so that it splits no character
of the text. One label may do so all the same: it has to cover one byte at least, and where the
reader of a type has read nothing of it, that is the first byte of the next character. If the
character takes several bytes (`TypeRef.StopsAtWide`), the label ends within it and marks no piece
of the text. All other labels keep the characters whole (`labels_keepWhole_iff`).
-/

namespace ContentModels

/-- The labels of all diagnostics. -/
def Report.labels (r : Report) : List Label := r.diagnostics.flatMap Diagnostic.labels

/-- A label splits no character of the source. -/
structure Label.KeepsWhole (label : Label) (source : String) : Prop where
  /-- It starts beyond the end of the source or at a boundary. -/
  start : source.utf8ByteSize < label.span.start ∨ IsBoundary source.toList label.span.start
  /-- It ends beyond the end of the source or at a boundary. -/
  stop : source.utf8ByteSize < label.span.stop ∨ IsBoundary source.toList label.span.stop
  /-- If it does not reach beyond the end, it marks a piece of the source. -/
  piece : label.span.stop ≤ source.utf8ByteSize → (label.span.slice source).isSome

/-- A label whose ends are boundaries or beyond the source splits no character. -/
theorem Label.keepsWhole_of_ends {label : Label} {source : String}
    (hstart : IsBoundary source.toList label.span.start)
    (hstop : source.utf8ByteSize < label.span.stop ∨ IsBoundary source.toList label.span.stop) :
    label.KeepsWhole source where
  start := .inr hstart
  stop := hstop
  piece hle := by
    have hstop := hstop.resolve_left (Nat.not_lt.2 hle)
    exact Span.isSome_slice_iff.2 ⟨hstart, hstop⟩

/-- The size of a text is a boundary. -/
theorem isBoundary_utf8ByteSize (source : String) :
    IsBoundary source.toList source.utf8ByteSize := by
  rw [← byteLength_toList]
  exact isBoundary_byteLength source.toList

namespace Namespace

/-- The label of a text that is no namespace ends with the text, or beyond it. -/
theorem keepsWhole_of_mem_invalidReport {source : String} {label : Label}
    (h : label ∈ (invalidReport source).labels) : label.KeepsWhole source := by
  obtain ⟨d, marked, front, hreport, -, hlabels, hfront, hstart, hstop⟩ :=
    invalidReport_marks source
  rw [Report.labels, hreport, List.flatMap_singleton, hlabels, List.mem_singleton] at h
  subst h
  have hbegins : front <+: source.toList := by
    rcases hfront with hfront | ⟨rfl, -⟩
    · exact hfront.atFront
    · exact List.nil_prefix
  refine Label.keepsWhole_of_ends (hstart ▸ ⟨front, hbegins, rfl⟩) ?_
  rw [hstop]
  rcases Nat.lt_or_ge source.utf8ByteSize (byteLength front + 1) with hlt | hle
  · exact .inl (Nat.lt_of_lt_of_le hlt (Nat.le_max_right _ _))
  · rw [Nat.max_eq_left hle]
    exact .inr (isBoundary_utf8ByteSize source)

/-- What is not taken for a namespace is told by the report of an invalid one. -/
theorem eq_invalidReport_of_parse {source : String} {report : Report}
    (h : parse source = .error report) : report = invalidReport source := by
  unfold parse at h
  split at h
  · cases h
  · exact (Except.error.inj h).symm

end Namespace

namespace TypeRef

/-! ## What misread types begin with -/

/-- A character of a name takes one byte. -/
theorem utf8Size_of_isNamePart {c : Char} (h : isNamePart c = true) : c.utf8Size = 1 := by
  have hle : c.val ≤ 0x7f := Nat.le_trans (toNat_of_isNamePart h).2 (by decide)
  exact if_pos hle

/-- What stands in front of a path takes one byte. -/
theorem utf8Size_of_mem_text {p : Path} {c : Char} (hc : c ∈ p.text) : c.utf8Size = 1 := by
  rcases p.isNamePart_or_mark hc with hpart | rfl | rfl | rfl
  · exact utf8Size_of_isNamePart hpart
  all_goals decide

/-- Behind nothing but a character of several bytes, no mark of the root is read. -/
theorem unrooted_of_wide {c : Char} {rest : List Char} (hc : 1 < c.utf8Size) :
    (unrooted (c :: rest)).val = c :: rest := by
  have hnot : isRooted (c :: rest) = false := by
    rw [Bool.eq_false_iff]
    intro hrooted
    obtain ⟨l, hl⟩ := List.isPrefixOf_iff_prefix.1 hrooted
    obtain ⟨rfl, -⟩ := List.cons.inj hl
    exact absurd hc (by decide)
  rw [unrooted, if_neg (Bool.eq_false_iff.1 hnot)]
  rfl

/-- The text begins with a character of several bytes. -/
def WideFront (s : List Char) : Prop := ∃ c rest, s = c :: rest ∧ 1 < c.utf8Size

/-- No type starts with a character of several bytes, and it fails where it should start. -/
theorem WideFront.fails {s : List Char} (h : WideFront s) : Fails s ⟨.noTypeName, s, s⟩ := by
  obtain ⟨c, rest, rfl, hwide⟩ := h
  have hstarts : startsType (c :: rest) = false := by
    have hbrace : '{' ∉ (c :: rest).head? := by
      intro hc
      obtain rfl : c = '{' := Option.some.inj hc
      exact absurd hwide (by decide)
    rw [startsType_of_notMem hbrace, unrooted_of_wide hwide, startsName, Bool.eq_false_iff]
    intro hstart
    rw [utf8Size_of_isNamePart (isNamePart_of_isNameStart hstart)] at hwide
    exact absurd hwide (Nat.lt_irrefl 1)
  have hfails := Fails.noTypeName hstarts
  rwa [unrooted_of_wide hwide] at hfails

/-- The construct at fault begins with a character of one byte or with nothing, unless it is the
whole type and begins with a character of several bytes. -/
theorem Fails.narrow_or_wideFront {s : List Char} {m : Misreading} (h : Fails s m) :
    (∀ c ∈ m.opened.head?, c.utf8Size = 1) ∨ WideFront s := by
  cases h with
  | noTypeName =>
    -- Where no type starts, any character may stand; all other constructs have been begun.
    cases s with
    | nil => exact .inl (by simp)
    | cons c rest =>
      rcases Nat.lt_or_ge 1 c.utf8Size with hwide | hnarrow
      · exact .inr ⟨c, rest, rfl, hwide⟩
      · refine .inl fun d hd => ?_
        obtain rfl : c = d := Option.some.inj hd
        exact Nat.le_antisymm hnarrow c.utf8Size_pos
  | noIdentifier hs =>
    refine .inl fun c hc => ?_
    rw [hs] at hc
    exact utf8Size_of_mem_text (mem_text_of_mem_head? hc)
  | noAlias => exact .inl (by simp; decide)
  | openArguments => exact .inl (by simp; decide)
  | badItemType _ hs => exact .inl (by simp [hs]; decide)
  | openModel _ hs => exact .inl (by simp [hs]; decide)
  | openModelOf _ hs => exact .inl (by simp [hs]; decide)
  | openRank _ _ hs => exact .inl (by simp [hs]; decide)

/-- The reader of a type has stood where text remains. -/
theorem Fails.stopped_isSuffix {s : List Char} {m : Misreading} (h : Fails s m) :
    m.stopped <:+ s := by
  cases h with
  | noTypeName => exact ⟨_, (eq_rootMark_append_unrooted s).symm⟩
  | noAlias => exact List.suffix_cons _ _
  | @badItemType aliasName _ rest _ hs =>
    exact ⟨'{' :: (aliasName.toList ++ [':']), by simp [hs]⟩
  | @openModel aliasName _ rest _ hs => exact ⟨'{' :: aliasName.toList, by simp [hs]⟩
  | @openModelOf aliasName _ l rest _ hs hitem =>
    obtain ⟨word, -, -, rfl, -⟩ := hitem
    exact ⟨'{' :: (aliasName.toList ++ ':' :: word.toList), by simp [hs]⟩
  | @noIdentifier p mark _ rest hs => exact ⟨p.text ++ [mark], by simp [hs]⟩
  | @openRank l blanks _ rest _ _ _ hs => exact ⟨l ++ '[' :: blanks, by simp [hs]⟩
  | @openArguments p s l after rest _ hleads =>
    have hlast : rest <:+ l ++ (after ++ rest) := ⟨l ++ after, List.append_assoc l after rest⟩
    exact (hlast.trans hleads.isSuffix).trans ⟨p.text ++ ['<'], by simp⟩

/-! ## Labels of misread types -/

/-- The reader of the type comes to read one where a character of several bytes stands. -/
def StopsAtWide (s : List Char) : Prop := ∃ inner, ComesTo s inner ∧ WideFront inner

/-- Where it does, it stops in front of the character and has read nothing of the type. -/
theorem StopsAtWide.exists_readType_eq_error {s : List Char} (h : StopsAtWide s) :
    ∃ inner, WideFront inner ∧ inner <:+ s ∧ readType s = .error ⟨.noTypeName, inner, inner⟩ := by
  obtain ⟨inner, hcomes, hwide⟩ := h
  exact ⟨inner, hwide, hcomes.isSuffix,
    readType_eq_error_iff_fails.2 ⟨inner, hcomes, hwide.fails⟩⟩

/-- Where a construct begins with a character of one byte, or with nothing, its label splits no
character. -/
theorem keepsWhole_of_narrow {source : String} {m : Misreading}
    (hopened : m.opened <:+ source.toList) (hstopped : m.stopped <:+ source.toList)
    (hnarrow : ∀ c ∈ m.opened.head?, c.utf8Size = 1)
    {label : Label} (h : label ∈ (m.report source.toList).labels) : label.KeepsWhole source := by
  obtain rfl := List.mem_singleton.1 h
  refine Label.keepsWhole_of_ends (isBoundary_sub_of_isSuffix hopened) ?_
  have hlt : offset source.toList m.opened ≤
      max (offset source.toList m.stopped) (offset source.toList m.opened + 1) := by omega
  dsimp only [Label.primary]
  rw [Span.stop_between hlt]
  rcases Nat.le_total (offset source.toList m.opened + 1) (offset source.toList m.stopped) with
    hle | hle
  · -- The label ends where the reader stood.
    rw [Nat.max_eq_left hle]
    exact .inr (isBoundary_sub_of_isSuffix hstopped)
  · rw [Nat.max_eq_right hle]
    obtain ⟨front, hs⟩ := hopened
    have hfront : offset source.toList m.opened = byteLength front := byteLength_sub_of_eq hs.symm
    rw [hfront]
    cases hm : m.opened with
    | nil =>
      rw [hm, List.append_nil] at hs
      rw [← byteLength_toList, ← hs]
      exact .inl (Nat.lt_succ_self _)
    | cons c rest =>
      -- It covers the one byte of the first character.
      rw [hm] at hs hnarrow
      refine .inr ⟨front ++ [c], ⟨rest, by rw [← hs]; simp⟩, ?_⟩
      rw [byteLength_append, byteLength, byteLength, hnarrow c rfl]

/-- Where a character of several bytes stands in the place of a type, the label covers the first of
these bytes alone. -/
theorem exists_label_of_wideFront {source : String} {inner : List Char}
    (hinner : inner <:+ source.toList) (hwide : WideFront inner) :
    ∃ label, (Misreading.report ⟨.noTypeName, inner, inner⟩ source.toList).labels = [label] ∧
      IsBoundary source.toList label.span.start ∧ label.span.stop = label.span.start + 1 ∧
      label.span.stop ≤ source.utf8ByteSize ∧ ¬ IsBoundary source.toList label.span.stop := by
  have hstart := isBoundary_sub_of_isSuffix hinner
  obtain ⟨c, rest, rfl, hc⟩ := hwide
  obtain ⟨front, hs⟩ := hinner
  have hfront : offset source.toList (c :: rest) = byteLength front :=
    byteLength_sub_of_eq hs.symm
  have hstop : (Span.between (byteLength front)
      (max (byteLength front) (byteLength front + 1))).stop = byteLength front + 1 := by
    rw [Span.stop_between (Nat.le_max_left _ _), Nat.max_eq_right (Nat.le_succ _)]
  refine ⟨_, rfl, hstart, ?_⟩
  dsimp only [Label.primary]
  rw [hfront, hstop]
  refine ⟨rfl, ?_, ?_⟩
  · rw [← byteLength_toList, ← hs, byteLength_append, byteLength]
    omega
  · rw [← hs]
    exact not_isBoundary_of_lt (Nat.lt_succ_self _) (by omega)

/-- The labels of trailing input start and end where the type in front ends, and with the source. -/
theorem keepsWhole_of_mem_trailing {source : String} {rest : List Char}
    (hrest : rest <:+ source.toList) {label : Label}
    (h : label ∈ (Report.trailing source.toList rest).labels) : label.KeepsWhole source := by
  have hend : IsBoundary source.toList (offset source.toList rest) :=
    isBoundary_sub_of_isSuffix hrest
  have hle : offset source.toList rest ≤ byteLength source.toList := Nat.sub_le _ _
  rcases List.mem_pair.1 h with rfl | rfl
  · refine Label.keepsWhole_of_ends hend (.inr ?_)
    dsimp only [Label.primary]
    rw [Span.stop_between hle]
    exact isBoundary_byteLength source.toList
  · refine Label.keepsWhole_of_ends (isBoundary_zero source.toList) (.inr ?_)
    dsimp only [Label.secondary]
    rw [Span.stop_between (Nat.zero_le _)]
    exact hend

end TypeRef

/-- No label for a text that is no namespace splits a character. The labels for a text that is no
type split none either, unless the reader of the type stops in front of a character of several bytes
where a type has to start. In that case the one label covers the first byte of the character alone,
and marks no piece of the text. -/
theorem labels_keepWhole_iff (source : String) :
    (∀ report, Namespace.parse source = .error report →
        ∀ label ∈ report.labels, label.KeepsWhole source) ∧
      ∀ report, TypeRef.parse source = .error report →
        ((∀ label ∈ report.labels, label.KeepsWhole source) ↔
            ¬ TypeRef.StopsAtWide source.toList) ∧
          (TypeRef.StopsAtWide source.toList →
            ∃ label, report.labels = [label] ∧ IsBoundary source.toList label.span.start ∧
              label.span.stop = label.span.start + 1 ∧
              label.span.stop ≤ source.utf8ByteSize ∧
              ¬ IsBoundary source.toList label.span.stop ∧ label.span.slice source = none) := by
  refine ⟨fun report h label hlabel => ?_, fun report h => ?_⟩
  · rw [Namespace.eq_invalidReport_of_parse h] at hlabel
    exact Namespace.keepsWhole_of_mem_invalidReport hlabel
  have hwide : TypeRef.StopsAtWide source.toList →
      ∃ label, report.labels = [label] ∧ IsBoundary source.toList label.span.start ∧
        label.span.stop = label.span.start + 1 ∧ label.span.stop ≤ source.utf8ByteSize ∧
        ¬ IsBoundary source.toList label.span.stop ∧ label.span.slice source = none := by
    intro hstops
    obtain ⟨inner, hfront, hinner, herror⟩ := hstops.exists_readType_eq_error
    have hreport : TypeRef.parse source =
        .error (Misreading.report ⟨.noTypeName, inner, inner⟩ source.toList) := by
      rw [TypeRef.parse, herror]
    obtain rfl := Except.error.inj (hreport.symm.trans h)
    obtain ⟨label, hlabels, hstart, hstop, hle, hsplit⟩ :=
      TypeRef.exists_label_of_wideFront hinner hfront
    refine ⟨label, hlabels, hstart, hstop, hle, hsplit, ?_⟩
    rw [← Option.not_isSome_iff_eq_none, Span.isSome_slice_iff]
    exact fun hboth => hsplit hboth.2
  refine ⟨⟨fun hkeep hstops => ?_, fun hnot label hlabel => ?_⟩, hwide⟩
  · obtain ⟨label, hlabels, -, -, hle, -, hslice⟩ := hwide hstops
    have hpiece := (hkeep label (hlabels ▸ List.mem_singleton_self label)).piece hle
    rw [hslice] at hpiece
    cases hpiece
  · -- A type is rejected because it ends too early or because it is misread.
    rcases TypeRef.parse_eq_or source with ⟨t, -, hok⟩ | ⟨t, rest, hread, -, herror⟩ |
      ⟨m, hm, herror⟩
    · cases hok.symm.trans h
    · obtain rfl := Except.error.inj (herror.symm.trans h)
      obtain ⟨front, hs, -⟩ := TypeRef.yields_readType_iff_derives.1 hread
      exact TypeRef.keepsWhole_of_mem_trailing ⟨front, hs.symm⟩ hlabel
    · obtain rfl := Except.error.inj (herror.symm.trans h)
      obtain ⟨inner, hcomes, hfails⟩ := TypeRef.readType_eq_error_iff_fails.1 hm
      rcases hfails.narrow_or_wideFront with hnarrow | hfront
      · exact TypeRef.keepsWhole_of_narrow (hfails.isSuffix.trans hcomes.isSuffix)
          (hfails.stopped_isSuffix.trans hcomes.isSuffix) hnarrow hlabel
      · exact absurd ⟨inner, hcomes, hfront⟩ hnot

/-- Between the brackets of a rank, a character of two bytes is as bad as any other: the label
covers the opening bracket. Neither does the label for a namespace end within the character. -/
theorem openRank_keepsWhole :
    (∃ report, TypeRef.parse "A<B[é" = .error report ∧
        ∀ label ∈ report.labels, label.KeepsWhole "A<B[é") ∧
      ∃ report, Namespace.parse "My.é" = .error report ∧
        ∀ label ∈ report.labels, label.KeepsWhole "My.é" := by
  have hread : TypeRef.readType "A<B[é".toList =
      .error ⟨.openRank, "[é".toList, "é".toList⟩ := by decide +kernel
  have hparse : TypeRef.parse "A<B[é" = .error (Misreading.report
      ⟨.openRank, "[é".toList, "é".toList⟩ "A<B[é".toList) := by
    rw [TypeRef.parse, hread]
  have hnamespace : Namespace.parse "My.é" = .error (Namespace.invalidReport "My.é") := by
    decide +kernel
  have hstops : ¬ TypeRef.StopsAtWide "A<B[é".toList := by
    intro hstops
    -- The reader would have made another mistake.
    obtain ⟨inner, -, -, herror⟩ := hstops.exists_readType_eq_error
    have hmistake : Mistake.openRank = Mistake.noTypeName :=
      congrArg Misreading.mistake (Except.error.inj (hread.symm.trans herror))
    cases hmistake
  exact ⟨⟨_, hparse, ((labels_keepWhole_iff _).2 _ hparse).1.2 hstops⟩,
    ⟨_, hnamespace, (labels_keepWhole_iff _).1 _ hnamespace⟩⟩

/-- In the place of a type, a character of two bytes is split by the label, which marks no piece of
the source though it does not reach beyond its end. -/
theorem accent_split :
    ∃ report label, TypeRef.parse "é" = .error report ∧ report.labels = [label] ∧
      label.span.start = 0 ∧ label.span.stop = 1 ∧ "é".utf8ByteSize = 2 ∧
      ¬ IsBoundary "é".toList label.span.stop ∧ label.span.slice "é" = none ∧
      ¬ label.KeepsWhole "é" := by
  have hwide : TypeRef.WideFront "é".toList := ⟨'é', [], by decide, by decide⟩
  have hread : TypeRef.readType "é".toList = .error ⟨.noTypeName, "é".toList, "é".toList⟩ := by
    decide +kernel
  obtain ⟨label, hlabels, -, -, hle, hsplit⟩ :=
    TypeRef.exists_label_of_wideFront List.suffix_rfl hwide
  obtain rfl := (List.cons.inj hlabels).1
  have hslice : (Span.between 0 1).slice "é" = none := by decide +kernel
  refine ⟨_, _, by rw [TypeRef.parse, hread], hlabels, rfl, rfl, rfl, hsplit, hslice, fun h => ?_⟩
  cases (congrArg Option.isSome hslice).symm.trans (h.piece hle)

end ContentModels
