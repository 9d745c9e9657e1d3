import ContentModels.Proofs.Span
import ContentModels.Proofs.TypeRef.Parsing

/-!
# Where a type ends

What is read as a type at the front of a text is derived, and what stands behind it does not go on
with it; and where a text is derived and nothing goes on with it, it is read (`yields_readType_iff`,
`TypeRef.EndsType`). Whether something goes on is seen from what stands right behind a text, so that
a text which goes further than the reader could be cut off there, and would still be read no
further. No type at the front is longer than what is read, and trailing input is marked from behind
the longest one (`trailing_marks_longest_front`).
-/

namespace ContentModels

/-- No mistake has the code of trailing input. -/
theorem Mistake.code_ne_trailingInput (m : Mistake) : m.code ≠ .trailingInput := by
  cases m <;> decide

namespace TypeRef

/-- Two readings of the same text agree. -/
theorem Yields.unique {α : Type} {p : List Char → Prop} {x : Except Misreading (α × Subtype p)}
    {a b : α} {rest rest' : List Char} (h : Yields x a rest) (h' : Yields x b rest') :
    a = b ∧ rest = rest' := by
  obtain ⟨r, rfl, rfl⟩ := h
  exact yields_ok_iff.1 h'

/-! ## What the readers stop at -/

/-- Behind names that are read, the separator does not follow, and the last name does not go on. -/
theorem stops_of_readNames {separator : Char} {opened s rest : List Char} {names : List String}
    (h : Yields (readNames separator opened s) names rest)
    (hs : ∀ c ∈ s.head?, isNamePart c = false) :
    separator ∉ rest.head? ∧ ∀ c ∈ rest.head?, isNamePart c = false := by
  induction names generalizing s with
  | nil =>
    rcases yields_readNames_iff.1 h with ⟨-, rfl, hnext⟩ | ⟨_, _, _, hnames, -⟩
    · exact ⟨hnext, hs⟩
    · cases hnames
  | cons n names ih =>
    rcases yields_readNames_iff.1 h with ⟨hnames, -⟩ | ⟨_, _, after, hnames, -, -, hstop, hafter⟩
    · cases hnames
    · obtain ⟨rfl, rfl⟩ := List.cons.inj hnames
      exact ih hafter hstop

/-- Behind ranks that are read, no rank follows. -/
theorem bracket_notMem_of_readRanks {s rest : List Char} {t t' : TypeRef}
    (h : Yields (readRanks t s) t' rest) : '[' ∉ rest.head? := by
  rcases yields_readRanks_iff.1 h with ⟨-, rfl, hnext⟩ | ⟨blanks, after, -, hs, hafter⟩
  · exact hnext
  · have hlt : after.length < s.length := by
      rw [hs, List.length_cons, List.length_append, List.length_cons]
      omega
    exact bracket_notMem_of_readRanks hafter
termination_by s.length
decreasing_by exact hlt

/-- What is read as a type ends with its ranks. -/
theorem exists_readRanks_of_readType {s rest : List Char} {t : TypeRef}
    (h : Yields (readType s) t rest) : ∃ u after, Yields (readRanks u after) t rest := by
  rcases yields_readType_iff.1 h with ⟨_, _, _, -, -, hranks⟩ |
    ⟨-, _, _, -, ⟨-, hranks⟩ | ⟨_, _, _, -, -, hranks⟩⟩
  · exact ⟨_, _, hranks⟩
  · exact ⟨_, _, hranks⟩
  · exact ⟨_, _, hranks⟩

/-- Behind the names of a path that are read, nothing goes on with them. -/
theorem endsPath_of_readHead {s rest : List Char} {head : Head} {p : Path} (hp : head.Names p)
    (hs : s = p.text ++ rest) (h : Yields (readHead s) head rest) : EndsPath p rest := by
  obtain ⟨hrooted, -, after, after', -, hstop, hdotted, hnested⟩ := yields_readHead_iff.1 h
  obtain ⟨hdot, hstop'⟩ := stops_of_readNames hdotted hstop
  obtain ⟨hplus, hname⟩ := stops_of_readNames hnested hstop'
  refine ⟨hname, fun hnil => ?_, hplus, ?_⟩
  · rw [hp.2.2, hnil] at hnested
    rcases yields_readNames_iff.1 hnested with ⟨-, rfl, -⟩ | ⟨_, _, _, hnames, -⟩
    · exact hdot
    · cases hnames
  · rintro htext ⟨l, rfl⟩
    have hmark : isRooted s = true := by
      rw [isRooted, List.isPrefixOf_iff_prefix, hs, htext]
      exact ⟨l, rfl⟩
    -- A rooted path has the colons in its text.
    rw [hmark, hp.1] at hrooted
    rw [hp.text_eq, hrooted, if_pos rfl] at htext
    have hlength := congrArg List.length htext
    rw [List.length_append, show rootMark.length = 8 from rfl,
      show "global".toList.length = 6 from rfl] at hlength
    omega

/-- Paths are told apart by their texts. -/
theorem Path.text_injective {p p' : Path} (h : p.text = p'.text) : p = p' := by
  have hend : EndsNames [] := by simp [EndsNames]
  obtain ⟨head, hp, hread⟩ := exists_yields_readHead (hend.endsPath p)
  obtain ⟨head', hp', hread'⟩ := exists_yields_readHead (hend.endsPath p')
  rw [h] at hread
  obtain ⟨rfl, -⟩ := hread.unique hread'
  obtain ⟨hsegments, houter⟩ := List.append_inj' (hp.2.1.symm.trans hp'.2.1) rfl
  cases p
  cases p'
  simp only [Path.mk.injEq]
  exact ⟨hp.1.symm.trans hp'.1, hsegments, List.singleton_injective houter,
    hp.2.2.symm.trans hp'.2.2⟩

/-! ## What is read as a type -/

/-- What stands behind a text that is derived as a type does not go on with it. -/
structure EndsType (l rest : List Char) : Prop where
  /-- If the text is a path without arguments, no name goes on, and no arguments follow. -/
  bare : EndsBare l rest
  /-- No rank follows. -/
  rank : '[' ∉ rest.head?

/-- A text that is derived as a type is read as it where nothing goes on with it. -/
theorem Derives.yields_of_endsType {l rest : List Char} {t : TypeRef} (h : Derives l t)
    (hrest : EndsType l rest) : Yields (readType (l ++ rest)) t rest :=
  (h.goesOn hrest.bare).value (yields_readRanks_iff.2 (.inl ⟨rfl, rfl, hrest.rank⟩))

/-- Of two paths at the front of a text, nothing but a name or a mark stands behind the shorter
one. -/
theorem isNamePart_or_mark_of_append_eq {p p' : Path} {rest rest' : List Char} {c : Char}
    (h : p.text ++ rest = p'.text ++ c :: rest') (hle : rest.length ≤ rest'.length) :
    isNamePart c = true ∨ c = '.' ∨ c = '+' ∨ c = ':' := by
  rcases List.append_eq_append_iff.1 h with ⟨l, -, rfl⟩ | ⟨l, htext, hc⟩
  · rw [List.length_append, List.length_cons] at hle
    omega
  · cases l with
    | nil =>
      rw [← show c :: rest' = rest from hc, List.length_cons] at hle
      omega
    | cons d l =>
      obtain ⟨rfl, -⟩ := List.cons.inj hc
      exact Path.isNamePart_or_mark (htext ▸ List.mem_append_right _ List.mem_cons_self)

/-- Where a path is read as a type, nothing goes on with it. -/
theorem endsPath_of_readType {p : Path} {rest : List Char} {t : TypeRef}
    (h : Yields (readType (p.text ++ rest)) t rest) : EndsPath p rest ∧ '<' ∉ rest.head? := by
  rcases yields_readType_iff.1 h with ⟨s', _, _, hs, -⟩ | ⟨-, head, after, hhead, hafter⟩
  · exact absurd (by rw [hs]; rfl) (brace_notMem_head?_text_append p rest)
  · obtain ⟨p', hp', htext⟩ := exists_path_of_readHead hhead
    -- Neither arguments nor ranks are part of a path, so that none of them have been read.
    obtain ⟨rfl, hlist⟩ : after = rest ∧ '<' ∉ after.head? := by
      rcases hafter with ⟨hlist, hranks⟩ | ⟨s', args, after', rfl, hargs, hranks⟩
      · rcases yields_readRanks_iff.1 hranks with ⟨-, rfl, -⟩ | ⟨blanks, after', -, rfl, hmore⟩
        · exact ⟨rfl, hlist⟩
        · have hle : rest.length ≤ (blanks ++ ']' :: after').length := by
            have hbound : rest.length ≤ after'.length := hmore.rest_bound
            rw [List.length_append, List.length_cons]
            omega
          exact absurd (isNamePart_or_mark_of_append_eq htext hle) (by decide)
      · have hle : rest.length ≤ s'.length := by
          have hlt : after'.length < s'.length := hargs.rest_bound
          have hbound : rest.length ≤ after'.length := hranks.rest_bound
          omega
        exact absurd (isNamePart_or_mark_of_append_eq htext hle) (by decide)
    obtain rfl := Path.text_injective (List.append_cancel_right htext)
    exact ⟨endsPath_of_readHead hp' rfl hhead, hlist⟩

/-- A type is read exactly if the text in front of what remains is derived as it, and what remains
does not go on with it. -/
theorem yields_readType_iff_derives {s rest : List Char} {t : TypeRef} :
    Yields (readType s) t rest ↔ ∃ l, s = l ++ rest ∧ Derives l t ∧ EndsType l rest := by
  constructor
  · intro h
    obtain ⟨l, rfl, hderives⟩ := exists_derives_of_readType h
    obtain ⟨u, after, hranks⟩ := exists_readRanks_of_readType h
    refine ⟨l, rfl, hderives, ?_, bracket_notMem_of_readRanks hranks⟩
    rintro p rfl
    exact endsPath_of_readType h
  · rintro ⟨l, rfl, hderives, hrest⟩
    exact hderives.yields_of_endsType hrest

/-! ## The longest type at the front -/

/-- The text is one that is taken for a type. -/
def IsTypeText (l : List Char) : Prop := ∃ t, parse (String.ofList l) = .ok t

/-- The texts that are taken for types are those that are derived. -/
theorem isTypeText_iff {l : List Char} : IsTypeText l ↔ ∃ t, Derives l t := by
  simp only [IsTypeText, parse_eq_ok_iff, String.toList_ofList]

/-- What ends a path still ends it when it is cut off. -/
theorem EndsPath.of_append {p : Path} {rest tail : List Char} (h : EndsPath p (rest ++ tail)) :
    EndsPath p rest := by
  have hhead : ∀ c ∈ rest.head?, c ∈ (rest ++ tail).head? := fun c hc => by
    rw [List.head?_append, Option.mem_def.1 hc]
    rfl
  exact ⟨fun c hc => h.name c (hhead c hc), fun hnil hc => h.dot hnil (hhead _ hc),
    fun hc => h.plus (hhead _ hc),
    fun htext hcolons => h.root htext (hcolons.trans (List.prefix_append rest tail))⟩

/-- What ends a type still ends it when it is cut off. -/
theorem EndsType.of_append {l rest tail : List Char} (h : EndsType l (rest ++ tail)) :
    EndsType l rest := by
  have hhead : ∀ c ∈ rest.head?, c ∈ (rest ++ tail).head? := fun c hc => by
    rw [List.head?_append, Option.mem_def.1 hc]
    rfl
  refine ⟨fun p hp => ?_, fun hc => h.rank (hhead _ hc)⟩
  obtain ⟨hpath, hlist⟩ := h.bare p hp
  exact ⟨hpath.of_append, fun hc => hlist (hhead _ hc)⟩

/-- Behind the whole of a text, nothing goes on with it. -/
theorem endsType_nil (l : List Char) : EndsType l [] := by
  have hend : EndsBase [] := by simp [EndsBase]
  exact ⟨hend.endsBare l, by simp⟩

/-- What is read as a type is the longest one at the front. -/
theorem exists_isLongestFront {s rest : List Char} {t : TypeRef} (h : Yields (readType s) t rest) :
    ∃ front, s = front ++ rest ∧ IsLongestFront IsTypeText s front := by
  obtain ⟨front, rfl, hderives, hrest⟩ := yields_readType_iff_derives.1 h
  refine ⟨front, rfl, List.prefix_append front rest, isTypeText_iff.2 ⟨t, hderives⟩, ?_⟩
  rintro l ⟨tail, hl⟩ htype
  obtain ⟨u, hu⟩ := isTypeText_iff.1 htype
  rcases List.append_eq_append_iff.1 hl with ⟨more, rfl, -⟩ | ⟨more, rfl, rfl⟩
  · rw [List.length_append]
    omega
  · -- The longer text, by itself, is read as a whole, and also as far as its front.
    have hshort := hderives.yields_of_endsType hrest.of_append
    have hwhole := hu.yields_of_endsType (endsType_nil _)
    rw [List.append_nil] at hwhole
    obtain ⟨-, rfl⟩ := hshort.unique hwhole
    exact Nat.le_of_eq (congrArg List.length (List.append_nil front))

/-! ## Trailing input -/

/-- The answer to a text is a type that takes all of it, a report of what remains behind a type, or
one of a misreading. -/
theorem parse_eq_or (source : String) :
    (∃ t, Yields (readType source.toList) t [] ∧ parse source = .ok t) ∨
      (∃ t rest, Yields (readType source.toList) t rest ∧ rest ≠ [] ∧
        parse source = .error (Report.trailing source.toList rest)) ∨
      ∃ m, readType source.toList = .error m ∧ parse source = .error (m.report source.toList) := by
  unfold parse
  dsimp only
  cases hread : readType source.toList with
  | error m => exact .inr (.inr ⟨m, rfl, rfl⟩)
  | ok read =>
    obtain ⟨t, rest, hlt⟩ := read
    cases rest with
    | nil => exact .inl ⟨t, ⟨_, rfl, rfl⟩, rfl⟩
    | cons c rest => exact .inr (.inl ⟨t, c :: rest, ⟨_, rfl, rfl⟩, List.cons_ne_nil c rest, rfl⟩)

/-- Where trailing input is told, the text in front of it is the longest one that is taken for a
type: the primary label goes from its end to the end of the source, and the other covers it. And
what a type is read from without taking all of it is told as trailing input. -/
theorem trailing_marks_longest_front (source : String) :
    (∀ report, parse source = .error report →
        (∃ d ∈ report.diagnostics, d.code = some .trailingInput) →
        ∃ d front, report = ⟨[d]⟩ ∧ IsLongestFront IsTypeText source.toList front ∧
          d.labels.map (fun label => (label.isPrimary, label.span.start, label.span.stop)) =
            [(true, byteLength front, source.utf8ByteSize), (false, 0, byteLength front)]) ∧
      ∀ t rest, readType source.toList = .ok (t, rest) → rest.val ≠ [] →
        ∃ d, parse source = .error ⟨[d]⟩ ∧ d.code = some .trailingInput := by
  constructor
  · rintro report hreport ⟨d, hd, hcode⟩
    rcases parse_eq_or source with ⟨t, -, hparse⟩ | ⟨t, rest, hread, hrest, hparse⟩ |
      ⟨m, -, hparse⟩
    · cases hparse.symm.trans hreport
    · obtain rfl := Except.error.inj (hparse.symm.trans hreport)
      obtain ⟨front, hs, hlongest⟩ := exists_isLongestFront hread
      have hstart : offset source.toList rest = byteLength front := byteLength_sub_of_eq hs
      have hle : byteLength front ≤ source.utf8ByteSize := by
        rw [← byteLength_toList, hs, byteLength_append]
        omega
      refine ⟨_, front, rfl, hlongest, ?_⟩
      rw [hstart, byteLength_toList]
      simp [Label.primary, Label.secondary, Span.between, Nat.max_eq_left hle]
    · obtain rfl := Except.error.inj (hparse.symm.trans hreport)
      obtain rfl := List.mem_singleton.1 hd
      exact absurd (Option.some.inj hcode) m.mistake.code_ne_trailingInput
  · intro t rest hread hrest
    rcases parse_eq_or source with ⟨u, hwhole, -⟩ | ⟨u, rest', -, -, hparse⟩ | ⟨m, herror, -⟩
    · exact absurd (Yields.unique ⟨rest, hread, rfl⟩ hwhole).2 hrest
    · exact ⟨_, hparse, rfl⟩
    · cases herror.symm.trans hread

/-- Behind arguments, a dot does not go on with a type, and neither does what stands behind it. The
characters there take three bytes. -/
theorem memberBehindArguments_told :
    (∃ t rest, readType "Foo<int>.é".toList = .ok (t, rest) ∧ rest.val ≠ []) ∧
      ∃ d front, parse "Foo<int>.é" = .error ⟨[d]⟩ ∧ d.code = some .trailingInput ∧
        IsLongestFront IsTypeText "Foo<int>.é".toList front ∧ byteLength front = 8 ∧
        d.labels.map (fun label => (label.isPrimary, label.span.start, label.span.stop)) =
          [(true, 8, 11), (false, 0, 8)] := by
  have hparse : parse "Foo<int>.é" = .error (Report.trailing "Foo<int>.é".toList ".é".toList) := by
    decide +kernel
  have hplaces : ((Report.trailing "Foo<int>.é".toList ".é".toList).diagnostics.flatMap
      Diagnostic.labels).map (fun label => (label.isPrimary, label.span.start, label.span.stop)) =
        [(true, 8, 11), (false, 0, 8)] := by decide +kernel
  obtain ⟨t, rest, hread, hrest⟩ : ∃ t rest, readType "Foo<int>.é".toList = .ok (t, rest) ∧
      rest.val ≠ [] := by
    rcases parse_eq_or "Foo<int>.é" with ⟨t, -, hok⟩ | ⟨t, _, ⟨r, hread, rfl⟩, hne, -⟩ |
      ⟨m, -, herror⟩
    · cases hparse.symm.trans hok
    · exact ⟨t, r, hread, hne⟩
    · have hcode := congrArg (fun r => r.diagnostics.map Diagnostic.code)
        (Except.error.inj (hparse.symm.trans herror))
      exact absurd (Option.some.inj (List.cons.inj hcode).1).symm m.mistake.code_ne_trailingInput
  obtain ⟨hmarks, htold⟩ := trailing_marks_longest_front "Foo<int>.é"
  obtain ⟨d, hd, hcode⟩ := htold t rest hread hrest
  obtain ⟨d', front, hreport, hlongest, hlabels⟩ :=
    hmarks _ hd ⟨d, List.mem_singleton_self d, hcode⟩
  obtain rfl : d = d' := (List.cons.inj (Report.mk.inj hreport)).1
  rw [Except.error.inj (hparse.symm.trans hd), List.flatMap_singleton, hlabels] at hplaces
  have hbytes : byteLength front = 8 :=
    (Prod.mk.inj (Prod.mk.inj (List.cons.inj hplaces).1).2).1
  exact ⟨⟨t, rest, hread, hrest⟩, d, front, hd, hcode, hlongest, hbytes, hlabels.trans hplaces⟩

end TypeRef

end ContentModels
