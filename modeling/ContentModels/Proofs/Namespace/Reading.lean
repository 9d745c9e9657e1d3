import ContentModels.Namespace.Reader
import ContentModels.Proofs.Span
import ContentModels.Proofs.TypeRef.Reading

/-!
# Which texts are namespaces

`Namespace.parse` takes a text exactly if it is made of identifiers, at least one, with single dots
between them, and then gives the namespace of that text (`parse_eq_ok_iff`). Of any other text, the
report marks what follows the longest namespace at its front (`parse_marks_longest_front`): the
reader stops behind segments only where no segment follows, so that no namespace at the front is
longer than what it has read.
-/

namespace ContentModels

namespace Namespace

open TypeRef (marked toList_intercalate)

/-- The namespace is made of identifiers, at least one, with single dots between them. -/
def IsWellFormed (ns : Namespace) : Prop :=
  ∃ segments : List String, segments ≠ [] ∧ (∀ s ∈ segments, IsIdentifier s) ∧
    ns = .ofSegments segments

/-- What is read as segments are identifiers, each with a dot before it. -/
theorem exists_marked_append_afterSegments (s : List Char) :
    ∃ names : List String, (∀ n ∈ names, IsIdentifier n) ∧
      s = marked '.' names ++ (afterSegments s).val := by
  fun_induction afterSegments s with
  | case1 s hnext => exact ⟨[], by simp, rfl⟩
  | case2 s r hnext hname => exact ⟨[], by simp, rfl⟩
  | case3 s r hnext name r' hname read ih =>
    obtain ⟨names, hnames, hrest⟩ := ih
    obtain ⟨hident, hs, -⟩ := exists_readName?_iff.1 ⟨r', hname, rfl⟩
    refine ⟨name :: names, List.forall_mem_cons.2 ⟨hident, hnames⟩, ?_⟩
    calc s = '.' :: (name.toList ++ r'.val) := hs ▸ next?_eq_some.1 hnext
      _ = '.' :: (name.toList ++ (marked '.' names ++ (afterSegments read.val).val)) :=
        congrArg (fun l => '.' :: (name.toList ++ l)) hrest
      _ = marked '.' (name :: names) ++ (afterSegments read.val).val := by simp [marked]

/-- What is read as a namespace is an identifier and others, each with a dot before it. -/
theorem exists_segments_of_afterNamespace? {s : List Char} {r : Shorter s}
    (h : afterNamespace? s = some r) :
    ∃ (first : String) (names : List String), (∀ n ∈ first :: names, IsIdentifier n) ∧
      s = first.toList ++ marked '.' names ++ r.val := by
  obtain ⟨⟨first, r'⟩, hname, rfl⟩ := Option.map_eq_some_iff.1 h
  obtain ⟨hident, hs, -⟩ := exists_readName?_iff.1 ⟨r', hname, rfl⟩
  obtain ⟨names, hnames, hrest⟩ := exists_marked_append_afterSegments r'.val
  refine ⟨first, names, List.forall_mem_cons.2 ⟨hident, hnames⟩, ?_⟩
  rw [List.append_assoc]
  exact hs.trans (congrArg (first.toList ++ ·) hrest)

/-- Where an identifier stands in front, and others behind it, each with a dot before it, names are
read that go at least as far. -/
theorem exists_readName?_of_segments {s rest : List Char} {first : String} {names : List String}
    (hall : ∀ n ∈ first :: names, IsIdentifier n)
    (hs : s = first.toList ++ (marked '.' names ++ rest)) :
    ∃ (name : String) (r : Shorter s), readName? s = some (name, r) ∧
      (afterSegments r.val).val.length ≤ rest.length := by
  induction names generalizing s first with
  | nil =>
    -- What follows the last identifier may go on with it.
    obtain ⟨name, r, hname, hr⟩ := exists_readName?_of_eq (hall first List.mem_cons_self) hs
    exact ⟨name, r, hname, Nat.le_trans (afterSegments r.val).property hr⟩
  | cons n names ih =>
    obtain ⟨hident, hnames⟩ := List.forall_mem_cons.1 hall
    have hdot : marked '.' (n :: names) ++ rest =
        '.' :: (n.toList ++ (marked '.' names ++ rest)) := by simp [marked]
    rw [hdot] at hs
    obtain ⟨r, hname, hr⟩ := exists_readName?_iff.2 ⟨hident, hs, by simp; decide⟩
    obtain ⟨r', hnext, hr'⟩ := exists_next?_of_eq hr
    obtain ⟨name, r'', hname', hle⟩ := ih hnames hr'
    refine ⟨first, r, hname, ?_⟩
    rw [afterSegments, hnext]
    dsimp only
    rw [hname']
    exact hle

/-- Where segments of a namespace stand in front, a namespace is read that goes at least as far. -/
theorem exists_afterNamespace?_of_eq {s rest : List Char} {first : String} {names : List String}
    (hall : ∀ n ∈ first :: names, IsIdentifier n)
    (hs : s = first.toList ++ marked '.' names ++ rest) :
    ∃ r, afterNamespace? s = some r ∧ r.val.length ≤ rest.length := by
  rw [List.append_assoc] at hs
  obtain ⟨name, r, hname, hr⟩ := exists_readName?_of_segments hall hs
  exact ⟨_, Option.map_eq_some_iff.2 ⟨_, hname, rfl⟩, hr⟩

/-- The whole text is a namespace exactly if it is an identifier and others follow, each with a dot
before it. -/
theorem exists_afterNamespace?_eq_nil_iff {s : List Char} :
    (∃ r, afterNamespace? s = some r ∧ r.val = []) ↔
      ∃ (first : String) (names : List String), (∀ n ∈ first :: names, IsIdentifier n) ∧
        s = first.toList ++ marked '.' names := by
  constructor
  · rintro ⟨r, hread, hr⟩
    obtain ⟨first, names, hall, hs⟩ := exists_segments_of_afterNamespace? hread
    exact ⟨first, names, hall, by rw [hs, hr, List.append_nil]⟩
  · rintro ⟨first, names, hall, rfl⟩
    obtain ⟨r, hread, hr⟩ := exists_afterNamespace?_of_eq hall (List.append_nil _).symm
    exact ⟨r, hread, List.length_eq_zero_iff.1 (Nat.le_zero.1 hr)⟩

/-- A namespace is well formed exactly if its text is an identifier and others follow, each with a
dot before it. -/
theorem isWellFormed_iff {ns : Namespace} :
    ns.IsWellFormed ↔
      ∃ (first : String) (names : List String), (∀ n ∈ first :: names, IsIdentifier n) ∧
        ns.text.toList = first.toList ++ marked '.' names := by
  constructor
  · rintro ⟨segments, hne, hall, rfl⟩
    obtain ⟨first, names, rfl⟩ := List.exists_cons_of_ne_nil hne
    exact ⟨first, names, hall, toList_intercalate '.' first names⟩
  · rintro ⟨first, names, hall, htext⟩
    refine ⟨first :: names, List.cons_ne_nil first names, hall, ?_⟩
    obtain ⟨text⟩ := ns
    rw [ofSegments, mk.injEq, ← String.toList_inj, htext]
    exact (toList_intercalate '.' first names).symm

/-- A text is taken for a namespace exactly if it is made of identifiers, at least one, with single
dots between them, and the namespace has that text. -/
theorem parse_eq_ok_iff {source : String} {ns : Namespace} :
    parse source = .ok ns ↔ ns = ⟨source⟩ ∧ ns.IsWellFormed := by
  have hread : parse source = .ok ns ↔
      ns = ⟨source⟩ ∧ ∃ r, afterNamespace? source.toList = some r ∧ r.val = [] := by
    unfold parse
    split
    · rename_i hsome
      simp [hsome, eq_comm]
    · rename_i hnot
      simp only [reduceCtorEq, false_iff, not_and]
      rintro - ⟨⟨l, hl⟩, hr, rfl⟩
      exact hnot hl hr
  rw [hread]
  refine and_congr_right ?_
  rintro rfl
  rw [exists_afterNamespace?_eq_nil_iff, isWellFormed_iff]

/-! ## Texts that are no namespaces -/

/-- The text is that of a well-formed namespace. -/
def IsNamespaceText (l : List Char) : Prop := (Namespace.mk (String.ofList l)).IsWellFormed

/-- The text of a namespace is an identifier and others, each with a dot before it. -/
theorem isNamespaceText_iff {l : List Char} :
    IsNamespaceText l ↔
      ∃ (first : String) (names : List String), (∀ n ∈ first :: names, IsIdentifier n) ∧
        l = first.toList ++ marked '.' names := by
  rw [IsNamespaceText, isWellFormed_iff, String.toList_ofList]

/-- What is read as a namespace is the longest one at the front. -/
theorem exists_isLongestFront {s : List Char} {r : Shorter s} (h : afterNamespace? s = some r) :
    ∃ front, s = front ++ r.val ∧ IsLongestFront IsNamespaceText s front := by
  obtain ⟨first, names, hall, hs⟩ := exists_segments_of_afterNamespace? h
  refine ⟨_, hs, ⟨⟨_, hs.symm⟩, isNamespaceText_iff.2 ⟨first, names, hall, rfl⟩, ?_⟩⟩
  rintro l ⟨rest, hrest⟩ hl
  obtain ⟨first', names', hall', rfl⟩ := isNamespaceText_iff.1 hl
  obtain ⟨r', hread, hle⟩ := exists_afterNamespace?_of_eq hall' hrest.symm
  obtain rfl := Option.some.inj (h.symm.trans hread)
  exact length_le_of_append_eq (hs.symm.trans hrest.symm) hle

/-- Where no namespace is read, none stands at the front. -/
theorem not_isNamespaceText_of_eq_none {s : List Char} (h : afterNamespace? s = none) :
    ∀ l, l <+: s → ¬ IsNamespaceText l := by
  rintro l ⟨rest, hrest⟩ hl
  obtain ⟨first, names, hall, rfl⟩ := isNamespaceText_iff.1 hl
  obtain ⟨r, hread, -⟩ := exists_afterNamespace?_of_eq hall hrest.symm
  cases h.symm.trans hread

/-- The report marks a text from behind the longest namespace at its front, or from its start if
none stands there, and covers one byte at least. -/
theorem invalidReport_marks (source : String) :
    ∃ d label front, invalidReport source = ⟨[d]⟩ ∧ d.code = some .invalidNamespace ∧
      d.labels = [label] ∧
      (IsLongestFront IsNamespaceText source.toList front ∨
        front = [] ∧ ∀ l, l <+: source.toList → ¬ IsNamespaceText l) ∧
      label.span.start = byteLength front ∧
      label.span.stop = max source.utf8ByteSize (byteLength front + 1) := by
  have hstop : ∀ n, n ≤ max source.utf8ByteSize (n + 1) := by omega
  unfold invalidReport
  dsimp only
  rw [byteLength_toList]
  cases hread : afterNamespace? source.toList with
  | some r =>
    obtain ⟨front, hs, hlongest⟩ := exists_isLongestFront hread
    have hstart := byteLength_sub_of_eq hs
    rw [byteLength_toList] at hstart
    dsimp only
    rw [hstart]
    exact ⟨_, _, front, rfl, rfl, rfl, .inl hlongest, rfl, Span.stop_between (hstop _)⟩
  | none =>
    dsimp only
    rw [byteLength_toList, Nat.sub_self]
    exact ⟨_, _, [], rfl, rfl, rfl, .inr ⟨rfl, not_isNamespaceText_of_eq_none hread⟩, rfl,
      Span.stop_between (hstop 0)⟩

/-- Exactly the identifiers with single dots between them are taken for namespaces, each for the one
of its own text. Of any other text, a single problem is told, and marked from behind the longest
namespace at its front, or from its start if none stands there. -/
theorem parse_marks_longest_front (source : String) :
    (∀ ns, parse source = .ok ns ↔ ns = ⟨source⟩ ∧ ns.IsWellFormed) ∧
      (¬ (Namespace.mk source).IsWellFormed →
        ∃ d label front, parse source = .error ⟨[d]⟩ ∧ d.code = some .invalidNamespace ∧
          d.labels = [label] ∧
          (IsLongestFront IsNamespaceText source.toList front ∨
            front = [] ∧ ∀ l, l <+: source.toList → ¬ IsNamespaceText l) ∧
          label.span.start = byteLength front ∧
          label.span.stop = max source.utf8ByteSize (byteLength front + 1)) := by
  refine ⟨fun ns => parse_eq_ok_iff, fun hnot => ?_⟩
  have herror : parse source = .error (invalidReport source) := by
    unfold parse
    split
    · rename_i hread
      exact absurd (parse_eq_ok_iff.1 (by rw [parse, hread])).2 hnot
    · rfl
  rw [herror]
  obtain ⟨d, label, front, hreport, hmarks⟩ := invalidReport_marks source
  exact ⟨d, label, front, by rw [hreport], hmarks⟩

/-- Of two dots one behind the other, no identifier follows the first, and the label starts there:
`My` is a namespace and nothing longer is. -/
theorem repeatedDot_marked :
    ¬ (Namespace.mk "My..Models").IsWellFormed ∧
      ∃ d label front, parse "My..Models" = .error ⟨[d]⟩ ∧ d.code = some .invalidNamespace ∧
        d.labels = [label] ∧ IsLongestFront IsNamespaceText "My..Models".toList front ∧
        byteLength front = 2 ∧ label.span.start = 2 ∧ label.span.stop = 10 := by
  have herror : parse "My..Models" = .error (invalidReport "My..Models") := by decide +kernel
  have hspans : ((invalidReport "My..Models").diagnostics.flatMap Diagnostic.labels).map
      (fun label => (label.span.start, label.span.stop)) = [(2, 10)] := by decide +kernel
  have hnot : ¬ (Namespace.mk "My..Models").IsWellFormed := fun hformed => by
    cases herror.symm.trans (parse_eq_ok_iff.2 ⟨rfl, hformed⟩)
  obtain ⟨d, label, front, hparse, hcode, hlabels, hfront, hstart, -⟩ :=
    (parse_marks_longest_front "My..Models").2 hnot
  rw [Except.error.inj (herror.symm.trans hparse)] at hspans
  simp only [List.flatMap_cons, List.flatMap_nil, hlabels, List.append_nil, List.map_cons,
    List.map_nil, List.cons.injEq, Prod.mk.injEq, and_true] at hspans
  have hbytes : byteLength front = 2 := hstart.symm.trans hspans.1
  refine ⟨hnot, d, label, front, hparse, hcode, hlabels, ?_, hbytes, hspans⟩
  rcases hfront with hfront | ⟨rfl, -⟩
  · exact hfront
  · cases hbytes

end Namespace

end ContentModels
