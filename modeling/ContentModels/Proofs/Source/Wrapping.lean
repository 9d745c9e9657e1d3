import ContentModels.Proofs.Loop
import ContentModels.Proofs.Source.Comment
import ContentModels.Proofs.Span

/-!
# Wrapped notes

Where a note is broken, told by positions in it: at the first space behind the width, and behind
every break at the first space behind the width from there (`Comment.IsBreak`). Which lines it is
broken into is told by properties of the lines alone, but for a space at the end of the note, which
is left out if a break falls on it (`Comment.Wraps`). The lines of `Comment.noteLines` have these
properties, and no others do (`wraps_iff`). They end at the breaks (`isBreak_iff`), and their words
are those of the note (`flatMap_words_noteLines`).

The lines can be cut off by a loop that counts characters where it looks for a space, and bytes
where it takes a line out of the note. `Comment.wrapLoop` is this loop. It ends, always cuts between
characters, and gives the same lines (`wrapLoop_eq`).
-/

namespace ContentModels

namespace Comment

/-! ## Breaks -/

/-- The first space of a note from a position on. -/
structure IsFirstSpace (note : List Char) (p n : Nat) : Prop where
  /-- It is a space. -/
  space : note[n]? = some ' '
  /-- It does not stand before the position. -/
  le : p ≤ n
  /-- There is none between. -/
  first : ∀ i, p ≤ i → i < n → note[i]? ≠ some ' '

/-- The positions at which a note is broken: the first space behind the width, and the first space
behind the width from a break on. -/
inductive IsBreak (width : Nat) (note : List Char) : Nat → Prop
  | first {n : Nat} (h : IsFirstSpace note width n) : IsBreak width note n
  | further {m n : Nat} (hm : IsBreak width note m) (h : IsFirstSpace note (m + 1 + width) n) :
    IsBreak width note n

/-- The last break of a note falls on its last character. -/
def BreaksAtEnd (width : Nat) (note : List Char) : Prop :=
  ∃ n, IsBreak width note n ∧ n + 1 = note.length

variable {width : Nat} {note line rest : List Char}

/-- From a position on, there is one first space. -/
theorem IsFirstSpace.unique {p n n' : Nat} (h : IsFirstSpace note p n)
    (h' : IsFirstSpace note p n') : n = n' := by
  rcases Nat.lt_trichotomy n n' with hlt | heq | hgt
  · exact absurd h.space (h'.first n h.le hlt)
  · exact heq
  · exact absurd h'.space (h.first n' h'.le hgt)

/-- Behind a text, the first space stands where it stands in what remains. -/
theorem isFirstSpace_append_iff {front : List Char} {p n : Nat} :
    IsFirstSpace (front ++ rest) (front.length + p) (front.length + n) ↔
      IsFirstSpace rest p n := by
  have hget : ∀ i, (front ++ rest)[front.length + i]? = rest[i]? := fun i => by
    rw [List.getElem?_append_right (Nat.le_add_right _ _), Nat.add_sub_cancel_left]
  constructor
  · rintro ⟨hspace, hle, hfirst⟩
    exact
      { space := hget n ▸ hspace
        le := Nat.le_of_add_le_add_left hle
        first := fun i hp hn => hget i ▸
          hfirst (front.length + i) (Nat.add_le_add_left hp _) (Nat.add_lt_add_left hn _) }
  · rintro ⟨hspace, hle, hfirst⟩
    refine ⟨(hget n).trans hspace, Nat.add_le_add_left hle _, fun i hp hn => ?_⟩
    obtain ⟨j, rfl⟩ := Nat.exists_eq_add_of_le (Nat.le_of_add_right_le hp)
    rw [hget]
    exact hfirst j (Nat.le_of_add_le_add_left hp) (Nat.lt_of_add_lt_add_left hn)

/-- A text has a space behind the width exactly if it has one at such a position. -/
theorem space_mem_drop_iff : ' ' ∈ note.drop width ↔ ∃ n, width ≤ n ∧ note[n]? = some ' ' := by
  rw [List.mem_iff_getElem?]
  constructor
  · rintro ⟨i, hi⟩
    exact ⟨width + i, Nat.le_add_right _ _, List.getElem?_drop ▸ hi⟩
  · rintro ⟨n, hn, hspace⟩
    obtain ⟨i, rfl⟩ := Nat.exists_eq_add_of_le hn
    exact ⟨i, List.getElem?_drop ▸ hspace⟩

/-- The space behind a line is the first one behind the width. -/
theorem isFirstSpace_length (hwidth : width ≤ line.length) (hspace : ' ' ∉ line.drop width) :
    IsFirstSpace (line ++ ' ' :: rest) width line.length where
  space := by simp
  le := hwidth
  first i hp hn hi := hspace (space_mem_drop_iff.2
    ⟨i, hp, by rwa [List.getElem?_append_left hn] at hi⟩)

/-- A note is broken at spaces behind the width. -/
theorem IsBreak.space_mem_drop {n : Nat} (h : IsBreak width note n) : ' ' ∈ note.drop width := by
  cases h with
  | first h => exact space_mem_drop_iff.2 ⟨n, h.le, h.space⟩
  | further _ h => exact space_mem_drop_iff.2 ⟨n, Nat.le_of_add_left_le h.le, h.space⟩

/-- A note is broken behind its first line, and then where what remains is broken. -/
theorem isBreak_append_iff {n : Nat} (hwidth : width ≤ line.length)
    (hspace : ' ' ∉ line.drop width) :
    IsBreak width (line ++ ' ' :: rest) n ↔
      n = line.length ∨ ∃ m, IsBreak width rest m ∧ n = line.length + 1 + m := by
  have hfirst : IsFirstSpace (line ++ ' ' :: rest) width line.length :=
    isFirstSpace_length hwidth hspace
  have hbehind : ∀ p m, IsFirstSpace (line ++ ' ' :: rest) (line.length + 1 + p)
      (line.length + 1 + m) ↔ IsFirstSpace rest p m := fun p m => by
    have h : IsFirstSpace (line ++ [' '] ++ rest) ((line ++ [' ']).length + p)
        ((line ++ [' ']).length + m) ↔ IsFirstSpace rest p m := isFirstSpace_append_iff
    rwa [List.append_assoc, List.singleton_append, List.length_append, List.length_singleton] at h
  -- A space that stands further than behind the line is one of what remains.
  have hshift : ∀ {p n}, IsFirstSpace (line ++ ' ' :: rest) (line.length + 1 + p) n →
      ∃ m, IsFirstSpace rest p m ∧ n = line.length + 1 + m := fun {p n} h => by
    obtain ⟨m, rfl⟩ := Nat.exists_eq_add_of_le (Nat.le_of_add_right_le h.le)
    exact ⟨m, (hbehind p m).1 h, rfl⟩
  constructor
  · intro h
    induction h with
    | first h => exact .inl (h.unique hfirst)
    | further _ h ih =>
      rcases ih with rfl | ⟨m, hm, rfl⟩
      · obtain ⟨k, hk, rfl⟩ := hshift h
        exact .inr ⟨k, .first hk, rfl⟩
      · rw [Nat.add_assoc _ m 1, Nat.add_assoc _ (m + 1) width] at h
        obtain ⟨k, hk, rfl⟩ := hshift h
        exact .inr ⟨k, .further hm hk, rfl⟩
  · rintro (rfl | ⟨m, hm, rfl⟩)
    · exact .first hfirst
    · induction hm with
      | first h => exact .further (.first hfirst) ((hbehind _ _).2 h)
      | further _ h ih =>
        refine .further ih ?_
        rw [Nat.add_assoc _ _ 1, Nat.add_assoc _ _ width]
        exact (hbehind _ _).2 h

/-- The last break falls on the last character if nothing stands behind the first line, or if it
does so in what remains. -/
theorem breaksAtEnd_append_iff (hwidth : width ≤ line.length) (hspace : ' ' ∉ line.drop width) :
    BreaksAtEnd width (line ++ ' ' :: rest) ↔ rest = [] ∨ BreaksAtEnd width rest := by
  simp only [BreaksAtEnd, isBreak_append_iff hwidth hspace, List.length_append, List.length_cons]
  constructor
  · rintro ⟨n, rfl | ⟨m, hm, rfl⟩, hend⟩
    · exact .inl (List.eq_nil_of_length_eq_zero (by omega))
    · exact .inr ⟨m, hm, by omega⟩
  · rintro (rfl | ⟨m, hm, hend⟩)
    · exact ⟨line.length, .inl rfl, rfl⟩
    · exact ⟨line.length + 1 + m, .inr ⟨m, hm, rfl⟩, by omega⟩

/-- A note without a space behind the width is not broken at its end. -/
theorem not_breaksAtEnd (hspace : ' ' ∉ note.drop width) : ¬ BreaksAtEnd width note :=
  fun ⟨_, hn, _⟩ => hspace hn.space_mem_drop

/-! ## Lines -/

/-- The lines are those of a note that is broken at the first spaces behind the width. -/
structure Wraps (width : Nat) (note : List Char) (lines : List (List Char)) : Prop where
  /-- Joined with spaces, they give back the note, but for a space at its end. -/
  joined : [' '].intercalate lines = note ∨ [' '].intercalate lines ++ [' '] = note
  /-- The space at the end is left out exactly if the last break falls on it. -/
  leftOut : [' '].intercalate lines ++ [' '] = note ↔ BreaksAtEnd width note
  /-- None of them is empty. -/
  nonempty : ∀ line ∈ lines, line ≠ []
  /-- All but the last go on for the width. -/
  wide : ∀ line ∈ lines.dropLast, width ≤ line.length
  /-- They hold no space behind the width. -/
  unbroken : ∀ line ∈ lines, ' ' ∉ line.drop width

/-- A line with further lines behind it is joined to what these are joined to. -/
theorem intercalate_cons {lines : List (List Char)} (hlines : lines ≠ []) :
    [' '].intercalate (line :: lines) = line ++ ' ' :: [' '].intercalate lines := by
  cases lines with
  | nil => exact absurd rfl hlines
  | cons next lines =>
    rw [List.intercalate_cons_cons, List.append_assoc, List.singleton_append]

/-- Lines that are not empty are joined to a text that is not empty. -/
theorem intercalate_ne_nil {lines : List (List Char)} (hlines : lines ≠ [])
    (hnonempty : ∀ line ∈ lines, line ≠ []) : [' '].intercalate lines ≠ [] := by
  cases lines with
  | nil => exact absurd rfl hlines
  | cons line lines =>
    have hline := hnonempty line List.mem_cons_self
    cases lines with
    | nil => rwa [List.intercalate_singleton]
    | cons next lines =>
      rw [intercalate_cons (List.cons_ne_nil next lines)]
      exact List.append_ne_nil_of_left_ne_nil hline _

/-- The empty note has no lines. -/
theorem wraps_nil_iff {lines : List (List Char)} : Wraps width [] lines ↔ lines = [] := by
  constructor
  · intro h
    by_contra hlines
    rcases h.joined with hjoined | hjoined
    · exact intercalate_ne_nil hlines h.nonempty hjoined
    · exact absurd hjoined (by simp)
  · rintro rfl
    exact
      { joined := .inl rfl
        leftOut := iff_of_false (List.cons_ne_nil ' ' []) (not_breaksAtEnd (by simp))
        nonempty := by simp
        wide := by simp
        unbroken := by simp }

/-- A note without a space behind the width is one line. -/
theorem wraps_iff_of_notMem {lines : List (List Char)} (hne : note ≠ [])
    (hspace : ' ' ∉ note.drop width) : Wraps width note lines ↔ lines = [note] := by
  constructor
  · intro h
    have hjoined : [' '].intercalate lines = note :=
      h.joined.resolve_right fun hend => not_breaksAtEnd hspace (h.leftOut.1 hend)
    cases lines with
    | nil => exact absurd hjoined.symm hne
    | cons line lines =>
      by_cases hlines : lines = []
      · rw [← hjoined, hlines, List.intercalate_singleton]
      · -- The space that the first line is joined with would stand behind the width.
        rw [intercalate_cons hlines] at hjoined
        have hwidth : width ≤ line.length :=
          h.wide line (List.dropLast_cons_of_ne_nil hlines ▸ List.mem_cons_self)
        have hbreak : IsBreak width note line.length :=
          .first (hjoined ▸ isFirstSpace_length hwidth (h.unbroken line List.mem_cons_self))
        exact absurd hbreak.space_mem_drop hspace
  · rintro rfl
    exact
      { joined := .inl List.intercalate_singleton
        leftOut := iff_of_false (by simp) (not_breaksAtEnd hspace)
        nonempty := by simpa using hne
        wide := by simp
        unbroken := by simpa using hspace }

/-- A line with only a space behind it is the one line. -/
theorem wraps_append_space (hne : line ≠ []) (hwidth : width ≤ line.length)
    (hspace : ' ' ∉ line.drop width) : Wraps width (line ++ [' ']) [line] where
  joined := .inr (by rw [List.intercalate_singleton])
  leftOut := iff_of_true (by rw [List.intercalate_singleton])
    ((breaksAtEnd_append_iff hwidth hspace).2 (.inl rfl))
  nonempty := by simpa using hne
  wide := by simp
  unbroken := by simpa using hspace

/-- A first line stands in front of the lines of what remains. -/
theorem wraps_cons_iff {lines : List (List Char)} (hne : line ≠ []) (hwidth : width ≤ line.length)
    (hspace : ' ' ∉ line.drop width) (hrest : rest ≠ []) (hlines : lines ≠ []) :
    Wraps width (line ++ ' ' :: rest) (line :: lines) ↔ Wraps width rest lines := by
  have hjoined : [' '].intercalate (line :: lines) = line ++ ' ' :: rest ↔
      [' '].intercalate lines = rest := by
    rw [intercalate_cons hlines, List.append_right_inj, List.cons_inj_right]
  have hleftOut : [' '].intercalate (line :: lines) ++ [' '] = line ++ ' ' :: rest ↔
      [' '].intercalate lines ++ [' '] = rest := by
    rw [intercalate_cons hlines, List.append_assoc, List.cons_append, List.append_right_inj,
      List.cons_inj_right]
  have hend : BreaksAtEnd width (line ++ ' ' :: rest) ↔ BreaksAtEnd width rest := by
    rw [breaksAtEnd_append_iff hwidth hspace, or_iff_right hrest]
  have hlast : (line :: lines).dropLast = line :: lines.dropLast :=
    List.dropLast_cons_of_ne_nil hlines
  constructor
  · rintro ⟨hj, hl, hn, hw, hu⟩
    rw [hlast] at hw
    exact
      { joined := hj.imp hjoined.1 hleftOut.1
        leftOut := hleftOut.symm.trans (hl.trans hend)
        nonempty := (List.forall_mem_cons.1 hn).2
        wide := (List.forall_mem_cons.1 hw).2
        unbroken := (List.forall_mem_cons.1 hu).2 }
  · rintro ⟨hj, hl, hn, hw, hu⟩
    exact
      { joined := hj.imp hjoined.2 hleftOut.2
        leftOut := hleftOut.trans (hl.trans hend.symm)
        nonempty := List.forall_mem_cons.2 ⟨hne, hn⟩
        wide := hlast ▸ List.forall_mem_cons.2 ⟨hwidth, hw⟩
        unbroken := List.forall_mem_cons.2 ⟨hspace, hu⟩ }

/-- A note that is not empty has a line. -/
theorem Wraps.ne_nil {lines : List (List Char)} (hpos : 0 < width) (h : Wraps width note lines)
    (hne : note ≠ []) : lines ≠ [] := by
  rintro rfl
  rcases h.joined with hjoined | hjoined
  · exact hne hjoined.symm
  · -- A space alone would be left out, but the note is not broken there.
    obtain rfl : [' '] = note := hjoined
    refine not_breaksAtEnd ?_ (h.leftOut.1 rfl)
    rw [List.drop_of_length_le (by exact hpos)]
    exact List.not_mem_nil

/-- Two first lines of a note, both with a space behind them, are the same. -/
theorem first_line_unique {line' rest' : List Char} (hwidth : width ≤ line.length)
    (hspace : ' ' ∉ line.drop width) (hwidth' : width ≤ line'.length)
    (hspace' : ' ' ∉ line'.drop width) (h : line ++ ' ' :: rest = line' ++ ' ' :: rest') :
    line = line' ∧ rest = rest' := by
  have hlength : line.length = line'.length :=
    (isFirstSpace_length hwidth hspace).unique (h ▸ isFirstSpace_length hwidth' hspace')
  obtain ⟨hline, hrest⟩ := List.append_inj h hlength
  exact ⟨hline, (List.cons.inj hrest).2⟩

/-- If a note goes on behind a first line, this is the first of its lines, and it is the only one
exactly if nothing stands behind the space. -/
theorem Wraps.head_eq {line' : List Char} {more : List (List Char)} (hwidth : width ≤ line.length)
    (hspace : ' ' ∉ line.drop width) (h : Wraps width (line ++ ' ' :: rest) (line' :: more)) :
    line' = line ∧ (rest = [] ↔ more = []) := by
  have hunbroken : ' ' ∉ line'.drop width := h.unbroken line' List.mem_cons_self
  have hjoined := h.joined
  by_cases hmore : more = []
  · rw [hmore, List.intercalate_singleton] at hjoined
    -- The first line does not go on behind the space.
    have hstops : ∀ behind, line' ≠ line ++ ' ' :: behind := by
      rintro behind rfl
      exact hunbroken (IsBreak.first (isFirstSpace_length hwidth hspace)).space_mem_drop
    have hend : line' ++ [' '] = line ++ ' ' :: rest := hjoined.resolve_left (hstops rest)
    rcases List.eq_nil_or_concat' rest with rfl | ⟨behind, last, rfl⟩
    · exact ⟨List.append_cancel_right hend, iff_of_true rfl hmore⟩
    · rw [← List.cons_append, ← List.append_assoc] at hend
      exact absurd (List.append_inj_left' hend rfl) (hstops behind)
  · have hwidth' : width ≤ line'.length :=
      h.wide line' (List.dropLast_cons_of_ne_nil hmore ▸ List.mem_cons_self)
    have hne : [' '].intercalate more ≠ [] :=
      intercalate_ne_nil hmore (List.forall_mem_cons.1 h.nonempty).2
    rw [intercalate_cons hmore, List.append_assoc, List.cons_append] at hjoined
    obtain ⟨behind, hbehind, hnote⟩ :
        ∃ behind, behind ≠ [] ∧ line' ++ ' ' :: behind = line ++ ' ' :: rest :=
      hjoined.elim (fun hnote => ⟨_, hne, hnote⟩)
        fun hnote => ⟨_, List.append_ne_nil_of_left_ne_nil hne _, hnote⟩
    obtain ⟨hline, hrest⟩ := first_line_unique hwidth' hunbroken hwidth hspace hnote
    exact ⟨hline, iff_of_false (hrest ▸ hbehind) hmore⟩

/-- If a note goes on behind a first line, its lines are that one and those of what remains. -/
theorem wraps_append_iff {lines : List (List Char)} (hpos : 0 < width)
    (hwidth : width ≤ line.length) (hspace : ' ' ∉ line.drop width) :
    Wraps width (line ++ ' ' :: rest) lines ↔
      ∃ more, lines = line :: more ∧ Wraps width rest more := by
  have hne : line ≠ [] := List.ne_nil_of_length_pos (Nat.lt_of_lt_of_le hpos hwidth)
  constructor
  · intro h
    obtain ⟨line', more, rfl⟩ := List.exists_cons_of_ne_nil (h.ne_nil hpos (by simp))
    obtain ⟨rfl, hmore⟩ := h.head_eq hwidth hspace
    refine ⟨more, rfl, ?_⟩
    by_cases hrest : rest = []
    · rw [hrest, hmore.1 hrest]
      exact wraps_nil_iff.2 rfl
    · exact (wraps_cons_iff hne hwidth hspace hrest (mt hmore.2 hrest)).1 h
  · rintro ⟨more, rfl, h⟩
    by_cases hrest : rest = []
    · subst hrest
      rw [wraps_nil_iff.1 h]
      exact wraps_append_space hne hwidth hspace
    · exact (wraps_cons_iff hne hwidth hspace hrest (h.ne_nil hpos hrest)).2 h

/-- A note is broken into its lines, and into no others. -/
theorem wraps_iff {lines : List (List Char)} :
    Wraps noteWidth note lines ↔ lines = noteLines note := by
  have hpos : 0 < noteWidth := by decide
  induction note using note_induction generalizing lines with
  | empty => rw [wraps_nil_iff, noteLines_nil]
  | last note hne hspace hlines => rw [wraps_iff_of_notMem hne hspace, hlines]
  | further line rest hwidth hspace hlines ih =>
    simp only [wraps_append_iff hpos hwidth hspace, ih, hlines, exists_eq_right]

/-- A space right behind the width is left out, and one more is a line. -/
example : noteLines (List.replicate 50 'x' ++ [' ', ' ']) = [List.replicate 50 'x', [' ']] := by
  decide +kernel

/-- A note is broken exactly where some of its lines, from the first on and joined with spaces, end
before the note does. -/
theorem isBreak_iff {n : Nat} :
    IsBreak noteWidth note n ↔ n < note.length ∧
      ∃ front, front <+: noteLines note ∧ front ≠ [] ∧ ([' '].intercalate front).length = n := by
  induction note using note_induction generalizing n with
  | empty =>
    refine iff_of_false (fun h => ?_) (fun h => Nat.not_lt_zero n h.1)
    simpa using h.space_mem_drop
  | last note _ hspace hlines =>
    refine iff_of_false (fun h => hspace h.space_mem_drop) ?_
    rintro ⟨hlt, front, hfront, hne, rfl⟩
    rw [hlines] at hfront
    rcases List.prefix_cons_iff.1 hfront with rfl | ⟨behind, rfl, hbehind⟩
    · exact hne rfl
    · -- The one line does not end before the note.
      rw [List.prefix_nil.1 hbehind, List.intercalate_singleton] at hlt
      exact Nat.lt_irrefl _ hlt
  | further line rest hwidth hspace hlines ih =>
    simp only [isBreak_append_iff hwidth hspace, ih, hlines, List.length_append, List.length_cons,
      List.prefix_cons_iff]
    constructor
    · rintro (rfl | ⟨m, ⟨hlt, front, hfront, hne, rfl⟩, rfl⟩)
      · exact ⟨by omega, [line], .inr ⟨[], rfl, List.nil_prefix⟩, List.cons_ne_nil _ _,
          by rw [List.intercalate_singleton]⟩
      · refine ⟨by omega, line :: front, .inr ⟨front, rfl, hfront⟩, List.cons_ne_nil _ _, ?_⟩
        rw [intercalate_cons hne, List.length_append, List.length_cons]
        omega
    · rintro ⟨hlt, front, rfl | ⟨front, rfl, hfront⟩, hne, rfl⟩
      · exact absurd rfl hne
      · by_cases hmore : front = []
        · rw [hmore, List.intercalate_singleton]
          exact .inl rfl
        · rw [intercalate_cons hmore, List.length_append, List.length_cons] at hlt ⊢
          exact .inr ⟨_, ⟨by omega, front, hfront, hmore, rfl⟩, by omega⟩

/-! ## Words -/

/-- The words of a text: what stands between its spaces. -/
def words (text : List Char) : List (List Char) := (text.splitOn ' ').filter (· ≠ [])

/-- The words of two texts with a space between them are those of each. -/
theorem words_append (l r : List Char) : words (l ++ ' ' :: r) = words l ++ words r := by
  unfold words List.splitOn
  rw [List.splitOnP_append_cons l r (by simp), List.filter_append]

/-- The words of the lines are those of the note. -/
theorem flatMap_words_noteLines : (noteLines note).flatMap words = words note := by
  induction note using note_induction with
  | empty =>
    rw [noteLines_nil]
    rfl
  | last note _ _ hlines => rw [hlines, List.flatMap_singleton]
  | further line rest _ _ hlines ih => rw [hlines, List.flatMap_cons, ih, words_append]

/-! ## The loop -/

/-- The characters of a text, each behind the number of bytes in front of it. -/
def charPlaces : Nat → List Char → List (Nat × Char)
  | _, [] => []
  | offset, c :: rest => (offset, c) :: charPlaces (offset + c.utf8Size) rest

/-- The piece of a text between two numbers of bytes, if both are boundaries of it. -/
def piece? (source : String) (start stop : Nat) : Option String :=
  if h : start ≤ stop then (Span.mk start stop h).slice source else none

/-- How far the loop has come. -/
structure Progress where
  /-- The lines that have been cut off. -/
  lines : List String
  /-- The position at which the next line starts. -/
  start : Nat
  /-- The position of the character that is looked at next. -/
  next : Nat

/-- Looks at the next character of a note: looking for the end of a line and going on with the next
line are steps of one loop. At a space, the line in front of it is cut off, and the next line starts
behind it, of which the characters up to the width are not looked at. At the end of the note, what
is left is the last line, if anything is. There are no lines at all if one cannot be cut off. -/
def wrapStep (note : String) (s : Progress) : Option (List String) ⊕ Progress :=
  let chars := charPlaces 0 note.toList
  match chars[s.start]? with
  | none => .inl (some s.lines)
  | some (first, _) =>
    match chars[s.next]? with
    | none => .inl ((piece? note first note.utf8ByteSize).map fun line => s.lines ++ [line])
    | some (stop, c) =>
      if c = ' ' then
        match piece? note first stop with
        | none => .inl none
        | some line => .inr ⟨s.lines ++ [line], s.next + 1, s.next + 1 + noteWidth⟩
      else .inr { s with next := s.next + 1 }

/-- What the loop gives for a note, from its first character on. -/
def wrapLoop (note : String) : Part (Option (List String)) :=
  loop (wrapStep note) ⟨[], 0, noteWidth⟩

/-- The character at a position stands behind the bytes of those in front of it. -/
theorem getElem?_charPlaces (l : List Char) (offset n : Nat) :
    (charPlaces offset l)[n]? = l[n]?.map fun c => (offset + byteLength (l.take n), c) := by
  induction l generalizing offset n with
  | nil => rfl
  | cons c l ih =>
    cases n with
    | zero => rfl
    | succ n =>
      rw [charPlaces, List.getElem?_cons_succ, List.getElem?_cons_succ, ih, List.take_succ_cons,
        byteLength, Nat.add_assoc]

/-- A piece of a text can be cut out of it between the bytes in front of it and those behind. -/
theorem piece?_eq_some {source : String} {front piece rest : List Char}
    (h : source.toList = front ++ piece ++ rest) :
    piece? source (byteLength front) (byteLength (front ++ piece)) =
      some (String.ofList piece) := by
  have hle : byteLength front ≤ byteLength (front ++ piece) := by
    rw [byteLength_append]
    exact Nat.le_add_right _ _
  rw [piece?, dif_pos hle]
  exact Span.slice_eq_some h rfl rfl

section Steps

variable {text : String} {s : Progress} {front : List Char} {lines : List String}

/-- A line that is not empty starts before the end of the text. -/
theorem length_front_lt (h : text.toList = front ++ rest) (hne : rest ≠ []) :
    front.length < text.toList.length := by
  rw [h, List.length_append]
  exact Nat.lt_add_of_pos_right (List.length_pos_of_ne_nil hne)

/-- The loop is done when no line starts. -/
theorem wrapStep_of_done (h : text.toList.length ≤ s.start) :
    wrapStep text s = .inl (some s.lines) := by
  simp only [wrapStep, getElem?_charPlaces, List.getElem?_eq_none h, Option.map_none]

/-- The loop passes over all that is no space. -/
theorem wrapStep_of_ne {c : Char} (hstart : s.start < text.toList.length)
    (hnext : text.toList[s.next]? = some c) (hc : c ≠ ' ') :
    wrapStep text s = .inr { s with next := s.next + 1 } := by
  simp only [wrapStep, getElem?_charPlaces, List.getElem?_eq_getElem hstart, hnext,
    Option.map_some, if_neg hc]

/-- At a space, the loop cuts off the line in front of it. -/
theorem wrapStep_of_space (h : text.toList = front ++ line ++ ' ' :: rest) (hne : line ≠ []) :
    wrapStep text ⟨lines, front.length, (front ++ line).length⟩ =
      .inr ⟨lines ++ [String.ofList line], (front ++ line).length + 1,
        (front ++ line).length + 1 + noteWidth⟩ := by
  obtain ⟨c, tail, rfl⟩ := List.exists_cons_of_ne_nil hne
  have hstart : text.toList[front.length]? = some c := by simp [h]
  have hnext : text.toList[(front ++ c :: tail).length]? = some ' ' := by simp [h]
  have hfront : text.toList.take front.length = front := by simp [h]
  have hline : text.toList.take (front ++ c :: tail).length = front ++ c :: tail := by
    rw [h, List.take_left]
  simp only [wrapStep, getElem?_charPlaces, hstart, hnext, hfront, hline, Option.map_some,
    Nat.zero_add, piece?_eq_some h, if_true]

/-- At the end, the loop cuts off what is left. -/
theorem wrapStep_of_end {next : Nat} (h : text.toList = front ++ line) (hne : line ≠ [])
    (hnext : text.toList.length ≤ next) :
    wrapStep text ⟨lines, front.length, next⟩ =
      .inl (some (lines ++ [String.ofList line])) := by
  obtain ⟨c, tail, rfl⟩ := List.exists_cons_of_ne_nil hne
  have hstart : text.toList[front.length]? = some c := by simp [h]
  have hfront : text.toList.take front.length = front := by simp [h]
  have hpiece := piece?_eq_some (h.trans (List.append_nil _).symm)
  rw [← h, byteLength_toList] at hpiece
  simp only [wrapStep, getElem?_charPlaces, hstart, hfront, List.getElem?_eq_none hnext,
    Option.map_some, Option.map_none, Nat.zero_add, hpiece]

/-- The loop passes over a word. -/
theorem loop_of_word {word : List Char} (hstart : s.start < text.toList.length)
    (hword : word <+: text.toList.drop s.next) (hspace : ' ' ∉ word) :
    loop (wrapStep text) s = loop (wrapStep text) { s with next := s.next + word.length } := by
  induction word generalizing s with
  | nil => rfl
  | cons c word ih =>
    obtain ⟨behind, hbehind⟩ := hword
    rw [List.mem_cons, not_or] at hspace
    have hnext : text.toList[s.next]? = some c := by rw [← List.head?_drop, ← hbehind]; rfl
    have hmore : word <+: text.toList.drop (s.next + 1) :=
      ⟨behind, by rw [← List.tail_drop, ← hbehind]; rfl⟩
    have hrun : loop (wrapStep text) { s with next := s.next + 1 } =
        loop (wrapStep text) { s with next := s.next + 1 + word.length } :=
      ih hstart hmore hspace.2
    rw [loop_eq_loop (wrapStep_of_ne hstart hnext (Ne.symm hspace.1)), hrun, List.length_cons,
      Nat.add_assoc, Nat.add_comm 1]

end Steps

/-- From the start of a line on, the loop ends, and cuts off the lines of what remains. -/
theorem loop_wrapStep {text : String} {front : List Char} (h : text.toList = front ++ rest)
    (lines : List String) :
    loop (wrapStep text) ⟨lines, front.length, front.length + noteWidth⟩ =
      .some (some (lines ++ (noteLines rest).map String.ofList)) := by
  induction rest using note_induction generalizing lines front with
  | empty =>
    rw [loop_eq_some (wrapStep_of_done (by simp [h])), noteLines_nil, List.map_nil,
      List.append_nil]
  | last rest hne hspace hlines =>
    have hdrop : text.toList.drop (front.length + noteWidth) = rest.drop noteWidth := by
      rw [h, List.drop_length_add_append]
    have hend : text.toList.length ≤
        front.length + noteWidth + (rest.drop noteWidth).length := by
      rw [h, List.length_append, List.length_drop]
      omega
    calc loop (wrapStep text) ⟨lines, front.length, front.length + noteWidth⟩
        = loop (wrapStep text)
            ⟨lines, front.length, front.length + noteWidth + (rest.drop noteWidth).length⟩ :=
          loop_of_word (length_front_lt h hne) (hdrop ▸ List.prefix_rfl) hspace
      _ = .some (some (lines ++ [String.ofList rest])) :=
          loop_eq_some (wrapStep_of_end h hne hend)
      _ = .some (some (lines ++ (noteLines rest).map String.ofList)) := by
          rw [hlines]
          rfl
  | further line rest hwidth hspace hlines ih =>
    have hne : line ≠ [] := List.ne_nil_of_length_pos (Nat.lt_of_lt_of_le (by decide) hwidth)
    have hstart : front.length < text.toList.length := length_front_lt h (by simp)
    have hword : line.drop noteWidth <+: text.toList.drop (front.length + noteWidth) := by
      rw [h, List.drop_length_add_append, List.drop_append_of_le_length hwidth]
      exact List.prefix_append _ _
    have hcut : front.length + noteWidth + (line.drop noteWidth).length =
        (front ++ line).length := by
      rw [List.length_drop, List.length_append]
      omega
    rw [← List.append_assoc] at h
    have hrest : text.toList = front ++ line ++ [' '] ++ rest := by rw [h]; simp
    calc loop (wrapStep text) ⟨lines, front.length, front.length + noteWidth⟩
        = loop (wrapStep text) ⟨lines, front.length, (front ++ line).length⟩ :=
          hcut ▸ loop_of_word hstart hword hspace
      _ = loop (wrapStep text) ⟨lines ++ [String.ofList line], (front ++ line).length + 1,
            (front ++ line).length + 1 + noteWidth⟩ :=
          loop_eq_loop (wrapStep_of_space h hne)
      _ = .some (some (lines ++ [String.ofList line] ++ (noteLines rest).map String.ofList)) := by
          have hmore := ih hrest (lines ++ [String.ofList line])
          rwa [List.length_append, List.length_singleton] at hmore
      _ = .some (some (lines ++ (noteLines (line ++ ' ' :: rest)).map String.ofList)) := by
          rw [hlines, List.map_cons, List.append_assoc]
          rfl

/-- The loop ends with the lines of a note, and never cuts within a character. -/
theorem wrapLoop_eq (text : String) : wrapLoop text = .some (some (wrap text)) :=
  loop_wrapStep (List.nil_append _).symm []

/-- A note is broken into lines by a loop that ends. They are the only ones that fulfil `Wraps`:
joined with spaces, they give back the note, without the space at its end exactly if the last break
falls on it; none is empty, all but the last have 50 characters or more, and no space stands at or
behind the 51st. The note is broken exactly where its lines end, and their words are those of the
note. -/
theorem broken_at_first_spaces (text : String) :
    wrapLoop text = .some (some (wrap text)) ∧
      (∀ lines : List String,
        Wraps 50 text.toList (lines.map String.toList) ↔ lines = wrap text) ∧
      (∀ n, IsBreak 50 text.toList n ↔ n < text.length ∧
        ∃ front, front <+: wrap text ∧ front ≠ [] ∧ (" ".intercalate front).length = n) ∧
      words text.toList = (wrap text).flatMap fun line => words line.toList := by
  have hwidth : 50 = noteWidth := rfl
  have hchars : (wrap text).map String.toList = noteLines text.toList := by simp [wrap]
  refine ⟨wrapLoop_eq text, fun lines => ?_, fun n => ?_, ?_⟩
  · rw [hwidth, wraps_iff, ← hchars,
      (List.map_injective_iff.2 fun _ _ => String.toList_injective).eq_iff]
  · have hlength : ∀ front : List String,
        ([' '].intercalate (front.map String.toList)).length = (" ".intercalate front).length :=
      fun front => by
        rw [← String.length_toList, String.toList_intercalate]
        rfl
    rw [hwidth, isBreak_iff, ← hchars, String.length_toList]
    refine and_congr_right fun _ => ?_
    constructor
    · rintro ⟨_, hfront, hne, rfl⟩
      obtain ⟨front, hprefix, rfl⟩ := List.prefix_map_iff.1 hfront
      exact ⟨front, hprefix, by simpa using hne, (hlength front).symm⟩
    · rintro ⟨front, hprefix, hne, rfl⟩
      exact ⟨front.map String.toList, hprefix.map _, by simpa using hne, hlength front⟩
  · rw [← flatMap_words_noteLines, ← hchars, List.flatMap_map]

end Comment

end ContentModels
