import ContentModels.Proofs.Hierarchy.Acceptance
import ContentModels.Proofs.Source.Comment
import ContentModels.Proofs.Source.Members

/-!
# Members inside comments

A member that cannot be implemented is written between the marks of a comment, with texts of the
outside in it: the reasons, the name and the description, the generator, the alias, the type and the
name of the member. None of these texts is changed so that it could not hold the mark that ends a
comment (`Comment.HoldsEnd`). Between any two of them stands a text of the writer's own, so that the
mark arises nowhere but in one of them (`Comment.Embeds`, one lemma for each part of the member).
The comment therefore ends at its last mark, behind the member, exactly if none of them holds it
(`Writer.disabled_in_comment_iff`).
-/

namespace ContentModels

namespace Comment

/-! ## The mark that ends a comment -/

/-- The text holds the mark that ends a comment. -/
def HoldsEnd (l : List Char) : Prop := ['*', '/'] <:+: l

/-- What stands behind the first mark that ends a comment. -/
def behindComment? : List Char → Option (List Char)
  | [] => none
  | c :: rest => if c = '*' ∧ '/' ∈ rest.head? then some rest.tail else behindComment? rest

/-- The mark stands in front of a text, or in the text behind its first character. -/
theorem holdsEnd_cons_iff {c : Char} {l : List Char} :
    HoldsEnd (c :: l) ↔ c = '*' ∧ '/' ∈ l.head? ∨ HoldsEnd l := by
  rw [HoldsEnd, List.infix_cons_iff, List.cons_prefix_cons, HoldsEnd]
  refine or_congr_left (and_congr eq_comm ?_)
  cases l with
  | nil => simp
  | cons d l => simp [List.cons_prefix_cons, eq_comm]

/-- The empty text holds no mark. -/
theorem not_holdsEnd_nil : ¬ HoldsEnd [] := by
  rw [HoldsEnd]
  decide

/-- Something stands behind the first mark exactly if there is one. -/
theorem isSome_behindComment?_iff {l : List Char} : (behindComment? l).isSome ↔ HoldsEnd l := by
  induction l with
  | nil => simp [behindComment?, not_holdsEnd_nil]
  | cons c l ih =>
    rw [behindComment?, holdsEnd_cons_iff]
    split
    · rename_i hmark
      exact iff_of_true rfl (.inl hmark)
    · rename_i hmark
      rw [ih, or_iff_right hmark]

instance (l : List Char) : Decidable (HoldsEnd l) := decidable_of_iff _ isSome_behindComment?_iff

/-- Two texts hold the mark if one of them does, unless it arises where they meet. -/
theorem holdsEnd_append_iff {l r : List Char} (h : '*' ∉ l.getLast? ∨ '/' ∉ r.head?) :
    HoldsEnd (l ++ r) ↔ HoldsEnd l ∨ HoldsEnd r := by
  induction l with
  | nil => simp [not_holdsEnd_nil]
  | cons c l ih =>
    rw [List.cons_append, holdsEnd_cons_iff, holdsEnd_cons_iff]
    cases l with
    | nil =>
      have hmeet : ¬ (c = '*' ∧ '/' ∈ r.head?) := by
        rintro ⟨rfl, hr⟩
        exact h.elim (fun hl => hl rfl) (fun hr' => hr' hr)
      rw [List.nil_append, or_iff_right hmeet, List.head?_nil]
      simp [not_holdsEnd_nil]
    | cons d l =>
      rw [ih (h.imp_left fun hl => by simpa using hl), List.cons_append, List.head?_cons,
        List.head?_cons, or_assoc]

/-- If a text holds the mark, all that is written behind the text stands behind the comment. -/
theorem exists_behindComment?_append {l : List Char} (h : HoldsEnd l) (rest : List Char) :
    ∃ more, behindComment? (l ++ rest) = some (more ++ rest) := by
  induction l with
  | nil => exact absurd h not_holdsEnd_nil
  | cons c l ih =>
    rw [List.cons_append, behindComment?]
    split
    · rename_i hmark
      cases l with
      | nil =>
        rcases holdsEnd_cons_iff.1 h with ⟨-, hslash⟩ | h
        · cases hslash
        · exact absurd h not_holdsEnd_nil
      | cons d l => exact ⟨l, rfl⟩
    · rename_i hmark
      refine ih ((holdsEnd_cons_iff.1 h).resolve_left fun hfront => hmark ⟨hfront.1, ?_⟩)
      rw [List.head?_append, Option.mem_def.1 hfront.2]
      rfl

/-- A comment ends at a mark that stands behind a text exactly if the text does not hold the mark
itself. -/
theorem behindComment?_append_iff {l rest : List Char} :
    behindComment? (l ++ '*' :: '/' :: rest) = some rest ↔ ¬ HoldsEnd l := by
  constructor
  · intro hrest h
    -- More than what stands behind the mark is left of the comment then.
    obtain ⟨more, hmore⟩ := exists_behindComment?_append h ('*' :: '/' :: rest)
    have hlength := congrArg List.length (Option.some.inj (hmore.symm.trans hrest))
    rw [List.length_append, List.length_cons, List.length_cons] at hlength
    omega
  · intro h
    induction l with
    | nil => rfl
    | cons c l ih =>
      rw [holdsEnd_cons_iff, not_or] at h
      have hmark : ¬ (c = '*' ∧ '/' ∈ (l ++ '*' :: '/' :: rest).head?) := by
        cases l with
        | nil =>
          rintro ⟨-, hmark⟩
          cases hmark
        | cons d l => exact h.1
      rw [List.cons_append, behindComment?, if_neg hmark, ih h.2]

/-! ## Texts of the outside -/

/-- The text holds the mark exactly if one of the texts of the outside does that it is written with,
and no mark arises where it meets others. -/
structure Embeds (s : String) (texts : List String) : Prop where
  /-- It does not go on with a mark that another text begins. -/
  front : '/' ∉ s.toList.head?
  /-- It does not begin a mark that another text goes on with. -/
  back : '*' ∉ s.toList.getLast?
  /-- It holds the mark if one of the texts does. -/
  holds : HoldsEnd s.toList ↔ ∃ t ∈ texts, HoldsEnd t.toList

/-- A text of the writer's own that is written with no text of the outside. -/
theorem embeds_nil {s : String}
    (h : '/' ∉ s.toList.head? ∧ '*' ∉ s.toList.getLast? ∧ ¬ HoldsEnd s.toList) : Embeds s [] :=
  ⟨h.1, h.2.1, by simp [h.2.2]⟩

/-- Of two texts, one behind the other, both are written with their texts. -/
theorem Embeds.append {s t : String} {texts texts' : List String} (hs : Embeds s texts)
    (ht : Embeds t texts') : Embeds (s ++ t) (texts ++ texts') where
  front := by
    rw [String.toList_append, List.head?_append]
    intro h
    rcases Option.or_eq_some_iff.1 h with h | ⟨-, h⟩
    · exact hs.front h
    · exact ht.front h
  back := by
    rw [String.toList_append, List.getLast?_append]
    intro h
    rcases Option.or_eq_some_iff.1 h with h | ⟨-, h⟩
    · exact ht.back h
    · exact hs.back h
  holds := by
    rw [String.toList_append, holdsEnd_append_iff (.inl hs.back), hs.holds, ht.holds]
    simp [or_and_right, exists_or]

/-- A text of the outside between two others, neither of which is empty. -/
theorem Embeds.insert {s t : String} {texts texts' : List String} (hs : Embeds s texts)
    (ht : Embeds t texts') (hsne : s ≠ "") (htne : t ≠ "") (text : String) :
    Embeds (s ++ text ++ t) (texts ++ text :: texts') where
  front := by
    have hne : s.toList ++ text.toList ≠ [] := by simp [hsne]
    rw [String.toList_append, String.toList_append, List.append_assoc,
      List.head?_append_of_ne_nil _ (by simpa using hsne)]
    exact hs.front
  back := by
    rw [String.toList_append, List.getLast?_append_of_ne_nil _ (by simpa using htne)]
    exact ht.back
  holds := by
    rw [String.toList_append, String.toList_append, holdsEnd_append_iff (.inr ht.front),
      holdsEnd_append_iff (.inl hs.back), hs.holds, ht.holds]
    simp [or_and_right, exists_or, or_assoc]

/-- The texts of the outside may be told in another way, as long as the mark is in one of them or
not as before. -/
theorem Embeds.congr {s : String} {texts texts' : List String} (h : Embeds s texts)
    (hsame : (∃ t ∈ texts, HoldsEnd t.toList) ↔ ∃ t ∈ texts', HoldsEnd t.toList) :
    Embeds s texts' :=
  ⟨h.front, h.back, h.holds.trans hsame⟩

/-- Texts that are written once more need not be told again. -/
theorem Embeds.of_subset {s : String} {texts again : List String} (h : Embeds s (texts ++ again))
    (hagain : again ⊆ texts) : Embeds s texts := by
  refine h.congr (exists_congr fun text => and_congr_left' ?_)
  rw [List.mem_append]
  exact or_iff_left_of_imp fun htext => hagain htext

/-! ## What is written into a comment -/

/-- A documentation comment holds the mark exactly if the text does. -/
theorem holdsEnd_docText_iff {text : String} :
    HoldsEnd (docText text).toList ↔ HoldsEnd text.toList := by
  have hmap : ∀ l : List Char, HoldsEnd (l.map docChar) ↔ HoldsEnd l := by
    intro l
    induction l with
    | nil => rfl
    | cons c l ih =>
      have hslash : '/' ∈ (l.map docChar).head? ↔ '/' ∈ l.head? := by
        cases l with
        | nil => rfl
        | cons d l => simpa using docChar_eq_iff (by decide)
      rw [List.map_cons, holdsEnd_cons_iff, holdsEnd_cons_iff, ih, hslash,
        docChar_eq_iff (by decide)]
  rw [docText, String.toList_ofList, hmap]

/-- What a note takes up is written with the note. -/
theorem embeds_noteBlock (note : String) : Embeds (noteBlock note) [note] := by
  have hrow : ∀ line : List Char,
      Embeds ("\t\t * " ++ String.ofList line ++ "\n") [String.ofList line] := fun line =>
    (embeds_nil (by decide)).insert (embeds_nil (by decide)) (by decide) (by decide) _
  have hrows : ∀ note : List Char, Embeds (String.join (((noteLines note).map String.ofList).map
      fun line => "\t\t * " ++ line ++ "\n")) [String.ofList note] := by
    intro note
    induction note using note_induction with
    | empty =>
      rw [noteLines_nil]
      exact (embeds_nil (by decide)).congr (by simp [not_holdsEnd_nil])
    | last note _ _ hlines => simpa [hlines] using hrow note
    | further line rest _ _ hlines ih =>
      rw [hlines, List.map_cons, List.map_cons, String.join_cons]
      refine ((hrow line).append ih).congr ?_
      -- The space that is left out is not part of a mark.
      have hspace : HoldsEnd (line ++ ' ' :: rest) ↔ HoldsEnd line ∨ HoldsEnd rest := by
        rw [holdsEnd_append_iff (.inr (by simp)), holdsEnd_cons_iff]
        simp
      simp [hspace]
  simpa [noteBlock, wrap] using hrows note.toList

/-- The notice in front of a member that cannot be implemented: the start of the comment without the
mark. -/
def notice (reasons : List String) : String :=
  "\n\t\t * THIS PROPERTY CANNOT BE IMPLEMENTED, BECAUSE:\n\t\t *\n" ++
    "\t\t *\n".intercalate (reasons.map noteBlock) ++ "\t\t *\n\n"

/-- The start of the comment is the mark and the notice. -/
theorem openBlock_eq (reasons : List String) : openBlock reasons = "\t\t/*" ++ notice reasons := by
  have hassoc : ∀ {whole mark lead blocks trail : String}, whole = mark ++ lead →
      whole ++ blocks ++ trail = mark ++ (lead ++ blocks ++ trail) := by
    rintro _ mark lead blocks trail rfl
    simp only [String.append_assoc]
  exact hassoc (by simp)

/-- The notice is written with the reasons. -/
theorem embeds_notice (reasons : List String) : Embeds (notice reasons) reasons := by
  have hlead : Embeds "\n\t\t * THIS PROPERTY CANNOT BE IMPLEMENTED, BECAUSE:\n\t\t *\n" [] :=
    embeds_nil (by decide +kernel)
  have htrail : Embeds "\t\t *\n\n" [] := embeds_nil (by decide)
  have hblocks : Embeds ("\t\t *\n".intercalate (reasons.map noteBlock)) reasons := by
    induction reasons with
    | nil => exact embeds_nil (by decide)
    | cons reason reasons ih =>
      cases reasons with
      | nil => simpa using embeds_noteBlock reason
      | cons next reasons =>
        rw [List.map_cons, List.map_cons, String.intercalate_cons_cons, ← List.map_cons]
        exact ((embeds_noteBlock reason).append (embeds_nil (by decide))).append ih
  have hnotice := (hlead.append hblocks).append htrail
  rw [List.nil_append, List.append_nil] at hnotice
  exact hnotice

/-- The summary of a property is written with its name and its description. -/
theorem embeds_propertySummary (p : Property) :
    Embeds (propertySummary p) (p.name.toList ++ p.description.toList) := by
  have hlead : Embeds "\t\t///<summary>\n\t\t/// " [] := embeds_nil (by decide)
  have htrail : Embeds "\n\t\t///</summary>\n" [] := embeds_nil (by decide)
  rw [propertySummary_eq]
  cases hcaption : caption? p with
  | none =>
    obtain ⟨hname, hdescription⟩ := caption?_eq_none_iff.1 hcaption
    rw [hname, hdescription]
    exact embeds_nil (by decide)
  | some text =>
    have hcolon : ∀ l r, HoldsEnd (l ++ ':' :: ' ' :: r) ↔ HoldsEnd l ∨ HoldsEnd r := by
      intro l r
      rw [holdsEnd_append_iff (.inr (by simp)), holdsEnd_cons_iff, holdsEnd_cons_iff]
      simp
    refine (hlead.insert htrail (by decide) (by decide) (docText text)).congr ?_
    simpa [holdsEnd_docText_iff] using exists_caption_iff not_holdsEnd_nil hcolon hcaption

end Comment

namespace Writer

open Comment

variable (w : Writer)

/-- The attribute that stamps the generator is written with its name and its version. -/
theorem embeds_generatedCode :
    Embeds w.generatedCode [w.generator.name, w.generator.version] := by
  have htrail : Embeds "\")]\n" [] := embeds_nil (by decide)
  have hsep : Embeds "\", \"" [] := embeds_nil (by decide)
  have hlead : Embeds "\t\t[global::System.CodeDom.Compiler.GeneratedCodeAttribute(\"" [] :=
    embeds_nil (by decide)
  exact (hlead.insert hsep (by decide) (by decide) w.generator.name).insert htrail (by simp)
    (by decide) w.generator.version

/-- The attribute of a property is written with its alias. -/
theorem embeds_aliasAttribute (aliasName : String) :
    Embeds (w.aliasAttribute "\t\t" "ImplementPropertyType" aliasName) [aliasName] := by
  have hname : Embeds (w.resolver.attributeText Framework.publishedContentNamespace
      "ImplementPropertyType") [] := by
    unfold Resolver.attributeText Resolver.qualifier
    split <;> exact embeds_nil (by decide)
  have hlead : Embeds "\t\t[" [] := embeds_nil (by decide)
  have hsep : Embeds "(\"" [] := embeds_nil (by decide)
  have htrail : Embeds "\")]\n" [] := embeds_nil (by decide)
  exact ((hlead.append hname).append hsep).insert htrail (by simp) (by decide) aliasName

/-- The type argument of a call is written with the type, or left out. -/
theorem exists_valueArgument {p : Property} {type : String}
    (htype : w.type p.type = .ofString type) :
    ∃ argument texts, w.valueArgument p = .ofString argument ∧ Embeds argument texts ∧
      texts ⊆ [type] := by
  unfold valueArgument
  split
  · exact ⟨"", [], rfl, embeds_nil (by decide), List.nil_subset _⟩
  · have hlead : Embeds "<" [] := embeds_nil (by decide)
    have htrail : Embeds ">" [] := embeds_nil (by decide)
    refine ⟨"<" ++ type ++ ">", [type], ?_, hlead.insert htrail (by decide) (by decide) type,
      List.Subset.refl _⟩
    rw [htype]
    simp [Draft.concat_cons, Draft.concat_nil, Draft.ofString_append, String.append_assoc]

/-- What stands behind the arrow of a disabled member is written with the type, the alias and the
member name of its property. -/
theorem exists_memberBody {m : Member} {type : String} (hdisabled : m.isDisabled)
    (htype : w.type m.property.type = .ofString type) :
    ∃ body texts, w.memberBody m = .ofString body ∧ Embeds body texts ∧
      texts ⊆ [type, m.property.aliasName, m.property.memberName] := by
  unfold memberBody
  split
  · obtain ⟨argument, texts, hargument, hembeds, hsubset⟩ := w.exists_valueArgument htype
    have hlead : Embeds "this.Value" [] := embeds_nil (by decide)
    have hsep : Embeds "(_publishedValueFallback, \"" [] := embeds_nil (by decide)
    have htrail : Embeds "\");\n" [] := embeds_nil (by decide)
    refine ⟨_, _, ?_, ((hlead.append hembeds).append hsep).insert htrail (by simp) (by decide)
      m.property.aliasName, ?_⟩
    · rw [hargument]
      simp [Draft.concat_cons, Draft.concat_nil, Draft.ofString_append, String.append_assoc]
    · refine List.append_subset.2 ⟨?_, by simp⟩
      rw [List.nil_append, List.append_nil]
      exact List.Subset.trans hsubset (by simp)
  · have hlead : Embeds "Get" [] := embeds_nil (by decide)
    have htrail : Embeds "(this, _publishedValueFallback);\n" [] :=
      embeds_nil (by decide)
    exact ⟨_, _, rfl, hlead.insert htrail (by decide) (by decide) m.property.memberName, by simp⟩
  · -- What calls the getter of a mixin is never disabled.
    rename_i owner hdelivery
    rw [Member.isDisabled, hdelivery] at hdisabled
    cases hdisabled

/-- The code of a member with the given type and the given text behind the arrow. -/
def codeText (m : Member) (type body : String) : String :=
  propertySummary m.property ++ w.generatedCode ++
    w.aliasAttribute "\t\t" "ImplementPropertyType" m.property.aliasName ++
    ("\t\tpublic " ++ type ++ " " ++ m.property.memberName ++ " => " ++ body)

/-- The code of a member, if its type and what stands behind the arrow are written in full. -/
theorem memberCode_eq {m : Member} {type body : String}
    (htype : w.type m.property.type = .ofString type) (hbody : w.memberBody m = .ofString body) :
    w.memberCode m = .ofString (w.codeText m type body) := by
  rw [memberCode, htype, hbody]
  simp [codeText, Draft.concat_cons, Draft.concat_nil, Draft.ofString_append, String.append_assoc]

/-- The texts of the outside that the code of a disabled member is written with. -/
def codeTexts (m : Member) (type : String) : List String :=
  m.property.name.toList ++ m.property.description.toList ++
    [w.generator.name, w.generator.version, m.property.aliasName, type, m.property.memberName]

/-- The code of a disabled member is written with these texts, among them that of its type. -/
theorem exists_memberCode {m : Member} {type : String} (hdisabled : m.isDisabled)
    (htype : w.type m.property.type = .ofString type) :
    ∃ code, w.memberCode m = .ofString code ∧ Embeds code (w.codeTexts m type) := by
  obtain ⟨body, texts, hbody, hembeds, hsubset⟩ := w.exists_memberBody hdisabled htype
  have hpublic : Embeds "\t\tpublic " [] := embeds_nil (by decide)
  have hspace : Embeds " " [] := embeds_nil (by decide)
  have harrow : Embeds " => " [] := embeds_nil (by decide)
  have hhead := (hpublic.insert hspace (by decide) (by decide) type).insert harrow (by simp)
    (by decide) m.property.memberName
  have hcode := (((embeds_propertySummary m.property).append w.embeds_generatedCode).append
    (w.embeds_aliasAttribute m.property.aliasName)).append (hhead.append hembeds)
  have htexts : m.property.name.toList ++ m.property.description.toList ++
      [w.generator.name, w.generator.version] ++ [m.property.aliasName] ++
      ([] ++ [type] ++ [m.property.memberName] ++ texts) = w.codeTexts m type ++ texts := by
    simp [codeTexts]
  exact ⟨_, w.memberCode_eq htype hbody,
    Embeds.of_subset (htexts ▸ hcode) (List.Subset.trans hsubset (by simp [codeTexts]))⟩

/-! ## The comment of a member -/

/-- What the comment of a disabled member holds between its marks. -/
def commentText (m : Member) (code : String) : String :=
  notice m.property.errors ++ code ++ "\n\t\t *\n\t\t "

/-- The texts of the outside that a disabled member is written with: the reasons, and those of its
code. -/
def outsideTexts (m : Member) (type : String) : List String :=
  m.property.errors ++ w.codeTexts m type

/-- What a class holds beside a member: the static getter, if the member asks one. -/
def getterBeside (m : Member) : Draft :=
  match m.delivery with
  | .ownGetter owner => w.getter owner m.property
  | _ => ""

/-- A disabled member is written inside a comment, and the getter behind it. -/
theorem member_eq {m : Member} {code : String} (hdisabled : m.isDisabled)
    (hcode : w.memberCode m = .ofString code) :
    w.member m =
      Draft.ofString ("\n\t\t/*" ++ commentText m code ++ "*/\n") ++ w.getterBeside m := by
  have hopen : "\n\t\t/*" = "\n" ++ "\t\t/*" := rfl
  have hclose : closeBlock = "\n\t\t *\n\t\t " ++ "*/\n" := rfl
  unfold Writer.member
  rw [if_pos hdisabled, hcode, openBlock_eq, hclose, hopen]
  simp only [Draft.concat_cons, Draft.concat_nil, Draft.append_empty, Draft.ofString_append,
    ← Draft.append_assoc, commentText, String.append_assoc]
  rfl

/-- A disabled member that is written in full stands between the marks of a comment. The comment
ends at its last mark, so that nothing stands behind it but what the class holds beside the member,
exactly if none of the texts of the outside holds the mark that ends a comment: the reasons, the
name and the description, the generator's name and version, the alias, the type and the name of the
member. -/
theorem disabled_in_comment_iff {m : Member} {s : String} (hdisabled : m.isDisabled)
    (hs : (w.member m).toExcept = .ok s) :
    ∃ type code getter, w.resolver.resolve m.property.type = .ok type ∧
      (w.memberCode m).toExcept = .ok code ∧ (w.getterBeside m).toExcept = .ok getter ∧
      s = "\n\t\t/*" ++ commentText m code ++ "*/\n" ++ getter ∧
      (behindComment? (commentText m code ++ "*/\n" ++ getter).toList =
          some ("\n" ++ getter).toList ↔
        ∀ text ∈ w.outsideTexts m type, ¬ HoldsEnd text.toList) := by
  have hfault := Draft.exists_toExcept_iff.1 ⟨s, hs⟩
  -- The member is written in full only if its type is, and then so are all other parts.
  obtain ⟨type, htype⟩ : ∃ type, w.type m.property.type = .ofString type :=
    ⟨_, Draft.eq_ofString_iff.2 ⟨w.fault_member m ▸ hfault, rfl⟩⟩
  obtain ⟨code, hcode, hembeds⟩ := w.exists_memberCode hdisabled htype
  have hmember := w.member_eq hdisabled hcode
  obtain ⟨getter, hgetter⟩ : ∃ getter, w.getterBeside m = .ofString getter := by
    rw [hmember, Draft.fault_append_eq_none_iff] at hfault
    exact ⟨_, Draft.eq_ofString_iff.2 ⟨hfault.2, rfl⟩⟩
  refine ⟨type, code, getter, Draft.toExcept_eq_ok_iff.2 htype, Draft.toExcept_eq_ok_iff.2 hcode,
    Draft.toExcept_eq_ok_iff.2 hgetter, ?_, ?_⟩
  · rw [hmember, hgetter] at hs
    exact (Except.ok.inj hs).symm
  · have htrail : Embeds "\n\t\t *\n\t\t " [] := embeds_nil (by decide)
    have hinner : Embeds (commentText m code) (w.outsideTexts m type ++ []) :=
      ((embeds_notice m.property.errors).append hembeds).append htrail
    have hmark : (commentText m code ++ "*/\n" ++ getter).toList =
        (commentText m code).toList ++ '*' :: '/' :: ("\n" ++ getter).toList := by simp
    rw [hmark, behindComment?_append_iff, hinner.holds, List.append_nil]
    simp

/-- If one of the reasons, the name or the description holds the mark, the declaration of the member
stands behind the comment. -/
theorem exists_behindComment?_commentText {m : Member} (type body : String)
    (h : ∃ text ∈ m.property.errors ++ (m.property.name.toList ++ m.property.description.toList),
      HoldsEnd text.toList) :
    ∃ behind,
      behindComment? (commentText m (w.codeText m type body) ++ "*/\n").toList = some behind ∧
      ("public " ++ type ++ " " ++ m.property.memberName ++ " => ").toList <:+: behind := by
  have hfront := (embeds_notice m.property.errors).append (embeds_propertySummary m.property)
  let lead := w.generatedCode ++
    w.aliasAttribute "\t\t" "ImplementPropertyType" m.property.aliasName ++ "\t\t"
  let declaration := "public " ++ type ++ " " ++ m.property.memberName ++ " => "
  let trail := body ++ "\n\t\t *\n\t\t " ++ "*/\n"
  have hwhole : (commentText m (w.codeText m type body) ++ "*/\n").toList =
      (notice m.property.errors ++ propertySummary m.property).toList ++
        (lead.toList ++ declaration.toList ++ trail.toList) := by
    simp [commentText, codeText, lead, declaration, trail]
  obtain ⟨more, hmore⟩ := exists_behindComment?_append (hfront.holds.2 h)
    (lead.toList ++ declaration.toList ++ trail.toList)
  rw [← hwhole] at hmore
  refine ⟨_, hmore, more ++ lead.toList, trail.toList, ?_⟩
  simp only [declaration, List.append_assoc]

/-- A property of the given description that is named like its type. -/
def clashingProperty (description : String) : Property :=
  { aliasName := "page", memberName := "Page", type := .string, description }

/-- A page with that property. -/
def clashingPage (description : String) : ContentType :=
  { id := 1, aliasName := "page", className := "Page", itemType := .content,
    properties := [clashingProperty description] }

/-- The writer of the model of the page, as it is accepted in memory. -/
def clashingWriter (description : String) : Writer :=
  let h : Hierarchy := ⟨[Hierarchy.noteClashes .inMemory (clashingPage description)]⟩
  ⟨⟨.build [] h ⟨"Site"⟩, h, ⟨⟨"Site"⟩, []⟩⟩, {}⟩

/-- The member for the property. -/
def clashingMember (description : String) : Member :=
  ⟨(clashingProperty description).addError (Hierarchy.clashNote "Page"), .value⟩

/-- The class of the page has that member and no other. -/
theorem members_clashingPage (description : String) :
    (clashingWriter description).hierarchy.members
        (Hierarchy.noteClashes .inMemory (clashingPage description)) =
      [clashingMember description] := rfl

/-- The page is accepted with a note on its property, if nothing is wrong with it. -/
theorem ofTypes_clashingPage {description : String}
    (h : Hierarchy.fault? .inMemory [clashingPage description] = none) :
    Hierarchy.ofTypes .inMemory [clashingPage description] =
      .ok (clashingWriter description).hierarchy := by
  unfold Hierarchy.ofTypes
  rw [h]
  rfl

/-- With a description of plain words, nothing stands behind the comment. -/
theorem heading_in_comment :
    Hierarchy.ofTypes .inMemory [clashingPage "Heading"] =
        .ok (clashingWriter "Heading").hierarchy ∧
      (clashingMember "Heading").isDisabled ∧
      ∃ inner, ((clashingWriter "Heading").member (clashingMember "Heading")).toExcept =
          .ok ("\n\t\t/*" ++ inner ++ "*/\n") ∧
        behindComment? (inner ++ "*/\n").toList = some "\n".toList := by
  have htype : (clashingWriter "Heading").type .string = .ofString "string" := by decide +kernel
  obtain ⟨s, hs⟩ : ∃ s,
      ((clashingWriter "Heading").member (clashingMember "Heading")).toExcept = .ok s :=
    Draft.exists_toExcept_iff.2 ((fault_member _ _).trans (congrArg Draft.fault htype))
  obtain ⟨type, code, getter, hresolve, -, hgetter, htext, hcomment⟩ :=
    (clashingWriter "Heading").disabled_in_comment_iff (by decide) hs
  obtain rfl : "string" = type :=
    Except.ok.inj ((congrArg Draft.toExcept htype).symm.trans hresolve)
  obtain rfl : "" = getter := Except.ok.inj hgetter
  rw [String.append_empty] at htext hcomment
  exact ⟨ofTypes_clashingPage (by decide +kernel), by decide, _, htext ▸ hs,
    hcomment.2 (by decide +kernel)⟩

/-- A description that holds the mark ends the comment in front of the member, which stands behind
it as active code. -/
theorem glob_ends_comment :
    Hierarchy.ofTypes .inMemory [clashingPage "Glob such as **/*.md"] =
        .ok (clashingWriter "Glob such as **/*.md").hierarchy ∧
      (clashingWriter "Glob such as **/*.md").hierarchy.members
        (Hierarchy.noteClashes .inMemory (clashingPage "Glob such as **/*.md")) =
          [clashingMember "Glob such as **/*.md"] ∧
      (clashingMember "Glob such as **/*.md").isDisabled ∧
      ∃ rest behind, ((clashingWriter "Glob such as **/*.md").member
          (clashingMember "Glob such as **/*.md")).toExcept = .ok ("\n\t\t/*" ++ rest) ∧
        behindComment? rest.toList = some behind ∧
        "public string Page => ".toList <:+: behind := by
  let w := clashingWriter "Glob such as **/*.md"
  let m := clashingMember "Glob such as **/*.md"
  have htype : w.type m.property.type = .ofString "string" := by decide +kernel
  have hbody : w.memberBody m =
      .ofString "this.Value<string>(_publishedValueFallback, \"page\");\n" := by decide +kernel
  have hmember : (w.member m).toExcept = .ok ("\n\t\t/*" ++ (commentText m (w.codeText m "string"
      "this.Value<string>(_publishedValueFallback, \"page\");\n") ++ "*/\n")) := by
    rw [w.member_eq (by decide) (w.memberCode_eq htype hbody), String.append_assoc]
    exact congrArg Draft.toExcept (Draft.append_empty _)
  obtain ⟨behind, hbehind, hpublic⟩ := w.exists_behindComment?_commentText (m := m) "string"
    "this.Value<string>(_publishedValueFallback, \"page\");\n"
    ⟨"Glob such as **/*.md", by decide, by decide⟩
  exact ⟨ofTypes_clashingPage (by decide +kernel), members_clashingPage _, by decide, _, behind,
    hmember, hbehind, hpublic⟩

end Writer

end ContentModels
