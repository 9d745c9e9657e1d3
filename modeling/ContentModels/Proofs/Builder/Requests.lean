import ContentModels.Proofs.Builder.Order

/-!
# What requests are answered with

A builder looks up all that is requested before it writes anything, so a request that stands for no
generated type leaves behind what was there before. After that, each model is written without regard
to the others: a file is a start, which is the same for all files, the text of each model, which is
the same in all files, and the end (`Builder.exists_writesFiles`). A model that cannot be written
ends the file behind what it would have written by itself.

The models of a file are drafts with a separator between them, so what is said of files comes from
what is said of such drafts (`Draft.join_eq_ofString`, `Draft.join_append_of_fault`), once the
requests are replaced by the drafts of their models (`generateAll_eq`).
-/

namespace ContentModels

namespace Builder

/-! ## Looking up requests -/

/-- The type stands for one that the builder generates a model for. -/
def Generates (b : Builder) (u : ContentType) : Prop := ∃ m ∈ b.generatedTypes, u.key = m.key

/-- The model of the type that is requested, without what a file holds before and behind it. -/
def requestedModel (b : Builder) (u : ContentType) : Draft :=
  match b.requested u with
  | .ok m => b.writer.model m
  | .error fault => .fail fault

/-- The model that is requested is that of the generated type with the same key. -/
theorem requestedModel_eq {b : Builder} (hs : b.hierarchy.Sound) {m u : ContentType}
    (hm : m ∈ b.generatedTypes) (hkey : u.key = m.key) :
    b.requestedModel u = b.writer.model m := by
  rw [requestedModel, requested_eq hs hm hkey]

/-- A request that stands for no generated type is refused. -/
theorem requested_eq_error {b : Builder} (hs : b.hierarchy.Sound) {u : ContentType}
    (hu : ¬ b.Generates u) : b.requested u = .error (.unknownModel u.aliasName) := by
  have hnone : (b.hierarchy.own? u).filter b.hierarchy.isGenerated = none := by
    refine Option.filter_eq_none_iff.2 fun m hm hgen => hu ?_
    obtain ⟨hmem, halias, hitem⟩ := (Hierarchy.find?_eq_some_iff hs.keys).1 hm
    refine ⟨m, List.mem_filter.2 ⟨hmem, hgen⟩, ?_⟩
    rw [ContentType.key, ContentType.key, halias, hitem]
  rw [requested, hnone]

/-- The first request that stands for no generated type decides the fault. -/
theorem mapM_requested_eq_error {b : Builder} (hs : b.hierarchy.Sound) {before : List ContentType}
    {u : ContentType} (hbefore : ∀ v ∈ before, b.Generates v) (hu : ¬ b.Generates u)
    (after : List ContentType) :
    (before ++ u :: after).mapM b.requested = .error (.unknownModel u.aliasName) := by
  induction before with
  | nil =>
    rw [List.nil_append, List.mapM_cons, requested_eq_error hs hu]
    rfl
  | cons v before ih =>
    obtain ⟨m, hm, hkey⟩ := hbefore v List.mem_cons_self
    have hrest := ih fun w hw => hbefore w (List.mem_cons_of_mem v hw)
    rw [List.cons_append, List.mapM_cons, requested_eq hs hm hkey, hrest]
    rfl

/-- Requests that all stand for generated types are looked up, and their models are those that the
writer writes for what is found. -/
theorem exists_mapM_requested {b : Builder} (hs : b.hierarchy.Sound) {requests : List ContentType}
    (h : ∀ u ∈ requests, b.Generates u) :
    ∃ models, requests.mapM b.requested = .ok models ∧
      models.map b.writer.model = requests.map b.requestedModel := by
  induction requests with
  | nil => exact ⟨[], rfl, rfl⟩
  | cons u requests ih =>
    obtain ⟨m, hm, hkey⟩ := h u List.mem_cons_self
    obtain ⟨models, hmodels, hwritten⟩ := ih fun v hv => h v (List.mem_cons_of_mem u hv)
    refine ⟨m :: models, ?_, ?_⟩
    · rw [List.mapM_cons, requested_eq hs hm hkey, hmodels]
      rfl
    · rw [List.map_cons, List.map_cons, hwritten, requestedModel_eq hs hm hkey]

/-! ## Files of requested models -/

/-- The file of requests that all stand for generated types. -/
theorem generateAll_eq {b : Builder} (hs : b.hierarchy.Sound) {requests : List ContentType}
    (h : ∀ u ∈ requests, b.Generates u) :
    b.generateAll requests =
      Draft.ofString b.writer.fileStart ++
        (Draft.join "\n" (requests.map b.requestedModel) ++ Draft.ofString Writer.fileEnd) := by
  obtain ⟨models, hmodels, hwritten⟩ := exists_mapM_requested hs h
  rw [generateAll, hmodels, ← hwritten]
  simp only [Writer.file, Draft.concat_cons, Draft.concat_nil, Draft.append_empty]

/-- The file of one request that stands for a generated type. -/
theorem generate_eq {b : Builder} (hs : b.hierarchy.Sound) {u : ContentType} (h : b.Generates u) :
    b.generate u =
      Draft.ofString b.writer.fileStart ++
        (b.requestedModel u ++ Draft.ofString Writer.fileEnd) :=
  generateAll_eq hs fun _ hv => List.mem_singleton.1 hv ▸ h

/-- A request that is answered with a file stands for a generated type. -/
theorem generates_of_generate {b : Builder} (hs : b.hierarchy.Sound) {u : ContentType}
    {text : String} (h : (b.generate u).toExcept = .ok text) : b.Generates u := by
  by_contra hu
  have hlookup : [u].mapM b.requested = .error (.unknownModel u.aliasName) :=
    mapM_requested_eq_error hs (List.forall_mem_nil _) hu []
  rw [generate, generateAll, hlookup] at h
  cases h

/-- A file of one model is written in full exactly if the model is. -/
theorem fault_generate_eq {b : Builder} (hs : b.hierarchy.Sound) {u : ContentType}
    (h : b.Generates u) : (b.generate u).fault = (b.requestedModel u).fault := by
  rw [generate_eq hs h]
  simp

/-- How a builder answers requests: `start` stands before the models of each file, and `body u` is
the text of the model that `u` stands for. What had been written before is `written`. -/
structure WritesFiles (b : Builder) (start : String) (body : ContentType → String) : Prop where
  /-- Of the requests, only the keys count. -/
  keys : ∀ requests others : List ContentType,
    requests.map ContentType.key = others.map ContentType.key →
      b.generateAll requests = b.generateAll others
  /-- The first request that stands for no generated type is refused, and nothing is written. -/
  refused : ∀ (before : List ContentType) (u : ContentType) (after : List ContentType),
    (∀ v ∈ before, b.Generates v) → ¬ b.Generates u → ∀ written : String,
      Draft.ofString written ++ b.generateAll (before ++ u :: after) =
        ⟨written, some (.unknownModel u.aliasName)⟩
  /-- A file of one model that can be written is the start, the model and the end. -/
  single : ∀ (u : ContentType) (text : String), (b.generate u).toExcept = .ok text →
    text = start ++ body u ++ "\x7d\n"
  /-- If each of the models can be written, so can the file of all, with an empty line between
  them. -/
  complete : ∀ requests : List ContentType,
    (∀ u ∈ requests, ∃ text, (b.generate u).toExcept = .ok text) → ∀ written : String,
      Draft.ofString written ++ b.generateAll requests =
        ⟨written ++ start ++ "\n".intercalate (requests.map body) ++ "\x7d\n", none⟩
  /-- The first model that cannot be written ends the file with its fault. Behind those before it
  stands what it writes by itself behind the start. -/
  broken : ∀ (before : List ContentType) (u : ContentType) (after : List ContentType)
    (fault : Fault), (∀ v ∈ before ++ u :: after, b.Generates v) →
      (∀ v ∈ before, ∃ text, (b.generate v).toExcept = .ok text) →
      (b.generate u).toExcept = .error fault →
      ∃ rest, b.generate u = ⟨start ++ rest, some fault⟩ ∧ ∀ written : String,
        Draft.ofString written ++ b.generateAll (before ++ u :: after) =
          ⟨written ++ start ++ String.join (before.map fun v => body v ++ "\n") ++ rest,
            some fault⟩

/-- The answer to some requests depends on their keys only. -/
theorem generateAll_eq_of_keys {b : Builder} (hs : b.hierarchy.Sound)
    {requests others : List ContentType}
    (hkeys : requests.map ContentType.key = others.map ContentType.key) :
    b.generateAll requests = b.generateAll others := by
  have hsame : b.hierarchy.Reordered b.hierarchy := ⟨.refl _, hs.keys, hs.ids⟩
  rw [generateAll, generateAll, mapM_requested_congr hsame hkeys]

/-- The file of models that can be written holds all of them. -/
theorem generateAll_eq_ofString {b : Builder} (hs : b.hierarchy.Sound)
    {requests : List ContentType}
    (h : ∀ u ∈ requests, ∃ text, (b.generate u).toExcept = .ok text) :
    b.generateAll requests =
      Draft.ofString (b.writer.fileStart ++
        ("\n".intercalate (requests.map fun u => (b.requestedModel u).text) ++ Writer.fileEnd)) := by
  have hgen : ∀ u ∈ requests, b.Generates u := fun u hu => by
    obtain ⟨text, htext⟩ := h u hu
    exact generates_of_generate hs htext
  have hfull : ∀ d ∈ requests.map b.requestedModel, d.fault = none := by
    refine List.forall_mem_map.2 fun u hu => ?_
    rw [← fault_generate_eq hs (hgen u hu)]
    exact Draft.exists_toExcept_iff.1 (h u hu)
  rw [generateAll_eq hs hgen, Draft.join_eq_ofString hfull, List.map_map, Draft.ofString_append,
    Draft.ofString_append]
  rfl

/-- The file of several models ends with the first that cannot be written. -/
theorem generateAll_eq_of_fault {b : Builder} (hs : b.hierarchy.Sound)
    {before after : List ContentType} {u : ContentType} {fault : Fault}
    (hgen : ∀ v ∈ before ++ u :: after, b.Generates v)
    (hbefore : ∀ v ∈ before, ∃ text, (b.generate v).toExcept = .ok text)
    (hu : (b.generate u).toExcept = .error fault) :
    b.generateAll (before ++ u :: after) =
      Draft.ofString (b.writer.fileStart ++
        String.join (before.map fun v => (b.requestedModel v).text ++ "\n")) ++
          b.requestedModel u := by
  have hfull : ∀ d ∈ before.map b.requestedModel, d.fault = none := by
    refine List.forall_mem_map.2 fun v hv => ?_
    rw [← fault_generate_eq hs (hgen v (List.mem_append_left _ hv))]
    exact Draft.exists_toExcept_iff.1 (hbefore v hv)
  have hfault : (b.requestedModel u).fault = some fault := by
    rw [← fault_generate_eq hs (hgen u (by simp))]
    exact Draft.toExcept_eq_error_iff.1 hu
  have hsome : (Draft.ofString (String.join
      ((before.map b.requestedModel).map fun e => e.text ++ "\n")) ++
        b.requestedModel u).fault.isSome := by
    simp [hfault]
  rw [generateAll_eq hs hgen, List.map_append, List.map_cons,
    Draft.join_append_of_fault hfull (by simp [hfault]), Draft.append_of_fault hsome,
    ← Draft.append_assoc, Draft.ofString_append, List.map_map]
  rfl

/-- A builder has a start of files and a text of each model that it generates, of which all its
files are made, and refuses requests without writing anything. -/
theorem exists_writesFiles {config : Config} {types : List ContentType}
    {catalog : List DeclaredType} {b : Builder} (hmake : make config types catalog = .ok b) :
    ∃ (start : String) (body : ContentType → String), b.WritesFiles start body := by
  have hs := sound_of_make hmake
  refine ⟨b.writer.fileStart, fun u => (b.requestedModel u).text,
    { keys := fun _ _ => generateAll_eq_of_keys hs, refused := ?_, single := ?_, complete := ?_,
      broken := ?_ }⟩
  · intro before u after hbefore hu written
    rw [generateAll, mapM_requested_eq_error hs hbefore hu]
    exact Draft.ext (String.append_empty ..) rfl
  · intro u text htext
    have hwritten : ∀ v ∈ [u], ∃ text, (b.generate v).toExcept = .ok text :=
      List.forall_mem_singleton.2 ⟨text, htext⟩
    rw [generate, generateAll_eq_ofString hs hwritten] at htext
    obtain rfl := Except.ok.inj htext
    simp [Draft.ofString, Writer.fileEnd, String.append_assoc]
  · intro requests h written
    rw [generateAll_eq_ofString hs h, Draft.ofString_append, Draft.ofString]
    simp [Writer.fileEnd, String.append_assoc]
  · intro before u after fault hgen hbefore hu
    have hfault : (b.requestedModel u).fault = some fault := by
      rw [← fault_generate_eq hs (hgen u (by simp))]
      exact Draft.toExcept_eq_error_iff.1 hu
    have hbroken : (b.requestedModel u).fault.isSome := Option.isSome_iff_exists.2 ⟨fault, hfault⟩
    refine ⟨(b.requestedModel u).text, ?_, fun written => ?_⟩
    · -- What would stand behind the model is not written.
      rw [generate_eq hs (hgen u (by simp)), Draft.append_of_fault hbroken]
      exact Draft.ext (by simp [Draft.append_def, Draft.ofString]) (by simp [hfault])
    · rw [generateAll_eq_of_fault hs hgen hbefore hu]
      refine Draft.ext ?_ (by simp [hfault])
      simp [Draft.append_def, Draft.ofString, String.append_assoc]

/-- The model of a page that cannot be written ends a file behind that of a card. Behind the page,
nothing is written of a second card, and nothing at all if a type without a model is requested. -/
theorem listing_broken_off :
    make siteConfig listingTypes [] = .ok (ofSite listingTypes []) ∧
      ∃ (start body rest : String) (fault : Fault),
        (ofSite listingTypes []).generate listingTypes[2] = ⟨start ++ rest, some fault⟩ ∧
          Draft.ofString "// Site\n" ++ (ofSite listingTypes []).generateAll
              [listingTypes[0], listingTypes[2], listingTypes[1]] =
            ⟨"// Site\n" ++ start ++ (body ++ "\n") ++ rest, some fault⟩ ∧
          Draft.ofString "// Site\n" ++ (ofSite listingTypes []).generateAll
              [listingTypes[0], { listingTypes[1] with itemType := .media }] =
            ⟨"// Site\n", some (.unknownModel "card")⟩ := by
  have hok : make siteConfig listingTypes [] = .ok (ofSite listingTypes []) :=
    make_siteConfig [] (by decide +kernel)
  have hs := sound_of_make hok
  have hgen : ∀ t ∈ listingTypes, t ∈ (ofSite listingTypes []).generatedTypes := by decide +kernel
  have hmodels : ∀ v ∈ [listingTypes[0], listingTypes[2], listingTypes[1]],
      (ofSite listingTypes []).Generates v := by
    have hown : ∀ v ∈ [listingTypes[0], listingTypes[2], listingTypes[1]], v ∈ listingTypes := by
      decide
    exact fun v hv => ⟨v, hgen v (hown v hv), rfl⟩
  have hcard : ∃ text, ((ofSite listingTypes []).generate listingTypes[0]).toExcept = .ok text := by
    rw [Draft.exists_toExcept_iff, fault_generate hs (hgen _ (by decide)) rfl]
    decide +kernel
  have hpage : ((ofSite listingTypes []).generate listingTypes[2]).toExcept =
      .error (.ambiguousModel "\x7bcard\x7d") := by
    rw [Draft.toExcept_eq_error_iff, fault_generate hs (hgen _ (by decide)) rfl]
    decide +kernel
  have hmedia :
      ¬ (ofSite listingTypes []).Generates { listingTypes[1] with itemType := .media } := by
    rintro ⟨m, hm, hkey⟩
    have hother : ∀ t ∈ listingTypes, t.itemType ≠ .media := by decide
    exact hother m (List.mem_filter.1 hm).1 (Prod.mk.inj hkey).2.symm
  obtain ⟨start, body, hfiles⟩ := exists_writesFiles hok
  obtain ⟨rest, halone, hall⟩ :=
    hfiles.broken [listingTypes[0]] listingTypes[2] [listingTypes[1]] _ hmodels
      (List.forall_mem_singleton.2 hcard) hpage
  refine ⟨hok, start, body listingTypes[0], rest, _, halone, ?_, ?_⟩
  · simpa using hall "// Site\n"
  · exact hfiles.refused [listingTypes[0]] _ []
      (List.forall_mem_singleton.2 (hmodels _ List.mem_cons_self)) hmedia "// Site\n"

end Builder

end ContentModels
