import ContentModels.Builder
import ContentModels.Config.File
import ContentModels.Proofs.Config.Setters

/-!
# Replaying configurations

To replay a configuration is to set all its values, one setter after the other, on the default
configuration without imports. The setters refuse it for the fault that `Config.fault?` finds, told
in their own way, and otherwise lead to the configuration (`foldlM_calls`). So what calls of setters
lead to is what has no fault, and a configuration file is refused exactly if the values that it
holds are (`reachable_iff_without_fault`).
-/

namespace ContentModels

/-! ## Faults as setters tell them -/

/-- A fault of a configuration, as a setter tells it. -/
def Fault.toldBySetter : Fault → Fault
  | importedTwice ns => alreadyImported ns
  | fault => fault

/-- The kinds of fault in the values of a configuration. -/
inductive ConfigFaultKind where
  /-- A value may not stand where it does. -/
  | invalidConfig
  /-- A name is malformed. -/
  | typeName
deriving DecidableEq

/-- The kind of a fault, if it is one in the values of a configuration. -/
def Fault.configKind? : Fault → Option ConfigFaultKind
  | blankGeneratorName | blankGeneratorVersion | alreadyImported _ | importedTwice _ =>
    some .invalidConfig
  | malformedName _ => some .typeName
  | _ => none

/-- Setters tell of the same kind. -/
theorem Fault.configKind?_toldBySetter (fault : Fault) :
    fault.toldBySetter.configKind? = fault.configKind? := by
  cases fault <;> rfl

namespace Config

/-! ## Replaying -/

/-- The calls that set all the values of a configuration, in the order in which it is checked. -/
def calls (d : Config) : List Call :=
  .clearImports :: .setModelsNamespace d.modelsNamespace.text ::
    ((d.imports.map fun ns => .addImport ns.text) ++
      [.setGenerator d.generator.name d.generator.version, .setMode d.mode])

/-- What these calls lead to from the default configuration, unless one is refused. -/
def replay (d : Config) : Except Fault Config := d.calls.foldlM Call.apply {}

/-- A namespace read from its own text is the one that is set, unless it has a fault. -/
theorem apply_setModelsNamespace (c : Config) (ns : Namespace) :
    Call.apply c (.setModelsNamespace ns.text) =
      match ns.fault? with
      | none => .ok { c with modelsNamespace := ns }
      | some fault => .error fault := by
  rw [Call.apply, setModelsNamespace]
  rcases ns.parse_own_text with ⟨hread, hfault⟩ | ⟨report, hread, hfault⟩
  · rw [hread, hfault]
  · rw [hread, hfault]

/-- An import read from its own text is the one that is added, unless it has a fault or is there
already. -/
theorem apply_addImport (c : Config) (ns : Namespace) :
    Call.apply c (.addImport ns.text) =
      match ns.fault? with
      | none =>
        if ns ∈ c.imports then .error (.alreadyImported ns)
        else .ok { c with imports := c.imports ++ [ns] }
      | some fault => .error fault := by
  rw [Call.apply, addImport]
  rcases ns.parse_own_text with ⟨hread, hfault⟩ | ⟨report, hread, hfault⟩
  · rw [hread, hfault]
  · rw [hread, hfault]

/-- A generator made of its own name and version is the one that is set, unless it has a fault. -/
theorem apply_setGenerator (c : Config) (g : Generator) :
    Call.apply c (.setGenerator g.name g.version) =
      match g.fault? with
      | none => .ok { c with generator := g }
      | some fault => .error fault := by
  rw [Call.apply, Generator.make]
  cases g.fault? <;> rfl

/-- Imports are added one by one up to the first fault, if those seen are those that are there. -/
theorem foldlM_addImport {seen l : List Namespace} {c : Config}
    (hseen : ∀ ns, ns ∈ seen ↔ ns ∈ c.imports) :
    (l.map fun ns => Call.addImport ns.text).foldlM Call.apply c =
      match importsFault? seen l with
      | none => .ok { c with imports := c.imports ++ l }
      | some fault => .error fault.toldBySetter := by
  induction l generalizing seen c with
  | nil =>
    rw [importsFault?, List.append_nil]
    rfl
  | cons ns l ih =>
    have happly := apply_addImport c ns
    rw [List.map_cons, importsFault?]
    cases hfault : ns.fault? with
    | some fault =>
      obtain ⟨report, rfl⟩ := Namespace.exists_malformedName_of_fault? hfault
      rw [hfault] at happly
      exact foldlM_cons_of_error happly
    | none =>
      rw [hfault] at happly
      dsimp only at happly
      by_cases hns : ns ∈ c.imports
      · rw [if_pos hns] at happly
        rw [if_pos ((hseen ns).2 hns)]
        exact foldlM_cons_of_error happly
      · rw [if_neg hns] at happly
        rw [if_neg (mt (hseen ns).1 hns), foldlM_cons_of_ok happly]
        have hseen' : ∀ other, other ∈ ns :: seen ↔ other ∈ c.imports ++ [ns] := by
          intro other
          rw [List.mem_cons, List.mem_append, List.mem_singleton, hseen, or_comm]
        have hrest := ih (c := { c with imports := c.imports ++ [ns] }) hseen'
        rw [List.append_assoc] at hrest
        exact hrest

/-- The generator is set, and the mode behind it, unless the generator has a fault. -/
theorem foldlM_setGenerator (c d : Config) :
    [Call.setGenerator d.generator.name d.generator.version, .setMode d.mode].foldlM Call.apply c =
      match d.generator.fault? with
      | none => .ok { c with generator := d.generator, mode := d.mode }
      | some fault => .error fault.toldBySetter := by
  have hgenerator := apply_setGenerator c d.generator
  cases hfault : d.generator.fault? with
  | some fault =>
    rw [hfault] at hgenerator
    rcases Generator.blank_of_fault? hfault with rfl | rfl <;>
      exact foldlM_cons_of_error hgenerator
  | none =>
    rw [hfault] at hgenerator
    exact (foldlM_cons_of_ok hgenerator).trans rfl

/-- From whatever configuration, replaying another one leads to that one unless it has a fault, and
is refused for that fault otherwise. -/
theorem foldlM_calls (c d : Config) :
    d.calls.foldlM Call.apply c =
      match d.fault? with
      | none => .ok d
      | some fault => .error fault.toldBySetter := by
  have hnamespace := apply_setModelsNamespace c.clearImports d.modelsNamespace
  rw [calls, foldlM_cons_of_ok rfl, fault?]
  cases hns : d.modelsNamespace.fault? with
  | some fault =>
    obtain ⟨report, rfl⟩ := Namespace.exists_malformedName_of_fault? hns
    rw [hns] at hnamespace
    exact foldlM_cons_of_error hnamespace
  | none =>
    rw [hns] at hnamespace
    have hempty : ∀ ns, ns ∈ ([] : List Namespace) ↔
        ns ∈ { c.clearImports with modelsNamespace := d.modelsNamespace }.imports := fun _ => .rfl
    have himports := foldlM_addImport (l := d.imports) hempty
    rw [foldlM_cons_of_ok hnamespace, List.foldlM_append, himports]
    cases himports : importsFault? [] d.imports with
    | some fault => rfl
    | none =>
      exact foldlM_setGenerator
        { c with modelsNamespace := d.modelsNamespace, imports := d.imports } d

/-! ## What is refused -/

/-- A fault among imports is one in the values of a configuration. -/
theorem exists_configKind_of_importsFault? {seen l : List Namespace} {fault : Fault}
    (h : importsFault? seen l = some fault) : ∃ kind, fault.configKind? = some kind := by
  induction l generalizing seen with
  | nil => cases h
  | cons ns l ih =>
    rw [importsFault?] at h
    cases hns : ns.fault? with
    | some first =>
      rw [hns] at h
      obtain rfl := Option.some.inj h
      obtain ⟨report, rfl⟩ := Namespace.exists_malformedName_of_fault? hns
      exact ⟨.typeName, rfl⟩
    | none =>
      rw [hns, Option.orElse_eq_orElse, Option.orElse_eq_or, Option.none_or] at h
      split at h
      · obtain rfl := Option.some.inj h
        exact ⟨.invalidConfig, rfl⟩
      · exact ih h

/-- What is found in a configuration is a fault in its values. -/
theorem exists_configKind_of_fault? {c : Config} {fault : Fault} (h : c.fault? = some fault) :
    ∃ kind, fault.configKind? = some kind := by
  simp only [fault?, Option.orElse_eq_orElse, Option.orElse_eq_or, Option.or_eq_some_iff] at h
  rcases h with hns | ⟨-, himports | ⟨-, hgenerator⟩⟩
  · obtain ⟨report, rfl⟩ := Namespace.exists_malformedName_of_fault? hns
    exact ⟨.typeName, rfl⟩
  · exact exists_configKind_of_importsFault? himports
  · rcases Generator.blank_of_fault? hgenerator with rfl | rfl <;> exact ⟨.invalidConfig, rfl⟩

/-- Two answers are the same configuration, or faults of one kind in the values of one. -/
inductive SameAnswer : Except Fault Config → Except Fault Config → Prop
  /-- Both give the configuration. -/
  | accepted (c : Config) : SameAnswer (.ok c) (.ok c)
  /-- Both refuse, for a fault of the same kind. -/
  | refused {fault other : Fault} (kind : ConfigFaultKind) : fault.configKind? = some kind →
    other.configKind? = some kind → SameAnswer (.error fault) (.error other)

/-- What is read from a file has no fault. -/
theorem fault?_eq_none_of_ofToml {source : String} {c : Config} (h : ofToml source = .ok c) :
    c.fault? = none := by
  unfold ofToml at h
  split at h
  · cases h
  · split at h
    · cases h
    · rename_i hfault
      obtain rfl := Except.ok.inj h
      exact hfault

/-- The values that a file holds, well formed or not, if they can be read. -/
def decode? (source : String) : Option Config := (Toml.parse source).bind ofTable?

/-- A file cannot be read, or it is answered as replaying its values is. -/
theorem ofToml_sameAnswer_replay (source : String) :
    (decode? source = none ∧ ofToml source = .error .unreadableConfig) ∨
      ∃ d, decode? source = some d ∧ SameAnswer (ofToml source) d.replay := by
  unfold decode? ofToml replay
  cases (Toml.parse source).bind ofTable? with
  | none => exact .inl ⟨rfl, rfl⟩
  | some d =>
    refine .inr ⟨d, rfl, ?_⟩
    rw [foldlM_calls]
    dsimp only
    cases hfault : d.fault? with
    | none => exact .accepted d
    | some fault =>
      obtain ⟨kind, hkind⟩ := exists_configKind_of_fault? hfault
      exact .refused kind hkind (fault.configKind?_toldBySetter.trans hkind)

/-- A configuration has no fault exactly if calls of setters, refused ones included, lead to it from
the default one. A call does what its setter says, and leaves the configuration as it was if that
refuses. All that calls lead to, and all that is read from a file, is well formed, and a builder
refuses it only for what is wrong with the types. A file whose values can be read is answered as
replaying them is, up to the wording of a fault. -/
theorem reachable_iff_without_fault :
    (∀ c : Config, c.fault? = none ↔ c.Reachable) ∧
      (∀ (c : Config) (call : Call), call.perform.run.run c =
        match call.apply c with
        | .ok c' => (.ok (), c')
        | .error fault => (.error fault, c)) ∧
      (∀ c : Config, (c.Reachable ∨ ∃ source, ofToml source = .ok c) →
        c.WellFormed ∧ ∀ types catalog, Builder.make c types catalog =
          (Hierarchy.ofTypes c.mode types).map fun h =>
            ⟨c, h, .build catalog h c.modelsNamespace⟩) ∧
      ∀ source,
        (decode? source = none ∧ ofToml source = .error .unreadableConfig) ∨
          ∃ d, decode? source = some d ∧ SameAnswer (ofToml source) d.replay := by
  have hreachable : ∀ c : Config, c.fault? = none ↔ c.Reachable := by
    intro c
    constructor
    · intro hfault
      have hreplay := foldlM_calls {} c
      rw [hfault] at hreplay
      exact ⟨c.calls, performAll_eq_of_foldlM hreplay⟩
    · rintro ⟨calls, rfl⟩
      exact fault?_eq_none_iff.2 (wellFormed_default.performAll calls)
  refine ⟨hreachable, fun c call => call.perform_run c, fun c hc => ?_, ofToml_sameAnswer_replay⟩
  have hfault : c.fault? = none := by
    rcases hc with hc | ⟨source, hread⟩
    · exact (hreachable c).2 hc
    · exact fault?_eq_none_of_ofToml hread
  refine ⟨fault?_eq_none_iff.1 hfault, fun types catalog => ?_⟩
  rw [Builder.make, hfault]
  dsimp only
  cases Hierarchy.ofTypes c.mode types <;> rfl

/-- Adding an import twice is refused the second time, and what the calls lead to is well formed; in
a file, the same list of imports is refused. -/
theorem import_added_once :
    performAll [.addImport "A", .addImport "A", .setMode .inMemory] {} =
        { imports := defaultImports ++ [⟨"A"⟩], mode := .inMemory } ∧
      WellFormed { imports := defaultImports ++ [⟨"A"⟩], mode := .inMemory } ∧
      ofToml "using = ['A', 'A']" = .error (.importedTwice ⟨"A"⟩) := by
  have hcalls : performAll [.addImport "A", .addImport "A", .setMode .inMemory] {} =
      { imports := defaultImports ++ [⟨"A"⟩], mode := .inMemory } := by decide +kernel
  have hrefused : ofToml "using = ['A', 'A']" = .error (.importedTwice ⟨"A"⟩) := by decide +kernel
  exact ⟨hcalls, (reachable_iff_without_fault.2.2.1 _ (.inl ⟨_, hcalls⟩)).1, hrefused⟩

end Config

end ContentModels
