import ContentModels.Config.Basic
import ContentModels.Proofs.Namespace.Reading
import Mathlib.Data.List.Nodup

/-!
# Well-formed configurations and calls of setters

A configuration is checked in two ways: each setter refuses values that are not well formed, and
`Config.fault?` looks for such values in a whole configuration. Both keep to one rule,
`Config.WellFormed`: a configuration has no fault exactly if it is well formed
(`fault?_eq_none_iff`), and calls of setters keep it so (`WellFormed.performAll`).

A call is told as a program that changes a configuration step by step and may stop with a fault
(`Config.Call.perform`), so that it says what a refused call leaves behind.
-/

namespace ContentModels

/-! ## Well-formed configurations -/

/-- The text holds more than white space. -/
def IsNonBlank (text : String) : Prop := ∃ c ∈ text.toList, isWhiteSpace c = false

/-- A text is blank unless it holds more than white space. -/
theorem isBlankText_eq_false_iff {text : String} : isBlankText text = false ↔ IsNonBlank text := by
  simp [isBlankText, IsNonBlank]

/-- The text of a namespace is read as the namespace, which has no fault then; or it is not read,
and the report is what is wrong with the namespace. -/
theorem Namespace.parse_own_text (ns : Namespace) :
    (parse ns.text = .ok ns ∧ ns.fault? = none) ∨
      ∃ report, parse ns.text = .error report ∧ ns.fault? = some (.malformedName report) := by
  unfold fault?
  cases hparse : parse ns.text with
  | error report => exact .inr ⟨report, rfl, rfl⟩
  | ok other =>
    obtain ⟨rfl, -⟩ := parse_eq_ok_iff.1 hparse
    exact .inl ⟨rfl, rfl⟩

/-- A namespace is found to be sound exactly if it is well formed. -/
theorem Namespace.fault?_eq_none_iff {ns : Namespace} : ns.fault? = none ↔ ns.IsWellFormed := by
  have hparse : parse ns.text = .ok ns ↔ ns.IsWellFormed :=
    parse_eq_ok_iff.trans (and_iff_right rfl)
  rw [← hparse]
  rcases ns.parse_own_text with ⟨hread, hnone⟩ | ⟨report, hread, hsome⟩
  · exact iff_of_true hnone hread
  · simp [hread, hsome]

/-- What is wrong with a namespace is that its name is malformed. -/
theorem Namespace.exists_malformedName_of_fault? {ns : Namespace} {fault : Fault}
    (h : ns.fault? = some fault) : ∃ report, fault = .malformedName report := by
  rcases ns.parse_own_text with ⟨-, hnone⟩ | ⟨report, -, hsome⟩
  · cases hnone.symm.trans h
  · exact ⟨report, (Option.some.inj (hsome.symm.trans h)).symm⟩

namespace Generator

/-- The name and the version of a generator are not blank. -/
structure WellFormed (g : Generator) : Prop where
  /-- The name holds more than white space. -/
  name : IsNonBlank g.name
  /-- The version holds more than white space. -/
  version : IsNonBlank g.version

/-- A generator is found to be sound exactly if it is well formed. -/
theorem fault?_eq_none_iff {g : Generator} : g.fault? = none ↔ g.WellFormed := by
  have hboth : g.WellFormed ↔ isBlankText g.name = false ∧ isBlankText g.version = false := by
    rw [isBlankText_eq_false_iff, isBlankText_eq_false_iff]
    exact ⟨fun h => ⟨h.name, h.version⟩, fun h => ⟨h.1, h.2⟩⟩
  rw [hboth, fault?]
  cases isBlankText g.name <;> cases isBlankText g.version <;> simp

/-- What is wrong with a generator is that its name or its version is blank. -/
theorem blank_of_fault? {g : Generator} {fault : Fault} (h : g.fault? = some fault) :
    fault = .blankGeneratorName ∨ fault = .blankGeneratorVersion := by
  rw [fault?] at h
  split at h
  · exact .inl (Option.some.inj h).symm
  · split at h
    · exact .inr (Option.some.inj h).symm
    · cases h

/-- A generator can be made exactly if it is well formed. -/
theorem make_eq_ok_iff {name version : String} {g : Generator} :
    make name version = .ok g ↔ g = ⟨name, version⟩ ∧ g.WellFormed := by
  unfold make
  dsimp only
  split
  · rename_i fault hfault
    simp only [reduceCtorEq, false_iff, not_and]
    rintro rfl hg
    rw [fault?_eq_none_iff.2 hg] at hfault
    cases hfault
  · rename_i hfault
    have hg := fault?_eq_none_iff.1 hfault
    constructor
    · rintro h
      obtain rfl := Except.ok.inj h
      exact ⟨rfl, hg⟩
    · rintro ⟨rfl, -⟩
      rfl

end Generator

namespace Config

/-- All values of a configuration are well formed, and no import is there twice. -/
structure WellFormed (c : Config) : Prop where
  /-- The namespace of the models is well formed. -/
  modelsNamespace : c.modelsNamespace.IsWellFormed
  /-- The imports are well formed. -/
  imports : ∀ ns ∈ c.imports, ns.IsWellFormed
  /-- The imports differ from each other. -/
  distinct : c.imports.Nodup
  /-- The generator is well formed. -/
  generator : c.generator.WellFormed

/-- Imports are found to be sound exactly if they are well formed and differ, from each other and
from those seen before. -/
theorem importsFault?_eq_none_iff {seen l : List Namespace} :
    importsFault? seen l = none ↔
      (∀ ns ∈ l, ns.IsWellFormed) ∧ l.Nodup ∧ ∀ ns ∈ l, ns ∉ seen := by
  induction l generalizing seen with
  | nil => simp [importsFault?]
  | cons ns l ih =>
    have hrest : (if ns ∈ seen then some (.importedTwice ns) else importsFault? (ns :: seen) l) =
        none ↔ ns ∉ seen ∧ importsFault? (ns :: seen) l = none := by
      by_cases hns : ns ∈ seen <;> simp [hns]
    rw [List.forall_mem_cons, List.forall_mem_cons, List.nodup_cons]
    simp only [importsFault?, Option.orElse_eq_orElse, Option.orElse_eq_or, Option.or_eq_none_iff,
      Namespace.fault?_eq_none_iff, hrest, ih, List.mem_cons, not_or]
    constructor
    · rintro ⟨hns, hseen, hall, hnodup, hnew⟩
      exact ⟨⟨hns, hall⟩, ⟨fun hmem => (hnew ns hmem).1 rfl, hnodup⟩, hseen,
        fun other hother => (hnew other hother).2⟩
    · rintro ⟨⟨hns, hall⟩, ⟨hnot, hnodup⟩, hseen, hnew⟩
      exact ⟨hns, hseen, hall, hnodup, fun other hother =>
        ⟨fun e => hnot (e ▸ hother), hnew other hother⟩⟩

/-- A configuration is found to be sound exactly if it is well formed. -/
theorem fault?_eq_none_iff {c : Config} : c.fault? = none ↔ c.WellFormed := by
  simp only [fault?, Option.orElse_eq_orElse, Option.orElse_eq_or, Option.or_eq_none_iff,
    Namespace.fault?_eq_none_iff, importsFault?_eq_none_iff, Generator.fault?_eq_none_iff]
  constructor
  · rintro ⟨hns, ⟨himports, hdistinct, -⟩, hgenerator⟩
    exact ⟨hns, himports, hdistinct, hgenerator⟩
  · rintro ⟨hns, himports, hdistinct, hgenerator⟩
    exact ⟨hns, ⟨himports, hdistinct, fun ns _ => List.not_mem_nil⟩, hgenerator⟩

/-- The segments of the namespaces in the default configuration, those of the models first. -/
def defaultSegments : List (List String) :=
  [["Umbraco", "Cms", "Web", "Common", "PublishedModels"], ["System"],
    ["System", "Linq", "Expressions"], ["Umbraco", "Cms", "Core", "Models", "PublishedContent"],
    ["Umbraco", "Cms", "Core", "PublishedCache"], ["Umbraco", "Cms", "ModelsBuilder", "Embedded"],
    ["Umbraco", "Cms", "Core"], ["Umbraco", "Extensions"]]

/-- The default configuration is well formed. -/
theorem wellFormed_default : ({} : Config).WellFormed := by
  have hspelled : ({} : Config).modelsNamespace :: ({} : Config).imports =
      defaultSegments.map Namespace.ofSegments := by decide +kernel
  have hsegments : ∀ segments ∈ defaultSegments,
      segments ≠ [] ∧ ∀ s ∈ segments, isIdentifier s.toList = true := by decide +kernel
  have hall : ∀ ns ∈ ({} : Config).modelsNamespace :: ({} : Config).imports, ns.IsWellFormed := by
    rw [hspelled]
    intro ns hns
    obtain ⟨segments, hmem, rfl⟩ := List.mem_map.1 hns
    exact ⟨segments, (hsegments segments hmem).1, (hsegments segments hmem).2, rfl⟩
  obtain ⟨hns, himports⟩ := List.forall_mem_cons.1 hall
  have hgenerator : ({} : Generator).fault? = none := by decide +kernel
  exact ⟨hns, himports, by decide +kernel, Generator.fault?_eq_none_iff.1 hgenerator⟩

/-! ## Calls of setters -/

/-- A program that changes a configuration in place and may stop with a fault; what it has changed
by then stays so. -/
abbrev Change : Type → Type := ExceptT Fault (StateM Config)

/-- A call of a setter, with what it is given. -/
inductive Call where
  /-- Sets the namespace of the models, given as a text. -/
  | setModelsNamespace (text : String)
  /-- Adds an import, given as a text. -/
  | addImport (text : String)
  /-- Removes all imports. -/
  | clearImports
  /-- Makes a generator of a name and a version and sets it. -/
  | setGenerator (name version : String)
  /-- Sets the mode. -/
  | setMode (mode : Mode)

namespace Call

/-- The configuration that a call leads to, unless it is refused. -/
def apply (c : Config) : Call → Except Fault Config
  | setModelsNamespace text => c.setModelsNamespace text
  | addImport text => c.addImport text
  | clearImports => .ok c.clearImports
  | setGenerator name version => do return c.setGenerator (← Generator.make name version)
  | setMode mode => .ok (c.setMode mode)

/-- Reads a namespace, or stops with the report. -/
def readNamespace (text : String) : Change Namespace :=
  match Namespace.parse text with
  | .error report => throw (.malformedName report)
  | .ok ns => pure ns

/-- What a call does to a configuration, step by step: it reads what it is given, looks at the
configuration, and changes it in place. -/
def perform : Call → Change Unit
  | setModelsNamespace text => do
    let ns ← readNamespace text
    modify fun c => { c with modelsNamespace := ns }
  | addImport text => do
    let ns ← readNamespace text
    let c ← get
    if ns ∈ c.imports then throw (.alreadyImported ns)
    else set { c with imports := c.imports ++ [ns] }
  | clearImports => modify fun c => { c with imports := [] }
  | setGenerator name version => do
    let generator ← Generator.make name version
    modify fun c => { c with generator }
  | setMode mode => modify fun c => { c with mode }

/-- A call that is not refused leaves the configuration that it leads to, and one that is refused
leaves the configuration that was there. -/
theorem perform_run (call : Call) (c : Config) :
    call.perform.run.run c =
      match call.apply c with
      | .ok c' => (.ok (), c')
      | .error fault => (.error fault, c) := by
  cases call with
  | setModelsNamespace text =>
    rw [perform, apply, readNamespace, Config.setModelsNamespace]
    cases Namespace.parse text <;> rfl
  | addImport text =>
    rw [perform, apply, readNamespace, Config.addImport]
    cases Namespace.parse text with
    | error report => rfl
    | ok ns =>
      dsimp only
      change (if ns ∈ c.imports then throw (.alreadyImported ns)
        else set { c with imports := c.imports ++ [ns] } : Change Unit).run.run c = _
      by_cases hns : ns ∈ c.imports
      · rw [if_pos hns, if_pos hns]
        rfl
      · rw [if_neg hns, if_neg hns]
        rfl
  | clearImports => rfl
  | setGenerator name version =>
    rw [perform, apply]
    cases Generator.make name version <;> rfl
  | setMode mode => rfl

end Call

/-- A call that is not refused keeps a configuration well formed. -/
theorem WellFormed.apply {c c' : Config} (hc : c.WellFormed) {call : Call}
    (h : call.apply c = .ok c') : c'.WellFormed := by
  cases call with
  | setModelsNamespace text =>
    rw [Call.apply, setModelsNamespace] at h
    split at h
    · cases h
    · rename_i ns hparse
      obtain rfl := Except.ok.inj h
      exact { hc with modelsNamespace := (Namespace.parse_eq_ok_iff.1 hparse).2 }
  | addImport text =>
    rw [Call.apply, addImport] at h
    split at h
    · cases h
    · rename_i ns hparse
      split at h
      · cases h
      · rename_i hnew
        obtain rfl := Except.ok.inj h
        have himports : ∀ other ∈ c.imports ++ [ns], other.IsWellFormed :=
          List.forall_mem_append.2
            ⟨hc.imports, List.forall_mem_singleton.2 (Namespace.parse_eq_ok_iff.1 hparse).2⟩
        have hdistinct : (c.imports ++ [ns]).Nodup :=
          List.concat_eq_append ▸ hc.distinct.concat hnew
        exact { hc with imports := himports, distinct := hdistinct }
  | clearImports =>
    obtain rfl := Except.ok.inj h
    exact { hc with imports := by simp [clearImports], distinct := List.nodup_nil }
  | setGenerator name version =>
    rw [Call.apply] at h
    cases hmake : Generator.make name version with
    | error fault =>
      rw [hmake] at h
      cases h
    | ok generator =>
      rw [hmake] at h
      obtain rfl := Except.ok.inj h
      exact { hc with generator := (Generator.make_eq_ok_iff.1 hmake).2 }
  | setMode mode =>
    obtain rfl := Except.ok.inj h
    exact { hc with }

/-- The configuration that is there after several calls, refused ones included. -/
def performAll (calls : List Call) (c : Config) : Config :=
  calls.foldl (fun c call => (call.perform.run.run c).2) c

/-- The configuration is there after some calls on the default one. -/
def Reachable (c : Config) : Prop := ∃ calls, performAll calls {} = c

/-- A call, refused or not, keeps a configuration well formed. -/
theorem WellFormed.perform {c : Config} (hc : c.WellFormed) (call : Call) :
    (call.perform.run.run c).2.WellFormed := by
  rw [call.perform_run]
  cases happly : call.apply c with
  | ok c' => exact hc.apply happly
  | error fault => exact hc

/-- Calls, refused or not, keep a configuration well formed. -/
theorem WellFormed.performAll {c : Config} (hc : c.WellFormed) (calls : List Call) :
    (performAll calls c).WellFormed := by
  induction calls generalizing c with
  | nil => exact hc
  | cons call calls ih => exact ih (hc.perform call)

/-- If a first call is not refused, the others go on from where it leads to. -/
theorem foldlM_cons_of_ok {call : Call} {calls : List Call} {c c' : Config}
    (h : call.apply c = .ok c') :
    (call :: calls).foldlM Call.apply c = calls.foldlM Call.apply c' := by
  rw [List.foldlM_cons, h]
  rfl

/-- If a first call is refused, that is the end. -/
theorem foldlM_cons_of_error {call : Call} {calls : List Call} {c : Config} {fault : Fault}
    (h : call.apply c = .error fault) : (call :: calls).foldlM Call.apply c = .error fault := by
  rw [List.foldlM_cons, h]
  rfl

/-- Calls of which none is refused leave the configuration that they lead to. -/
theorem performAll_eq_of_foldlM {calls : List Call} {c c' : Config}
    (h : calls.foldlM Call.apply c = .ok c') : performAll calls c = c' := by
  induction calls generalizing c with
  | nil => exact Except.ok.inj h
  | cons call calls ih =>
    rw [performAll, List.foldl_cons, call.perform_run]
    cases happly : call.apply c with
    | error fault =>
      rw [foldlM_cons_of_error happly] at h
      cases h
    | ok between =>
      rw [foldlM_cons_of_ok happly] at h
      exact ih h

end Config

end ContentModels
