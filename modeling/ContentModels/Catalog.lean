import ContentModels.Namespace.Basic

/-!
# Catalogs

The types that exist beside the generated models, which generated code may see. A catalog holds
each declaration once, in the order in which they came.
-/

namespace ContentModels

/-- A top-level type declared in a namespace. -/
structure DeclaredType where
  ns : Namespace
  name : String
deriving DecidableEq

/-- The full name of a declared type. -/
def DeclaredType.text (d : DeclaredType) : String := d.ns.lead ++ d.name

/-- Declared types, each once, in the order of their first declaration. -/
structure Catalog where
  types : List DeclaredType
  nodup : types.Nodup

namespace Catalog

/-- The catalog of no types. -/
def empty : Catalog := ⟨[], List.nodup_nil⟩

/-- The catalog with one more type, which is added at the end unless it is there already. -/
def declare (c : Catalog) (d : DeclaredType) : Catalog :=
  if h : d ∈ c.types then c
  else ⟨c.types ++ [d], by
    rw [List.nodup_append]
    refine ⟨c.nodup, by simp, ?_⟩
    rintro a ha b hb rfl
    exact h (List.mem_singleton.1 hb ▸ ha)⟩

/-- The catalog with several more types. -/
def extend (c : Catalog) (ds : List DeclaredType) : Catalog := ds.foldl declare c

/-- Whether a type is declared. -/
def contains (c : Catalog) (d : DeclaredType) : Bool := d ∈ c.types

/-- A type is declared after a declaration if it was before or is the one that was made. -/
theorem mem_types_declare (c : Catalog) (d e : DeclaredType) :
    e ∈ (c.declare d).types ↔ e ∈ c.types ∨ e = d := by
  unfold declare
  split
  · constructor
    · exact .inl
    · rintro (h | rfl) <;> assumption
  · simp

/-- The types that generated models commonly meet, by namespace: those of the base class library
and those of published content. -/
def standardTypes : List (String × List String) :=
  [("System",
      ["Boolean", "Byte", "Char", "DateTime", "DateTimeOffset", "Decimal", "Double", "Func",
        "Guid", "Int16", "Int32", "Int64", "Object", "SByte", "Single", "String", "TimeSpan",
        "UInt16", "UInt32", "UInt64", "Uri", "Void"]),
    ("System.Collections.Generic", ["Dictionary", "IDictionary", "IEnumerable", "IList", "List"]),
    ("System.Linq.Expressions", ["Expression"]),
    ("System.Text", ["ASCIIEncoding", "Encoding", "StringBuilder", "UTF8Encoding"]),
    ("Umbraco.Cms.Core", ["Udi", "GuidUdi"]),
    ("Umbraco.Cms.Core.Exceptions", ["BootFailedException"]),
    ("Umbraco.Cms.Core.Models", ["Link", "MediaWithCrops"]),
    ("Umbraco.Cms.Core.Models.PublishedContent",
      ["IPublishedContent", "IPublishedContentType", "IPublishedElement", "IPublishedPropertyType",
        "IPublishedValueFallback", "ImplementPropertyTypeAttribute", "PublishedContentModel",
        "PublishedElementModel", "PublishedItemType", "PublishedModelAttribute"]),
    ("Umbraco.Cms.Core.PublishedCache", ["IPublishedSnapshotAccessor"]),
    ("Umbraco.Cms.Core.Strings", ["IHtmlEncodedString"]),
    ("Umbraco.Cms.ModelsBuilder.Embedded", ["PublishedModelUtility"])]

/-- The catalog of the types that generated models commonly meet. -/
def standard : Catalog :=
  empty.extend (standardTypes.flatMap fun entry => entry.2.map fun name => ⟨⟨entry.1⟩, name⟩)

end Catalog

end ContentModels
