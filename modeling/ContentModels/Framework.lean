import ContentModels.Catalog

/-!
# The framework of published content

The framework types that every generated model refers to.
-/

namespace ContentModels

namespace Framework

/-- The namespace of published content. -/
def publishedContentNamespace : Namespace := ⟨"Umbraco.Cms.Core.Models.PublishedContent"⟩

/-- The type `name` of published content. -/
def publishedContentType (name : String) : DeclaredType := ⟨publishedContentNamespace, name⟩

/-- Published items that have a route. -/
def publishedContent : DeclaredType := publishedContentType "IPublishedContent"

/-- Published elements. -/
def publishedElement : DeclaredType := publishedContentType "IPublishedElement"

/-- The base class of models of items that have a route. -/
def publishedContentModel : DeclaredType := publishedContentType "PublishedContentModel"

/-- The base class of models of elements. -/
def publishedElementModel : DeclaredType := publishedContentType "PublishedElementModel"

/-- What gives a value to a property that has none. -/
def valueFallback : DeclaredType := publishedContentType "IPublishedValueFallback"

/-- The category of a published item. -/
def publishedItemType : DeclaredType := publishedContentType "PublishedItemType"

/-- The content type of a published item. -/
def contentType : DeclaredType := publishedContentType "IPublishedContentType"

/-- The property type of a published property. -/
def propertyType : DeclaredType := publishedContentType "IPublishedPropertyType"

/-- The access to all that is published. -/
def snapshotAccessor : DeclaredType :=
  ⟨⟨"Umbraco.Cms.Core.PublishedCache"⟩, "IPublishedSnapshotAccessor"⟩

/-- The functions that models share. -/
def modelUtility : DeclaredType :=
  ⟨⟨"Umbraco.Cms.ModelsBuilder.Embedded"⟩, "PublishedModelUtility"⟩

/-- The trees of expressions. -/
def expression : DeclaredType := ⟨⟨"System.Linq.Expressions"⟩, "Expression"⟩

/-- The functions of one argument. -/
def function : DeclaredType := ⟨⟨"System"⟩, "Func"⟩

end Framework

end ContentModels
