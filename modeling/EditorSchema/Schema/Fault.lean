/-
What can go wrong between a classification and its schema, and how it is said.

* `SchemaFault.message`: the words for each fault.
-/
import EditorSchema.Classification
import EditorSchema.Spec.Fault

namespace EditorSchema

/-- The formats of files that hold settings. -/
inductive DataFormat where
  | json
  | yaml
deriving DecidableEq, Repr

/-- The name of a format. -/
def DataFormat.name : DataFormat → String
  | .json => "JSON"
  | .yaml => "YAML"

/-- Why there is no schema. -/
inductive SchemaFault where
  /-- A classified ident is not that of an element. -/
  | noElement (ident : String) (category : Category)
  /-- A spec that another one refers to is not there, or is of the wrong kind. -/
  | notLoaded (ident referrer : String)
  /-- An element changes or replaces an attribute that none of its classes has defined. -/
  | changeWithoutBase (attIdent element : String)
  /-- Memberships lead from an ident back to itself. -/
  | circularMembership (path : List String)
  | duplicateName (name : String)
  | classifiedTwice (ident : String) (first second : Category)
  /-- A file does not hold what it should in the format that its name tells. -/
  | unreadableData (path : String) (format : DataFormat)
  | spec (fault : SpecFault)
  | file (fault : FileFault)
deriving DecidableEq, Repr

/-- What is wrong, in words. -/
def SchemaFault.message : SchemaFault → String
  | .noElement ident category =>
    "No element spec for '" ++ ident ++ "' classified as " ++ category.word
  | .notLoaded ident referrer =>
    "Spec '" ++ ident ++ "' referenced by '" ++ referrer ++ "' is not loaded"
  | .changeWithoutBase attIdent element =>
    "Attribute '" ++ attIdent ++ "' on element '" ++ element ++
      "' changes a definition that was never added"
  | .circularMembership path => "Circular class membership: " ++ " -> ".intercalate path
  | .duplicateName name => "Duplicate schema element name: " ++ name
  | .classifiedTwice ident first second =>
    "Configuration error: '" ++ ident ++ "' is classified as both " ++ first.word ++ " and " ++
      second.word
  | .unreadableData path format =>
    "Invalid format in " ++ path ++ ": " ++ format.name ++ " parse error"
  | .spec fault => fault.message
  | .file fault => "IO error: " ++ fault.message

end EditorSchema
