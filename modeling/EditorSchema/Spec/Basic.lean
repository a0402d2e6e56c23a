/-
Specs: what a guideline says of its classes, elements, macros and datatypes.

* `Spec.ident`, `Spec.memberships`, `Spec.attributes`, `Spec.content?`: what the kinds of
  specs have in common;
* `Spec.ident_withContent`: content is replaced without touching the ident.
-/
import EditorSchema.Attribute
import EditorSchema.Content.Basic
import EditorSchema.Spec.Fault

namespace EditorSchema

/-- What a class gives to its members: a place in content, or attributes. -/
inductive ClassKind where
  | model
  | attributes
deriving DecidableEq, Repr

/-- The word for a kind of class. -/
def ClassKind.word : ClassKind → String
  | .model => "model"
  | .attributes => "atts"

/-- The kind of the class of an ident: as it is stated, and where it is not, as the beginning
of the ident tells. -/
def ClassKind.ofType (type : Option String) (ident : String) : Except Flaw ClassKind :=
  match type with
  | some "model" => .ok .model
  | some "atts" => .ok .attributes
  | some other => .error (.unknownClassType other ident)
  | none => .ok (if "att.".toList.isPrefixOf ident.toList then .attributes else .model)

/-- A class: a bundle of attributes and of memberships in other classes. -/
structure ClassSpec where
  ident : String
  kind : ClassKind
  module? : Option String := none
  memberships : List String := []
  description : Option String := none
  attributes : List AttributeEntry := []
deriving DecidableEq, Repr

/-- An element. -/
structure ElementSpec where
  ident : String
  module? : Option String := none
  memberships : List String := []
  description : Option String := none
  gloss : Option String := none
  attributes : List AttributeEntry := []
  content : Content := .empty
deriving DecidableEq, Repr

/-- What an element is, in its description or at least in its gloss. -/
def ElementSpec.summary (e : ElementSpec) : Option String := e.description <|> e.gloss

/-- A named content to be used in others. -/
structure MacroSpec where
  ident : String
  content : Content := .empty
deriving DecidableEq, Repr

/-- A spec. -/
inductive Spec where
  | ofClass (spec : ClassSpec)
  | ofElement (spec : ElementSpec)
  | ofMacro (spec : MacroSpec)
  /-- A datatype, of which only the ident matters. -/
  | ofData (ident : String)
deriving DecidableEq, Repr

namespace Spec

/-- The ident of a spec. -/
def ident : Spec → String
  | .ofClass s => s.ident
  | .ofElement s => s.ident
  | .ofMacro s => s.ident
  | .ofData ident => ident

/-- The classes that a spec is directly a member of. -/
def memberships : Spec → List String
  | .ofClass s => s.memberships
  | .ofElement s => s.memberships
  | _ => []

/-- The entries in the list of attributes of a spec. -/
def attributes : Spec → List AttributeEntry
  | .ofClass s => s.attributes
  | .ofElement s => s.attributes
  | _ => []

/-- The attribute definitions of a spec itself. -/
def ownDefinitions (s : Spec) : List AttributeDef :=
  s.attributes.filterMap AttributeEntry.definition?

/-- The content of a spec of a kind that has content. -/
def content? : Spec → Option Content
  | .ofElement s => some s.content
  | .ofMacro s => some s.content
  | _ => none

/-- A spec with other content, where its kind has content. -/
def withContent (content : Content) : Spec → Spec
  | .ofElement s => .ofElement { s with content }
  | .ofMacro s => .ofMacro { s with content }
  | s => s

/-- The name of the element of a document that describes a spec of this kind. -/
def kindName : Spec → String
  | .ofClass _ => "classSpec"
  | .ofElement _ => "elementSpec"
  | .ofMacro _ => "macroSpec"
  | .ofData _ => "dataSpec"

/-- A spec keeps its ident when its content is replaced. -/
theorem ident_withContent (s : Spec) (content : Content) :
    (s.withContent content).ident = s.ident := by cases s <;> rfl

end Spec

end EditorSchema
