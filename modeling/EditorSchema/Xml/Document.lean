/-
Documents: from the pieces of markup to the tree of their root element.

Elements that are still open are kept from the inside out, each with the namespaces that
its prefixes stand for.  A document has one root element; around it stand only comments,
instructions and white space.  Every prefix of an element or an attribute stands for a
namespace, and no two attributes of an element have one name in one namespace.

* `Node.ofText?`: the root element of a text, where the text is a document.
-/
import EditorSchema.Xml.Tree
import EditorSchema.Xml.Markup

namespace EditorSchema.Xml

/-! ### Namespaces -/

/-- The namespace that is kept for declarations of namespaces. -/
def declarationSpace : String := markupSpaces ++ "2000/xmlns/"

/-- What prefixes stand for, the innermost declaration first.  The empty prefix stands for the
namespace of elements without one. -/
abbrev Scope := List (String × String)

/-- What an attribute of a tag declares, where it is no declaration of its own. -/
inductive Declared where
  /-- An attribute like others. -/
  | nothing
  /-- A namespace that is known everywhere. -/
  | known
  | space (short uri : String)

/-- What an attribute declares; a declaration may be out of order. -/
def declared? (name : WrittenName) (value : String) : Option Declared :=
  if name.space = "xmlns" then
    if value = declarationSpace then none
    else if name.name = "xml" then if value = xmlSpace then some .known else none
    else if value = xmlSpace then none
    else some (.space name.name value)
  else if name.name = "xmlns" then
    if value = xmlSpace || value = declarationSpace then none
    else some (.space "" value)
  else some .nothing

/-- The namespaces that a tag declares and its other attributes.  No prefix is declared twice
in a tag. -/
def declarations? : List (WrittenName × String) → Scope →
    Option (Scope × List (WrittenName × String))
  | [], own => some (own, [])
  | (name, value) :: rest, own => do
    match ← declared? name value with
    | .nothing =>
      let (own, others) ← declarations? rest own
      return (own, (name, value) :: others)
    | .known => declarations? rest own
    | .space short uri =>
      if short ≠ "" && own.any (·.1 == short) then none
      else declarations? rest (own ++ [(short, uri)])

/-- The namespace of an element with a prefix, which has to be declared. -/
def elementSpace? (scope : Scope) (short : String) : Option (Option String) :=
  match scope.lookup short with
  | some uri => some (some uri)
  | none => if short = "" then some none else none

/-- The namespace of an attribute with a prefix, which has to be declared or known. -/
def attributeSpace? (scope : Scope) (short : String) : Option (Option String) :=
  if short = "" then some none
  else if short = "xml" then some (some xmlSpace)
  else (scope.lookup short).map some

/-- Attributes with their namespaces, none like an earlier one. -/
def attributes? (scope : Scope) : List (WrittenName × String) → List Attribute →
    Option (List Attribute)
  | [], known => some known
  | (name, value) :: rest, known => do
    let space ← attributeSpace? scope name.space
    if known.any fun a => a.space == space && a.name == name.name then none
    else attributes? scope rest (known ++ [⟨space, name.name, value⟩])

/-! ### Elements -/

/-- An element that has been opened and not yet closed. -/
structure OpenElement where
  written : WrittenName
  space : Option String
  attributes : List Attribute
  scope : Scope
  /-- The nodes in it so far, the last one first. -/
  children : List Node

namespace OpenElement

/-- The element that a tag opens where prefixes stand for what `scope` says. -/
def start? (scope : Scope) (name : WrittenName) (attributes : List (WrittenName × String)) :
    Option OpenElement := do
  let (own, others) ← declarations? attributes []
  let inner := own ++ scope
  if name.space = "xmlns" then none
  else
    return ⟨name, ← elementSpace? inner name.space, ← attributes? inner others [], inner, []⟩

/-- The node of an element that is closed. -/
def finish (e : OpenElement) : Node :=
  .element e.space e.written.name e.attributes e.children.reverse

end OpenElement

/-- The elements that are open, from the inside out, and the root once it is closed. -/
structure Building where
  outer : List OpenElement
  root : Option Node

namespace Building

/-- What prefixes stand for at this place. -/
def scope (b : Building) : Scope :=
  match b.outer with
  | [] => []
  | e :: _ => e.scope

/-- Put a node into the innermost open element.  Outside of all elements, an element becomes
the root, if it is the first, and character data is out of place. -/
def put (b : Building) (n : Node) : Option Building :=
  match b.outer with
  | e :: outer => some ⟨{ e with children := n :: e.children } :: outer, b.root⟩
  | [] =>
    match n, b.root with
    | .element .., none => some ⟨[], some n⟩
    | .element .., some _ => none
    | .text _, _ => none
    | _, _ => some b

/-- Go on with the next piece. -/
def step (b : Building) : Piece → Option Building
  | .opening name attributes closed => do
    let e ← OpenElement.start? b.scope name attributes
    if closed then b.put e.finish
    else if b.outer.isEmpty && b.root.isSome then none
    else return ⟨e :: b.outer, b.root⟩
  | .closing name =>
    match b.outer with
    | [] => none
    | e :: outer =>
      if e.written = name then put ⟨outer, b.root⟩ e.finish else none
  | .characters text => b.put (.text text)
  | .spaces text => if b.outer.isEmpty then some b else b.put (.text text)
  | .comment text => b.put (.comment text)
  | .instruction target text => b.put (.instruction target text)

end Building

/-- The root element of a text that is a document. -/
def Node.ofText? (text : String) : Option Node := do
  let pieces ← Piece.ofText? text
  let b ← pieces.foldlM Building.step ⟨[], none⟩
  if b.outer.isEmpty then b.root else none

end EditorSchema.Xml
