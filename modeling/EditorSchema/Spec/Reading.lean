/-
Specs as a document describes them.

A document holds descriptions of specs at any depth; one inside another is not looked for.
Each description gives a spec and the idents of the macros that its content refers to, at
any depth and whether or not the content makes use of them.  Descriptions of things in
words are taken in the preferred language, or else in no stated language, or else from the
first that there is.

* `SpecEntry.ofText`: what a text describes;
* `localized`: the choice among several wordings.
-/
import EditorSchema.Spec.Basic
import EditorSchema.Text.Blank

namespace EditorSchema

open Xml (Node)

/-- A spec as it was read. -/
structure SpecEntry where
  spec : Spec
  /-- The macros that its content refers to, in order. -/
  macros : List String
deriving DecidableEq, Repr

/-- Why a text describes no specs. -/
inductive TextFault where
  | malformed
  | invalid (flaw : Flaw)
deriving DecidableEq, Repr

/-- The fault of the text for an ident. -/
def TextFault.of (ident : String) : TextFault → SpecFault
  | .malformed => .malformed ident
  | .invalid flaw => .invalid flaw

/-! ### Wordings -/

/-- The text of the elements of a name directly in a node: of the first in the preferred
language, or else of the first without a language, or else of the first.  Text without words
is none. -/
def localized (language name : String) (n : Node) : Option String :=
  let candidates := n.elementsNamed name
  let chosen :=
    candidates.find? (fun c => c.language? == some language) <|>
    candidates.find? (fun c => c.language? == none) <|>
    candidates.head?
  (chosen.map fun c => Text.squeeze c.content).filter (· ≠ "")

/-! ### Attributes -/

/-- The word of an attribute, read where there is one. -/
def readWord {α : Type} (ofWord? : String → Option α) (flaw : String → Flaw) :
    Option String → Except Flaw (Option α)
  | none => .ok none
  | some word =>
    match ofWord? word with
    | some value => .ok (some value)
    | none => .error (flaw word)

namespace AttributeDef

/-- The datatype that the description of one refers to first. -/
def referredType (datatype : Node) : Option String :=
  (datatype.descendants.filter fun d => d.name == "dataRef" || d.name == "ref").findSome?
    fun d => d.attribute? "key" <|> d.attribute? "name"

/-- The values that a list of values describes. -/
def listedValues (language : String) (list : Node) : List ValueItem :=
  (list.elementsNamed "valItem").filterMap fun item =>
    (item.attribute? "ident").map fun ident => ⟨ident, localized language "desc" item⟩

/-- The definition that an element of a document describes. -/
def ofNode (language : String) (n : Node) : Except Flaw AttributeDef := do
  let some ident := n.attribute? "ident" | throw (.missingIdent "attDef")
  let datatype := n.elementNamed? "datatype"
  let list := n.elementNamed? "valList"
  let valuesKind ← readWord ValueListKind.ofWord? .unknownValueListKind
    (list.map fun l => (l.attribute? "type").getD ValueListKind.openEnded.word)
  let usage ← readWord Usage.ofWord? .unknownUsage (n.attribute? "usage")
  let mode ← readWord Mode.ofWord? .unknownMode (n.attribute? "mode")
  return {
    ident
    description := localized language "desc" n
    dataType := datatype.bind referredType
    minOccurs := datatype.bind (·.attribute? "minOccurs")
    maxOccurs := datatype.bind (·.attribute? "maxOccurs")
    values := list.map (listedValues language)
    valuesKind
    usage
    mode }

end AttributeDef

namespace AttributeEntry

mutual

/-- The entries that a node in a list of attributes describes. -/
def ofNode (language : String) : Node → Except Flaw (List AttributeEntry)
  | .element space name attributes children =>
    let n := Node.element space name attributes children
    if name = "attDef" then do return [.own (← AttributeDef.ofNode language n)]
    else if name = "attRef" then
      .ok [.mention (n.attribute? "class") (n.attribute? "name")]
    else if name = "attList" then ofNodes language children
    else .ok []
  | _ => .ok []

/-- The entries that the nodes in a list of attributes describe, one after the other. -/
def ofNodes (language : String) : List Node → Except Flaw (List AttributeEntry)
  | [] => .ok []
  | n :: ns => do
    let first ← ofNode language n
    let others ← ofNodes language ns
    return first ++ others

end

/-- The entries of all lists of attributes directly in a node. -/
def ofLists (language : String) (n : Node) : Except Flaw (List AttributeEntry) :=
  ofNodes language (n.elementsNamed "attList")

end AttributeEntry

/-! ### Specs -/

/-- The classes that a node says its spec is a member of. -/
def readMemberships (n : Node) : List String :=
  match n.elementNamed? "classes" with
  | some classes => (classes.elementsNamed "memberOf").filterMap fun m => m.attribute? "key"
  | none => []

namespace SpecEntry

/-- The names of the elements that describe specs. -/
def specNames : List String := ["classSpec", "elementSpec", "macroSpec", "dataSpec"]

/-- The spec that an element of a document describes. -/
def ofNode (language : String) (n : Node) : Except Flaw SpecEntry := do
  let some ident := n.attribute? "ident" | throw (.missingIdent n.name)
  let held := n.elementNamed? "content"
  let content := (held.map Content.ofNode).getD .empty
  let macros := (held.map Node.macroIdents).getD []
  if n.name = "classSpec" then
    let kind ← ClassKind.ofType (n.attribute? "type") ident
    let attributes ← AttributeEntry.ofLists language n
    return ⟨.ofClass {
      ident
      kind
      module? := n.attribute? "module"
      memberships := readMemberships n
      description := localized language "desc" n
      attributes }, macros⟩
  else if n.name = "elementSpec" then
    let attributes ← AttributeEntry.ofLists language n
    return ⟨.ofElement {
      ident
      module? := n.attribute? "module"
      memberships := readMemberships n
      description := localized language "desc" n
      gloss := localized language "gloss" n
      attributes
      content }, macros⟩
  else if n.name = "macroSpec" then return ⟨.ofMacro ⟨ident, content⟩, macros⟩
  else return ⟨.ofData ident, macros⟩

mutual

/-- The outermost elements in a node that describe specs. -/
def described : Node → List Node
  | .element space name attributes children =>
    if specNames.contains name then [.element space name attributes children]
    else describedAll children
  | _ => []

/-- The outermost elements in nodes that describe specs. -/
def describedAll : List Node → List Node
  | [] => []
  | n :: ns => described n ++ describedAll ns

end

/-- The specs that a document describes, in order. -/
def ofDocument (language : String) (root : Node) : Except Flaw (List SpecEntry) :=
  (described root).mapM (ofNode language)

/-- The specs that a text describes, in order. -/
def ofText (language text : String) : Except TextFault (List SpecEntry) :=
  match Node.ofText? text with
  | none => .error .malformed
  | some root =>
    match ofDocument language root with
    | .ok entries => .ok entries
    | .error flaw => .error (.invalid flaw)

end SpecEntry

end EditorSchema
