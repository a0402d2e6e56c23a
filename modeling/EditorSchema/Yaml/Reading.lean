/-
Data from YAML.

All scalars are texts, however they are written; a plain one without characters is nothing.
Anchors are numbered in the order in which their nodes begin: the number of an anchor is that
of the different names before it.  An alias stands for the number that its name has there,
and thereby for the last node with this number.

* `Document.ofYaml?`: the data of a text.
-/
import EditorSchema.Data.Datum
import EditorSchema.Yaml.Layout
import EditorSchema.Yaml.Node

namespace EditorSchema.Yaml

/-- The numbers of the names of anchors so far. -/
abbrev Anchors := Dictionary Nat

/-- The number of an anchor, which its name has from now on. -/
def Anchors.number (names : Anchors) : Option String → Option Nat × Anchors
  | none => (none, names)
  | some name => (some names.size, names.insert name names.size)

/-- The numbered data of a node after those within it. -/
def numbered (inner : List (Nat × Datum)) (number : Option Nat) (d : Datum) :
    Datum × List (Nat × Datum) :=
  (d, inner ++ (number.map (·, d)).toList)

mutual

/-- The datum of a node, with the numbered data in it, the last first. -/
def Node.toDatum (names : Anchors) : Node → Option ((Datum × List (Nat × Datum)) × Anchors)
  | .scalar anchor plain text =>
    let (number, names) := names.number anchor
    some (numbered [] number (if plain && text.isEmpty then .blank else .text text), names)
  | .sequence anchor items => do
    let (number, names) := names.number anchor
    let ((items, inner), names) ← Node.toItems names items
    return (numbered inner number (.list items), names)
  | .mapping anchor entries => do
    let (number, names) := names.number anchor
    let ((entries, inner), names) ← Node.toEntries names entries
    return (numbered inner number (.table entries), names)
  | .alias name => do return ((.elsewhere (← names.get? name), []), names)

/-- The data of nodes. -/
def Node.toItems (names : Anchors) :
    List Node → Option ((List Datum × List (Nat × Datum)) × Anchors)
  | [] => some (([], []), names)
  | node :: nodes => do
    let ((item, first), names) ← Node.toDatum names node
    let ((items, later), names) ← Node.toItems names nodes
    return ((item :: items, later ++ first), names)

/-- The data of keys and values. -/
def Node.toEntries (names : Anchors) :
    List (Node × Node) → Option ((List (Datum × Datum) × List (Nat × Datum)) × Anchors)
  | [] => some (([], []), names)
  | (key, value) :: rest => do
    let ((key, first), names) ← Node.toDatum names key
    let ((value, second), names) ← Node.toDatum names value
    let ((entries, later), names) ← Node.toEntries names rest
    return (((key, value) :: entries, later ++ second ++ first), names)

end

end EditorSchema.Yaml

namespace EditorSchema

/-- The data of a text in YAML. -/
def Document.ofYaml? (text : String) : Option Document := do
  let node ← Yaml.Node.ofTokens? (← Yaml.Token.ofText? text)
  let ((root, numbered), _) ← node.toDatum Dictionary.empty
  return ⟨root, numbered, false⟩

end EditorSchema
