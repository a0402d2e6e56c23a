/-
Generated records: those that stand for no element of their own.

Every schema begins with the roots of its documents.  Text is held by leaves, which records
with the same inline content and the same marks share.  Wrappers let inline nodes stand where
only blocks may.

* `Record.documentRoots`: the roots;
* `TextLeaves.bind`: records bound to their leaves, with the leaves;
* `References.wrappers`: the wrappers.
-/
import EditorSchema.Content.Naming
import EditorSchema.Record
import EditorSchema.Schema.References

namespace EditorSchema

/-! ### Roots -/

/-- The roots of documents: of the text, and of what is said about it. -/
def Record.documentRoots : List Record :=
  [("doc", "front? body back?"),
   ("headerDoc", "fileDesc model.teiHeaderPart* revisionDesc?")].map fun (name, content) =>
    { name, form := .node, origin := .docNodes, content := some content,
      isolating := true, synthetic := true }

/-! ### Leaves of text -/

namespace TextLeaves

/-- What decides on the leaf of a record: its inline content and its marks. -/
abbrev Signature := Option String × Option String

/-- The signature of a record. -/
def signature (r : Record) : Signature := (r.inlineContent, r.markContent)

/-- Whether a record holds text. -/
def holdsText (r : Record) : Bool :=
  match r.content with
  | some content => Naming.mentions content Particle.textName
  | none => false

/-- The name of the leaf of a number. -/
def leafName (n : Nat) : String := Particle.textName ++ toString n

/-- The leaf of a number for the records of a signature. -/
def leaf (n : Nat) : Signature → Record
  | (inline, marks) =>
    { name := leafName n, form := .node, origin := .textNodes,
      content := some (match inline with
        | some inline => "(" ++ inline ++ "|text)*"
        | none => "text*")
      markContent := marks, synthetic := true }

/-- The signatures of the records that hold text, each where it is seen first. -/
def signatures (records : List Record) : List Signature :=
  ((records.filter holdsText).map signature).eraseDups

/-- A record with the leaf of its signature in place of text. -/
def bindOne (known : List Signature) (r : Record) : Record :=
  match r.content with
  | some content =>
    if holdsText r then
      let name := leafName (known.idxOf (signature r))
      { r with content := some (Naming.replace content Particle.textName name) }
    else r
  | none => r

/-- The leaves of signatures, numbered in order. -/
def leaves (known : List Signature) : List Record :=
  known.zipIdx.map fun (s, n) => leaf n s

/-- Records bound to their leaves, and the leaves. -/
def bind (records : List Record) : List Record × List Record :=
  let known := signatures records
  (records.map (bindOne known), leaves known)

end TextLeaves

/-! ### Wrappers -/

/-- A block around what `content` names. -/
def Record.wrapper (name content : String) : Record :=
  { name, form := .node, origin := .globalNodes, content := some content,
    atom := true, selectable := some false, synthetic := true }

/-- The name of the block around what a name stands for. -/
def blockName (name : String) : String := name ++ "_g"

/-- The name of a group among inline nodes. -/
def inlineName (name : String) : String := name ++ "_i"

/-- The name of the mark of an element that is also a block. -/
def markName (name : String) : String := "mark" ++ name

/-- The blocks around the groups of inline nodes, then those around each of them. -/
def References.wrappers (r : References) : List Record :=
  (r.inlineGroups.map fun group => .wrapper (blockName group) (inlineName group)) ++
    r.inlineIdents.map fun ident => .wrapper (blockName ident) ident

end EditorSchema
