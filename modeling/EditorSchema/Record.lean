/-
Records: the node and mark types of an editor's schema.

The contents of a record are expressions over the names and groups of records.  Its lists
of attributes are filled in after all records are there.
-/
import EditorSchema.Text.Blank

namespace EditorSchema

namespace Record

/-- What a record becomes in an editor. -/
inductive Form where
  | node
  | mark
  | inlineNode
deriving DecidableEq, Repr

/-- Where a record comes from: the category of its element, or its purpose. -/
inductive Origin where
  | hard
  | soft
  | inlines
  | asides
  | inters
  | marks
  | textNodes
  | globalNodes
  | docNodes
deriving DecidableEq, Repr

/-- The word for a form. -/
def Form.word : Form → String
  | .node => "node"
  | .mark => "mark"
  | .inlineNode => "inline-node"

/-- The word for an origin. -/
def Origin.word : Origin → String
  | .hard => "hard"
  | .soft => "soft"
  | .inlines => "inlines"
  | .asides => "asides"
  | .inters => "inters"
  | .marks => "marks"
  | .textNodes => "textNodes"
  | .globalNodes => "globalNodes"
  | .docNodes => "docNodes"

end Record

/-- A node or mark type of an editor's schema. -/
structure Record where
  name : String
  form : Record.Form
  origin : Record.Origin
  /-- What a block holds. -/
  content : Option String := none
  /-- The marks that its text may have. -/
  markContent : Option String := none
  /-- The inline nodes that its text may hold. -/
  inlineContent : Option String := none
  /-- All that its spec lets it hold. -/
  allContent : Option String := none
  /-- The groups that it belongs to. -/
  group : Option String := none
  description : Option String := none
  icon : Option String := none
  /-- The nodes that a new one begins with. -/
  defaultNodes : Option (List String) := none
  /-- Whether it is edited as a unit. -/
  atom : Bool := false
  inline : Bool := false
  /-- Whether edits stop at its borders. -/
  isolating : Bool := false
  selectable : Option Bool := none
  validAttributes : List String := []
  requiredAttributes : List String := []
  /-- Whether it is not the element of a spec itself. -/
  synthetic : Bool := false
  /-- The spec whose attributes it has. -/
  source : Option String := none
deriving DecidableEq, Repr

/-- The groups that a record belongs to, one by one. -/
def Record.groups (r : Record) : List String := (r.group.map Text.words).getD []

end EditorSchema
