/-
References: what the content of an element may name, and what kind of thing answers.

A classified element answers to its own ident and to its groups, the classes of models
that it belongs to directly or through other classes.  What answers to a name may be a
block, an inline node or a mark, and to one name there may answer things of several kinds.

* `References.modelClasses`: the classes of models that memberships lead to;
* `References.build`: the references of a classification.
-/
import EditorSchema.Content.Particle
import EditorSchema.Fresh
import EditorSchema.Schema.Fault
import EditorSchema.Spec.Table

namespace EditorSchema

/-! ### Kinds of answers -/

namespace Category

/-- Whether an element of this category becomes a block. -/
def isBlock : Category → Bool
  | .hard | .soft | .inter => true
  | .aside | .inline | .mark => false

/-- Whether an element of this category becomes an inline node. -/
def isInline : Category → Bool
  | .aside | .inline => true
  | .hard | .soft | .inter | .mark => false

/-- Whether an element of this category becomes a mark. -/
def isMark : Category → Bool
  | .inter | .mark => true
  | .hard | .soft | .aside | .inline => false

end Category

/-- What may be named, and what answers to it. -/
structure References where
  /-- The groups of each classified element. -/
  groups : Dictionary (List String)
  /-- The names that blocks answer to. -/
  blocks : IdentSet
  /-- The names that inline nodes answer to. -/
  inlines : IdentSet
  /-- The names that marks answer to. -/
  marks : IdentSet
  /-- The groups of inline nodes, each where it is seen first. -/
  inlineGroups : List String
  /-- The elements that become inline nodes. -/
  inlineIdents : List String
  /-- The elements that become both a block and a mark. -/
  interIdents : IdentSet
deriving DecidableEq, Repr

namespace References

/-! ### Groups -/

/-- The classes of models that pending memberships, each with the spec that states it, lead
to, where `fresh` are the classes that have not been met. -/
def walk (t : Table) (fresh : List String) :
    List (String × String) → Except SchemaFault (List String)
  | [] => .ok []
  | (referrer, ident) :: pending =>
    match t.class? ident with
    | none => .error (.notLoaded ident referrer)
    | some c =>
      if _h : ident ∈ fresh then do
        let later ← walk t (without ident fresh) (c.memberships.map (ident, ·) ++ pending)
        return if c.kind = .model then ident :: later else later
      else walk t fresh pending
termination_by pending => (fresh.length, pending.length)
decreasing_by
  · exact Prod.Lex.left _ _ (length_without_lt _h)
  · exact Prod.Lex.right _ (Nat.lt_succ_self _)

/-- The classes of models that an element belongs to, directly or through other classes, in
the order in which its memberships lead to them. -/
def modelClasses (t : Table) (e : ElementSpec) : Except SchemaFault (List String) :=
  walk t t.idents (e.memberships.map (e.ident, ·))

/-- A classified element with its groups. -/
structure Placed where
  category : Category
  ident : String
  groups : List String
deriving DecidableEq, Repr

/-- The names that an element answers to. -/
def Placed.names (p : Placed) : List String := p.ident :: p.groups

/-- A classified ident as an element with its groups. -/
def place (t : Table) : Category × String → Except SchemaFault Placed
  | (category, ident) =>
    match t.element? ident with
    | none => .error (.noElement ident category)
    | some e => do return ⟨category, ident, ← modelClasses t e⟩

/-! ### The references of a classification -/

/-- The names that elements of some categories answer to. -/
def namesOf (placed : List Placed) (p : Category → Bool) : IdentSet :=
  .ofIdents ((placed.filter fun e => p e.category).flatMap Placed.names)

/-- The references of placed elements. -/
def ofPlaced (placed : List Placed) : References :=
  let inline := placed.filter (·.category.isInline)
  { groups := .ofList (placed.map fun e => (e.ident, e.groups))
    blocks := namesOf placed Category.isBlock
    inlines := namesOf placed Category.isInline
    marks := namesOf placed Category.isMark
    inlineGroups := (inline.flatMap Placed.groups).eraseDups
    inlineIdents := inline.map Placed.ident
    interIdents := .ofIdents ((placed.filter (·.category == .inter)).map Placed.ident) }

/-- The references of a classification. -/
def build (c : Classification) (t : Table) : Except SchemaFault References := do
  return ofPlaced (← c.entries.mapM (place t))

/-! ### Asking -/

/-- What structural content may name: blocks, inline nodes and text. -/
def structural (r : References) : IdentSet :=
  .ofIdents (r.blocks.keys ++ r.inlines.keys ++ [Particle.textName])

/-- All that content may name. -/
def all (r : References) : IdentSet :=
  .ofIdents (r.blocks.keys ++ r.inlines.keys ++ r.marks.keys ++ [Particle.textName])

/-- The groups of an element. -/
def groupsOf (r : References) (ident : String) : List String := (r.groups.get? ident).getD []

/-- The groups of an element in a line, each with an ending; nothing without groups. -/
def groupLine (r : References) (ident ending : String) : Option String :=
  match r.groupsOf ident with
  | [] => none
  | groups => some (" ".intercalate (groups.map (· ++ ending)))

/-- Whether inline nodes and no blocks answer to a name. -/
def isInlineOnly (r : References) (name : String) : Bool :=
  r.inlines.contains name && !r.blocks.contains name

/-- Whether a name is a group of inline nodes. -/
def isInlineGroup (r : References) (name : String) : Bool := r.inlineGroups.contains name

end References

end EditorSchema
