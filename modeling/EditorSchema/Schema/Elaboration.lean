/-
Elaboration: the records of classified elements.

The content of an element is seen in several ways: what its block holds, the inline nodes
and the marks of its text, and all that it may hold.  Each view keeps the references that
something answers to and renames those that something else stands in for: a block around
inline nodes, a group of inline nodes, or the mark of an element that is also a block.

* `Views`: the views of a particle;
* `Elaboration.records`: all records of a classification, with pairwise different names.
-/
import EditorSchema.Content.Filter
import EditorSchema.Schema.Generated

namespace EditorSchema

/-! ### Views of a particle -/

namespace References

/-- The part of a particle that names what is in a set. -/
def part (targets : IdentSet) (p : Option Particle) : Option Particle :=
  p.bind (Particle.filterGroups targets false)

/-- All that a particle names and something answers to. -/
def allView (r : References) (p : Option Particle) : Option String :=
  (part r.all p).map Particle.encode

/-- What a block holds: blocks, text, and blocks around inline nodes. -/
def blockView (r : References) (p : Option Particle) : Option String :=
  (part r.structural p).map fun kept =>
    (kept.rename fun leaf => if r.isInlineOnly leaf then blockName leaf else leaf).encode

/-- The inline nodes of a text, their groups under the names that they have among inline
nodes. -/
def inlineView (r : References) (p : Option Particle) : Option String :=
  (part r.inlines p).map fun kept =>
    (kept.rename fun leaf => if r.isInlineGroup leaf then inlineName leaf else leaf).encode

/-- The marks of a text, each named once. -/
def markView (r : References) (p : Option Particle) : Option String :=
  (part r.marks p).map fun kept =>
    let names := kept.leaves.map fun leaf =>
      if r.interIdents.contains leaf then markName leaf else leaf
    " ".intercalate names.eraseDups

end References

/-! ### Records of elements -/

namespace Elaboration

/-- The records of an element of a category. -/
def recordsOf (r : References) (d : Decoration) (category : Category) (e : ElementSpec) :
    List Record :=
  let p := e.content.particle?
  let description := e.summary
  let source := some e.ident
  let allContent := r.allView p
  let group := r.groupLine e.ident ""
  let inlineGroup := r.groupLine e.ident "_i"
  let icon := d.icons.get? e.ident
  let defaultNodes := d.defaultNodes.get? e.ident
  match category with
  | .hard =>
    [{ name := e.ident, form := .node, origin := .hard, content := r.blockView p,
       allContent, group, description, defaultNodes, source }]
  | .soft =>
    [{ name := e.ident, form := .node, origin := .soft, content := r.blockView p,
       markContent := r.markView p, inlineContent := r.inlineView p,
       allContent, group, description, defaultNodes, source }]
  | .inter =>
    [{ name := markName e.ident, form := .mark, origin := .inters,
       allContent, group, description, synthetic := true, source },
     { name := e.ident, form := .node, origin := .inters, content := r.blockView p,
       markContent := r.markView p, inlineContent := r.inlineView p,
       allContent, group, description, defaultNodes, source }]
  | .aside =>
    [{ name := e.ident, form := .inlineNode, origin := .asides,
       allContent, group := inlineGroup, description, icon, atom := true, inline := true, source },
     { name := e.ident ++ "X", form := .node, origin := .asides, content := r.blockView p,
       markContent := r.markView p, isolating := true, synthetic := true },
     { name := e.ident ++ "Doc", form := .node, origin := .docNodes,
       content := some (e.ident ++ "X"), isolating := true, synthetic := true }]
  | .inline =>
    [{ name := e.ident, form := .inlineNode, origin := .inlines,
       allContent, group := inlineGroup, description, icon, atom := true, inline := true, source }]
  | .mark =>
    [{ name := e.ident, form := .mark, origin := .marks,
       allContent, group, description, icon, source }]

/-- The records of a classified ident. -/
def recordsFor (r : References) (d : Decoration) (t : Table) :
    Category × String → Except SchemaFault (List Record)
  | (category, ident) =>
    match t.element? ident with
    | none => .error (.noElement ident category)
    | some e => .ok (recordsOf r d category e)

/-- The first name that occurs a second time. -/
def repeatedName? : List String → List String → Option String
  | _, [] => none
  | before, name :: rest =>
    if before.contains name then some name else repeatedName? (name :: before) rest

/-- All records of a classification whose references are known: the roots, those of the
elements bound to their leaves, the leaves and the wrappers. -/
def records (c : Classification) (t : Table) (d : Decoration) (r : References) :
    Except SchemaFault (List Record) := do
  let own ← c.entries.mapM (recordsFor r d t)
  let (bound, leaves) := TextLeaves.bind (Record.documentRoots ++ own.flatten)
  let all := bound ++ leaves ++ r.wrappers
  match repeatedName? [] (all.map Record.name) with
  | some name => .error (.duplicateName name)
  | none => .ok all

end Elaboration

/-- The records of a classification. -/
def Classification.elaborate (c : Classification) (t : Table) (d : Decoration) :
    Except SchemaFault (List Record) := do
  Elaboration.records c t d (← References.build c t)

end EditorSchema
