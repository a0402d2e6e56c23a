/-
The content of an element or a macro: nothing, a particle, or what a macro holds.

Content is read from an element of a document that holds one element, which stands for a
particle or names a macro; with no element in it, or with several, there is no content.
Inside a particle, what stands for no particle is passed over.

* `Content.ofNode`: the content that an element of a document describes;
* `Particle.ofNodes_eq`: nodes are read one by one.
-/
import EditorSchema.Content.Expression
import EditorSchema.Xml.Document

namespace EditorSchema

/-- What an element or a macro holds. -/
inductive Content where
  | empty
  | model (particle : Particle)
  /-- The content of the macro of an ident, whatever that is. -/
  | ofMacro (ident : String)
deriving DecidableEq, Repr, Inhabited

namespace Content

/-- The particle of content that has one. -/
def particle? : Content → Option Particle
  | .model particle => some particle
  | _ => none

/-- The content of a particle that may be missing. -/
def ofParticle? : Option Particle → Content
  | some particle => .model particle
  | none => .empty

/-- The expression of the particle of content, empty where there is none. -/
def encode (c : Content) : String := (c.particle?.map Particle.encode).getD ""

end Content

/-! ### Reading content -/

namespace Particle

/-- The names of the elements that refer to a group. -/
def referenceNames : List String := ["classRef", "elementRef", "macroRef"]

/-- The names of the elements that stand for character data. -/
def textNames : List String := ["textNode", "dataRef"]

mutual

/-- The particle that a node stands for. -/
def ofNode? : Xml.Node → Option Particle
  | .element space name attributes children =>
    if referenceNames.contains name then
      ((Xml.Node.element space name attributes children).attribute? "key").map .group
    else if textNames.contains name then some (.group textName)
    else if name = "sequence" then some (.sequence (ofNodes children))
    else if name = "alternate" then some (.alternate (ofNodes children))
    else none
  | _ => none

/-- The particles that nodes stand for, one after the other. -/
def ofNodes : List Xml.Node → List Particle
  | [] => []
  | n :: ns =>
    match ofNode? n with
    | some p => p :: ofNodes ns
    | none => ofNodes ns

end

/-- Nodes are read one by one, and those that stand for nothing are left out. -/
theorem ofNodes_eq (ns : List Xml.Node) : ofNodes ns = ns.filterMap ofNode? := by
  induction ns with
  | nil => rfl
  | cons n ns ih =>
    rw [ofNodes, List.filterMap_cons, ih]
    cases ofNode? n <;> rfl

end Particle

namespace Content

/-- The content that an element of a document describes. -/
def ofNode (n : Xml.Node) : Content :=
  match n.elements with
  | [child] =>
    if child.name = "macroRef" then
      match child.attribute? "key" with
      | some ident => .ofMacro ident
      | none => .empty
    else ofParticle? (Particle.ofNode? child)
  | _ => .empty

/-- The content that the root element of a text describes, where the text is a document. -/
def ofText? (text : String) : Option Content := (Xml.Node.ofText? text).map ofNode

end Content

/-- The idents of the macros that a node and all in it refer to, in order. -/
def Xml.Node.macroIdents (n : Xml.Node) : List String :=
  (n.descendants.filter fun d => d.name == "macroRef").filterMap fun d => d.attribute? "key"

end EditorSchema
