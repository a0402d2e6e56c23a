/-
What is said about a spec, and what is only shown of it.

The description of a spec, of an attribute or of a value is read in a language, and whether an
attribute is hidden is left to the settings.  Without these a spec is bare.  In whatever language
a text is read, it describes the same bare specs, or it has the same fault; and the contents of
specs are expanded alike, whatever is said about the specs.

* `AttributeDef.bare`, `Spec.bare`, `Table.bare`: what is left without descriptions;
* `SpecEntry.ofText_bare`: a text describes the same bare specs in all languages;
* `Table.expand_bare`: the expansion of a bare table.
-/
import Mathlib.Tactic
import EditorSchema.Proofs.Outcome
import EditorSchema.Spec.Expansion
import EditorSchema.Spec.Reading

namespace EditorSchema

open Outcome
open Xml (Node)

/-! ### Bare specs -/

/-- A value without its description. -/
def ValueItem.bare (v : ValueItem) : ValueItem := { v with description := none }

/-- A definition without descriptions, which tells nothing of being hidden. -/
def AttributeDef.bare (d : AttributeDef) : AttributeDef :=
  { d with
    description := none
    values := d.values.map (List.map ValueItem.bare)
    hidden := false }

/-- An entry in a list of attributes without descriptions. -/
def AttributeEntry.bare : AttributeEntry → AttributeEntry
  | .own definition => .own definition.bare
  | .mention className name => .mention className name

/-- A class without descriptions. -/
def ClassSpec.bare (s : ClassSpec) : ClassSpec :=
  { s with description := none, attributes := s.attributes.map AttributeEntry.bare }

/-- An element without descriptions. -/
def ElementSpec.bare (e : ElementSpec) : ElementSpec :=
  { e with
    description := none
    gloss := none
    attributes := e.attributes.map AttributeEntry.bare }

namespace Spec

/-- A spec without descriptions. -/
def bare : Spec → Spec
  | .ofClass s => .ofClass s.bare
  | .ofElement e => .ofElement e.bare
  | .ofMacro m => .ofMacro m
  | .ofData ident => .ofData ident

variable (s : Spec)

@[simp] lemma ident_bare : s.bare.ident = s.ident := by cases s <;> rfl

@[simp] lemma memberships_bare : s.bare.memberships = s.memberships := by cases s <;> rfl

@[simp] lemma content?_bare : s.bare.content? = s.content? := by cases s <;> rfl

lemma withContent_bare (content : Content) :
    (s.withContent content).bare = s.bare.withContent content := by
  cases s <;> rfl

lemma attributes_bare : s.bare.attributes = s.attributes.map AttributeEntry.bare := by
  cases s <;> rfl

lemma ownDefinitions_bare : s.bare.ownDefinitions = s.ownDefinitions.map AttributeDef.bare := by
  rw [ownDefinitions, ownDefinitions, attributes_bare, List.filterMap_map, List.map_filterMap]
  refine List.filterMap_congr fun e _ => ?_
  cases e <;> rfl

end Spec

/-- A spec as it was read, without descriptions. -/
def SpecEntry.bare (e : SpecEntry) : SpecEntry := { e with spec := e.spec.bare }

/-! ### Bare tables -/

namespace Table

/-- A table without descriptions. -/
def bare (t : Table) : Table where
  specs := t.specs.map fun _ => Spec.bare
  keyed {ident spec} h := by
    rw [Dictionary.get?_map] at h
    obtain ⟨s, hs, rfl⟩ := Option.map_eq_some_iff.mp h
    rw [Spec.ident_bare, t.keyed hs]

variable (t : Table) (ident : String)

lemma get?_bare : t.bare.get? ident = (t.get? ident).map Spec.bare := Dictionary.get?_map ..

lemma contains_bare : t.bare.contains ident = t.contains ident := by
  change (t.bare.get? ident).isSome = (t.get? ident).isSome
  rw [get?_bare, Option.isSome_map]

lemma class?_bare : t.bare.class? ident = (t.class? ident).map ClassSpec.bare := by
  rw [class?, class?, get?_bare]
  rcases t.get? ident with _ | (_ | _ | _ | _) <;> rfl

lemma element?_bare : t.bare.element? ident = (t.element? ident).map ElementSpec.bare := by
  rw [element?, element?, get?_bare]
  rcases t.get? ident with _ | (_ | _ | _ | _) <;> rfl

/-- Nothing is said about a macro. -/
lemma macro?_bare : t.bare.macro? ident = t.macro? ident := by
  rw [macro?, macro?, get?_bare]
  rcases t.get? ident with _ | (_ | _ | _ | _) <;> rfl

lemma idents_bare : t.bare.idents = t.idents := by
  simp [idents, bare, Dictionary.keys, Dictionary.map, Function.comp_def]

lemma toList_bare : t.bare.toList = t.toList.map Spec.bare := by
  simp [toList, bare, Dictionary.values, Dictionary.map, Function.comp_def]

lemma mapContent_bare (f g : Spec → Content) (h : ∀ s, f s.bare = g s) :
    t.bare.mapContent f = (t.mapContent g).bare := by
  refine ext_get? fun ident => ?_
  simp only [get?_bare, get?_mapContent, Option.map_map]
  refine congrArg (Option.map · _) (funext fun s => ?_)
  rw [Function.comp_apply, Function.comp_apply, h, Spec.withContent_bare]

end Table

/-! ### Reading in different languages -/

section Reading

variable (language other : String)

namespace AttributeDef

lemma listedValues_bare (list : Node) :
    (listedValues language list).map ValueItem.bare =
      (listedValues other list).map ValueItem.bare := by
  simp only [listedValues, List.map_filterMap, Option.map_map]
  rfl

lemma ofNode_bare (n : Node) : (ofNode language n).map bare = (ofNode other n).map bare := by
  rw [ofNode, ofNode]
  cases n.attribute? "ident" with
  | none => rfl
  | some ident =>
      simp only [map_bind]
      refine bind_congr fun valuesKind => bind_congr fun usage => bind_congr fun mode => ?_
      refine congrArg Except.ok ?_
      simp only [bare, Option.map_map]
      cases n.elementNamed? "valList" with
      | none => rfl
      | some list => simp [listedValues_bare language other]

end AttributeDef

namespace AttributeEntry

mutual

lemma ofNode_bare : ∀ n : Node,
    (ofNode language n).map (List.map bare) = (ofNode other n).map (List.map bare)
  | .element space name attributes children => by
      rw [ofNode, ofNode]
      split
      · simp only [map_bind]
        exact bind_eq_bind (AttributeDef.ofNode_bare language other _) fun d d' h =>
          congrArg Except.ok (congrArg (fun d => [AttributeEntry.own d]) h)
      · split
        · rfl
        · split
          · exact ofNodes_bare children
          · rfl
  | .text _ => rfl
  | .comment _ => rfl
  | .instruction _ _ => rfl

lemma ofNodes_bare : ∀ ns : List Node,
    (ofNodes language ns).map (List.map bare) = (ofNodes other ns).map (List.map bare)
  | [] => rfl
  | n :: ns => by
      rw [ofNodes, ofNodes, map_bind, map_bind]
      refine bind_eq_bind (ofNode_bare n) fun first first' hfirst => ?_
      rw [map_bind, map_bind]
      refine bind_eq_bind (ofNodes_bare ns) fun others others' hothers => ?_
      refine congrArg Except.ok ?_
      rw [List.map_append, List.map_append, hfirst, hothers]

end

lemma ofLists_bare (n : Node) :
    (ofLists language n).map (List.map bare) = (ofLists other n).map (List.map bare) :=
  ofNodes_bare language other _

end AttributeEntry

namespace SpecEntry

lemma ofNode_bare (n : Node) : (ofNode language n).map bare = (ofNode other n).map bare := by
  rw [ofNode, ofNode]
  cases n.attribute? "ident" with
  | none => rfl
  | some ident =>
      dsimp only
      split
      · simp only [map_bind]
        refine bind_congr fun kind => bind_eq_bind (AttributeEntry.ofLists_bare language other n) ?_
        intro attributes attributes' h
        simp [pure, Except.pure, Except.map, bare, Spec.bare, ClassSpec.bare, h]
      · split
        · simp only [map_bind]
          refine bind_eq_bind (AttributeEntry.ofLists_bare language other n) ?_
          intro attributes attributes' h
          simp [pure, Except.pure, Except.map, bare, Spec.bare, ElementSpec.bare, h]
        · rfl

/-- **A text describes the same bare specs in all languages**, or it has the same fault. -/
theorem ofText_bare (text : String) :
    (ofText language text).map (List.map bare) = (ofText other text).map (List.map bare) := by
  rw [ofText, ofText]
  cases Node.ofText? text with
  | none => rfl
  | some root =>
      have h : (ofDocument language root).map (List.map bare) =
          (ofDocument other root).map (List.map bare) := by
        rw [ofDocument, ofDocument, map_mapM, map_mapM]
        exact congrArg (List.mapM · _) (funext fun n => ofNode_bare language other n)
      dsimp only
      rcases alike_of_map h with ⟨flaw, hl, ho⟩ | ⟨entries, others, hl, ho, h⟩
      · rw [hl, ho]
      · rw [hl, ho]
        exact congrArg Except.ok h

end SpecEntry

end Reading

/-! ### Expanding bare tables -/

namespace Expansion

variable {t u : Table} {fresh : List String}

/-- Where the macros are the same, each of them is expanded alike. -/
def MacroAlike (t u : Table) (fresh : List String) : Prop :=
  ∀ chain k ident, ofMacro u fresh chain k ident = ofMacro t fresh chain k ident

lemma ofParticles_congr {ps : List Particle} (hparts : ∀ p ∈ ps, ∀ chain k,
      ofParticle u fresh chain k p = ofParticle t fresh chain k p) (chain : List String)
    (k : Known) : ofParticles u fresh chain k ps = ofParticles t fresh chain k ps := by
  induction ps generalizing k with
  | nil => rw [ofParticles, ofParticles]
  | cons p ps ih =>
      obtain ⟨hp, hrest⟩ := List.forall_mem_cons.mp hparts
      simp only [ofParticles, hp, ih hrest]

lemma ofParticle_congr (h : u.macro? = t.macro?) (hmacros : MacroAlike t u fresh) (p : Particle) :
    ∀ chain k, ofParticle u fresh chain k p = ofParticle t fresh chain k p := by
  induction p using Particle.ind with
  | group ident =>
      intro chain k
      rw [ofParticle, ofParticle, h, hmacros chain k ident]
  | sequence ps ih => intro chain k; rw [ofParticle, ofParticle, ofParticles_congr ih]
  | alternate ps ih => intro chain k; rw [ofParticle, ofParticle, ofParticles_congr ih]

lemma ofContent_congr (h : u.macro? = t.macro?) (hmacros : MacroAlike t u fresh)
    (chain : List String) (k : Known) (c : Content) :
    ofContent u fresh chain k c = ofContent t fresh chain k c := by
  cases c with
  | empty => rw [ofContent, ofContent]
  | ofMacro ident => rw [ofContent, ofContent, hmacros]
  | model p => rw [ofContent, ofContent, ofParticle_congr h hmacros]

/-- Opening a macro uses it up, so the induction is on the macros that are fresh. -/
lemma macroAlike (h : u.macro? = t.macro?) (fresh : List String) : MacroAlike t u fresh := by
  induction hlength : fresh.length using Nat.strong_induction_on generalizing fresh with
  | _ length ih =>
      intro chain k ident
      rw [ofMacro, ofMacro, h]
      split
      · rfl
      · split
        · rfl
        · split
          · next hfresh =>
            have hless : (without ident fresh).length < length :=
              hlength ▸ length_without_lt hfresh
            rw [ofContent_congr h (ih _ hless _ rfl)]
          · rfl

/-- The contents of specs do not tell what is said about the specs. -/
lemma ofSpecs_bare (t : Table) (specs : List Spec) (k : Known) :
    ofSpecs t.bare (specs.map Spec.bare) k = ofSpecs t specs k := by
  have hsame : t.bare.macro? = t.macro? := funext t.macro?_bare
  induction specs generalizing k with
  | nil => rfl
  | cons s specs ih =>
      rw [List.map_cons, ofSpecs, ofSpecs, Spec.content?_bare]
      cases s.content? with
      | none => exact ih k
      | some content =>
          dsimp only
          rw [t.idents_bare, ofContent_congr hsame (macroAlike hsame _), Spec.ident_bare]
          refine bind_congr fun (expanded, k) => ?_
          rw [ih]

end Expansion

/-- **The expansion of a bare table** is the bare expansion, and it has the same faults. -/
theorem Table.expand_bare (t : Table) : t.bare.expand = t.expand.map Table.bare := by
  rw [expand, expand, toList_bare, Expansion.ofSpecs_bare, map_bind]
  refine bind_congr fun contents => congrArg Except.ok (t.mapContent_bare _ _ fun s => ?_)
  rw [Spec.ident_bare]

end EditorSchema
