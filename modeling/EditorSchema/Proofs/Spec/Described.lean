/-
What the entries of a text say of classes and macros.

A description of a class or of an element names the classes that it is a member of, and the
content in a description refers to macros, at any depth.  The entry that is read off it holds
just these.

* `SpecEntry.ReadOff`: an entry says what a description says;
* `SpecEntry.readOff_of_ofNode`: an entry says what the description says that it comes from;
* `SpecEntry.readOff_of_ofText`: so do all entries of a text, one after the other.
-/
import Mathlib.Tactic
import EditorSchema.Proofs.Outcome
import EditorSchema.Spec.Reading

namespace EditorSchema

open Outcome

variable {language text ident : String} {n : Xml.Node} {e : SpecEntry}

namespace Xml.Node

/-- A description names a class that its spec is a member of. -/
def NamesClass (n : Node) (group : String) : Prop :=
  (n.name = "classSpec" ∨ n.name = "elementSpec") ∧ ∃ classes member,
    n.elementNamed? "classes" = some classes ∧ member ∈ classes.elementsNamed "memberOf" ∧
      member.attribute? "key" = some group

/-- The content in a description refers to a macro, at whatever depth. -/
def NamesMacro (n : Node) (ident : String) : Prop :=
  ∃ held inner, n.elementNamed? "content" = some held ∧ inner ∈ held.descendants ∧
    inner.name = "macroRef" ∧ inner.attribute? "key" = some ident

end Xml.Node

lemma mem_readMemberships : ident ∈ readMemberships n ↔ ∃ classes member,
    n.elementNamed? "classes" = some classes ∧ member ∈ classes.elementsNamed "memberOf" ∧
      member.attribute? "key" = some ident := by
  rw [readMemberships]
  cases n.elementNamed? "classes" <;> simp

lemma mem_macroIdents : ident ∈ ((n.elementNamed? "content").map Xml.Node.macroIdents).getD [] ↔
    n.NamesMacro ident := by
  rw [Xml.Node.NamesMacro]
  cases n.elementNamed? "content" <;> simp [Xml.Node.macroIdents, and_assoc]

namespace SpecEntry

/-- An entry says what a description says. -/
structure ReadOff (e : SpecEntry) (n : Xml.Node) : Prop where
  ident : n.attribute? "ident" = some e.spec.ident
  memberships : ∀ group, group ∈ e.spec.memberships ↔ n.NamesClass group
  macros : ∀ ident, ident ∈ e.macros ↔ n.NamesMacro ident

/-- The parts of an entry, as they are read. -/
lemma parts_of_ofNode (h : ofNode language n = .ok e) :
    n.attribute? "ident" = some e.spec.ident ∧
      e.macros = ((n.elementNamed? "content").map Xml.Node.macroIdents).getD [] ∧
      e.spec.memberships =
        if n.name = "classSpec" ∨ n.name = "elementSpec" then readMemberships n else [] := by
  rw [ofNode] at h
  split at h
  · next ident hident =>
    dsimp only at h
    by_cases hclass : n.name = "classSpec"
    · rw [if_pos hclass] at h
      obtain ⟨kind, -, h⟩ := bind_eq_ok.mp h
      obtain ⟨attributes, -, h⟩ := bind_eq_ok.mp h
      obtain rfl := pure_eq_ok.mp h
      exact ⟨hident, rfl, (if_pos (.inl hclass)).symm⟩
    · rw [if_neg hclass] at h
      by_cases helement : n.name = "elementSpec"
      · rw [if_pos helement] at h
        obtain ⟨attributes, -, h⟩ := bind_eq_ok.mp h
        obtain rfl := pure_eq_ok.mp h
        exact ⟨hident, rfl, (if_pos (.inr helement)).symm⟩
      · -- neither macros nor datatypes are members of classes
        have hneither : ¬ (n.name = "classSpec" ∨ n.name = "elementSpec") :=
          not_or.mpr ⟨hclass, helement⟩
        rw [if_neg helement] at h
        rw [if_neg hneither]
        split at h <;> obtain rfl := pure_eq_ok.mp h <;> exact ⟨hident, rfl, rfl⟩
  · cases h

/-- **Reading a description**: the entry says what it says. -/
theorem readOff_of_ofNode (h : ofNode language n = .ok e) : e.ReadOff n := by
  obtain ⟨hident, hmacros, hmemberships⟩ := parts_of_ofNode h
  refine ⟨hident, fun group => ?_, fun ident => by rw [hmacros, mem_macroIdents]⟩
  rw [hmemberships, Xml.Node.NamesClass, ← mem_readMemberships]
  split <;> simp [*]

/-- The entries of a text are read off the descriptions in it, one after the other. -/
lemma exists_root_of_ofText {entries : List SpecEntry} (h : ofText language text = .ok entries) :
    ∃ root, Xml.Node.ofText? text = some root ∧
      (described root).mapM (ofNode language) = .ok entries := by
  rw [ofText] at h
  split at h
  · cases h
  · next root hroot =>
    split at h
    · next entries' hentries =>
      cases h
      exact ⟨root, hroot, hentries⟩
    · cases h

/-- They say what the descriptions say. -/
theorem readOff_of_ofText {entries : List SpecEntry} (h : ofText language text = .ok entries) :
    ∃ root, Xml.Node.ofText? text = some root ∧
      List.Forall₂ ReadOff entries (described root) := by
  obtain ⟨root, hroot, hentries⟩ := exists_root_of_ofText h
  exact ⟨root, hroot, (forall₂_of_mapM hentries).imp fun e n => readOff_of_ofNode⟩

end SpecEntry

end EditorSchema
