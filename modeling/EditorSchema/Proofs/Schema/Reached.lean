/-
What memberships lead to from a classified element.

The walk that collects the groups of an element opens every class that it comes to, once, and
ends at the first ident that is not a class.  A class that was opened has its own classes
among the pending ones or among those that were opened.  So when nothing is pending, the idents
that were opened are closed under memberships, and all of them are classes.

* `References.Walked`: what holds while memberships are pending;
* `References.class_of_walk`: all that a walk that succeeds could come to is classes;
* `References.class_of_reached`: so is all that the memberships of an element lead to.
-/
import Mathlib.Tactic
import EditorSchema.Proofs.Corpus.Circles
import EditorSchema.Proofs.Outcome
import EditorSchema.Schema.References

namespace EditorSchema

open Outcome
open Relation (ReflTransGen TransGen)

variable {t : Table} {ident : String}

namespace Table

/-- The spec of an ident is a class. -/
def IsClass (t : Table) (ident : String) : Prop := ∃ c, t.class? ident = some c

lemma get?_of_class? {c : ClassSpec} (h : t.class? ident = some c) :
    t.get? ident = some (.ofClass c) := by
  rw [class?] at h
  split at h
  · next s hs =>
    cases h
    exact hs
  · cases h

lemma get?_of_element? {e : ElementSpec} (h : t.element? ident = some e) :
    t.get? ident = some (.ofElement e) := by
  rw [element?] at h
  split at h
  · next s hs =>
    cases h
    exact hs
  · cases h

/-- The classes of a class. -/
lemma memberOf_of_class? {c : ClassSpec} {group : String} (hc : t.class? ident = some c)
    (h : t.MemberOf ident group) : group ∈ c.memberships := by
  obtain ⟨s, hs, hgroup⟩ := h
  obtain rfl := Option.some.inj ((get?_of_class? hc).symm.trans hs)
  exact hgroup

end Table

namespace References

variable {fresh : List String} {pending : List (String × String)} {groups : List String}

/-- Every class of an ident that was opened is pending, or was opened and is a class. -/
def Walked (t : Table) (fresh : List String) (pending : List (String × String)) : Prop :=
  ∀ a b, t.MemberOf a b → a ∉ fresh → b ∈ pending.map Prod.snd ∨ b ∉ fresh ∧ t.IsClass b

/-- **What a walk could come to**: idents that are pending lead to classes only, and so do those
that were opened before and are classes. -/
lemma class_of_walk (hwalked : Walked t fresh pending) (h : walk t fresh pending = .ok groups) :
    ∀ ident, ident ∈ pending.map Prod.snd ∨ ident ∉ fresh ∧ t.IsClass ident →
      ∀ other, ReflTransGen t.MemberOf ident other → t.IsClass other := by
  fun_induction walk t fresh pending generalizing groups with
  | case1 fresh =>
      intro ident hident other hway
      -- the opened idents are closed under memberships
      have hclosed : ident ∉ fresh ∧ t.IsClass ident := hident.resolve_left (by simp)
      have hend : other ∉ fresh ∧ t.IsClass other := by
        induction hway with
        | refl => exact hclosed
        | tail _ hmember ih => exact (hwalked _ _ hmember ih.1).resolve_left (by simp)
      exact hend.2
  | case2 => cases h
  | case3 fresh referrer opened pending c hc hfresh ih =>
      obtain ⟨later, hlater, -⟩ := bind_eq_ok.mp h
      have hopened : opened ∉ without opened fresh ∧ t.IsClass opened :=
        ⟨fun hin => (mem_without.mp hin).2 rfl, c, hc⟩
      have hnext {a : String} (ha : a ∈ ((referrer, opened) :: pending).map Prod.snd ∨
          a ∉ fresh ∧ t.IsClass a) :
          a ∈ (c.memberships.map (opened, ·) ++ pending).map Prod.snd ∨
            a ∉ without opened fresh ∧ t.IsClass a := by
        rw [List.map_cons, List.mem_cons] at ha
        rcases ha with (rfl | ha) | ⟨ha, hclass⟩
        · exact .inr hopened
        · rw [List.map_append]
          exact .inl (List.mem_append_right _ ha)
        · exact .inr ⟨fun hin => ha (mem_without.mp hin).1, hclass⟩
      refine fun ident hident => ih (fun a b hmember ha => ?_) hlater ident (hnext hident)
      by_cases heq : a = opened
      · have hb : b ∈ c.memberships := Table.memberOf_of_class? hc (heq ▸ hmember)
        refine .inl (List.mem_map.mpr ⟨(opened, b), ?_, rfl⟩)
        exact List.mem_append_left _ (List.mem_map_of_mem hb)
      · exact hnext (hwalked a b hmember fun hin => ha (mem_without.mpr ⟨hin, heq⟩))
  | case4 fresh referrer passed pending c hc hfresh ih =>
      have hnext {a : String} (ha : a ∈ ((referrer, passed) :: pending).map Prod.snd ∨
          a ∉ fresh ∧ t.IsClass a) : a ∈ pending.map Prod.snd ∨ a ∉ fresh ∧ t.IsClass a := by
        rw [List.map_cons, List.mem_cons] at ha
        rcases ha with (rfl | ha) | ha
        · exact .inr ⟨hfresh, c, hc⟩
        · exact .inl ha
        · exact .inr ha
      refine fun ident hident => ih (fun a b hmember ha => ?_) h ident (hnext hident)
      exact hnext (hwalked a b hmember ha)

/-- **All that the memberships of an element lead to is classes**, where its groups are
collected. -/
theorem class_of_reached {e : ElementSpec} (he : t.element? ident = some e)
    (h : modelClasses t e = .ok groups) : ∀ other, TransGen t.MemberOf ident other →
      t.IsClass other := by
  intro other hway
  have hstart : Walked t t.idents (e.memberships.map (e.ident, ·)) := by
    rintro a b ⟨s, hs, -⟩ hstale
    exact absurd (Table.mem_idents_of_get? hs) hstale
  obtain ⟨group, hgroup, hway⟩ := TransGen.head'_iff.mp hway
  obtain ⟨s, hs, hmember⟩ := hgroup
  obtain rfl := Option.some.inj ((Table.get?_of_element? he).symm.trans hs)
  refine class_of_walk hstart h group (.inl ?_) other hway
  exact List.mem_map.mpr ⟨(e.ident, group), List.mem_map_of_mem hmember, rfl⟩

end References

end EditorSchema
