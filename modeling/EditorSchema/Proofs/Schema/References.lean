/-
The references of a classification, read off its placed elements.

Building the references places every classified ident, and each set of names that comes out
of it answers a question about the placed elements: which of them have the name, and of what
categories they are.

* `References.exists_placed`: what is built is built from placed elements;
* `References.class_of_mem_groups`: every group of an element is a class of models;
* `References.blocks_ofPlaced`, `References.inlines_ofPlaced`, `References.marks_ofPlaced`:
  the names that blocks, inline nodes and marks answer to.
-/
import Mathlib.Tactic
import EditorSchema.Proofs.Dictionary
import EditorSchema.Proofs.Outcome
import EditorSchema.Schema.References

namespace EditorSchema.References

open Outcome

/-! ### Groups -/

/-- A walk along memberships finds classes of models. -/
lemma class_of_mem_walk {t : Table} {fresh : List String} {pending : List (String × String)}
    {groups : List String} (h : walk t fresh pending = .ok groups) :
    ∀ g ∈ groups, ∃ c, t.class? g = some c ∧ c.kind = .model := by
  fun_induction walk t fresh pending generalizing groups with
  | case1 => cases h; simp
  | case2 => cases h
  | case3 fresh referrer ident pending c hc hfresh ih =>
      obtain ⟨later, hlater, hgroups⟩ := bind_eq_ok.mp h
      rw [pure_eq_ok] at hgroups
      intro g hg
      rw [← hgroups] at hg
      split at hg
      · next hkind =>
        rcases List.mem_cons.mp hg with rfl | hg
        · exact ⟨c, hc, hkind⟩
        · exact ih hlater g hg
      · exact ih hlater g hg
  | case4 fresh referrer ident pending c hc hfresh ih => exact ih h

/-! ### Placing -/

/-- Placing a classified ident finds its element and the groups of that element. -/
theorem place_eq_ok {t : Table} {entry : Category × String} {p : Placed} :
    place t entry = .ok p ↔
      ∃ e groups, t.element? entry.2 = some e ∧ modelClasses t e = .ok groups ∧
        p = ⟨entry.1, entry.2, groups⟩ := by
  obtain ⟨category, ident⟩ := entry
  rw [place]
  split
  · next hnone => simp [hnone]
  · next e he =>
    simp only [bind_eq_ok, pure_eq_ok]
    constructor
    · rintro ⟨groups, hgroups, rfl⟩
      exact ⟨e, groups, he, hgroups, rfl⟩
    · rintro ⟨e', groups, he', hgroups, rfl⟩
      rw [he, Option.some.injEq] at he'
      exact ⟨groups, he' ▸ hgroups, rfl⟩

/-- The elements of a classification in their places. -/
def PlacedAs (c : Classification) (t : Table) (placed : List Placed) : Prop :=
  c.entries.mapM (place t) = .ok placed

/-- What is built is built from placed elements. -/
theorem exists_placed {c : Classification} {t : Table} {r : References}
    (h : build c t = .ok r) : ∃ placed, PlacedAs c t placed ∧ r = ofPlaced placed := by
  obtain ⟨placed, hplaced, hr⟩ := bind_eq_ok.mp h
  exact ⟨placed, hplaced, (pure_eq_ok.mp hr).symm⟩

namespace PlacedAs

variable {c : Classification} {t : Table} {placed : List Placed}

/-- A placed element comes from a classified ident. -/
lemma exists_entry (h : PlacedAs c t placed) {p : Placed} (hp : p ∈ placed) :
    (p.category, p.ident) ∈ c.entries ∧
      ∃ e, t.element? p.ident = some e ∧ modelClasses t e = .ok p.groups := by
  obtain ⟨entry, hentry, hplace⟩ := ((mem_of_mapM h).1 p).mp hp
  obtain ⟨e, groups, he, hgroups, rfl⟩ := place_eq_ok.mp hplace
  exact ⟨hentry, e, he, hgroups⟩

/-- Every classified ident is placed. -/
lemma exists_mem (h : PlacedAs c t placed) {entry : Category × String}
    (hentry : entry ∈ c.entries) : ∃ p ∈ placed, p.category = entry.1 ∧ p.ident = entry.2 := by
  obtain ⟨p, hplace⟩ := (mem_of_mapM h).2 entry hentry
  obtain ⟨e, groups, -, -, rfl⟩ := place_eq_ok.mp hplace
  exact ⟨_, ((mem_of_mapM h).1 _).mpr ⟨entry, hentry, hplace⟩, rfl, rfl⟩

/-- The groups of a placed element are those of its ident. -/
lemma groups_eq (h : PlacedAs c t placed) {p q : Placed} (hp : p ∈ placed) (hq : q ∈ placed)
    (hpq : p.ident = q.ident) : p.groups = q.groups := by
  obtain ⟨-, e, he, hgroups⟩ := h.exists_entry hp
  obtain ⟨-, e', he', hgroups'⟩ := h.exists_entry hq
  rw [hpq, he', Option.some.injEq] at he
  rw [he, hgroups, Except.ok.injEq] at hgroups'
  exact hgroups'

/-- Every group of a placed element is a class of models. -/
lemma class_of_mem_groups (h : PlacedAs c t placed) {p : Placed} (hp : p ∈ placed) :
    ∀ g ∈ p.groups, ∃ s, t.class? g = some s := by
  obtain ⟨-, e, -, hgroups⟩ := h.exists_entry hp
  intro g hg
  obtain ⟨s, hs, -⟩ := class_of_mem_walk hgroups g hg
  exact ⟨s, hs⟩

/-- The groups of an element are those under which it is placed. -/
lemma groupsOf_ofPlaced (h : PlacedAs c t placed) {p : Placed} (hp : p ∈ placed) :
    (ofPlaced placed).groupsOf p.ident = p.groups := by
  have hget : (ofPlaced placed).groups.get? p.ident = some p.groups := by
    refine Dictionary.get?_ofList_of_agree (List.mem_map.mpr ⟨p, hp, rfl⟩) fun v hv => ?_
    obtain ⟨q, hq, heq⟩ := List.mem_map.mp hv
    rw [Prod.mk.injEq] at heq
    rw [← heq.2, h.groups_eq hq hp heq.1]
  rw [groupsOf, hget, Option.getD_some]

end PlacedAs

/-! ### What answers to a name -/

variable {placed : List Placed} {name : String}

lemma contains_namesOf {p : Category → Bool} :
    (namesOf placed p).contains name = true ↔
      ∃ e ∈ placed, p e.category = true ∧ name ∈ e.names := by
  simp only [namesOf, IdentSet.contains_ofIdents, decide_eq_true_iff, List.mem_flatMap,
    List.mem_filter, and_assoc]

/-- The names that blocks answer to. -/
lemma blocks_ofPlaced : (ofPlaced placed).blocks.contains name = true ↔
    ∃ e ∈ placed, e.category.isBlock = true ∧ name ∈ e.names :=
  contains_namesOf

/-- The names that inline nodes answer to. -/
lemma inlines_ofPlaced : (ofPlaced placed).inlines.contains name = true ↔
    ∃ e ∈ placed, e.category.isInline = true ∧ name ∈ e.names :=
  contains_namesOf

/-- The names that marks answer to. -/
lemma marks_ofPlaced : (ofPlaced placed).marks.contains name = true ↔
    ∃ e ∈ placed, e.category.isMark = true ∧ name ∈ e.names :=
  contains_namesOf

lemma mem_inlineGroups_ofPlaced : name ∈ (ofPlaced placed).inlineGroups ↔
    ∃ e ∈ placed, e.category.isInline = true ∧ name ∈ e.groups := by
  simp only [ofPlaced, List.mem_eraseDups, List.mem_flatMap, List.mem_filter, and_assoc]

lemma isInlineGroup_ofPlaced : (ofPlaced placed).isInlineGroup name = true ↔
    ∃ e ∈ placed, e.category.isInline = true ∧ name ∈ e.groups := by
  rw [isInlineGroup, List.contains_iff_mem, mem_inlineGroups_ofPlaced]

lemma mem_inlineIdents_ofPlaced : name ∈ (ofPlaced placed).inlineIdents ↔
    ∃ e ∈ placed, e.category.isInline = true ∧ e.ident = name := by
  simp only [ofPlaced, List.mem_map, List.mem_filter, and_assoc]

lemma interIdents_ofPlaced : (ofPlaced placed).interIdents.contains name = true ↔
    ∃ e ∈ placed, e.category = .inter ∧ e.ident = name := by
  simp only [ofPlaced, IdentSet.contains_ofIdents, decide_eq_true_iff, List.mem_map,
    List.mem_filter, beq_iff_eq, and_assoc]

/-- Structural content may name blocks, inline nodes and text. -/
lemma contains_structural {r : References} : r.structural.contains name = true ↔
    r.blocks.contains name = true ∨ r.inlines.contains name = true ∨
      name = Particle.textName := by
  simp only [structural, IdentSet.contains_ofIdents, decide_eq_true_iff, List.mem_append,
    Dictionary.mem_keys_iff, List.mem_singleton, or_assoc]

end EditorSchema.References
