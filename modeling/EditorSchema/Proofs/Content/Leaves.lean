/-
The leaves of a particle: what filtering and renaming do to them.

* `Particle.leaves_of_filter`: filtering keeps the leaves of interest, in order and with
  repetitions, and no others;
* `Particle.leaves_rename`: renaming goes through the leaves one by one.
-/
import Mathlib.Tactic
import EditorSchema.Content.Filter

namespace EditorSchema.Particle

lemma filterAll_cons (keep : String → Bool) (p : Particle) (ps : List Particle) :
    filterAll keep (p :: ps) = (filter keep p).toList ++ filterAll keep ps := by
  rw [filterAll]
  cases filter keep p <;> rfl

lemma mem_filterAll {keep : String → Bool} {ps : List Particle} {q : Particle} :
    q ∈ filterAll keep ps ↔ ∃ p ∈ ps, filter keep p = some q := by
  rw [filterAll_eq, List.mem_filterMap]

/-- The leaves of what remains of a particle, if anything does. -/
def leavesLeft (p : Option Particle) : List String := (p.map leaves).getD []

/-- Collapsing a sequence or a choice loses no leaf. -/
lemma leavesLeft_collapse {wrap : List Particle → Particle}
    (hwrap : ∀ ps, (wrap ps).leaves = leavesAll ps) (ps : List Particle) :
    leavesLeft (collapse wrap ps) = leavesAll ps := by
  match ps with
  | [] => rfl
  | [p] => simp [collapse, leavesLeft, leavesAll]
  | p :: q :: ps => simp [collapse, leavesLeft, hwrap]

/-- Filtering parts keeps their leaves of interest, if it does so in each part. -/
lemma leavesAll_filterAll {keep : String → Bool} {ps : List Particle}
    (hparts : ∀ p ∈ ps, leavesLeft (filter keep p) = p.leaves.filter keep) :
    leavesAll (filterAll keep ps) = (leavesAll ps).filter keep := by
  induction ps with
  | nil => rfl
  | cons p ps ih =>
      obtain ⟨hp, hrest⟩ := List.forall_mem_cons.mp hparts
      rw [filterAll, leavesAll, List.filter_append, ← hp, ← ih hrest]
      cases filter keep p <;> rfl

lemma leavesLeft_filter (keep : String → Bool) (t : Particle) :
    leavesLeft (filter keep t) = t.leaves.filter keep := by
  induction t using ind with
  | group ident =>
      rw [filter]
      by_cases h : keep ident <;> simp [leavesLeft, leaves, h]
  | sequence ps ih =>
      rw [filter, leavesLeft_collapse (fun _ => by rw [leaves]), leavesAll_filterAll ih, leaves]
  | alternate ps ih =>
      rw [filter, leavesLeft_collapse (fun _ => by rw [leaves]), leavesAll_filterAll ih, leaves]

/-- **Filtering keeps the leaves of interest**, in order and with repetitions, and no
others. -/
theorem leaves_of_filter {keep : String → Bool} {t kept : Particle}
    (h : filter keep t = some kept) : kept.leaves = t.leaves.filter keep := by
  rw [← leavesLeft_filter, h]
  rfl

/-- Renaming goes through the leaves one by one. -/
theorem leaves_rename (f : String → String) (t : Particle) :
    (t.rename f).leaves = t.leaves.map f := by
  have parts (ps : List Particle) (ih : ∀ p ∈ ps, (p.rename f).leaves = p.leaves.map f) :
      leavesAll (renameAll f ps) = (leavesAll ps).map f := by
    rw [leavesAll_eq, leavesAll_eq, renameAll_eq, List.flatMap_map, List.map_flatMap]
    exact List.flatMap_congr ih
  induction t using ind with
  | group ident => simp [rename, leaves]
  | sequence ps ih => rw [rename, leaves, leaves, parts ps ih]
  | alternate ps ih => rw [rename, leaves, leaves, parts ps ih]

end EditorSchema.Particle
