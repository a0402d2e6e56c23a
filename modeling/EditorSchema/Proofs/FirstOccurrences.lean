/-
A list without repetitions: each of its members where it occurs first.

* `eraseDups_append_of_mem`, `eraseDups_append_singleton`: what a list is continued with
  stays if it has not occurred before;
* `nodup_eraseDups`: nothing is left twice.
-/
import Mathlib.Tactic

namespace EditorSchema

variable {α : Type*} [BEq α] [LawfulBEq α] {l m : List α} {a : α}

/-- What has occurred before does not occur first. -/
lemma eraseDups_append_of_subset (h : ∀ a ∈ m, a ∈ l) (n : List α) :
    (l ++ (m ++ n)).eraseDups = (l ++ n).eraseDups := by
  have hnone : m.filter (fun a => !l.contains a) = [] := by
    rw [List.filter_eq_nil_iff]
    intro a ha
    simp [h a ha]
  rw [List.eraseDups_append, List.eraseDups_append, List.removeAll, List.removeAll,
    List.filter_append, hnone, List.nil_append]

lemma eraseDups_append_of_mem (h : a ∈ l) : (l ++ [a]).eraseDups = l.eraseDups := by
  rw [← List.append_nil [a], eraseDups_append_of_subset (by simpa using h), List.append_nil]

lemma eraseDups_append_singleton (h : a ∉ l) : (l ++ [a]).eraseDups = l.eraseDups ++ [a] := by
  have hone : [a].removeAll l = [a] := by simp [List.removeAll, h]
  rw [List.eraseDups_append, hone, List.eraseDups_cons, List.filter_nil, List.eraseDups_nil]

/-- Nothing is left twice. -/
lemma nodup_eraseDups (l : List α) : l.eraseDups.Nodup := by
  induction l using List.reverseRecOn with
  | nil => simp
  | append_singleton l a ih =>
      by_cases ha : a ∈ l
      · rwa [eraseDups_append_of_mem ha]
      · have hnew : a ∉ l.eraseDups := fun h => ha (List.mem_eraseDups.mp h)
        rw [eraseDups_append_singleton ha]
        exact List.nodup_append.mpr ⟨ih, List.nodup_singleton a,
          fun b hb c hc heq => hnew (List.mem_singleton.mp hc ▸ heq ▸ hb)⟩

lemma eraseDups_eq_nil_iff : l.eraseDups = [] ↔ l = [] := by
  simp only [List.eq_nil_iff_forall_not_mem, List.mem_eraseDups]

end EditorSchema
