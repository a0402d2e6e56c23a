/-
What dictionaries and sets hold that are built from lists.

* `Dictionary.get?_insertNew`: a value that is there stays;
* `Dictionary.get?_ofList_of_agree`: a list that says one thing about a key makes a dictionary
  that says the same;
* `IdentSet.mem_toList_ofIdents`: a list of idents and its set have the same members;
* `IdentSet.toList_ofIdents_eq_iff`: so lists with the same members make one set.
-/
import Mathlib.Tactic
import EditorSchema.Dictionary

namespace EditorSchema

namespace Dictionary

universe u

variable {α : Type u}

lemma contains_iff {d : Dictionary α} {key : String} :
    d.contains key = true ↔ ∃ value, d.get? key = some value :=
  Option.isSome_iff_exists

lemma contains_eq_false {d : Dictionary α} {key : String} :
    d.contains key = false ↔ d.get? key = none := by
  simp [contains]

lemma keys_pairwise (d : Dictionary α) : d.keys.Pairwise (· < ·) :=
  List.pairwise_map.mpr d.sorted

@[simp] lemma contains_empty (key : String) : (empty : Dictionary α).contains key = false := rfl

lemma contains_insert (d : Dictionary α) (key other : String) (value : α) :
    (d.insert key value).contains other = true ↔ key = other ∨ d.contains other = true := by
  by_cases h : key = other <;> simp [contains, get?_insert, h]

/-- A value that is there stays; otherwise the new one is put there. -/
theorem get?_insertNew (d : Dictionary α) (key other : String) (value : α) :
    (d.insertNew key value).get? other =
      if key = other then d.get? other <|> some value else d.get? other := by
  rw [insertNew]
  split
  · next hc =>
    obtain ⟨v, hv⟩ := contains_iff.mp hc
    split
    · next heq => rw [← heq, hv]; rfl
    · rfl
  · next hc =>
    have hn : d.get? key = none := contains_eq_false.mp (by simpa using hc)
    rw [get?_insert]
    split
    · next heq => rw [← heq, hn]; rfl
    · rfl

lemma contains_insertNew (d : Dictionary α) (key other : String) (value : α) :
    (d.insertNew key value).contains other = true ↔ key = other ∨ d.contains other = true := by
  rw [contains, get?_insertNew]
  by_cases h : key = other
  · cases hd : d.get? other <;> simp [h]
  · simp [h, contains]

/-- A list that says one thing about a key makes a dictionary that says the same. -/
theorem get?_ofList_of_agree {l : List (String × α)} {key : String} {value : α}
    (hmem : (key, value) ∈ l) (hagree : ∀ v, (key, v) ∈ l → v = value) :
    (ofList l).get? key = some value := by
  induction l using List.reverseRecOn with
  | nil => simp at hmem
  | append_singleton l e ih =>
      have hcons : ofList (l ++ [e]) = (ofList l).insert e.1 e.2 := by simp [ofList]
      rw [hcons, get?_insert]
      split
      · next heq => rw [hagree e.2 (by simp [← heq])]
      · next hne =>
        have hl : (key, value) ∈ l := by
          rcases List.mem_append.mp hmem with h | h
          · exact h
          · exact absurd (congrArg Prod.fst (List.mem_singleton.mp h)).symm hne
        exact ih hl fun v hv => hagree v (List.mem_append_left _ hv)

end Dictionary

namespace IdentSet

lemma mem_keys_ofIdents {idents : List String} {ident : String} :
    ident ∈ (ofIdents idents).keys ↔ ident ∈ idents := by
  rw [Dictionary.mem_keys_iff, contains_ofIdents, decide_eq_true_iff]

/-- A list of idents and its set have the same members. -/
theorem mem_toList_ofIdents {idents : List String} {ident : String} :
    ident ∈ (ofIdents idents).toList ↔ ident ∈ idents :=
  mem_keys_ofIdents

/-- Sets with the same members are equal. -/
lemma ext_contains {s s' : IdentSet} (h : ∀ ident, s.contains ident = s'.contains ident) :
    s = s' := by
  refine Dictionary.ext_get? fun ident => ?_
  have hident := h ident
  rw [Dictionary.contains, Dictionary.contains] at hident
  cases hs : s.get? ident <;> cases hs' : s'.get? ident <;> simp_all

/-- Lists of idents are equal as sets if they have the same members. -/
theorem toList_ofIdents_eq_iff {idents others : List String} :
    (ofIdents idents).toList = (ofIdents others).toList ↔
      ∀ ident, ident ∈ idents ↔ ident ∈ others := by
  constructor
  · intro h ident
    rw [← mem_toList_ofIdents, h, mem_toList_ofIdents]
  · intro h
    congr 1
    refine ext_contains fun ident => ?_
    rw [contains_ofIdents, contains_ofIdents, decide_eq_decide]
    exact h ident

end IdentSet

end EditorSchema
