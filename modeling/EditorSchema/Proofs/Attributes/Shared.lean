/-
What the dictionary of attributes holds.

A definition of an attribute is put into the dictionary under the attribute where nothing is
yet, and all later ones under the key of a record.  So as long as no key of a record is the
name of an attribute, the dictionary holds the definition of an attribute that was met first,
and it stays there.

* `Attributes.get?_after`: what a record leaves in the dictionary under an attribute;
* `Attributes.laidOnRequired_iff`: the base that a change is laid on.
-/
import Mathlib.Tactic
import EditorSchema.Proofs.Attributes.Run

namespace EditorSchema.Attributes

variable {name ident other : String} {ds : List AttributeDef} {d : AttributeDef}
variable {start : AttributeDictionary}

/-! ### Keys of records -/

@[simp] lemma ownKey_inj : ownKey ident name = ownKey other name ↔ ident = other := by
  rw [ownKey, ownKey, String.append_left_inj, String.append_left_inj]

/-! ### Definitions under an attribute -/

/-- The definition that holds for an attribute, where a dictionary was given before. -/
def baseOf (start : AttributeDictionary) (ident : String) (ds : List AttributeDef) :
    Option AttributeDef :=
  start.get? ident <|> (occurrences ident ds).head?

lemma baseOf_append_singleton : baseOf start ident (ds ++ [d]) =
    (baseOf start ident ds <|> if d.ident = ident then some d else none) := by
  rw [baseOf, baseOf, occurrences_append_singleton]
  cases start.get? ident <;> cases occurrences ident ds <;> by_cases h : d.ident = ident <;>
    simp [h]

/-- A definition of an attribute that was met does not change what is under it. -/
lemma baseOf_append (h : ident ∈ identsOf ds) (rest : List AttributeDef) :
    baseOf start ident (ds ++ rest) = baseOf start ident ds := by
  rw [← not_not (a := ident ∈ identsOf ds), ← occurrences_eq_nil] at h
  obtain ⟨d, hd⟩ := Option.ne_none_iff_exists'.mp (mt List.head?_eq_none_iff.mp h)
  rw [baseOf, baseOf, occurrences_append, List.head?_append, hd, Option.some_or]

/-- A step changes what is under an attribute only where nothing is, and only if it is the
first of the record about this attribute. -/
lemma get?_step {p q : Progress} (h : step name p d = .ok q)
    (hcovered : d.ident ∈ p.met → p.dictionary.contains d.ident = true)
    (hident : d.Redefines → ident ≠ ownKey d.ident name) :
    q.dictionary.get? ident =
      (p.dictionary.get? ident <|> if d.ident = ident then some d else none) := by
  have hother (hred : d.Redefines) (value : AttributeDef) :
      (p.dictionary.insert (ownKey d.ident name) value).get? ident = p.dictionary.get? ident := by
    rw [Dictionary.get?_insert, if_neg (hident hred).symm]
  by_cases hmet : d.ident ∈ p.met
  · obtain ⟨base, hbase⟩ := Dictionary.contains_iff.mp (hcovered hmet)
    have hkept : p.dictionary.get? ident =
        (p.dictionary.get? ident <|> if d.ident = ident then some d else none) := by
      by_cases heq : d.ident = ident
      · rw [← heq, hbase]; rfl
      · simp [heq]
    rw [← hkept]
    cases hmode : d.effectiveMode with
    | change => rw [step_change hmet hmode hbase] at h; cases h; exact hother (.inl hmode) _
    | replace => rw [step_replace hmet hmode] at h; cases h; exact hother (.inr hmode) _
    | delete => rw [step_delete hmet hmode] at h; cases h; rfl
    | add => rw [step_add hmet hmode] at h; cases h; rfl
  · by_cases hred : d.Redefines
    · rw [step_baseless hmet hred] at h
      cases h
    · rw [step_first hmet hred] at h
      cases h
      rw [Dictionary.get?_insertNew]
      by_cases heq : d.ident = ident
      · rw [if_pos heq, if_pos heq]
      · simp [heq]

/-- **What a record leaves under an attribute**: what was there, or else its own first
definition. -/
theorem get?_after (hbased : ∀ other, ¬ Baseless ds other)
    (hident : ∀ d ∈ ds, d.Redefines → ident ≠ ownKey d.ident name) :
    (after name start ds).dictionary.get? ident = baseOf start ident ds := by
  induction ds using List.reverseRecOn with
  | nil => simp [after, baseOf, occurrences]
  | append_singleton ds d ih =>
      have hfollows := follows_of_based name start (based_of_append hbased)
      have hstep := (hfollows.step (not_redefines_of_based hbased)).1
      rw [get?_step hstep (fun hm => hfollows.covered _ ((hfollows.met _).mp hm))
          (hident d (by simp)),
        ih (based_of_append hbased) fun e he => hident e (List.mem_append_left _ he),
        baseOf_append_singleton]

/-- **The base of a change** is the definition that holds in the end for its attribute. -/
theorem laidOnRequired_iff {before rest : List AttributeDef}
    (hbased : ∀ other, ¬ Baseless (before ++ d :: rest) other)
    (hident : ∀ e ∈ before, d.ident ≠ ownKey e.ident name) :
    LaidOnRequired name start before d ↔ d.ident ∈ identsOf before ∧ d.effectiveMode = .change ∧
      Requires (baseOf start d.ident (before ++ d :: rest)) := by
  refine and_congr_right fun hmet => and_congr_right fun _ => ?_
  rw [get?_after (based_of_append hbased) fun e he _ => hident e he, baseOf_append hmet]

end EditorSchema.Attributes
