/-
The shape of a particle: which sequences and choices stand in it, at any depth.

Writing a particle and reading it again forgets some of its shape.  A sequence inside a
sequence, a sequence of one part and a choice of nothing but a choice leave no trace in the
text.  What remains is the normal form, and a particle in normal form is its own.

* `Particle.Throughout`: a property of a particle and of all its parts, at any depth;
* `Particle.Filled`, `Particle.Reduced`, `Particle.Normal`: no sequence or choice is without a
  part, none has fewer than two, and none leaves no trace;
* `Particle.normalForm`: what remains of a particle;
* `Particle.items_normalForm_sequence`: a sequence in normal form is the items of its parts,
  one after the other;
* `Particle.normalForm_eq_self`: a normal particle is its own normal form.
-/
import Mathlib.Tactic
import EditorSchema.Content.Particle

namespace EditorSchema.Particle

/-! ### Parts at any depth -/

mutual

/-- A particle and its parts, at any depth. -/
def within : Particle → List Particle
  | .group ident => [.group ident]
  | .sequence parts => .sequence parts :: withinAll parts
  | .alternate branches => .alternate branches :: withinAll branches

/-- Particles and their parts, at any depth. -/
def withinAll : List Particle → List Particle
  | [] => []
  | p :: ps => within p ++ withinAll ps

end

lemma withinAll_eq (ps : List Particle) : withinAll ps = ps.flatMap within := by
  induction ps with
  | nil => rfl
  | cons p ps ih => rw [withinAll, ih, List.flatMap_cons]

section Throughout

variable {P : Particle → Prop} {ident : String} {ps : List Particle}

/-- A property holds of a particle and of all its parts, at any depth. -/
def Throughout (P : Particle → Prop) (t : Particle) : Prop := ∀ q ∈ t.within, P q

instance [DecidablePred P] (t : Particle) : Decidable (t.Throughout P) :=
  List.decidableBAll P t.within

lemma throughout_group : (group ident).Throughout P ↔ P (group ident) := by
  rw [Throughout, within, List.forall_mem_singleton]

/-- A property holds throughout particles if it does throughout each of them. -/
lemma throughout_withinAll : (∀ q ∈ withinAll ps, P q) ↔ ∀ p ∈ ps, p.Throughout P := by
  rw [withinAll_eq]
  constructor
  · intro h p hp q hq
    exact h q (List.mem_flatMap.mpr ⟨p, hp, hq⟩)
  · intro h q hq
    obtain ⟨p, hp, hq⟩ := List.mem_flatMap.mp hq
    exact h p hp q hq

lemma throughout_sequence :
    (sequence ps).Throughout P ↔ P (sequence ps) ∧ ∀ p ∈ ps, p.Throughout P := by
  rw [Throughout, within, List.forall_mem_cons, throughout_withinAll]

lemma throughout_alternate :
    (alternate ps).Throughout P ↔ P (alternate ps) ∧ ∀ p ∈ ps, p.Throughout P := by
  rw [Throughout, within, List.forall_mem_cons, throughout_withinAll]

end Throughout

/-! ### Kinds of shapes -/

/-- Whether a particle is a sequence. -/
def isSequence : Particle → Bool
  | .sequence _ => true
  | _ => false

/-- Whether a particle is a choice. -/
def isAlternate : Particle → Bool
  | .alternate _ => true
  | _ => false

/-- Every sequence and every choice has a part. -/
def Filled (t : Particle) : Prop :=
  t.Throughout fun q => q ≠ .sequence [] ∧ q ≠ .alternate []

instance (t : Particle) : Decidable t.Filled :=
  inferInstanceAs (Decidable (t.Throughout _))

/-- A particle is a group or has at least two parts. -/
def Forked : Particle → Prop
  | .group _ => True
  | .sequence parts => 2 ≤ parts.length
  | .alternate branches => 2 ≤ branches.length

instance : DecidablePred Forked := fun t =>
  match t with
  | .group _ => .isTrue trivial
  | .sequence parts => inferInstanceAs (Decidable (2 ≤ parts.length))
  | .alternate branches => inferInstanceAs (Decidable (2 ≤ branches.length))

/-- Every sequence and every choice has at least two parts. -/
def Reduced (t : Particle) : Prop := t.Throughout Forked

instance (t : Particle) : Decidable t.Reduced := inferInstanceAs (Decidable (t.Throughout _))

lemma filled_of_reduced {t : Particle} (h : t.Reduced) : t.Filled := by
  intro q hq
  have hforked : q.Forked := h q hq
  refine ⟨?_, ?_⟩ <;> rintro rfl <;> exact absurd hforked (by decide)

/-- A particle leaves a trace of its own in an expression: it is no sequence of fewer than two
parts or with a sequence among them, and no choice of nothing but a choice. -/
def Traced : Particle → Prop
  | .group _ => True
  | .sequence parts => 2 ≤ parts.length ∧ ∀ p ∈ parts, p.isSequence = false
  | .alternate branches => ∀ b, branches = [b] → b.isAlternate = false

instance : DecidablePred Traced := fun t =>
  match t with
  | .group _ => .isTrue trivial
  | .sequence parts =>
    have : Decidable (∀ p ∈ parts, p.isSequence = false) := List.decidableBAll _ parts
    inferInstanceAs (Decidable (2 ≤ parts.length ∧ ∀ p ∈ parts, p.isSequence = false))
  | .alternate [] => .isTrue fun _ h => nomatch h
  | .alternate [b] => decidable_of_iff (b.isAlternate = false)
      ⟨fun h _ hb => List.singleton_inj.mp hb ▸ h, fun h => h b rfl⟩
  | .alternate (_ :: _ :: _) => .isTrue fun _ h => nomatch h

/-- Every sequence and every choice leaves a trace of its own. -/
def Normal (t : Particle) : Prop := t.Throughout Traced

instance (t : Particle) : Decidable t.Normal := inferInstanceAs (Decidable (t.Throughout _))

/-! ### The normal form -/

/-- What a particle is in a sequence: the parts of a sequence, and otherwise itself. -/
def items : Particle → List Particle
  | .sequence parts => parts
  | p => [p]

/-- The sequence of some items: a single one is the item. -/
def ofItems : List Particle → Particle
  | [item] => item
  | parts => .sequence parts

/-- The choice between some branches: if there is one, the branch. -/
def ofChoice : List Particle → Particle
  | [branch] => branch
  | branches => .alternate branches

/-- The choice between some branches: if there is one and it is a choice, the branch. -/
def ofBranches : List Particle → Particle
  | [.alternate branches] => .alternate branches
  | branches => .alternate branches

mutual

/-- A particle in normal form: sequences in a sequence are merged into it, a sequence of one
part is that part, and a choice of nothing but a choice is that choice. -/
def normalForm : Particle → Particle
  | .group ident => .group ident
  | .sequence parts => ofItems ((normalForms parts).flatMap items)
  | .alternate branches => ofBranches (normalForms branches)

/-- Particles in normal form, one by one. -/
def normalForms : List Particle → List Particle
  | [] => []
  | p :: ps => normalForm p :: normalForms ps

end

lemma normalForms_eq (ps : List Particle) : normalForms ps = ps.map normalForm := by
  induction ps with
  | nil => rfl
  | cons p ps ih => rw [normalForms, ih, List.map_cons]

/-- What is no sequence is its only item. -/
lemma items_eq_singleton {p : Particle} (h : p.isSequence = false) : p.items = [p] := by
  cases p with
  | group ident => rfl
  | sequence parts => simp [isSequence] at h
  | alternate branches => rfl

lemma ofBranches_isAlternate (bs : List Particle) :
    ∃ branches, ofBranches bs = .alternate branches := by
  rw [ofBranches.eq_def]
  split <;> exact ⟨_, rfl⟩

/-- The choice between two branches or more is no other choice. -/
lemma ofBranches_eq_alternate {bs : List Particle} (h : 2 ≤ bs.length) :
    ofBranches bs = .alternate bs := by
  rw [ofBranches.eq_def]
  split
  · exact absurd h (by simp)
  · rfl

/-- Items none of which is a sequence are found again in their sequence. -/
lemma items_ofItems {ps : List Particle} (h : ∀ p ∈ ps, p.isSequence = false) :
    (ofItems ps).items = ps := by
  match ps with
  | [] => rfl
  | [p] => exact items_eq_singleton (h p List.mem_cons_self)
  | p :: q :: ps => rfl

/-- A sequence in normal form consists of the items of its parts if none of them is a
sequence. -/
lemma items_normalForm_sequence_of {ps : List Particle}
    (h : ∀ p ∈ ps, ∀ q ∈ p.normalForm.items, q.isSequence = false) :
    (normalForm (.sequence ps)).items = ps.flatMap fun p => p.normalForm.items := by
  have hparts : ∀ q ∈ ps.flatMap fun p => p.normalForm.items, q.isSequence = false := by
    intro q hq
    obtain ⟨p, hp, hq⟩ := List.mem_flatMap.mp hq
    exact h p hp q hq
  rw [normalForm, normalForms_eq, List.flatMap_map, items_ofItems hparts]

/-- No item of a normal form is a sequence. -/
lemma isSequence_of_mem_items (t : Particle) :
    ∀ q ∈ t.normalForm.items, q.isSequence = false := by
  induction t using ind with
  | group ident =>
      intro q hq
      rw [List.mem_singleton.mp hq]
      rfl
  | sequence ps ih =>
      intro q hq
      rw [items_normalForm_sequence_of ih] at hq
      obtain ⟨p, hp, hq⟩ := List.mem_flatMap.mp hq
      exact ih p hp q hq
  | alternate bs ih =>
      obtain ⟨branches, hb⟩ := ofBranches_isAlternate (normalForms bs)
      intro q hq
      rw [normalForm, hb] at hq
      rw [List.mem_singleton.mp hq]
      rfl

/-- **The items of a sequence in normal form** are those of its parts, one after the other. -/
theorem items_normalForm_sequence (ps : List Particle) :
    (normalForm (.sequence ps)).items = ps.flatMap fun p => p.normalForm.items :=
  items_normalForm_sequence_of fun p _ => isSequence_of_mem_items p

/-- A normal form is the sequence of its items. -/
lemma ofItems_items_normalForm (t : Particle) : ofItems t.normalForm.items = t.normalForm := by
  cases t with
  | group ident => rfl
  | sequence ps =>
      rw [items_normalForm_sequence, normalForm, normalForms_eq, List.flatMap_map]
  | alternate bs =>
      obtain ⟨branches, hb⟩ := ofBranches_isAlternate (normalForms bs)
      rw [normalForm, hb]
      rfl

/-- Where every sequence has a part, a normal form has an item. -/
lemma items_normalForm_ne_nil {t : Particle} (h : t.Filled) : t.normalForm.items ≠ [] := by
  induction t using ind with
  | group ident => exact List.cons_ne_nil _ _
  | sequence ps ih =>
      obtain ⟨⟨hne, -⟩, hparts⟩ := throughout_sequence.mp h
      cases ps with
      | nil => exact absurd rfl hne
      | cons p ps =>
          have hp : p.normalForm.items ≠ [] :=
            ih p List.mem_cons_self (hparts p List.mem_cons_self)
          rw [items_normalForm_sequence, List.flatMap_cons]
          exact List.append_ne_nil_of_left_ne_nil hp _
  | alternate bs ih =>
      obtain ⟨branches, hb⟩ := ofBranches_isAlternate (normalForms bs)
      rw [normalForm, hb]
      exact List.cons_ne_nil _ _

/-- **A normal particle is its own normal form.** -/
theorem normalForm_eq_self {t : Particle} (h : t.Normal) : t.normalForm = t := by
  have parts (ps : List Particle) (hps : ∀ p ∈ ps, p.Normal)
      (ih : ∀ p ∈ ps, p.Normal → p.normalForm = p) : normalForms ps = ps := by
    calc normalForms ps = ps.map normalForm := normalForms_eq ps
      _ = ps.map id := List.map_congr_left fun p hp => ih p hp (hps p hp)
      _ = ps := List.map_id ps
  induction t using ind with
  | group ident => rfl
  | sequence ps ih =>
      obtain ⟨⟨htwo, hitems⟩, hps⟩ := throughout_sequence.mp h
      have hself : ps.flatMap items = ps := by
        conv_rhs => rw [← List.flatMap_singleton' ps]
        exact List.flatMap_congr fun p hp => items_eq_singleton (hitems p hp)
      rw [normalForm, parts ps hps ih, hself]
      match ps, htwo with
      | p :: q :: ps, _ => rfl
  | alternate bs ih =>
      obtain ⟨htraced, hbs⟩ := throughout_alternate.mp h
      rw [normalForm, parts bs hbs ih, ofBranches.eq_def]
      split
      · -- the choice of a choice leaves no trace
        next branches => exact absurd (htraced _ rfl) (by simp [isAlternate])
      · rfl

end EditorSchema.Particle
