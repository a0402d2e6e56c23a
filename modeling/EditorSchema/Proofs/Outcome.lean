/-
Steps that may fail, one after the other.

A chain of steps succeeds if each of its steps does, and a list is gone through with success
if each of its members is.

* `Outcome.bind_eq_ok`, `Outcome.bind_eq_error`: one step and what comes after it;
* `Outcome.forall₂_of_mapM`, `Outcome.mem_of_mapM`, `Outcome.exists_mapM`: a list that is gone
  through;
* `Outcome.alike_of_map`, `Outcome.bind_eq_bind`: steps that differ in what no use is made of.
-/
import Mathlib.Tactic

namespace EditorSchema.Outcome

universe u v

variable {ε : Type u} {α α' β γ : Type v}

lemma pure_eq_ok {a b : α} : (pure a : Except ε α) = .ok b ↔ a = b := by
  simp [pure, Except.pure]

/-- A step and what comes after it succeed together. -/
theorem bind_eq_ok {x : Except ε α} {f : α → Except ε β} {b : β} :
    (x >>= f) = .ok b ↔ ∃ a, x = .ok a ∧ f a = .ok b := by
  cases x <;> simp [bind, Except.bind]

/-- A fault is that of the step or that of what comes after it. -/
theorem bind_eq_error {x : Except ε α} {f : α → Except ε β} {e : ε} :
    (x >>= f) = .error e ↔ x = .error e ∨ ∃ a, x = .ok a ∧ f a = .error e := by
  cases x <;> simp [bind, Except.bind]

/-- What comes of a list that is gone through, member by member. -/
theorem forall₂_of_mapM {f : α → Except ε β} {l : List α} {m : List β} (h : l.mapM f = .ok m) :
    List.Forall₂ (fun b a => f a = .ok b) m l := by
  induction l generalizing m with
  | nil =>
      rw [List.mapM_nil, pure_eq_ok] at h
      exact h ▸ .nil
  | cons a l ih =>
      rw [List.mapM_cons, bind_eq_ok] at h
      obtain ⟨b, hb, h⟩ := h
      obtain ⟨bs, hbs, h⟩ := bind_eq_ok.mp h
      obtain rfl := pure_eq_ok.mp h
      exact .cons hb (ih hbs)

/-- A list is gone through with success only if each of its members is, and then what comes of
it is what comes of its members. -/
theorem mem_of_mapM {f : α → Except ε β} {l : List α} {m : List β} (h : l.mapM f = .ok m) :
    (∀ b, b ∈ m ↔ ∃ a ∈ l, f a = .ok b) ∧ ∀ a ∈ l, ∃ b, f a = .ok b := by
  have hall : List.Forall₂ (fun b a => f a = .ok b) m l := forall₂_of_mapM h
  clear h
  induction hall with
  | nil => simp
  | cons hb _ ih =>
      obtain ⟨hmem, hall⟩ := ih
      refine ⟨fun b' => ?_, List.forall_mem_cons.mpr ⟨⟨_, hb⟩, hall⟩⟩
      rw [List.mem_cons, hmem, List.exists_mem_cons_iff, hb, Except.ok.injEq, eq_comm]

/-- A list is gone through with success if each of its members is. -/
theorem exists_mapM {f : α → Except ε β} {l : List α} (h : ∀ a ∈ l, ∃ b, f a = .ok b) :
    ∃ m, l.mapM f = .ok m := by
  induction l with
  | nil => exact ⟨[], rfl⟩
  | cons a l ih =>
      obtain ⟨⟨b, hb⟩, hrest⟩ := List.forall_mem_cons.mp h
      obtain ⟨bs, hbs⟩ := ih hrest
      rw [List.mapM_cons]
      exact ⟨b :: bs, bind_eq_ok.mpr ⟨b, hb, bind_eq_ok.mpr ⟨bs, hbs, rfl⟩⟩⟩

/-! ### Outcomes that come to the same -/

lemma map_bind (x : Except ε α) (f : α → Except ε β) (g : β → γ) :
    (x >>= f).map g = x >>= fun a => (f a).map g := by
  cases x <;> rfl

/-- Steps that come to the same have one fault, or succeed with what comes to the same. -/
lemma alike_of_map {x : Except ε α} {y : Except ε α'} {g : α → γ} {g' : α' → γ}
    (h : x.map g = y.map g') :
    (∃ e, x = .error e ∧ y = .error e) ∨ ∃ a a', x = .ok a ∧ y = .ok a' ∧ g a = g' a' := by
  cases x <;> cases y
  · exact .inl ⟨_, rfl, congrArg Except.error (Except.error.inj h).symm⟩
  · cases h
  · cases h
  · exact .inr ⟨_, _, rfl, rfl, Except.ok.inj h⟩

/-- What comes after a step is the same if it makes no use of that in which the steps differ. -/
lemma bind_eq_bind {x : Except ε α} {y : Except ε α'} {g : α → γ} {g' : α' → γ}
    {f : α → Except ε β} {f' : α' → Except ε β}
    (h : x.map g = y.map g') (hf : ∀ a a', g a = g' a' → f a = f' a') :
    (x >>= f) = y >>= f' := by
  rcases alike_of_map h with ⟨e, rfl, rfl⟩ | ⟨a, a', rfl, rfl, hsame⟩
  · rfl
  · exact hf a a' hsame

/-- A list is gone through alike if its members are. -/
lemma map_mapM (f : α → Except ε β) (g : β → γ) (l : List α) :
    (l.mapM f).map (List.map g) = l.mapM fun a => (f a).map g := by
  induction l with
  | nil => rfl
  | cons a l ih =>
      rw [List.mapM_cons, List.mapM_cons, map_bind, ← ih]
      cases f a with
      | error e => rfl
      | ok b => cases l.mapM f <;> rfl

end EditorSchema.Outcome
