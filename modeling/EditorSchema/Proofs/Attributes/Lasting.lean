/-
What lasts in a history of events.

Something holds after a history if an event brought it about and no later one took it away.
Whether an event does so may depend on the events before it.  The law of the last event
decides the matter for a history from what holds before its last event, and so by induction
for all histories.

* `Lasting`: what was brought about and not taken away since;
* `lasting_append_singleton`: the law of the last event;
* `lasting_filter`: only the events that matter count;
* `Kept`, `lasting_iff_kept`: where what an event takes away does not depend on others.
-/
import Mathlib.Tactic

namespace EditorSchema

universe u

variable {α : Type u}

/-- An event of a history brings something about, and none of the later ones takes it away.
What an event does is told from the events before it. -/
def Lasting (brings takes : List α → α → Prop) (history : List α) : Prop :=
  ∃ before event after, history = before ++ event :: after ∧ brings before event ∧
    ∀ between later rest, after = between ++ later :: rest →
      ¬ takes (before ++ event :: between) later

variable {brings takes : List α → α → Prop}

@[simp] lemma not_lasting_nil : ¬ Lasting brings takes [] := by
  rintro ⟨before, event, after, h, -⟩
  simp at h

lemma Lasting.imp {brings' : List α → α → Prop} {history : List α}
    (h : ∀ before event, brings before event → brings' before event)
    (hlasting : Lasting brings takes history) : Lasting brings' takes history := by
  obtain ⟨before, event, after, hhistory, hbrings, htakes⟩ := hlasting
  exact ⟨before, event, after, hhistory, h before event hbrings, htakes⟩

/-- **The law of the last event**: it brings something about, or it does not take away what
holds before it. -/
theorem lasting_append_singleton {history : List α} {last : α} :
    Lasting brings takes (history ++ [last]) ↔
      brings history last ∨ Lasting brings takes history ∧ ¬ takes history last := by
  constructor
  · rintro ⟨before, event, after, h, hbrings, htakes⟩
    rcases List.eq_nil_or_concat' after with rfl | ⟨after, later, rfl⟩
    · obtain ⟨rfl, rfl⟩ := List.append_singleton_inj.mp h
      exact .inl hbrings
    · rw [← List.cons_append, ← List.append_assoc] at h
      obtain ⟨rfl, rfl⟩ := List.append_singleton_inj.mp h
      refine .inr ⟨⟨before, event, after, rfl, hbrings, fun between later' rest heq => ?_⟩, ?_⟩
      · exact htakes between later' (rest ++ [last]) (by rw [heq]; simp)
      · exact htakes after last [] rfl
  · rintro (hbrings | ⟨⟨before, event, after, rfl, hbrings, htakes⟩, hlast⟩)
    · exact ⟨history, last, [], rfl, hbrings, fun between later rest heq => by simp at heq⟩
    · refine ⟨before, event, after ++ [last], by simp, hbrings, fun between later rest heq => ?_⟩
      rcases List.eq_nil_or_concat' rest with rfl | ⟨rest, end', rfl⟩
      · obtain ⟨rfl, rfl⟩ := List.append_singleton_inj.mp heq
        exact hlast
      · rw [← List.cons_append, ← List.append_assoc] at heq
        exact htakes between later rest (List.append_singleton_inj.mp heq).1

/-- **Only the events that matter count**: where all others neither bring about nor take
away, and what those that matter do is told from those that matter. -/
theorem lasting_filter {matters : α → Bool} {brings' takes' : List α → α → Prop}
    {history : List α}
    (hidle : ∀ before e after, history = before ++ e :: after → matters e = false →
      ¬ brings before e ∧ ¬ takes before e)
    (hbrings : ∀ before e after, history = before ++ e :: after → matters e = true →
      (brings before e ↔ brings' (before.filter matters) e))
    (htakes : ∀ before e after, history = before ++ e :: after → matters e = true →
      (takes before e ↔ takes' (before.filter matters) e)) :
    Lasting brings takes history ↔ Lasting brings' takes' (history.filter matters) := by
  induction history using List.reverseRecOn with
  | nil => simp
  | append_singleton history last ih =>
      have hrec := ih
        (fun before e after heq => hidle before e (after ++ [last]) (by simp [heq]))
        (fun before e after heq => hbrings before e (after ++ [last]) (by simp [heq]))
        (fun before e after heq => htakes before e (after ++ [last]) (by simp [heq]))
      rw [lasting_append_singleton, List.filter_append, hrec]
      cases hm : matters last with
      | false =>
          obtain ⟨hb, ht⟩ := hidle history last [] rfl hm
          simp [hm, hb, ht]
      | true =>
          rw [hbrings history last [] rfl hm, htakes history last [] rfl hm,
            List.filter_singleton, hm, Bool.cond_true, lasting_append_singleton]

/-- An event of a history brings something about, and no later one takes anything away. -/
def Kept (brings : List α → α → Prop) (takes : α → Prop) (history : List α) : Prop :=
  ∃ before event after, history = before ++ event :: after ∧ brings before event ∧
    ∀ later ∈ after, ¬ takes later

/-- Where all events but the first take away by themselves, what lasts is what is kept. -/
theorem lasting_iff_kept {takes : α → Prop} {history : List α} :
    Lasting brings (fun before e => before ≠ [] ∧ takes e) history ↔
      Kept brings takes history := by
  refine exists_congr fun before => exists_congr fun event => exists_congr fun after =>
    and_congr_right fun _ => and_congr_right fun _ => ?_
  constructor
  · intro h later hlater
    obtain ⟨between, rest, heq⟩ := List.append_of_mem hlater
    exact fun ht => h between later rest heq ⟨by simp, ht⟩
  · intro h between later rest heq ht
    exact h later (by simp [heq]) ht.2

end EditorSchema
