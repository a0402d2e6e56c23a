/-
Relations between idents that lead from no ident back to itself.

Memberships and references are such relations.  They are built edge by edge, and an edge
closes a circle just when its end leads back to its beginning.

* `Acyclic`: no ident leads back to itself;
* `transGen_withEdge`: a way with one more edge to go is an old way, or takes that edge;
* `reflTransGen_withEdge`: whether the end of an edge leads back does not depend on the edge;
* `Acyclic.withEdge`: an edge whose end does not lead back to its beginning closes no circle;
* `transGen_of_isChain`: a chain that comes back to one of its idents is a circle.
-/
import Mathlib.Tactic

namespace EditorSchema

open Relation (ReflTransGen TransGen)

variable {r s : String → String → Prop} {a b x y : String}

/-- No ident leads back to itself. -/
def Acyclic (r : String → String → Prop) : Prop := ∀ ident, ¬ TransGen r ident ident

/-- Fewer edges make no new circles. -/
lemma Acyclic.mono (h : Acyclic s) (hle : ∀ a b, r a b → s a b) : Acyclic r :=
  fun ident hcycle => h ident (TransGen.mono hle ident ident hcycle)

/-- Where every edge leads down from rank to rank there is no circle. -/
lemma acyclic_of_rank (rank : String → ℕ) (h : ∀ a b, r a b → rank b < rank a) : Acyclic r := by
  intro ident hcycle
  have hdown : ∀ b, TransGen r ident b → rank b < rank ident := by
    intro b hway
    induction hway with
    | single hedge => exact h _ _ hedge
    | tail _ hedge ih => exact (h _ _ hedge).trans ih
  exact lt_irrefl _ (hdown ident hcycle)

/-- An edge whose end leads back to its beginning closes a circle. -/
lemma not_acyclic_of_edge (hedge : r a b) (hback : ReflTransGen r b a) : ¬ Acyclic r :=
  fun h => h a (TransGen.head' hedge hback)

/-- A relation with one more edge. -/
def WithEdge (r : String → String → Prop) (a b : String) : String → String → Prop :=
  fun x y => r x y ∨ x = a ∧ y = b

/-- A way with one more edge to go is an old way, or it comes to the beginning of the edge and
goes on from its end. -/
theorem transGen_withEdge (h : TransGen (WithEdge r a b) x y) :
    TransGen r x y ∨ ReflTransGen r x a ∧ ReflTransGen r b y := by
  induction h with
  | single hedge =>
      rcases hedge with hold | ⟨rfl, rfl⟩
      · exact .inl (.single hold)
      · exact .inr ⟨.refl, .refl⟩
  | tail _ hedge ih =>
      rcases ih with hway | ⟨hto, hfrom⟩
      · rcases hedge with hold | ⟨rfl, rfl⟩
        · exact .inl (hway.tail hold)
        · exact .inr ⟨hway.to_reflTransGen, .refl⟩
      · rcases hedge with hold | ⟨-, rfl⟩
        · exact .inr ⟨hto, hfrom.tail hold⟩
        · exact .inr ⟨hto, .refl⟩

/-- Whether the end of an edge leads back to its beginning does not depend on the edge. -/
lemma reflTransGen_withEdge : ReflTransGen (WithEdge r a b) b a ↔ ReflTransGen r b a := by
  constructor
  · intro hway
    rcases Relation.reflTransGen_iff_eq_or_transGen.mp hway with rfl | hway
    · exact .refl
    · rcases transGen_withEdge hway with hold | ⟨hold, -⟩
      · exact hold.to_reflTransGen
      · exact hold
  · exact ReflTransGen.mono (fun _ _ => Or.inl) b a

/-- **An edge whose end does not lead back to its beginning closes no circle.** -/
theorem Acyclic.withEdge (h : Acyclic r) (hno : ¬ ReflTransGen r b a) :
    Acyclic (WithEdge r a b) := by
  intro ident hcycle
  rcases transGen_withEdge hcycle with hold | ⟨hto, hfrom⟩
  · exact h ident hold
  · exact hno (hfrom.trans hto)

/-- A chain that comes back to one of its idents is a circle. -/
theorem transGen_of_isChain {chain : List String} (h : List.IsChain r (chain ++ [a]))
    (ha : a ∈ chain) : TransGen r a a := by
  have hpairwise : (chain ++ [a]).Pairwise (TransGen r) :=
    (h.imp fun _ _ hedge => TransGen.single hedge).pairwise
  have hacross := (List.pairwise_append.mp hpairwise).2.2
  exact hacross a ha a (List.mem_singleton_self a)

end EditorSchema
