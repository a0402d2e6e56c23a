/-
The search for a way from one ident to another along memberships.

The search opens every ident that it comes to, once.  An ident that was opened has its classes
among those that are still to be looked at or among those that were opened, and none of the
opened ones is the one that is sought.  When nothing is left to look at, the opened idents are
therefore closed under memberships.

* `Memberships.exists_of_search`, `Memberships.not_reachable_of_search`: what the search finds,
  and what it does not;
* `Memberships.closesCycle_iff`: a membership closes a circle just when its class leads back to
  its member;
* `Memberships.ofPairs`, `Memberships.offerAll`: memberships that are added one after the other,
  all of them or those that close no circle;
* `Memberships.closesCycle_exact`: what is known of both.
-/
import Mathlib.Tactic
import EditorSchema.Membership
import EditorSchema.Proofs.Acyclic

namespace EditorSchema.Memberships

open Relation (ReflTransGen TransGen)

variable {m : Memberships} {member group target : String} {fresh pending : List String}
variable {pairs : List (String × String)}

/-- One ident is known to be a member of the other. -/
def Edge (m : Memberships) (member group : String) : Prop := (member, group) ∈ m.pairs

lemma mem_classesOf : group ∈ m.classesOf member ↔ m.Edge member group := by
  rw [classesOf, List.mem_filterMap]
  constructor
  · rintro ⟨⟨a, b⟩, hpair, hif⟩
    have ⟨ha, hb⟩ : a = member ∧ b = group := by simpa using hif
    rwa [ha, hb] at hpair
  · intro hpair
    exact ⟨(member, group), hpair, if_pos rfl⟩

lemma mem_members_of_edge (h : m.Edge member group) : member ∈ m.members :=
  List.mem_map.mpr ⟨(member, group), h, rfl⟩

/-- A membership more is an edge more. -/
lemma edge_add : (m.add member group).Edge = WithEdge m.Edge member group := by
  funext a b
  rw [Edge, add, List.mem_append, List.mem_singleton, Prod.mk.injEq]
  rfl

/-- What the search finds is reached from one of the pending idents. -/
lemma exists_of_search (h : m.search target fresh pending = true) :
    ∃ ident ∈ pending, ReflTransGen m.Edge ident target := by
  fun_induction search m target fresh pending with
  | case1 => cases h
  | case2 fresh pending => exact ⟨target, List.mem_cons_self, .refl⟩
  | case3 fresh ident pending _ _ ih =>
      obtain ⟨other, hother, hway⟩ := ih h
      rcases List.mem_append.mp hother with hclass | hpending
      · exact ⟨ident, List.mem_cons_self, hway.head (mem_classesOf.mp hclass)⟩
      · exact ⟨other, List.mem_cons_of_mem _ hpending, hway⟩
  | case4 fresh ident pending _ _ ih =>
      obtain ⟨other, hother, hway⟩ := ih h
      exact ⟨other, List.mem_cons_of_mem _ hother, hway⟩

/-- The classes of every ident that was opened are pending, or were opened and are not the
sought one. -/
def Explored (m : Memberships) (target : String) (fresh pending : List String) : Prop :=
  ∀ a b, m.Edge a b → a ∉ fresh → b ∈ pending ∨ b ∉ fresh ∧ b ≠ target

/-- What the search does not find is reached neither from a pending ident nor from one that was
opened before. -/
lemma not_reachable_of_search (hexplored : m.Explored target fresh pending)
    (h : m.search target fresh pending = false) :
    ∀ ident, ident ∈ pending ∨ ident ∉ fresh ∧ ident ≠ target →
      ¬ ReflTransGen m.Edge ident target := by
  fun_induction search m target fresh pending with
  | case1 fresh =>
      intro ident hident hway
      -- the opened idents are closed under memberships
      have hclosed : ident ∉ fresh ∧ ident ≠ target := hident.resolve_left (by simp)
      have hend : target ∉ fresh ∧ target ≠ target := by
        induction hway using ReflTransGen.head_induction_on with
        | refl => exact hclosed
        | head hedge _ ih =>
            have hnext := (hexplored _ _ hedge hclosed.1).resolve_left (by simp)
            exact ih (.inr hnext) hnext
      exact hend.2 rfl
  | case2 fresh pending => cases h
  | case3 fresh opened pending hne hfresh ih =>
      have hopened : opened ∉ without opened fresh := fun hin => (mem_without.mp hin).2 rfl
      have hstill {a : String} (ha : a ∉ fresh) : a ∉ without opened fresh :=
        fun hin => ha (mem_without.mp hin).1
      have hexplored' : m.Explored target (without opened fresh)
          (m.classesOf opened ++ pending) := by
        intro a b hedge ha
        by_cases heq : a = opened
        · rw [heq] at hedge
          exact .inl (List.mem_append_left _ (mem_classesOf.mpr hedge))
        · have ha : a ∉ fresh := fun hin => ha (mem_without.mpr ⟨hin, heq⟩)
          rcases hexplored a b hedge ha with hb | ⟨hb, hbt⟩
          · rcases List.mem_cons.mp hb with rfl | hb
            · exact .inr ⟨hopened, hne⟩
            · exact .inl (List.mem_append_right _ hb)
          · exact .inr ⟨hstill hb, hbt⟩
      intro ident hident
      refine ih hexplored' h ident ?_
      rcases hident with hident | ⟨hident, hidentt⟩
      · rcases List.mem_cons.mp hident with rfl | hident
        · exact .inr ⟨hopened, hne⟩
        · exact .inl (List.mem_append_right _ hident)
      · exact .inr ⟨hstill hident, hidentt⟩
  | case4 fresh passed pending hne hfresh ih =>
      have hpassed {a : String} (ha : a ∈ passed :: pending ∨ a ∉ fresh ∧ a ≠ target) :
          a ∈ pending ∨ a ∉ fresh ∧ a ≠ target := by
        rcases ha with ha | ha
        · rcases List.mem_cons.mp ha with rfl | ha
          · exact .inr ⟨hfresh, hne⟩
          · exact .inl ha
        · exact .inr ha
      intro ident hident
      exact ih (fun a b hedge ha => hpassed (hexplored a b hedge ha)) h ident (hpassed hident)

/-- **A membership closes a circle just when its class leads back to its member.** -/
theorem closesCycle_iff :
    m.closesCycle member group = true ↔ ReflTransGen m.Edge group member := by
  rw [closesCycle, reaches]
  constructor
  · intro h
    obtain ⟨ident, hident, hway⟩ := exists_of_search h
    rwa [List.mem_singleton.mp hident] at hway
  · intro hway
    -- at first only idents without classes count as opened
    have hstart : m.Explored member m.members [group] := fun a b hedge ha =>
      absurd (mem_members_of_edge hedge) ha
    by_contra hno
    have hfalse : m.search member m.members [group] = false := by simpa using hno
    exact not_reachable_of_search hstart hfalse group (.inl (List.mem_singleton_self _)) hway

/-- A membership that closes no circle keeps memberships without circles. -/
lemma acyclic_add (h : Acyclic m.Edge) (hno : m.closesCycle member group = false) :
    Acyclic (m.add member group).Edge := by
  rw [edge_add]
  refine h.withEdge fun hway => ?_
  rw [closesCycle_iff.mpr hway] at hno
  cases hno

/-! ### One membership after the other -/

/-- The memberships of a list, added one after the other. -/
def ofPairs (pairs : List (String × String)) : Memberships :=
  pairs.foldl (fun m p => m.add p.1 p.2) empty

/-- The memberships after one more was offered: it is added unless it closes a circle. -/
def offer (m : Memberships) (member group : String) : Memberships :=
  if m.closesCycle member group then m else m.add member group

/-- The memberships that are taken of a list, offered one after the other. -/
def offerAll (pairs : List (String × String)) : Memberships :=
  pairs.foldl (fun m p => m.offer p.1 p.2) empty

lemma ofPairs_append_singleton :
    ofPairs (pairs ++ [(member, group)]) = (ofPairs pairs).add member group :=
  List.foldl_concat ..

lemma offerAll_append_singleton :
    offerAll (pairs ++ [(member, group)]) = (offerAll pairs).offer member group :=
  List.foldl_concat ..

/-- All memberships of a list are known when they have been added. -/
lemma edge_ofPairs : (ofPairs pairs).Edge member group ↔ (member, group) ∈ pairs := by
  induction pairs using List.reverseRecOn with
  | nil => exact Iff.rfl
  | append_singleton pairs p ih =>
      rw [ofPairs_append_singleton, edge_add, WithEdge, ih, List.mem_append, List.mem_singleton,
        Prod.ext_iff]

/-- A membership that is offered makes no circle. -/
lemma acyclic_offer (h : Acyclic m.Edge) : Acyclic (m.offer member group).Edge := by
  rw [offer]
  split
  · exact h
  · next hno => exact acyclic_add h (by simpa using hno)

/-- **Memberships that are offered one after the other** make no circle. -/
lemma acyclic_offerAll (pairs : List (String × String)) : Acyclic (offerAll pairs).Edge := by
  induction pairs using List.reverseRecOn with
  | nil => exact acyclic_of_rank (fun _ => 0) fun _ _ hedge => nomatch hedge
  | append_singleton pairs p ih =>
      rw [offerAll_append_singleton]
      exact acyclic_offer ih

/-- **None of them is refused** just when there is no circle among them. -/
lemma offerAll_eq_ofPairs_iff : offerAll pairs = ofPairs pairs ↔ Acyclic (ofPairs pairs).Edge := by
  constructor
  · intro heq
    exact heq ▸ acyclic_offerAll pairs
  · intro hacyclic
    induction pairs using List.reverseRecOn with
    | nil => rfl
    | append_singleton pairs p ih =>
        rw [ofPairs_append_singleton, edge_add] at hacyclic
        -- with one membership less there is no circle either, so the ones before were taken
        have hbefore : offerAll pairs = ofPairs pairs := ih (hacyclic.mono fun _ _ => .inl)
        have hno : ¬ (ofPairs pairs).closesCycle p.1 p.2 = true := by
          intro hclose
          have hback : ReflTransGen (ofPairs pairs).Edge p.2 p.1 := closesCycle_iff.mp hclose
          exact not_acyclic_of_edge (.inr ⟨rfl, rfl⟩) (reflTransGen_withEdge.mpr hback) hacyclic
        rw [offerAll_append_singleton, ofPairs_append_singleton, hbefore, offer, if_neg hno]

/-- **A membership is told to close a circle just when it does**, however the memberships before
it came about: its class is its member or leads back to it, so that with the membership added
the circle runs through it.  If memberships are added only where none is told, there never is a
circle, and each is added unless there is a circle among them all. -/
theorem closesCycle_exact (pairs : List (String × String)) (member group : String) :
    ((ofPairs pairs).closesCycle member group = true ↔
      member = group ∨ TransGen (fun a b => (a, b) ∈ pairs) group member) ∧
    ((ofPairs pairs).closesCycle member group = true ↔
      ReflTransGen (ofPairs (pairs ++ [(member, group)])).Edge group member) ∧
    ((ofPairs pairs).closesCycle member group = true →
      TransGen (ofPairs (pairs ++ [(member, group)])).Edge member member) ∧
    Acyclic (offerAll pairs).Edge ∧
    (offerAll pairs = ofPairs pairs ↔ Acyclic (ofPairs pairs).Edge) := by
  have hedges : (ofPairs pairs).Edge = fun a b => (a, b) ∈ pairs := by
    funext a b
    exact propext edge_ofPairs
  have hadded : (ofPairs (pairs ++ [(member, group)])).Edge =
      WithEdge (ofPairs pairs).Edge member group := by
    rw [ofPairs_append_singleton, edge_add]
  have hthrough : (ofPairs pairs).closesCycle member group = true ↔
      ReflTransGen (ofPairs (pairs ++ [(member, group)])).Edge group member := by
    rw [hadded, reflTransGen_withEdge, closesCycle_iff]
  refine ⟨?_, hthrough, fun hclose => ?_, acyclic_offerAll pairs, offerAll_eq_ofPairs_iff⟩
  · rw [closesCycle_iff, Relation.reflTransGen_iff_eq_or_transGen, hedges]
  · refine .head' ?_ (hthrough.mp hclose)
    rw [hadded]
    exact .inr ⟨rfl, rfl⟩

/-- Memberships with a circle, with a class that is its own member, and with one told twice. -/
def entangled : List (String × String) :=
  [("p", "att.a"), ("att.a", "att.b"), ("att.b", "att.a"), ("att.c", "att.c"), ("p", "att.a")]

/-- A membership closes a circle just where there is a way back, whatever circles there are
besides.  Memberships that are offered one after the other keep out those that close one. -/
theorem closesCycle_exact_entangled :
    (ofPairs entangled).closesCycle "att.b" "p" = true ∧
    TransGen (ofPairs (entangled ++ [("att.b", "p")])).Edge "att.b" "att.b" ∧
    (ofPairs entangled).closesCycle "p" "att.c" = false ∧
    ¬ ReflTransGen (ofPairs (entangled ++ [("p", "att.c")])).Edge "att.c" "p" ∧
    offerAll entangled ≠ ofPairs entangled := by
  have hclose : (ofPairs entangled).closesCycle "att.b" "p" = true := by cbv
  have hno : (ofPairs entangled).closesCycle "p" "att.c" = false := by cbv
  have hrefused : offerAll entangled = ⟨[("p", "att.a"), ("att.a", "att.b"), ("p", "att.a")]⟩ := by
    cbv
  refine ⟨hclose, (closesCycle_exact entangled "att.b" "p").2.2.1 hclose, hno, fun hway => ?_, ?_⟩
  · rw [(closesCycle_exact entangled "p" "att.c").2.1.mpr hway] at hno
    cases hno
  · rw [hrefused]
    decide

end EditorSchema.Memberships
