/-
When an ancestry can be gone through, and what is said of it when it cannot.

The walk along memberships keeps no account of what it has visited, only of the path that it is
on.  Where it comes to an end, all that its memberships lead to has been gone through, and a
class that was gone through with all of its own memberships has no circle among them: a circle
through the class would run through one of these first.  So an ancestry that is gone through is
whole, however often its classes are met.  The other way round, what ends the walk early is a
spec that is missing, or a path that has come back to itself for the first time.

* `Table.Whole`: an ancestry in which nothing is missing and nothing leads back to itself;
* `Table.Returns`: a path that comes back to itself with its last ident;
* `Ancestry.whole_of_definitions`: an ancestry that is gone through is whole;
* `Ancestry.definitions_exact`: the walk and its faults.
-/
import Mathlib.Tactic
import EditorSchema.Proofs.Attributes.Ancestry
import EditorSchema.Proofs.Attributes.Faults

namespace EditorSchema

open Outcome
open Relation (ReflTransGen TransGen)

variable {t : Table} {ident referrer : String} {fresh path memberships : List String}
variable {s : Spec} {fault : SchemaFault}

namespace Table

/-! ### Ancestries -/

/-- **A whole ancestry**: all that memberships lead to from an ident is in the table, and none
of it leads back to itself. -/
structure Whole (t : Table) (ident : String) : Prop where
  present : ∀ other, ReflTransGen t.MemberOf ident other → t.contains other = true
  straight : ∀ other, ReflTransGen t.MemberOf ident other → ¬ TransGen t.MemberOf other other

/-- **A path that comes back to itself**: it begins with an ident, each of its idents is a member
of the next, and the last one, and no other, has occurred before. -/
structure Returns (t : Table) (start : String) (path : List String) : Prop where
  first : path.head? = some start
  chain : path.IsChain t.MemberOf
  nodup : path.dropLast.Nodup
  repeats : ∃ last, path.getLast? = some last ∧ last ∈ path.dropLast

lemma contains_of_get? (hs : t.get? ident = some s) : t.contains ident = true :=
  Dictionary.contains_iff.mpr ⟨s, hs⟩

/-- An ancestry is whole if those of the classes of its ident are. -/
lemma Whole.of_classes (hs : t.get? ident = some s) (h : ∀ group ∈ s.memberships, t.Whole group) :
    t.Whole ident := by
  have hclass {group : String} (hmember : t.MemberOf ident group) : t.Whole group := by
    obtain ⟨s', hs', hgroup⟩ := hmember
    obtain rfl := Option.some.inj (hs.symm.trans hs')
    exact h group hgroup
  constructor
  · intro other hway
    rcases hway.cases_head with rfl | ⟨group, hmember, hway⟩
    · exact contains_of_get? hs
    · exact (hclass hmember).present other hway
  · intro other hway hcircle
    rcases hway.cases_head with rfl | ⟨group, hmember, hway⟩
    · -- a circle through the ident runs through one of its classes first
      obtain ⟨group, hmember, hback⟩ := TransGen.head'_iff.mp hcircle
      exact (hclass hmember).straight _ hback hcircle
    · exact (hclass hmember).straight other hway hcircle

/-- Nothing is wrong with a whole ancestry. -/
lemma Whole.not_broken (h : t.Whole ident) : ¬ t.Broken ident fault := by
  intro hbroken
  cases hbroken with
  | missing hway hmember hnone =>
      obtain ⟨s, hs⟩ := Dictionary.contains_iff.mp (h.present _ (hway.tail hmember))
      cases hnone.symm.trans hs
  | @circle path repeated hfirst hchain hrepeated =>
      have hway : ReflTransGen t.MemberOf ident repeated := by
        obtain ⟨rest, rfl⟩ := List.head?_eq_some_iff.mp hfirst
        exact List.relationReflTransGen_of_exists_isChain_cons (rest ++ [repeated]) hchain (by simp)
      exact h.straight repeated hway (transGen_of_isChain hchain hrepeated)

end Table

namespace Ancestry

/-! ### The walk -/

/-- **What memberships lead to is whole** if it is gone through. -/
lemma whole_of_inherited {ds : List AttributeDef}
    (h : inherited t fresh path referrer memberships = .ok ds) :
    ∀ group ∈ memberships, t.Whole group := by
  induction fresh, path, referrer, memberships using inherited.induct t generalizing ds with
  | case1 => simp
  | case2 fresh path referrer ident rest hnone =>
      rw [inherited, hnone] at h
      cases h
  | case3 fresh path referrer ident rest s hs hfresh ihabove ihothers =>
      rw [inherited, hs] at h
      simp only [dif_pos hfresh] at h
      obtain ⟨above, habove, h⟩ := bind_eq_ok.mp h
      obtain ⟨others, hothers, -⟩ := bind_eq_ok.mp h
      exact List.forall_mem_cons.mpr ⟨.of_classes hs (ihabove habove), ihothers hothers⟩
  | case4 fresh path referrer ident rest s hs hstale =>
      rw [inherited, hs] at h
      simp only [dif_neg hstale] at h
      cases h

/-- The ancestry of a spec is whole if it is gone through. -/
lemma whole_of_definitions {ds : List AttributeDef} (hs : t.get? s.ident = some s)
    (h : definitions t s = .ok ds) : t.Whole s.ident := by
  obtain ⟨above, habove, -⟩ := bind_eq_ok.mp h
  exact .of_classes hs (whole_of_inherited habove)

/-- A path without repetitions goes on until it comes back to itself for the first time. -/
lemma nodup_of_inherited {walked : List String} (hpath : path.Nodup)
    (hoff : ∀ other ∈ fresh, other ∉ path)
    (h : inherited t fresh path referrer memberships = .error (.circularMembership walked)) :
    walked.dropLast.Nodup := by
  induction fresh, path, referrer, memberships using inherited.induct t with
  | case1 fresh path referrer =>
      rw [inherited] at h
      cases h
  | case2 fresh path referrer ident rest hnone =>
      rw [inherited, hnone] at h
      cases h
  | case3 fresh path referrer ident rest s hs hfresh ihabove ihothers =>
      rw [inherited, hs] at h
      simp only [dif_pos hfresh] at h
      rcases bind_eq_error.mp h with habove | ⟨above, -, h⟩
      · refine ihabove ?_ (fun other hother hon => ?_) habove
        · exact List.nodup_append.mpr ⟨hpath, List.nodup_singleton _, fun a ha b hb heq =>
            hoff ident hfresh (List.mem_singleton.mp hb ▸ heq ▸ ha)⟩
        · obtain ⟨hother, hne⟩ := mem_without.mp hother
          rcases List.mem_append.mp hon with hon | hon
          · exact hoff other hother hon
          · exact hne (List.mem_singleton.mp hon)
      · rcases bind_eq_error.mp h with hothers | ⟨others, -, h⟩
        · exact ihothers hpath hoff hothers
        · cases h
  | case4 fresh path referrer ident rest s hs hstale =>
      rw [inherited, hs] at h
      simp only [dif_neg hstale] at h
      cases h
      rwa [List.dropLast_concat]

/-- **A circle that is found** is a path that comes back to itself. -/
lemma returns_of_definitions (hs : t.get? s.ident = some s)
    (h : definitions t s = .error (.circularMembership path)) : t.Returns s.ident path := by
  have hnodup : path.dropLast.Nodup := by
    rcases bind_eq_error.mp h with h | ⟨above, -, h⟩
    · refine nodup_of_inherited (List.nodup_singleton _) (fun other hother hon => ?_) h
      exact (mem_without.mp hother).2 (List.mem_singleton.mp hon)
    · cases h
  cases broken_of_definitions hs h with
  | @circle way repeated hfirst hchain hrepeated =>
      refine ⟨?_, hchain, hnodup, repeated, List.getLast?_concat, ?_⟩
      · rw [List.head?_append, hfirst, Option.some_or]
      · rwa [List.dropLast_concat]

/-- A record whose spec is there fails as the walk along the ancestry of its spec does, or at its
first attribute without a base. -/
lemma fails_iff_of_source {r : Record} (hs : t.get? ident = some s)
    (hsource : r.source = some ident) : Attributes.Fails t r fault ↔
      definitions t s = .error fault ∨ ∃ ds x, definitions t s = .ok ds ∧
        Attributes.FirstBaseless ds x ∧ fault = .changeWithoutBase x r.name := by
  constructor
  · intro h
    cases h with
    | lost hsource' hnone =>
        obtain rfl := Option.some.inj (hsource.symm.trans hsource')
        cases hnone.symm.trans hs
    | ancestry hsource' hs' hfault =>
        obtain rfl := Option.some.inj (hsource.symm.trans hsource')
        obtain rfl := Option.some.inj (hs.symm.trans hs')
        exact .inl hfault
    | baseless hds hfirst =>
        obtain ⟨ident', s', hsource', hs', hds⟩ := hds
        obtain rfl := Option.some.inj (hsource.symm.trans hsource')
        obtain rfl := Option.some.inj (hs.symm.trans hs')
        exact .inr ⟨_, _, hds, hfirst, rfl⟩
  · rintro (hfault | ⟨ds, x, hds, hfirst, rfl⟩)
    · exact .ancestry hsource hs hfault
    · exact .baseless ⟨ident, s, hsource, hs, hds⟩ hfirst

/-- **The walk along an ancestry.**  The definitions that a spec meets are collected just when its
ancestry is whole.  Otherwise the walk ends at a spec that it has come to, one of whose classes
is missing, or with a path from the spec that has come back to itself.  A record of the spec
fails with this fault, and where there is none only at an attribute without a base. -/
theorem definitions_exact (hs : t.get? ident = some s) :
    ((∃ ds, definitions t s = .ok ds) ↔ t.Whole ident) ∧
    (∀ fault, definitions t s = .error fault →
      (∃ referrer group, fault = .notLoaded group referrer ∧
        ReflTransGen t.MemberOf ident referrer ∧ t.MemberOf referrer group ∧
        t.contains group = false) ∨
      ∃ path, fault = .circularMembership path ∧ t.Returns ident path) ∧
    ∀ (r : Record) (dictionary : AttributeDictionary) (fault : SchemaFault),
      r.source = some ident → (Attributes.resolveOne t dictionary r = .error fault ↔
        definitions t s = .error fault ∨ ∃ ds x, definitions t s = .ok ds ∧
          Attributes.FirstBaseless ds x ∧ fault = .changeWithoutBase x r.name) := by
  obtain rfl : s.ident = ident := t.keyed hs
  refine ⟨⟨fun ⟨ds, hds⟩ => whole_of_definitions hs hds, fun hwhole => ?_⟩, fun fault h => ?_,
    fun r dictionary fault hsource => Attributes.fails_iff.trans (fails_iff_of_source hs hsource)⟩
  · cases h : definitions t s with
    | ok ds => exact ⟨ds, rfl⟩
    | error fault => exact absurd (broken_of_definitions hs h) hwhole.not_broken
  · cases broken_of_definitions hs h with
    | @missing group referrer hway hmember hnone =>
        exact .inl ⟨referrer, group, rfl, hway, hmember, Dictionary.contains_eq_false.mpr hnone⟩
    | circle => exact .inr ⟨_, rfl, returns_of_definitions hs h⟩

/-- An element of two classes of which each is a member of a third, and an element whose class
has a class that is its own member by way of another one, beside one that is missing. -/
def branchedTable : Table := .ofList [
  .ofElement { ident := "div", memberships := ["att.left", "att.right"] },
  .ofClass { ident := "att.left", kind := .attributes, memberships := ["att.shared"] },
  .ofClass { ident := "att.right", kind := .attributes, memberships := ["att.shared"] },
  .ofClass {
    ident := "att.shared"
    kind := .attributes
    attributes := [.own { ident := "rend" }] },
  .ofElement { ident := "p", memberships := ["att.shared", "att.a"] },
  .ofClass { ident := "att.a", kind := .attributes, memberships := ["att.b", "att.none"] },
  .ofClass { ident := "att.b", kind := .attributes, memberships := ["att.shared", "att.a"] },
  .ofElement { ident := "ab", memberships := ["att.c"] },
  .ofClass { ident := "att.c", kind := .attributes, memberships := ["att.none", "att.a"] }]

/-- Classes that meet again further up are no circle.  A circle is told with the way to it, and a
class that is missing with its member. -/
theorem definitions_exact_branched :
    (branchedTable.contains "div" = true ∧ branchedTable.Whole "div") ∧
    (branchedTable.contains "p" = true ∧
      branchedTable.Returns "p" ["p", "att.a", "att.b", "att.a"] ∧
      Attributes.resolveOne branchedTable .empty
          { name := "markp", form := .mark, origin := .inters, source := some "p" } =
        .error (.circularMembership ["p", "att.a", "att.b", "att.a"])) ∧
    branchedTable.contains "ab" = true ∧
    ReflTransGen branchedTable.MemberOf "ab" "att.c" ∧
    branchedTable.MemberOf "att.c" "att.none" ∧ branchedTable.contains "att.none" = false := by
  have hdiv : branchedTable.get? "div" = some (.ofElement
      { ident := "div", memberships := ["att.left", "att.right"] }) := by decide
  have hp : branchedTable.get? "p" = some (.ofElement
      { ident := "p", memberships := ["att.shared", "att.a"] }) := by decide
  have hab : branchedTable.get? "ab" = some (.ofElement
      { ident := "ab", memberships := ["att.c"] }) := by decide
  have hds : definitions branchedTable (.ofElement
      { ident := "div", memberships := ["att.left", "att.right"] }) =
        .ok [{ ident := "rend" }, { ident := "rend" }] := by cbv
  have hcircle : definitions branchedTable (.ofElement
      { ident := "p", memberships := ["att.shared", "att.a"] }) =
        .error (.circularMembership ["p", "att.a", "att.b", "att.a"]) := by cbv
  have hmissing : definitions branchedTable (.ofElement
      { ident := "ab", memberships := ["att.c"] }) = .error (.notLoaded "att.none" "att.c") := by
    cbv
  refine ⟨⟨by decide, (definitions_exact hdiv).1.mp ⟨_, hds⟩⟩, ⟨by decide, ?_, ?_⟩, by decide, ?_⟩
  · rcases (definitions_exact hp).2.1 _ hcircle with ⟨_, _, h, -⟩ | ⟨path, h, hreturns⟩
    · cases h
    · cases h
      exact hreturns
  · exact ((definitions_exact hp).2.2 _ _ _ rfl).mpr (.inl hcircle)
  · rcases (definitions_exact hab).2.1 _ hmissing with ⟨_, _, h, hreached⟩ | ⟨_, h, -⟩
    · cases h
      exact hreached
    · cases h

end Ancestry

end EditorSchema
