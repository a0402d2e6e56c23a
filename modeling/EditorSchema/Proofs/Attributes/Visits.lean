/-
The classes that the definitions of a spec come from, in the order in which they are visited.

A class is visited once for each way along memberships that leads to it, and each time its
definitions are met once more.  A walk may also pass over a class that it has visited: where
memberships have no circle, a class is never on the way to itself, so what is passed over was
visited with all that it leads to, and what is left are the first visits.

* `Ancestry.lineage`: the specs that a spec has its definitions from, visit by visit;
* `Ancestry.firstVisits`: the walk that visits each of them once;
* `Ancestry.firstVisits_eq`, `Ancestry.definitionsOnce_eq`: without circles, each is visited by
  it where the other walk visits it first.
-/
import Mathlib.Tactic
import EditorSchema.Proofs.Attributes.Ancestry
import EditorSchema.Proofs.FirstOccurrences

namespace EditorSchema

open Outcome
open Relation (ReflTransGen TransGen)

namespace Ancestry

variable {t : Table} {s : Spec} {start referrer : String}
variable {fresh path memberships : List String} {vs before seen : List Spec}

/-! ### Visits -/

/-- The classes that memberships lead to, visit by visit: a class comes after those that its own
memberships lead to. -/
def visits (t : Table) (fresh path : List String) (referrer : String) :
    List String → Except SchemaFault (List Spec)
  | [] => .ok []
  | ident :: rest =>
    match t.get? ident with
    | none => .error (.notLoaded ident referrer)
    | some s =>
      if _h : ident ∈ fresh then do
        let above ← visits t (without ident fresh) (path ++ [ident]) ident s.memberships
        let others ← visits t fresh path referrer rest
        return above ++ [s] ++ others
      else .error (.circularMembership (path ++ [ident]))
termination_by memberships => (fresh.length, memberships.length)
decreasing_by
  · exact Prod.Lex.left _ _ (length_without_lt _h)
  · exact Prod.Lex.right _ (Nat.lt_succ_self _)

/-- The specs that a spec has its definitions from, visit by visit: its classes, then itself. -/
def lineage (t : Table) (s : Spec) : Except SchemaFault (List Spec) := do
  let above ← visits t (without s.ident t.idents) [s.ident] s.ident s.memberships
  return above ++ [s]

/-- The definitions that memberships lead to are those of the classes that are visited. -/
lemma inherited_eq : inherited t fresh path referrer memberships =
    (·.flatMap Spec.ownDefinitions) <$> visits t fresh path referrer memberships := by
  fun_induction visits t fresh path referrer memberships with
  | case1 fresh path referrer =>
      rw [inherited]
      rfl
  | case2 fresh path referrer ident rest hnone =>
      rw [inherited]
      simp only [hnone]
      rfl
  | case3 fresh path referrer ident rest s hs hfresh ihabove ihothers =>
      rw [inherited]
      simp only [hs, dif_pos hfresh, ihabove, ihothers]
      cases visits t (without ident fresh) (path ++ [ident]) ident s.memberships with
      | error fault => rfl
      | ok above =>
          cases visits t fresh path referrer rest with
          | error fault => rfl
          | ok others => simp [bind, Except.bind, Functor.map, Except.map, pure, Except.pure]
  | case4 fresh path referrer ident rest s hs hfresh =>
      rw [inherited]
      simp only [hs, dif_neg hfresh]
      rfl

/-- **The definitions that a spec meets** are those of its lineage. -/
theorem definitions_eq : definitions t s =
    (·.flatMap Spec.ownDefinitions) <$> lineage t s := by
  rw [definitions, lineage, inherited_eq]
  cases visits t (without s.ident t.idents) [s.ident] s.ident s.memberships with
  | error fault => rfl
  | ok above => simp [bind, Except.bind, Functor.map, Except.map, pure, Except.pure]

/-! ### Each class once -/

/-- The classes that memberships lead to, where those that were seen are passed over, after
those that were seen. -/
def firstVisits (t : Table) (fresh path : List String) (seen : List Spec) (referrer : String) :
    List String → Except SchemaFault (List Spec)
  | [] => .ok seen
  | ident :: rest =>
    match t.get? ident with
    | none => .error (.notLoaded ident referrer)
    | some s =>
      if s ∈ seen then firstVisits t fresh path seen referrer rest
      else if _h : ident ∈ fresh then do
        let seen ← firstVisits t (without ident fresh) (path ++ [ident]) seen ident s.memberships
        firstVisits t fresh path (seen ++ [s]) referrer rest
      else .error (.circularMembership (path ++ [ident]))
termination_by memberships => (fresh.length, memberships.length)
decreasing_by
  · exact Prod.Lex.right _ (Nat.lt_succ_self _)
  · exact Prod.Lex.left _ _ (length_without_lt _h)
  · exact Prod.Lex.right _ (Nat.lt_succ_self _)

/-- The definitions that a spec meets, where each of its classes is visited once. -/
def definitionsOnce (t : Table) (s : Spec) : Except SchemaFault (List AttributeDef) := do
  let classes ← firstVisits t (without s.ident t.idents) [s.ident] [] s.ident s.memberships
  return classes.flatMap Spec.ownDefinitions ++ s.ownDefinitions

/-- With each of some specs, its classes are among them. -/
def Closed (t : Table) (seen : List Spec) : Prop :=
  ∀ s ∈ seen, ∀ group ∈ s.memberships, ∃ c ∈ seen, t.get? group = some c

lemma Closed.append {others : List Spec} (h : Closed t seen) (h' : Closed t others) :
    Closed t (seen ++ others) := by
  intro s hs group hgroup
  rcases List.mem_append.mp hs with hs | hs
  · obtain ⟨c, hc, hget⟩ := h s hs group hgroup
    exact ⟨c, List.mem_append_left _ hc, hget⟩
  · obtain ⟨c, hc, hget⟩ := h' s hs group hgroup
    exact ⟨c, List.mem_append_right _ hc, hget⟩

/-- A spec may come after its classes. -/
lemma Closed.append_singleton (h : Closed t seen)
    (hs : ∀ group ∈ s.memberships, ∃ c ∈ seen, t.get? group = some c) :
    Closed t (seen ++ [s]) := by
  intro v hv group hgroup
  have hin : ∃ c ∈ seen, t.get? group = some c := by
    rcases List.mem_append.mp hv with hv | hv
    · exact h v hv group hgroup
    · exact hs group (List.mem_singleton.mp hv ▸ hgroup)
  obtain ⟨c, hc, hget⟩ := hin
  exact ⟨c, List.mem_append_left _ hc, hget⟩

/-- What is visited is closed, and the classes that are named are visited. -/
lemma closed_of_visits (h : visits t fresh path referrer memberships = .ok vs) :
    (∀ group ∈ memberships, ∃ c ∈ vs, t.get? group = some c) ∧ Closed t vs := by
  fun_induction visits t fresh path referrer memberships generalizing vs with
  | case1 =>
      cases h
      exact ⟨by simp, by simp [Closed]⟩
  | case2 => cases h
  | case3 fresh path referrer ident rest s hs hfresh ihabove ihothers =>
      obtain ⟨above, habove, h⟩ := bind_eq_ok.mp h
      obtain ⟨others, hothers, h⟩ := bind_eq_ok.mp h
      obtain rfl := pure_eq_ok.mp h
      obtain ⟨hnamed, hclosed⟩ := ihabove habove
      obtain ⟨hnamed', hclosed'⟩ := ihothers hothers
      refine ⟨List.forall_mem_cons.mpr ⟨⟨s, by simp, hs⟩, fun group hgroup => ?_⟩,
        (hclosed.append_singleton hnamed).append hclosed'⟩
      obtain ⟨c, hc, hget⟩ := hnamed' group hgroup
      exact ⟨c, List.mem_append_right _ hc, hget⟩
  | case4 => cases h

/-- A class may come after what is visited for its memberships. -/
lemma Closed.append_visits (hclosed : Closed t before)
    (h : visits t fresh path referrer s.memberships = .ok vs) : Closed t (before ++ vs ++ [s]) := by
  obtain ⟨hnamed, hclosed'⟩ := closed_of_visits h
  refine (hclosed.append hclosed').append_singleton fun group hgroup => ?_
  obtain ⟨c, hc, hget⟩ := hnamed group hgroup
  exact ⟨c, List.mem_append_right _ hc, hget⟩

/-- What is visited is reached along memberships. -/
lemma reached_of_visits (hmembers : ∀ group ∈ memberships, t.MemberOf referrer group)
    (h : visits t fresh path referrer memberships = .ok vs) :
    ∀ v ∈ vs, TransGen t.MemberOf referrer v.ident := by
  fun_induction visits t fresh path referrer memberships generalizing vs with
  | case1 =>
      cases h
      simp
  | case2 => cases h
  | case3 fresh path referrer ident rest s hs hfresh ihabove ihothers =>
      obtain ⟨above, habove, h⟩ := bind_eq_ok.mp h
      obtain ⟨others, hothers, h⟩ := bind_eq_ok.mp h
      obtain rfl := pure_eq_ok.mp h
      obtain ⟨hmember, hmembers⟩ := List.forall_mem_cons.mp hmembers
      intro v hv
      rcases List.mem_append.mp hv with hv | hv
      · rcases List.mem_append.mp hv with hv | hv
        · exact .head hmember (ihabove (fun group hgroup => ⟨s, hs, hgroup⟩) habove v hv)
        · rw [List.mem_singleton.mp hv, t.keyed hs]
          exact .single hmember
      · exact ihothers hmembers hothers v hv
  | case4 => cases h

section Acyclic

variable (hacyclic : Acyclic t.MemberOf)

include hacyclic

/-- Where memberships have no circle, a class of the last ident of a path is fresh. -/
lemma Along.mem_fresh (halong : Along t start fresh path referrer) {ident : String}
    (hmember : t.MemberOf referrer ident) (hs : t.get? ident = some s) : ident ∈ fresh := by
  by_contra hstale
  have hon : ident ∈ path := halong.stale ident (Table.mem_idents_of_get? hs) hstale
  exact hacyclic ident (transGen_of_isChain (halong.isChain hmember) hon)

/-- Where memberships have no circle, a class is not visited for its own memberships. -/
lemma not_mem_visits {ident : String} (hs : t.get? ident = some s)
    (h : visits t fresh path ident s.memberships = .ok vs) : s ∉ vs := by
  intro hin
  have hback := reached_of_visits (fun group hgroup => ⟨s, hs, hgroup⟩) h s hin
  rw [t.keyed hs] at hback
  exact hacyclic ident hback

/-- Classes among specs that are closed lead to no others. -/
lemma visits_of_closed (halong : Along t start fresh path referrer)
    (hmembers : ∀ group ∈ memberships, t.MemberOf referrer group) (hclosed : Closed t seen)
    (hseen : ∀ group ∈ memberships, ∃ c ∈ seen, t.get? group = some c) :
    ∃ vs, visits t fresh path referrer memberships = .ok vs ∧ ∀ v ∈ vs, v ∈ seen := by
  fun_induction visits t fresh path referrer memberships with
  | case1 => exact ⟨[], rfl, by simp⟩
  | case2 fresh path referrer ident rest hnone =>
      obtain ⟨c, -, hget⟩ := hseen ident List.mem_cons_self
      cases hnone.symm.trans hget
  | case3 fresh path referrer ident rest s hs hfresh ihabove ihothers =>
      obtain ⟨hmember, hmembers⟩ := List.forall_mem_cons.mp hmembers
      obtain ⟨⟨c, hc, hget⟩, hseen⟩ := List.forall_mem_cons.mp hseen
      obtain rfl := Option.some.inj (hs.symm.trans hget)
      obtain ⟨above, habove, hinabove⟩ := ihabove (halong.extend hmember)
        (fun group hgroup => ⟨s, hs, hgroup⟩) (hclosed s hc)
      obtain ⟨others, hothers, hinothers⟩ := ihothers halong hmembers hseen
      refine ⟨above ++ [s] ++ others, ?_, fun v hv => ?_⟩
      · rw [habove, hothers]
        rfl
      · rcases List.mem_append.mp hv with hv | hv
        · rcases List.mem_append.mp hv with hv | hv
          · exact hinabove v hv
          · exact List.mem_singleton.mp hv ▸ hc
        · exact hinothers v hv
  | case4 fresh path referrer ident rest s hs hstale =>
      exact absurd (halong.mem_fresh hacyclic (hmembers ident List.mem_cons_self) hs) hstale

/-- **The walk that passes over what it has seen** makes the first visits of the walk that does
not, after those of `before`. -/
theorem firstVisits_eq (halong : Along t start fresh path referrer)
    (hmembers : ∀ group ∈ memberships, t.MemberOf referrer group) (hclosed : Closed t before) :
    firstVisits t fresh path before.eraseDups referrer memberships =
      (fun vs => (before ++ vs).eraseDups) <$> visits t fresh path referrer memberships := by
  fun_induction visits t fresh path referrer memberships generalizing before with
  | case1 =>
      rw [firstVisits]
      simp [Functor.map, Except.map]
  | case2 fresh path referrer ident rest hnone =>
      rw [firstVisits]
      simp only [hnone]
      rfl
  | case3 fresh path referrer ident rest s hs hfresh ihabove ihothers =>
      obtain ⟨hmember, hmembers⟩ := List.forall_mem_cons.mp hmembers
      have halong' : Along t start (without ident fresh) (path ++ [ident]) ident :=
        halong.extend hmember
      have habovemembers : ∀ group ∈ s.memberships, t.MemberOf ident group :=
        fun group hgroup => ⟨s, hs, hgroup⟩
      rw [firstVisits]
      simp only [hs]
      by_cases hin : s ∈ before
      · -- all that the class leads to was visited when it was
        obtain ⟨above, habove, hold⟩ := visits_of_closed hacyclic halong' habovemembers hclosed
          (hclosed s hin)
        rw [if_pos (List.mem_eraseDups.mpr hin), ihothers halong hmembers hclosed, habove]
        cases visits t fresh path referrer rest with
        | error fault => rfl
        | ok others =>
            have hpassed : ∀ v ∈ above ++ [s], v ∈ before := by
              intro v hv
              rcases List.mem_append.mp hv with hv | hv
              · exact hold v hv
              · exact List.mem_singleton.mp hv ▸ hin
            exact congrArg Except.ok (eraseDups_append_of_subset hpassed others).symm
      · rw [if_neg (mt List.mem_eraseDups.mp hin), dif_pos hfresh,
          ihabove halong' habovemembers hclosed]
        cases habove : visits t (without ident fresh) (path ++ [ident]) ident s.memberships with
        | error fault => rfl
        | ok above =>
            have hnew : s ∉ before ++ above := fun hmem =>
              (List.mem_append.mp hmem).elim hin (not_mem_visits hacyclic hs habove)
            have hrest := ihothers halong hmembers (hclosed.append_visits habove)
            rw [eraseDups_append_singleton hnew] at hrest
            refine Eq.trans hrest ?_
            cases visits t fresh path referrer rest with
            | error fault => rfl
            | ok others =>
                refine congrArg (fun l : List Spec => Except.ok l.eraseDups) ?_
                simp only [List.append_assoc]
  | case4 fresh path referrer ident rest s hs hstale =>
      exact absurd (halong.mem_fresh hacyclic (hmembers ident List.mem_cons_self) hs) hstale

/-- **The definitions that a spec meets, each class once**, are those of the first visits in its
lineage, where memberships have no circle; if a spec is missing, both walks say so. -/
theorem definitionsOnce_eq (hs : t.get? s.ident = some s) : definitionsOnce t s =
    (fun vs => vs.eraseDups.flatMap Spec.ownDefinitions) <$> lineage t s := by
  have hmembers : ∀ group ∈ s.memberships, t.MemberOf s.ident group :=
    fun group hgroup => ⟨s, hs, hgroup⟩
  have hnone : Closed t [] := by simp [Closed]
  have hfirst := firstVisits_eq hacyclic (along_start s.ident) hmembers hnone
  rw [List.eraseDups_nil] at hfirst
  rw [definitionsOnce, lineage, hfirst]
  cases habove : visits t (without s.ident t.idents) [s.ident] s.ident s.memberships with
  | error fault => rfl
  | ok above =>
      have hlast : (above ++ [s]).eraseDups = above.eraseDups ++ [s] :=
        eraseDups_append_singleton (not_mem_visits hacyclic hs habove)
      simp [bind, Except.bind, Functor.map, Except.map, pure, Except.pure, hlast]

end Acyclic

end Ancestry

end EditorSchema
