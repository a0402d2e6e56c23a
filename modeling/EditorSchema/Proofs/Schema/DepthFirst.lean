/-
The order in which the groups of an element are found.

Memberships lead from an element to classes on many ways, and a class may be met on several of
them.  One may go along all these ways, depth first, and leave a way only where it comes back to
itself.  This meets every class that memberships lead to, the same ones over and over.  The walk
that collects groups opens a class once, and where it meets the class again it passes by.
Nothing is missed by this: of what has been opened, and is not on the way to an ident that waits,
all classes have been opened too, or they wait before that ident.  So the walk meets what the
ways meet, each class where they meet it first.

* `allWays`: what is met on all ways from some idents;
* `mem_allWays_iff`: this is all that they lead to;
* `Covered`: what holds of the idents that wait while others have been opened;
* `References.walk_eq`: a walk meets what the ways meet, at first;
* `References.modelClasses_eq`, `References.mem_modelClasses`: the groups of an element, in order
  and as all that there are;
* `References.exists_modelClasses_iff`: when they are found.
-/
import Mathlib.Tactic
import EditorSchema.Proofs.FirstOccurrences
import EditorSchema.Proofs.Schema.Reached
import EditorSchema.Proofs.Schema.References

namespace EditorSchema

open Outcome
open Relation (ReflTransGen TransGen)

/-! ### All ways -/

section Ways

variable {next : String → List String} {fresh idents : List String} {ident start other : String}

/-- **What is met on all ways** from some idents, depth first: what an ident leads to comes after
it, and no way goes on from an ident that it has come to before.  The fresh idents are those that
are not on the way. -/
def allWays (next : String → List String) (fresh : List String) : List String → List String
  | [] => []
  | ident :: rest =>
    if _h : ident ∈ fresh then
      ident :: allWays next (without ident fresh) (next ident) ++ allWays next fresh rest
    else allWays next fresh rest
termination_by idents => (fresh.length, idents.length)
decreasing_by
  · exact Prod.Lex.left _ _ (length_without_lt _h)
  · exact Prod.Lex.right _ (Nat.lt_succ_self _)
  · exact Prod.Lex.right _ (Nat.lt_succ_self _)

@[simp] lemma allWays_nil : allWays next fresh [] = [] := by
  rw [allWays]

lemma allWays_cons_of_mem (h : ident ∈ fresh) (rest : List String) :
    allWays next fresh (ident :: rest) =
      ident :: allWays next (without ident fresh) (next ident) ++ allWays next fresh rest := by
  rw [allWays, dif_pos h]

lemma allWays_cons_of_not_mem (h : ident ∉ fresh) (rest : List String) :
    allWays next fresh (ident :: rest) = allWays next fresh rest := by
  rw [allWays, dif_neg h]

/-- The ways from several idents are those from the one after those from the other. -/
lemma allWays_eq_flatMap (idents : List String) :
    allWays next fresh idents = idents.flatMap fun ident => allWays next fresh [ident] := by
  induction idents with
  | nil => simp
  | cons ident rest ih =>
      rw [List.flatMap_cons, ← ih]
      by_cases h : ident ∈ fresh
      · simp [allWays_cons_of_mem h]
      · simp [allWays_cons_of_not_mem h]

lemma mem_fresh_of_mem_allWays (h : other ∈ allWays next fresh idents) : other ∈ fresh := by
  fun_induction allWays next fresh idents with
  | case1 => cases h
  | case2 fresh ident rest hfresh ihnext ihrest =>
      rcases List.mem_append.mp h with h | h
      · rcases List.mem_cons.mp h with rfl | h
        · exact hfresh
        · exact (mem_without.mp (ihnext h)).1
      · exact ihrest h
  | case3 fresh ident rest hstale ihrest => exact ihrest h

/-- The ways begin with their idents. -/
lemma mem_allWays_of_mem (h : ident ∈ idents) (hfresh : ident ∈ fresh) :
    ident ∈ allWays next fresh idents := by
  rw [allWays_eq_flatMap]
  refine List.mem_flatMap.mpr ⟨ident, h, ?_⟩
  rw [allWays_cons_of_mem hfresh]
  exact List.mem_append_left _ List.mem_cons_self

/-- **The ways go on**: if they come to an ident, they come to what it leads to. -/
lemma mem_allWays_of_next (h : ident ∈ allWays next fresh idents) (hother : other ∈ next ident)
    (hfresh : other ∈ fresh) : other ∈ allWays next fresh idents := by
  fun_induction allWays next fresh idents with
  | case1 => cases h
  | case2 fresh opened rest hopened ihnext ihrest =>
      rcases List.mem_append.mp h with h | h
      · refine List.mem_append_left _ ?_
        -- a way that comes back to itself has met the ident before
        by_cases heq : other = opened
        · exact heq ▸ List.mem_cons_self
        · have hstill : other ∈ without opened fresh := mem_without.mpr ⟨hfresh, heq⟩
          refine List.mem_cons_of_mem _ ?_
          rcases List.mem_cons.mp h with rfl | h
          · exact mem_allWays_of_mem hother hstill
          · exact ihnext h hstill
      · exact List.mem_append_right _ (ihrest h hfresh)
  | case3 fresh passed rest hstale ihrest => exact ihrest h hfresh

/-- What the ways come to is what their idents lead to. -/
lemma exists_way_of_mem_allWays (h : other ∈ allWays next fresh idents) :
    ∃ start ∈ idents, ReflTransGen (fun a b => b ∈ next a) start other := by
  fun_induction allWays next fresh idents with
  | case1 => cases h
  | case2 fresh opened rest hopened ihnext ihrest =>
      rcases List.mem_append.mp h with h | h
      · refine ⟨opened, List.mem_cons_self, ?_⟩
        rcases List.mem_cons.mp h with rfl | h
        · exact .refl
        · obtain ⟨start, hstart, hway⟩ := ihnext h
          exact hway.head hstart
      · obtain ⟨start, hstart, hway⟩ := ihrest h
        exact ⟨start, List.mem_cons_of_mem _ hstart, hway⟩
  | case3 fresh passed rest hstale ihrest =>
      obtain ⟨start, hstart, hway⟩ := ihrest h
      exact ⟨start, List.mem_cons_of_mem _ hstart, hway⟩

/-- **The ways come to all that their idents lead to**, if what leads anywhere is fresh. -/
theorem mem_allWays_iff (hleads : ∀ a b, b ∈ next a → a ∈ fresh) :
    other ∈ allWays next fresh idents ↔
      other ∈ fresh ∧ ∃ start ∈ idents, ReflTransGen (fun a b => b ∈ next a) start other := by
  constructor
  · exact fun h => ⟨mem_fresh_of_mem_allWays h, exists_way_of_mem_allWays h⟩
  · rintro ⟨hother, start, hstart, hway⟩
    induction hway with
    | refl => exact mem_allWays_of_mem hstart hother
    | tail _ hedge ih => exact mem_allWays_of_next (ih (hleads _ _ hedge)) hedge hother

/-- If all that opened idents lead to has been opened, the ways from them come to nothing else. -/
lemma not_mem_of_mem_allWays {off : List String}
    (hclosed : ∀ a ∈ off, a ∉ fresh → ∀ b ∈ next a, b ∉ fresh)
    (hidents : ∀ a ∈ idents, a ∉ fresh) (h : other ∈ allWays next off idents) :
    other ∉ fresh := by
  fun_induction allWays next off idents with
  | case1 => cases h
  | case2 off opened rest hopened ihnext ihrest =>
      rw [List.forall_mem_cons] at hidents
      rcases List.mem_append.mp h with h | h
      · rcases List.mem_cons.mp h with rfl | h
        · exact hidents.1
        · exact ihnext (fun a ha => hclosed a (mem_without.mp ha).1)
            (hclosed opened hopened hidents.1) h
      · exact ihrest hclosed hidents.2 h
  | case3 off passed rest hstale ihrest =>
      exact ihrest hclosed (List.forall_mem_cons.mp hidents).2 h

/-! ### Ways that wait -/

/-- **What waits covers what has been opened**, where each ident waits with those that are not on
the way to it, and those before it in `ready`: if an opened ident is not on the way, then what it
leads to has been opened as well, or it waits before. -/
def Covered (next : String → List String) (fresh ready : List String) :
    List (List String × String) → Prop
  | [] => True
  | (off, ident) :: waiting =>
      (∀ a ∈ off, a ∉ fresh → ∀ b ∈ next a, b ∈ fresh → b ∈ ready) ∧
        Covered next fresh (ident :: ready) waiting

variable {fresh' ready ready' off : List String} {waiting : List (List String × String)}

/-- What covers stays as more is opened, if what is opened leads to something that waits. -/
lemma Covered.mono (h : Covered next fresh ready waiting) (hfresh : ∀ b ∈ fresh', b ∈ fresh)
    (hready : ∀ b ∈ ready, b ∈ fresh' → b ∈ ready')
    (hopened : ∀ a ∈ fresh, a ∉ fresh' → ∀ b ∈ next a, b ∈ fresh' → b ∈ ready') :
    Covered next fresh' ready' waiting := by
  induction waiting generalizing ready ready' with
  | nil => trivial
  | cons way waiting ih =>
      obtain ⟨hway, hrest⟩ := h
      refine ⟨fun a ha hstale b hb hbfresh => ?_, ih hrest (fun b hb hbfresh => ?_) ?_⟩
      · by_cases hafresh : a ∈ fresh
        · exact hopened a hafresh hstale b hb hbfresh
        · exact hready b (hway a ha hafresh b hb (hfresh b hbfresh)) hbfresh
      · rcases List.mem_cons.mp hb with rfl | hb
        · exact List.mem_cons_self
        · exact List.mem_cons_of_mem _ (hready b hb hbfresh)
      · exact fun a ha hstale b hb hbfresh =>
          List.mem_cons_of_mem _ (hopened a ha hstale b hb hbfresh)

/-- Idents that wait on one way are covered if the first one is. -/
lemma Covered.append (hoff : ∀ a ∈ off, a ∉ fresh → ∀ b ∈ next a, b ∈ fresh → b ∈ ready)
    (hrest : ∀ later, (∀ b, b ∈ idents ∨ b ∈ ready → b ∈ later) →
      Covered next fresh later waiting) :
    Covered next fresh ready (idents.map (off, ·) ++ waiting) := by
  induction idents generalizing ready with
  | nil => exact hrest ready (by simp)
  | cons ident idents ih =>
      refine ⟨hoff, ih (fun a ha hstale b hb hbfresh => ?_) fun later hlater => hrest later ?_⟩
      · exact List.mem_cons_of_mem _ (hoff a ha hstale b hb hbfresh)
      · intro b hb
        rw [List.mem_cons, or_assoc, or_left_comm] at hb
        exact hlater b (by rwa [List.mem_cons])

/-- **Opening what waits first**: what it leads to waits in its place. -/
lemma Covered.opened (h : Covered next fresh [] ((off, ident) :: waiting)) :
    Covered next (without ident fresh) []
      ((next ident).map (without ident off, ·) ++ waiting) := by
  obtain ⟨hway, hrest⟩ := h
  have hpassed {a : String} (hne : a ≠ ident) (hstale : a ∉ without ident fresh) : a ∉ fresh :=
    fun hin => hstale (mem_without.mpr ⟨hin, hne⟩)
  refine .append (fun a ha hstale b hb hbfresh => ?_) fun later hlater =>
    hrest.mono (fun b hb => (mem_without.mp hb).1) (fun b hb hbfresh => ?_)
      fun a ha hstale b hb _ => ?_
  · obtain ⟨ha, hne⟩ := mem_without.mp ha
    exact hway a ha (hpassed hne hstale) b hb (mem_without.mp hbfresh).1
  · exact absurd (List.mem_singleton.mp hb) (mem_without.mp hbfresh).2
  · -- nothing but the ident itself has been opened
    obtain rfl : a = ident := not_not.mp fun hne => hpassed hne hstale ha
    exact hlater b (.inl hb)

/-- **Passing by what waits first**, which has been opened: nothing waits behind it. -/
lemma Covered.passed (h : Covered next fresh [] ((off, ident) :: waiting))
    (hstale : ident ∉ fresh) : Covered next fresh [] waiting := by
  refine h.2.mono (fun b hb => hb) (fun b hb hbfresh => ?_) fun a ha hnot => absurd ha hnot
  exact absurd (List.mem_singleton.mp hb ▸ hbfresh) hstale

/-- What has been opened and is not on the way to what waits first leads to nothing fresh. -/
lemma Covered.closed (h : Covered next fresh [] ((off, ident) :: waiting)) :
    ∀ a ∈ off, a ∉ fresh → ∀ b ∈ next a, b ∉ fresh :=
  fun a ha hstale b hb hbfresh => List.not_mem_nil (h.1 a ha hstale b hb hbfresh)

end Ways

/-! ### Walks -/

namespace Table

variable {t : Table} {ident group : String}

/-- The classes that a spec is a member of. -/
def classesOf (t : Table) (ident : String) : List String :=
  match t.get? ident with
  | some s => s.memberships
  | none => []

/-- Whether the spec of an ident is a class of models. -/
def isModel (t : Table) (ident : String) : Bool :=
  (t.class? ident).any fun c => c.kind = .model

lemma mem_classesOf : group ∈ t.classesOf ident ↔ t.MemberOf ident group := by
  rw [classesOf, MemberOf]
  cases t.get? ident <;> simp

lemma classesOf_of_class? {c : ClassSpec} (hc : t.class? ident = some c) :
    t.classesOf ident = c.memberships := by
  rw [classesOf, get?_of_class? hc]
  rfl

lemma classesOf_of_element? {e : ElementSpec} (he : t.element? ident = some e) :
    t.classesOf ident = e.memberships := by
  rw [classesOf, get?_of_element? he]
  rfl

lemma isModel_of_class? {c : ClassSpec} (hc : t.class? ident = some c) :
    t.isModel ident = decide (c.kind = .model) := by
  rw [isModel, hc, Option.any_some]

end Table

namespace References

variable {t : Table} {fresh groups : List String} {pending : List (String × String)}
variable {ways : List (List String × String)}

/-- What is met on the ways that wait, as far as it is fresh, each ident where it is met first. -/
def firstMet (t : Table) (fresh : List String) (ways : List (List String × String)) :
    List String :=
  ((ways.flatMap fun way => allWays t.classesOf way.1 [way.2]).filter (· ∈ fresh)).eraseDups

/-- What is opened is met first, and then what its classes lead to before what waited. -/
lemma firstMet_of_mem {off : List String} {ident : String} (hfresh : ident ∈ fresh)
    (hoff : ident ∈ off) :
    firstMet t fresh ((off, ident) :: ways) = ident :: firstMet t (without ident fresh)
      ((t.classesOf ident).map (without ident off, ·) ++ ways) := by
  rw [firstMet, List.flatMap_cons, allWays_cons_of_mem hoff, allWays_nil, List.append_nil,
    List.cons_append, List.filter_cons_of_pos (by simpa using hfresh), List.eraseDups_cons,
    List.filter_filter, firstMet, List.flatMap_append, List.flatMap_map,
    ← allWays_eq_flatMap]
  congr 2
  refine List.filter_congr fun other _ => ?_
  by_cases heq : other = ident
  · simp [heq, mem_without]
  · simp [heq, mem_without]

/-- What is passed by has been met, with all that its classes lead to. -/
lemma firstMet_of_not_mem {off : List String} {ident : String} (hstale : ident ∉ fresh)
    (hclosed : ∀ a ∈ off, a ∉ fresh → ∀ b ∈ t.classesOf a, b ∉ fresh) :
    firstMet t fresh ((off, ident) :: ways) = firstMet t fresh ways := by
  have hnone : (allWays t.classesOf off [ident]).filter (· ∈ fresh) = [] := by
    refine List.filter_eq_nil_iff.mpr fun other hother => ?_
    simpa using not_mem_of_mem_allWays hclosed (by simpa using hstale) hother
  rw [firstMet, List.flatMap_cons, List.filter_append, hnone, List.nil_append, firstMet]

/-- **A walk meets what the ways meet**, each class of models where they meet it first. -/
theorem walk_eq (hways : ∀ way ∈ ways, ∀ ident ∈ fresh, ident ∈ way.1)
    (hcovered : Covered t.classesOf fresh [] ways)
    (hpending : pending.map Prod.snd = ways.map Prod.snd)
    (h : walk t fresh pending = .ok groups) :
    groups = (firstMet t fresh ways).filter fun ident => t.isModel ident := by
  fun_induction walk t fresh pending generalizing groups ways with
  | case1 fresh =>
      obtain rfl : ways = [] := by simpa using hpending.symm
      cases h
      rfl
  | case2 => cases h
  | case3 fresh referrer ident pending c hc hfresh ih =>
      obtain ⟨later, hlater, hgroups⟩ := bind_eq_ok.mp h
      rw [pure_eq_ok] at hgroups
      obtain ⟨⟨off, opened⟩, ways, rfl, rfl, hrest⟩ := List.map_eq_cons_iff.mp hpending.symm
      obtain ⟨hoff, hways⟩ := List.forall_mem_cons.mp hways
      have hnext : later = (firstMet t (without opened fresh)
          ((t.classesOf opened).map (without opened off, ·) ++ ways)).filter
            fun ident => t.isModel ident := by
        refine ih (fun way hmem a ha => ?_) hcovered.opened ?_ hlater
        · obtain ⟨ha, hne⟩ := mem_without.mp ha
          rcases List.mem_append.mp hmem with hmem | hmem
          · obtain ⟨b, -, rfl⟩ := List.mem_map.mp hmem
            exact mem_without.mpr ⟨hoff a ha, hne⟩
          · exact hways way hmem a ha
        · simp [Table.classesOf_of_class? hc, hrest, Function.comp_def]
      rw [firstMet_of_mem hfresh (hoff opened hfresh), List.filter_cons, ← hnext, ← hgroups,
        Table.isModel_of_class? hc]
      simp
  | case4 fresh referrer ident pending c hc hstale ih =>
      obtain ⟨⟨off, passed⟩, ways, rfl, rfl, hrest⟩ := List.map_eq_cons_iff.mp hpending.symm
      rw [firstMet_of_not_mem hstale hcovered.closed]
      exact ih (List.forall_mem_cons.mp hways).2 (hcovered.passed hstale) hrest.symm h

/-! ### Groups -/

variable {e : ElementSpec}

/-- **The groups of an element**: the classes of models on the ways of its memberships, each where
it is met first. -/
theorem modelClasses_eq (h : modelClasses t e = .ok groups) :
    groups = (allWays t.classesOf t.idents e.memberships).eraseDups.filter
      fun ident => t.isModel ident := by
  have hcovered : Covered t.classesOf t.idents [] (e.memberships.map (t.idents, ·) ++ []) :=
    .append (fun a ha hstale => absurd ha hstale) fun _ _ => trivial
  have hfresh : (allWays t.classesOf t.idents e.memberships).filter (· ∈ t.idents) =
      allWays t.classesOf t.idents e.memberships :=
    List.filter_eq_self.mpr fun other hother => by simpa using mem_fresh_of_mem_allWays hother
  rw [List.append_nil] at hcovered
  rw [walk_eq (by simp) hcovered (by simp [Function.comp_def]) h, firstMet, List.flatMap_map,
    ← allWays_eq_flatMap, hfresh]

lemma nodup_modelClasses (h : modelClasses t e = .ok groups) : groups.Nodup :=
  modelClasses_eq h ▸ (nodup_eraseDups _).filter _

/-- **The groups of an element are all classes of models** that its memberships lead to. -/
theorem mem_modelClasses {ident group : String} (he : t.element? ident = some e)
    (h : modelClasses t e = .ok groups) :
    group ∈ groups ↔ t.isModel group = true ∧ TransGen t.MemberOf ident group := by
  have hedges : (fun a b => b ∈ t.classesOf a) = t.MemberOf :=
    funext fun a => funext fun b => propext Table.mem_classesOf
  have hleads (a b : String) (hb : b ∈ t.classesOf a) : a ∈ t.idents := by
    obtain ⟨s, hs, -⟩ := Table.mem_classesOf.mp hb
    exact Table.mem_idents_of_get? hs
  rw [modelClasses_eq h, List.mem_filter, List.mem_eraseDups, mem_allWays_iff hleads, hedges,
    TransGen.head'_iff, and_comm]
  refine and_congr_right fun hmodel => ?_
  have hident : group ∈ t.idents := by
    obtain ⟨c, hc, -⟩ := (Option.any_eq_true ..).mp hmodel
    exact Table.mem_idents_of_get? (Table.get?_of_class? hc)
  rw [and_iff_right hident]
  refine exists_congr fun start => and_congr_left fun _ => ?_
  rw [← Table.mem_classesOf, Table.classesOf_of_element? he]

/-- A walk is ended by an ident that is not a class and that memberships lead to. -/
lemma exists_of_walk_eq_error {fault : SchemaFault} (h : walk t fresh pending = .error fault) :
    ∃ ident ∈ pending.map Prod.snd, ∃ other, ReflTransGen t.MemberOf ident other ∧
      ¬ t.IsClass other := by
  fun_induction walk t fresh pending with
  | case1 => cases h
  | case2 fresh referrer ident pending hnone =>
      refine ⟨ident, by simp, ident, .refl, ?_⟩
      rintro ⟨c, hc⟩
      cases hnone.symm.trans hc
  | case3 fresh referrer opened pending c hc hfresh ih =>
      rcases bind_eq_error.mp h with hlater | ⟨later, -, h⟩
      · obtain ⟨ident, hident, other, hway, hother⟩ := ih hlater
        rw [List.map_append, List.mem_append, List.map_map] at hident
        rcases hident with hident | hident
        · obtain ⟨group, hgroup, rfl⟩ := List.mem_map.mp hident
          have hmember : t.MemberOf opened group := ⟨_, Table.get?_of_class? hc, hgroup⟩
          exact ⟨opened, by simp, other, hway.head hmember, hother⟩
        · exact ⟨ident, List.mem_cons_of_mem _ hident, other, hway, hother⟩
      · cases h
  | case4 fresh referrer passed pending c hc hstale ih =>
      obtain ⟨ident, hident, hother⟩ := ih h
      exact ⟨ident, List.mem_cons_of_mem _ hident, hother⟩

/-- **When the groups of an element are found**: if its memberships lead to classes only. -/
theorem exists_modelClasses_iff {ident : String} (he : t.element? ident = some e) :
    (∃ groups, modelClasses t e = .ok groups) ↔
      ∀ other, TransGen t.MemberOf ident other → t.IsClass other := by
  constructor
  · rintro ⟨groups, h⟩
    exact class_of_reached he h
  · intro hall
    cases h : modelClasses t e with
    | ok groups => exact ⟨groups, rfl⟩
    | error fault =>
        obtain ⟨group, hgroup, other, hway, hother⟩ := exists_of_walk_eq_error h
        have hgroup : group ∈ e.memberships := by simpa using hgroup
        have hmember : t.MemberOf ident group := ⟨_, Table.get?_of_element? he, hgroup⟩
        exact absurd (hall other (TransGen.head' hmember hway)) hother

end References

end EditorSchema
