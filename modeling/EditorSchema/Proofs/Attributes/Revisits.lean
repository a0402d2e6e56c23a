/-
Classes that a record comes to along several ways.

The definitions of such a class are met once for each way.  Met again, an attribute is no longer
met first, so whether a record can be given its attributes does not depend on it.  If nothing
in between has taken the attribute away, adding it once more changes nothing either.

* `Attributes.firstDefinitions`: the first definition of each attribute;
* `Attributes.firstDefinitions_eraseDups`: first visits bring all of them, in their order;
* `Attributes.Alike`: what is known in two ways that come to the same;
* `Attributes.Undisturbed`: nothing is taken away between two visits of a class;
* `Attributes.alike_eraseDups`: undisturbed, first visits are all that counts.
-/
import Mathlib.Tactic
import EditorSchema.Proofs.Attributes.Independence
import EditorSchema.Proofs.Attributes.Visits

namespace EditorSchema.Attributes

open Outcome

variable {name x : String} {ds es block : List AttributeDef} {d : AttributeDef}
variable {start : AttributeDictionary} {p q : Progress} {vs : List Spec} {s : Spec}

/-! ### First definitions -/

/-- Definitions with one more, unless it is about an attribute of theirs. -/
def addFirst (ds : List AttributeDef) (d : AttributeDef) : List AttributeDef :=
  if d.ident ∈ identsOf ds then ds else ds ++ [d]

/-- The first definition of each attribute, in order. -/
def firstDefinitions (ds : List AttributeDef) : List AttributeDef := ds.foldl addFirst []

lemma firstDefinitions_append :
    firstDefinitions (ds ++ block) = block.foldl addFirst (firstDefinitions ds) := by
  rw [firstDefinitions, List.foldl_append, firstDefinitions]

lemma firstDefinitions_append_singleton :
    firstDefinitions (ds ++ [d]) = addFirst (firstDefinitions ds) d :=
  firstDefinitions_append

lemma mem_identsOf_firstDefinitions : x ∈ identsOf (firstDefinitions ds) ↔ x ∈ identsOf ds := by
  induction ds using List.reverseRecOn with
  | nil => rfl
  | append_singleton ds d ih =>
      rw [firstDefinitions_append_singleton, addFirst, mem_identsOf_append]
      split
      · next hmet =>
        rw [ih]
        refine ⟨.inl, fun h => h.elim id ?_⟩
        rintro rfl
        exact ih.mp hmet
      · rw [mem_identsOf_append, ih]

/-- Definitions of attributes that were met are not the first ones. -/
lemma foldl_addFirst_of_met (h : ∀ d ∈ block, d.ident ∈ identsOf ds) :
    block.foldl addFirst ds = ds := by
  induction block with
  | nil => rfl
  | cons d block ih =>
      obtain ⟨hd, hblock⟩ := List.forall_mem_cons.mp h
      rw [List.foldl_cons, addFirst, if_pos hd, ih hblock]

/-- The first definition of an attribute is the first of its definitions. -/
lemma head?_occurrences :
    (occurrences x ds).head? = (firstDefinitions ds).find? (·.ident == x) := by
  induction ds using List.reverseRecOn with
  | nil => rfl
  | append_singleton ds d ih =>
      rw [firstDefinitions_append_singleton, addFirst, occurrences_append_singleton]
      by_cases hmet : d.ident ∈ identsOf (firstDefinitions ds)
      · rw [if_pos hmet, ← ih]
        split
        · next heq =>
          rw [mem_identsOf_firstDefinitions, heq, ← not_not (a := x ∈ _), ← occurrences_eq_nil]
            at hmet
          obtain ⟨e, he⟩ := Option.ne_none_iff_exists'.mp (mt List.head?_eq_none_iff.mp hmet)
          rw [List.head?_append, he, Option.some_or]
        · rfl
      · rw [if_neg hmet, List.find?_append, ← ih]
        split
        · next heq => simp [heq]
        · next hne => simp [hne]

/-- A definition more comes to be the first that redefines an attribute if none before it does. -/
lemma firstBaseless_append_singleton : FirstBaseless (ds ++ [d]) x ↔ FirstBaseless ds x ∨
    (∀ other, ¬ Baseless ds other) ∧ x ∉ identsOf ds ∧ d.ident = x ∧ d.Redefines := by
  constructor
  · rintro ⟨before, e, after, heq, hbased, hfirst⟩
    rcases List.eq_nil_or_concat' after with rfl | ⟨after, last, rfl⟩
    · obtain ⟨rfl, rfl⟩ := List.append_singleton_inj.mp heq
      exact .inr ⟨hbased, (baseless_append_singleton.mp hfirst).resolve_left (hbased x)⟩
    · rw [← List.cons_append, ← List.append_assoc] at heq
      obtain ⟨rfl, rfl⟩ := List.append_singleton_inj.mp heq
      exact .inl ⟨before, e, after, rfl, hbased, hfirst⟩
  · rintro (⟨before, e, after, rfl, hbased, hfirst⟩ | ⟨hbased, hnew⟩)
    · exact ⟨before, e, after ++ [d], by simp, hbased, hfirst⟩
    · exact ⟨ds, d, [], rfl, hbased, baseless_append_singleton.mpr (.inr hnew)⟩

/-- The first attribute without a base is that of the first definition of an attribute that
redefines it. -/
lemma firstBaseless_iff : FirstBaseless ds x ↔
    ∃ d, (firstDefinitions ds).find? (fun d => decide d.Redefines) = some d ∧ d.ident = x := by
  induction ds using List.reverseRecOn generalizing x with
  | nil => simp [FirstBaseless, firstDefinitions]
  | append_singleton ds d ih =>
      rw [firstBaseless_append_singleton, firstDefinitions_append_singleton, addFirst, ih]
      cases hfind : (firstDefinitions ds).find? (fun d => decide d.Redefines) with
      | some e =>
          have hfirst : FirstBaseless ds e.ident := ih.mpr ⟨e, hfind, rfl⟩
          have hkept : (if d.ident ∈ identsOf (firstDefinitions ds) then firstDefinitions ds
              else firstDefinitions ds ++ [d]).find? (fun d => decide d.Redefines) = some e := by
            split
            · exact hfind
            · rw [List.find?_append, hfind, Option.some_or]
          rw [hkept]
          exact or_iff_left fun h => h.1 e.ident hfirst.baseless
      | none =>
          have hbased : ∀ other, ¬ Baseless ds other := by
            intro other hother
            obtain ⟨first, hfirst⟩ := exists_firstBaseless hother
            obtain ⟨e, he, -⟩ := ih.mp hfirst
            cases hfind.symm.trans he
          by_cases hmet : d.ident ∈ identsOf (firstDefinitions ds)
          · rw [if_pos hmet, hfind]
            rw [mem_identsOf_firstDefinitions] at hmet
            refine or_iff_left ?_
            rintro ⟨-, hnew, rfl, -⟩
            exact hnew hmet
          · rw [if_neg hmet, List.find?_append, hfind, Option.none_or]
            rw [mem_identsOf_firstDefinitions] at hmet
            by_cases hred : d.Redefines
            · have hone : [d].find? (fun d => decide d.Redefines) = some d := by simp [hred]
              rw [hone]
              constructor
              · rintro (⟨e, he, -⟩ | ⟨-, -, hident, -⟩)
                · cases he
                · exact ⟨d, rfl, hident⟩
              · rintro ⟨e, he, rfl⟩
                obtain rfl := Option.some.inj he
                exact .inr ⟨hbased, hmet, rfl, hred⟩
            · simp [hred]

/-! ### Met once or again -/

/-- The definitions of some visits. -/
abbrev definitionsOf (vs : List Spec) : List AttributeDef := vs.flatMap Spec.ownDefinitions

lemma definitionsOf_append_singleton :
    definitionsOf (vs ++ [s]) = definitionsOf vs ++ s.ownDefinitions := by
  rw [definitionsOf, List.flatMap_append, List.flatMap_singleton]

lemma definitionsOf_cons : definitionsOf (s :: vs) = s.ownDefinitions ++ definitionsOf vs :=
  List.flatMap_cons

lemma mem_identsOf_definitionsOf_of_mem (h : s ∈ vs) (hd : d ∈ s.ownDefinitions) :
    d.ident ∈ identsOf (definitionsOf vs) :=
  List.mem_map_of_mem (List.mem_flatMap.mpr ⟨s, h, hd⟩)

/-- **Visits after the first one bring no first definition.** -/
theorem firstDefinitions_eraseDups :
    firstDefinitions (definitionsOf vs.eraseDups) = firstDefinitions (definitionsOf vs) := by
  induction vs using List.reverseRecOn with
  | nil => rfl
  | append_singleton vs s ih =>
      rw [definitionsOf_append_singleton, firstDefinitions_append]
      by_cases hin : s ∈ vs
      · rw [eraseDups_append_of_mem hin, ih, foldl_addFirst_of_met fun d hd => ?_]
        exact mem_identsOf_firstDefinitions.mpr (mem_identsOf_definitionsOf_of_mem hin hd)
      · rw [eraseDups_append_singleton hin, definitionsOf_append_singleton,
          firstDefinitions_append, ih]

lemma firstBaseless_eraseDups :
    FirstBaseless (definitionsOf vs.eraseDups) x ↔ FirstBaseless (definitionsOf vs) x := by
  rw [firstBaseless_iff, firstBaseless_iff, firstDefinitions_eraseDups]

lemma head?_occurrences_eraseDups : (occurrences x (definitionsOf vs.eraseDups)).head? =
    (occurrences x (definitionsOf vs)).head? := by
  rw [head?_occurrences, head?_occurrences, firstDefinitions_eraseDups]

lemma baseless_eraseDups :
    Baseless (definitionsOf vs.eraseDups) x ↔ Baseless (definitionsOf vs) x := by
  rw [Baseless, Baseless, head?_occurrences_eraseDups]

/-! ### Ways that come to the same -/

/-- Lists with the same keys, however often. -/
structure SameKeys (l l' : AttributeLists) : Prop where
  valid : ∀ key, key ∈ l.valid ↔ key ∈ l'.valid
  required : ∀ key, key ∈ l.required ↔ key ∈ l'.required

section SameKeys

variable {l l' : AttributeLists}

lemma SameKeys.add (h : SameKeys l l') (key : String) (required : Bool) :
    SameKeys (l.add key required) (l'.add key required) where
  valid other := by rw [AttributeLists.mem_valid_add, AttributeLists.mem_valid_add, h.valid]
  required other := by
    rw [AttributeLists.mem_required_add, AttributeLists.mem_required_add, h.required]

lemma SameKeys.remove (h : SameKeys l l') (key : String) :
    SameKeys (l.remove key) (l'.remove key) where
  valid other := by
    rw [AttributeLists.mem_valid_remove, AttributeLists.mem_valid_remove, h.valid]
  required other := by
    rw [AttributeLists.mem_required_remove, AttributeLists.mem_required_remove, h.required]

/-- A key that is there may be added. -/
lemma sameKeys_add_self {key : String} {required : Bool} (hvalid : key ∈ l.valid)
    (hrequired : required = true → key ∈ l.required) : SameKeys (l.add key required) l where
  valid other := by
    rw [AttributeLists.mem_valid_add]
    exact or_iff_left_of_imp fun h => h ▸ hvalid
  required other := by
    rw [AttributeLists.mem_required_add]
    exact or_iff_left_of_imp fun h => h.1 ▸ hrequired h.2

end SameKeys

/-- **What is known in two ways that come to the same.** -/
structure Alike (p q : Progress) : Prop where
  dictionary : p.dictionary = q.dictionary
  met : ∀ x, x ∈ p.met ↔ x ∈ q.met
  lists : SameKeys p.lists q.lists

lemma Alike.refl (p : Progress) : Alike p p :=
  ⟨rfl, fun _ => .rfl, fun _ => .rfl, fun _ => .rfl⟩

lemma Alike.trans {u : Progress} (h : Alike p q) (h' : Alike q u) : Alike p u where
  dictionary := h.dictionary.trans h'.dictionary
  met x := (h.met x).trans (h'.met x)
  lists := ⟨fun key => (h.lists.valid key).trans (h'.lists.valid key),
    fun key => (h.lists.required key).trans (h'.lists.required key)⟩

/-- A definition keeps two ways alike. -/
lemma Alike.proceed (h : Alike p q) (name : String) (d : AttributeDef) :
    Alike (proceed name p d) (proceed name q d) := by
  obtain ⟨hdictionary, hmet, hlists⟩ := h
  have hcontains : p.met.contains d.ident = q.met.contains d.ident := by
    rw [Bool.eq_iff_iff, List.contains_iff_mem, List.contains_iff_mem, hmet]
  have hmet' (x : String) : x ∈ d.ident :: p.met ↔ x ∈ d.ident :: q.met := by
    rw [List.mem_cons, List.mem_cons, hmet]
  rw [Attributes.proceed, Attributes.proceed, step, step, hcontains, meet, meet, meetAgain,
    meetAgain, hdictionary]
  cases q.met.contains d.ident with
  | false =>
      cases d.effectiveMode with
      | change | replace => exact ⟨hdictionary, hmet, hlists⟩
      | add | delete => exact ⟨rfl, hmet', hlists.add _ _⟩
  | true =>
      cases d.effectiveMode with
      | change =>
          cases q.dictionary.get? d.ident with
          | none => exact ⟨hdictionary, hmet, hlists⟩
          | some base => exact ⟨rfl, hmet, (hlists.remove _).add _ _⟩
      | replace => exact ⟨rfl, hmet, (hlists.remove _).add _ _⟩
      | delete => exact ⟨rfl, hmet, (hlists.remove _).remove _⟩
      | add => exact ⟨rfl, hmet, hlists.add _ _⟩

lemma Alike.foldl (h : Alike p q) (name : String) (block : List AttributeDef) :
    Alike (block.foldl (Attributes.proceed name) p) (block.foldl (Attributes.proceed name) q) := by
  induction block generalizing p q with
  | nil => exact h
  | cons d block ih => exact ih (h.proceed name d)

/-- A definition that adds an attribute that is there, and does not newly require it. -/
structure Idle (p : Progress) (d : AttributeDef) : Prop where
  met : d.ident ∈ p.met
  adds : d.effectiveMode = .add
  valid : d.ident ∈ p.lists.valid
  required : d.isRequired = true → d.ident ∈ p.lists.required

lemma Idle.alike (h : Idle p d) (name : String) : Alike (proceed name p d) p := by
  rw [proceed, step_add h.met h.adds]
  exact ⟨rfl, fun _ => .rfl, sameKeys_add_self h.valid h.required⟩

lemma Idle.of_alike (h : Idle p d) (halike : Alike q p) : Idle q d where
  met := (halike.met _).mpr h.met
  adds := h.adds
  valid := (halike.lists.valid _).mpr h.valid
  required hreq := (halike.lists.required _).mpr (h.required hreq)

/-- Definitions that do nothing one by one do nothing together. -/
lemma alike_foldl_of_idle (name : String) (h : ∀ d ∈ block, Idle p d) :
    Alike (block.foldl (proceed name) p) p := by
  induction block generalizing p with
  | nil => exact .refl p
  | cons d block ih =>
      obtain ⟨hd, hblock⟩ := List.forall_mem_cons.mp h
      have hfirst : Alike (proceed name p d) p := hd.alike name
      exact (ih fun e he => (hblock e he).of_alike hfirst).trans hfirst

/-! ### Visiting a class again -/

/-- A definition takes away what another one adds: it does not add, and what it removes is the
attribute of the other one. -/
def TakesAway (name : String) (later d : AttributeDef) : Prop :=
  later.effectiveMode ≠ .add ∧ (later.ident = d.ident ∨ ownKey later.ident name = d.ident)

/-- **Nothing is taken away between two visits of a class**: from one visit of a class to
another, no definition takes away what the class defines. -/
def Undisturbed (name : String) (vs : List Spec) : Prop :=
  ∀ before s between after, vs = before ++ s :: between ++ s :: after →
    ∀ d ∈ s.ownDefinitions, ∀ later ∈ definitionsOf (s :: between), ¬ TakesAway name later d

instance (name : String) (later d : AttributeDef) : Decidable (TakesAway name later d) :=
  inferInstanceAs (Decidable (_ ∧ _))

lemma Undisturbed.append (h : Undisturbed name (vs ++ [s])) : Undisturbed name vs :=
  fun before v between after heq =>
    h before v between (after ++ [s]) (by rw [heq]; simp)

/-- What comes last and was not visited before disturbs nothing. -/
lemma Undisturbed.append_new (h : Undisturbed name vs) (hnew : s ∉ vs) :
    Undisturbed name (vs ++ [s]) := by
  intro before v between after heq
  rcases List.eq_nil_or_concat' after with rfl | ⟨after, last, rfl⟩
  · obtain ⟨rfl, rfl⟩ := List.append_singleton_inj.mp heq
    exact absurd (by simp) hnew
  · have hsplit : vs ++ [s] = (before ++ v :: between ++ v :: after) ++ [last] := by
      rw [heq]
      simp
    obtain ⟨rfl, rfl⟩ := List.append_singleton_inj.mp hsplit
    exact h before v between after rfl

/-- Where nothing but additions is met, nothing is taken away. -/
lemma undisturbed_of_adds (h : ∀ d ∈ definitionsOf vs, d.effectiveMode = .add) :
    Undisturbed name vs := by
  intro before s between after heq d _ later hlater htakes
  refine htakes.1 (h later ?_)
  rw [heq, definitionsOf, List.flatMap_append, List.flatMap_append]
  exact List.mem_append_left _ (List.mem_append_right _ hlater)

lemma takesAway_of_removes {before : List AttributeDef} {later : AttributeDef}
    (h : Removes name d.ident before later) : TakesAway name later d := by
  obtain ⟨-, hmode⟩ := h
  cases hlater : later.effectiveMode with
  | add => simp [hlater] at hmode
  | change | replace =>
      rw [hlater] at hmode
      exact ⟨by simp [hlater], .inl hmode.symm⟩
  | delete =>
      rw [hlater] at hmode
      exact ⟨by simp [hlater], hmode.imp Eq.symm Eq.symm⟩

lemma after_append (ds block : List AttributeDef) : after name start (ds ++ block) =
    block.foldl (proceed name) (after name start ds) :=
  List.foldl_append ..

/-- What a class defines does nothing when it is met again undisturbed. -/
lemma idle_of_undisturbed (start : AttributeDictionary) (hund : Undisturbed name (vs ++ [s]))
    (hin : s ∈ vs) (hbased : ∀ x, ¬ Baseless (definitionsOf vs) x) :
    ∀ d ∈ s.ownDefinitions, Idle (after name start (definitionsOf vs)) d := by
  intro d hd
  obtain ⟨before, between, rfl⟩ := List.append_of_mem hin
  have hfollows := follows_of_based name start hbased
  have hkept : ∀ later ∈ definitionsOf (s :: between), ¬ TakesAway name later d :=
    hund before s between [] (by simp) d hd
  have hadds : d.effectiveMode = .add := by
    by_contra hne
    exact hkept d (List.mem_append_left _ hd) ⟨hne, .inl rfl⟩
  -- the definition as an event among the others, none of which takes the attribute away since
  obtain ⟨first, rest, hown⟩ := List.append_of_mem hd
  have hsplit : definitionsOf (before ++ s :: between) =
      (definitionsOf before ++ first) ++ d :: (rest ++ definitionsOf between) := by
    simp [definitionsOf, hown]
  have hadd : Adds name d.ident (definitionsOf before ++ first) d := by
    rw [Adds, hadds]
    split <;> rfl
  have hlasts : ∀ among later others, rest ++ definitionsOf between = among ++ later :: others →
      ¬ Removes name d.ident (definitionsOf before ++ first ++ d :: among) later := by
    intro among later others heq hremoves
    refine hkept later ?_ (takesAway_of_removes hremoves)
    have hlater : later ∈ rest ++ definitionsOf between := by simp [heq]
    rw [definitionsOf_cons, hown, List.append_assoc]
    exact List.mem_append_right _ (List.mem_cons_of_mem _ hlater)
  refine ⟨(hfollows.met _).mpr (mem_identsOf_definitionsOf_of_mem hin hd), hadds,
    (hfollows.valid _).mpr ⟨_, d, _, hsplit, hadd, hlasts⟩, fun hreq => ?_⟩
  exact (hfollows.required _).mpr ⟨_, d, _, hsplit, ⟨hadd, .inl hreq⟩, hlasts⟩

/-- **Undisturbed visits after the first one change nothing.** -/
theorem alike_eraseDups (hund : Undisturbed name vs)
    (hbased : ∀ x, ¬ Baseless (definitionsOf vs) x) :
    Alike (after name start (definitionsOf vs))
      (after name start (definitionsOf vs.eraseDups)) := by
  induction vs using List.reverseRecOn with
  | nil => exact .refl _
  | append_singleton vs s ih =>
      rw [definitionsOf_append_singleton] at hbased
      have hbefore := ih hund.append (based_of_append hbased)
      rw [definitionsOf_append_singleton, after_append]
      by_cases hin : s ∈ vs
      · rw [eraseDups_append_of_mem hin]
        have hidle := idle_of_undisturbed start hund hin (based_of_append hbased)
        exact (alike_foldl_of_idle name hidle).trans hbefore
      · rw [eraseDups_append_singleton hin, definitionsOf_append_singleton, after_append]
        exact hbefore.foldl name _

end EditorSchema.Attributes
