/-
What the definitions of one attribute say about its keys.

A record may have an attribute under two keys: that of the attribute, which all records share,
and a key of its own.  Which of them are in the lists of the record in the end, and which are
required, can be told from the definitions of this one attribute that the record meets, in
their order: the definitions of other attributes in between do not matter.  Only whether a
change makes the own key required depends on more, namely on the definition that the
dictionary holds for the attribute.

* `Attributes.KeysFree`: no key of a record is the name of an attribute;
* `Attributes.AttributeLaw`: the law for one attribute;
* `Attributes.attributeLaw_of_based`: the lists of a record obey it;
* `Attributes.resolve_law`: how records are given their attributes.
-/
import Mathlib.Tactic
import EditorSchema.Proofs.Attributes.Records

namespace EditorSchema.Attributes

open Outcome

variable {name x : String} {before ds : List AttributeDef} {d : AttributeDef}
variable {start : AttributeDictionary}

/-! ### What one definition does to the keys of an attribute -/

section Keys

lemma adds_shared (hx : x ≠ ownKey d.ident name) : Adds name x before d ↔
    d.ident = x ∧ (occurrences x before = [] ∨ d.effectiveMode = .add) := by
  rw [occurrences_eq_nil, Adds]
  have hne : x = d.ident ↔ d.ident = x := eq_comm
  by_cases hmet : d.ident ∈ identsOf before
  · cases hmode : d.effectiveMode <;> simp only [hmet, if_true, hx, hne, reduceCtorEq, or_false,
      or_true, and_true, false_iff, not_and, not_not]
    all_goals exact fun heq => heq ▸ hmet
  · simp only [hmet, if_false, hne]
    exact ⟨fun heq => ⟨heq, .inl (heq ▸ hmet)⟩, And.left⟩

lemma removes_shared (hx : x ≠ ownKey d.ident name) : Removes name x before d ↔
    d.ident = x ∧ occurrences x before ≠ [] ∧ d.effectiveMode ≠ .add := by
  rw [ne_eq, occurrences_eq_nil, not_not, Removes]
  have hne : x = d.ident ↔ d.ident = x := eq_comm
  cases hmode : d.effectiveMode <;> simp only [hx, hne, ne_eq, reduceCtorEq, not_true,
    not_false_iff, and_true, and_false, or_false]
  all_goals exact ⟨fun h => ⟨h.2, h.2 ▸ h.1⟩, fun h => ⟨h.1 ▸ h.2, h.1⟩⟩

lemma adds_own (hx : ownKey x name ≠ d.ident) : Adds name (ownKey x name) before d ↔
    d.ident = x ∧ occurrences x before ≠ [] ∧ d.Redefines := by
  rw [ne_eq, occurrences_eq_nil, not_not, Adds, AttributeDef.Redefines]
  have hne : x = d.ident ↔ d.ident = x := eq_comm
  by_cases hmet : d.ident ∈ identsOf before
  · cases hmode : d.effectiveMode <;> simp only [hmet, if_true, hx, hne, ownKey_inj, reduceCtorEq,
      or_false, or_true, or_self, and_true, and_false]
    all_goals exact ⟨fun heq => ⟨heq, heq ▸ hmet⟩, And.left⟩
  · simp only [hmet, if_false, hx, false_iff]
    exact fun h => hmet (h.1 ▸ h.2.1)

lemma removes_own (hx : ownKey x name ≠ d.ident) : Removes name (ownKey x name) before d ↔
    d.ident = x ∧ occurrences x before ≠ [] ∧ d.effectiveMode = .delete := by
  rw [ne_eq, occurrences_eq_nil, not_not, Removes]
  have hne : x = d.ident ↔ d.ident = x := eq_comm
  cases hmode : d.effectiveMode <;> simp only [hx, hne, ownKey_inj, reduceCtorEq, false_or,
    and_true, and_false]
  exact ⟨fun h => ⟨h.2, h.2 ▸ h.1⟩, fun h => ⟨h.1 ▸ h.2, h.1⟩⟩

end Keys

/-! ### The law for one attribute -/

/-- A later definition of an attribute makes it required for the record alone, where `base` is
the definition that a change is laid on: by its own words, or since what it changes did. -/
def MakesRequired (base : Option AttributeDef) (d : AttributeDef) : Prop :=
  d.Redefines ∧ (d.isRequired = true ∨ d.effectiveMode = .change ∧ Requires base)

/-- The key that a record has of its own for an attribute is required, where `o` are the
definitions of the attribute that the record meets. -/
def OwnRequired (base : Option AttributeDef) (o : List AttributeDef) : Prop :=
  Kept (fun before d => before ≠ [] ∧ MakesRequired base d) (·.effectiveMode = .delete) o

/-- **The law for one attribute**, where `o` are its definitions that a record meets, in order,
and `base` is the definition that the dictionary holds for it. -/
structure AttributeLaw (base : Option AttributeDef) (o : List AttributeDef) (ident : String)
    (r : Record) : Prop where
  /-- The shared key is there if there is one definition alone or the last one adds it. -/
  shared_valid : ident ∈ r.validAttributes ↔
    o ≠ [] ∧ (o.length = 1 ∨ ∃ d, o.getLast? = some d ∧ d.effectiveMode = .add)
  /-- The own key is there if a later definition redefines the attribute and none after it
  deletes it. -/
  own_valid : ownKey ident r.name ∈ r.validAttributes ↔
    Kept (fun before d => before ≠ [] ∧ d.Redefines) (·.effectiveMode = .delete) o
  /-- The shared key is required if the first definition or one that adds the attribute says
  so, and all after it add it. -/
  shared_required : ident ∈ r.requiredAttributes ↔
    Kept (fun before d => (before = [] ∨ d.effectiveMode = .add) ∧ d.isRequired = true)
      (·.effectiveMode ≠ .add) o
  /-- The own key is required if a later definition makes it so and none after it deletes it. -/
  own_required : ownKey ident r.name ∈ r.requiredAttributes ↔ OwnRequired base o

/-! ### The lists of one record -/

section Lists

/-- What a record goes through counts for a key of an attribute only where it defines the
attribute. -/
lemma lasting_iff_kept_occurrences {does undoes : List AttributeDef → AttributeDef → Prop}
    {brings : List AttributeDef → AttributeDef → Prop} {takes : AttributeDef → Prop}
    (hdoes : ∀ before d after, ds = before ++ d :: after →
      (does before d ↔ d.ident = x ∧ brings (occurrences x before) d))
    (hundoes : ∀ before d after, ds = before ++ d :: after →
      (undoes before d ↔ d.ident = x ∧ occurrences x before ≠ [] ∧ takes d)) :
    Lasting does undoes ds ↔ Kept brings takes (occurrences x ds) := by
  rw [← lasting_iff_kept, occurrences]
  refine lasting_filter (fun before d after hds hd => ?_) (fun before d after hds hd => ?_)
    fun before d after hds hd => ?_
  · rw [hdoes before d after hds, hundoes before d after hds]
    simp only [beq_eq_false_iff_ne] at hd
    exact ⟨fun h => hd h.1, fun h => hd h.1⟩
  · rw [hdoes before d after hds, and_iff_right (beq_iff_eq.mp hd), occurrences]
  · rw [hundoes before d after hds, and_iff_right (beq_iff_eq.mp hd), occurrences]

/-- Whether the first definition or the last one adds an attribute is all that counts. -/
lemma kept_add_iff {o : List AttributeDef} :
    Kept (fun before d => before = [] ∨ d.effectiveMode = .add) (·.effectiveMode ≠ .add) o ↔
      o ≠ [] ∧ (o.length = 1 ∨ ∃ d, o.getLast? = some d ∧ d.effectiveMode = .add) := by
  constructor
  · rintro ⟨before, d, after, rfl, hd, hafter⟩
    refine ⟨by simp, ?_⟩
    rcases List.eq_nil_or_concat' after with rfl | ⟨after, last, rfl⟩
    · rcases hd with rfl | hadd
      · exact .inl rfl
      · exact .inr ⟨d, by simp, hadd⟩
    · refine .inr ⟨last, ?_, not_not.mp (hafter last (by simp))⟩
      rw [← List.cons_append, ← List.append_assoc, List.getLast?_concat]
  · rintro ⟨hne, h⟩
    obtain ⟨before, last, rfl⟩ := (List.eq_nil_or_concat' o).resolve_left hne
    refine ⟨before, last, [], rfl, ?_, by simp⟩
    rcases h with hone | ⟨d, hd, hadd⟩
    · exact .inl (by simpa using hone)
    · rw [List.getLast?_concat] at hd
      exact .inr (Option.some.inj hd ▸ hadd)

section Law

variable {r : Record} (hown : ∀ y ∈ x :: identsOf ds, ∀ z ∈ x :: identsOf ds, ownKey y r.name ≠ z)

include hown

/-- A definition has neither the record's own key for the attribute as its name, nor the
attribute as the record's own key. -/
lemma ne_of_split {rest : List AttributeDef} (hds : ds = before ++ d :: rest) :
    x ≠ ownKey d.ident r.name ∧ ownKey x r.name ≠ d.ident := by
  have hmem : d.ident ∈ x :: identsOf ds := by simp [identsOf, hds]
  exact ⟨(hown _ hmem x List.mem_cons_self).symm, hown x List.mem_cons_self _ hmem⟩

/-- A change of the attribute is laid on the definition that holds for it in the end. -/
lemma laidOnRequired_of_split (hbased : ∀ ident, ¬ Baseless ds ident) {rest : List AttributeDef}
    (hds : ds = before ++ d :: rest) (hd : d.ident = x) :
    LaidOnRequired r.name start before d ↔ occurrences x before ≠ [] ∧
      d.effectiveMode = .change ∧ Requires (baseOf start x ds) := by
  subst hds
  rw [laidOnRequired_iff hbased fun e he => ?_, hd, ne_eq, occurrences_eq_nil, not_not]
  rw [hd]
  refine (hown _ (List.mem_cons_of_mem _ (List.mem_map_of_mem ?_)) x List.mem_cons_self).symm
  exact List.mem_append_left _ he

/-- **The lists of a record obey the law** for every attribute whose keys are free. -/
theorem attributeLaw_of_based (hbased : ∀ ident, ¬ Baseless ds ident) :
    AttributeLaw (baseOf start x ds) (occurrences x ds) x
      (withLists r (after r.name start ds).lists) := by
  have hfollows := follows_of_based r.name start hbased
  constructor
  · rw [withLists, mem_ordered, hfollows.valid, ← kept_add_iff]
    exact lasting_iff_kept_occurrences
      (fun before d rest hds => adds_shared (ne_of_split hown hds).1)
      fun before d rest hds => removes_shared (ne_of_split hown hds).1
  · rw [withLists, mem_ordered, hfollows.valid]
    exact lasting_iff_kept_occurrences
      (fun before d rest hds => adds_own (ne_of_split hown hds).2)
      fun before d rest hds => removes_own (ne_of_split hown hds).2
  · rw [withLists, mem_ordered, hfollows.required]
    refine lasting_iff_kept_occurrences (fun before d rest hds => ?_)
      fun before d rest hds => removes_shared (ne_of_split hown hds).1
    rw [Demands, adds_shared (ne_of_split hown hds).1, and_assoc]
    refine and_congr_right fun hd => ?_
    rw [laidOnRequired_of_split hown hbased hds hd]
    -- what is laid on another definition is a change, and adds the own key instead
    constructor
    · rintro ⟨hadds, hreq | ⟨hmet, hmode, -⟩⟩
      · exact ⟨hadds, hreq⟩
      · exact absurd (hadds.resolve_left hmet) (by simp [hmode])
    · exact fun h => ⟨h.1, .inl h.2⟩
  · rw [withLists, mem_ordered, hfollows.required, OwnRequired]
    refine lasting_iff_kept_occurrences (fun before d rest hds => ?_)
      fun before d rest hds => removes_own (ne_of_split hown hds).2
    rw [Demands, adds_own (ne_of_split hown hds).2, and_assoc]
    refine and_congr_right fun hd => ?_
    rw [laidOnRequired_of_split hown hbased hds hd, MakesRequired]
    tauto

end Law

end Lists

/-! ### The shared dictionary -/

section Shared

variable {t : Table} {r r' : Record} {records out : List Record}
variable {dictionary dictionary' : AttributeDictionary} {v : AttributeDef}

/-- No key of a record is the name of an attribute. -/
def KeysFree (t : Table) (records : List Record) : Prop :=
  ∀ x ∈ t.attributeIdents, ∀ r ∈ records, ownKey x r.name ∉ t.attributeIdents

instance : Decidable (KeysFree t records) :=
  inferInstanceAs (Decidable (∀ x ∈ t.attributeIdents, ∀ r ∈ records,
    ownKey x r.name ∉ t.attributeIdents))

lemma KeysFree.ne (h : KeysFree t records) {y z : String} (hr : r ∈ records)
    (hy : y ∈ t.attributeIdents) (hz : z ∈ t.attributeIdents) : ownKey y r.name ≠ z :=
  fun heq => h y hy r hr (heq ▸ hz)

lemma KeysFree.mono {others : List Record} (h : KeysFree t records)
    (hsub : ∀ r ∈ others, r ∈ records) : KeysFree t others :=
  fun x hx r hr => h x hx r (hsub r hr)

/-- What a record leaves under an attribute. -/
lemma get?_resolveOne (hfree : KeysFree t [r]) (hx : x ∈ t.attributeIdents)
    (h : resolveOne t dictionary r = .ok (dictionary', r')) (hds : Collects t r ds) :
    dictionary'.get? x = baseOf dictionary x ds := by
  rcases resolveOne_eq_ok_iff.mp h with ⟨hsource, -, -⟩ | ⟨es, hes, hbased, rfl, -⟩
  · obtain ⟨source, s, hs, -⟩ := hds
    cases hsource.symm.trans hs
  · cases hes.unique hds
    exact get?_after hbased fun d hd _ =>
      (hfree.ne (by simp) (hds.mem_attributeIdents (List.mem_map_of_mem hd)) hx).symm

/-- What is under an attribute stays there while records are given their attributes. -/
lemma get?_resolveAll (hfree : KeysFree t records) (hx : x ∈ t.attributeIdents)
    (h : resolveAll t dictionary records = .ok (dictionary', out))
    (hv : dictionary.get? x = some v) : dictionary'.get? x = some v := by
  induction records generalizing dictionary out with
  | nil =>
      cases h
      exact hv
  | cons r rest ih =>
      obtain ⟨between, first, others, hfirst, hothers, -⟩ := resolveAll_cons.mp h
      refine ih (hfree.mono fun r hr => List.mem_cons_of_mem _ hr) hothers ?_
      rcases resolveOne_eq_ok_iff.mp hfirst with ⟨-, rfl, -⟩ | ⟨ds, hds, -, -, -⟩
      · exact hv
      · rw [get?_resolveOne (hfree.mono (by simp)) hx hfirst hds, baseOf, hv]
        rfl

/-- **The base of a change** is what the dictionary holds in the end for its attribute. -/
theorem get?_eq_baseOf (hfree : KeysFree t (r :: records)) (hx : x ∈ identsOf ds)
    (hds : Collects t r ds) (hfirst : resolveOne t dictionary r = .ok (dictionary', r'))
    {last : AttributeDictionary} (h : resolveAll t dictionary' records = .ok (last, out)) :
    last.get? x = baseOf dictionary x ds := by
  have hxt : x ∈ t.attributeIdents := hds.mem_attributeIdents hx
  have hleft := get?_resolveOne (hfree.mono (by simp)) hxt hfirst hds
  obtain ⟨v, hv⟩ : ∃ v, baseOf dictionary x ds = some v := by
    rw [← not_not (a := x ∈ identsOf ds), ← occurrences_eq_nil] at hx
    obtain ⟨d, hd⟩ := Option.ne_none_iff_exists'.mp (mt List.head?_eq_none_iff.mp hx)
    rw [baseOf, hd]
    cases dictionary.get? x <;> simp
  rw [hv] at hleft ⊢
  exact get?_resolveAll (hfree.mono fun r hr => List.mem_cons_of_mem _ hr) hxt h hleft

lemma get?_hide {keys : List String} : (hide keys dictionary).get? x =
    (dictionary.get? x).map fun d => if keys.contains x then { d with hidden := true } else d :=
  Dictionary.get?_map ..

/-- Whether a definition is hidden does not matter for what it requires. -/
lemma requires_hide {keys : List String} :
    Requires ((hide keys dictionary).get? x) ↔ Requires (dictionary.get? x) := by
  rw [get?_hide]
  cases dictionary.get? x with
  | none => rfl
  | some d => by_cases h : x ∈ keys <;> simp [Requires, AttributeDef.isRequired, h]

end Shared

/-! ### Records and the law -/

section Records

variable {t : Table} {r r' : Record} {records out : List Record}
variable {dictionary dictionary' : AttributeDictionary}

/-- What a change is laid on matters only where an attribute is defined twice. -/
lemma ownRequired_congr {base base' : Option AttributeDef} {o : List AttributeDef}
    (h : o ≠ [] → (Requires base ↔ Requires base')) :
    OwnRequired base o ↔ OwnRequired base' o := by
  refine exists_congr fun before => exists_congr fun d => exists_congr fun after =>
    and_congr_right fun ho => ?_
  simp only [MakesRequired, h (by simp [ho])]

/-- What a record is given when it is its turn, where the dictionary in the end is known. -/
lemma attributeLaw_resolveOne (hfree : KeysFree t (r :: records))
    (hfirst : resolveOne t dictionary r = .ok (dictionary', r'))
    {last : AttributeDictionary} (h : resolveAll t dictionary' records = .ok (last, out))
    (hds : Collects t r ds) (hx : x ∈ t.attributeIdents) :
    AttributeLaw (last.get? x) (occurrences x ds) x r' := by
  rcases resolveOne_eq_ok_iff.mp hfirst with ⟨hsource, -, -⟩ | ⟨es, hes, hbased, -, rfl⟩
  · obtain ⟨source, s, hs, -⟩ := hds
    cases hsource.symm.trans hs
  · cases hes.unique hds
    have hin {y : String} (hy : y ∈ x :: identsOf ds) : y ∈ t.attributeIdents :=
      (List.mem_cons.mp hy).elim (fun heq => heq ▸ hx) hds.mem_attributeIdents
    have hlaw : AttributeLaw (baseOf dictionary x ds) (occurrences x ds) x
        (withLists r (after r.name dictionary ds).lists) :=
      attributeLaw_of_based
        (fun y hy z hz => hfree.ne List.mem_cons_self (hin hy) (hin hz)) hbased
    refine { hlaw with own_required := hlaw.own_required.trans (ownRequired_congr fun ho => ?_) }
    rw [get?_eq_baseOf hfree (not_not.mp (mt occurrences_eq_nil.mpr ho)) hds hfirst h]

/-- A record that is given its attributes as the law says for each of them. -/
structure Given (t : Table) (dictionary : AttributeDictionary) (r r' : Record) : Prop where
  /-- Nothing but the lists of attributes changes. -/
  same : SameButAttributes r r'
  law : ∀ ds, Collects t r ds → ∀ x ∈ t.attributeIdents,
    AttributeLaw (dictionary.get? x) (occurrences x ds) x r'

lemma given_of_resolveAll {last : AttributeDictionary} (hfree : KeysFree t records)
    (h : resolveAll t dictionary records = .ok (last, out)) :
    List.Forall₂ (Given t last) records out := by
  induction records generalizing dictionary out with
  | nil =>
      cases h
      exact .nil
  | cons r rest ih =>
      obtain ⟨between, first, others, hfirst, hothers, rfl⟩ := resolveAll_cons.mp h
      refine .cons ⟨sameButAttributes_of_resolveOne hfirst, fun ds hds x hx => ?_⟩
        (ih (hfree.mono fun r hr => List.mem_cons_of_mem _ hr) hothers)
      exact attributeLaw_resolveOne hfree hfirst hothers hds hx

/-- Hiding attributes does not change what holds for records. -/
lemma Given.hide {keys : List String} (h : Given t dictionary r r') :
    Given t (Attributes.hide keys dictionary) r r' where
  same := h.same
  law ds hds x hx := { h.law ds hds x hx with
    own_required := (h.law ds hds x hx).own_required.trans
      (ownRequired_congr fun _ => requires_hide.symm) }

/-- **How records are given their attributes.**  A record whose ancestry is whole fails only at
the first attribute whose first definition redefines it, whatever the dictionary holds; all
records are given their attributes if each with a source has a whole ancestry without such
an attribute; and then the lists of each obey the law for every attribute. -/
theorem resolve_law (t : Table) (hidden : List String) (records : List Record) :
    (∀ r ds dictionary, Collects t r ds →
      ((∃ fault, resolveOne t dictionary r = .error fault) ↔ ∃ x, Baseless ds x) ∧
      ∀ fault, resolveOne t dictionary r = .error fault →
        ∃ x, FirstBaseless ds x ∧ fault = .changeWithoutBase x r.name) ∧
    ((∃ out, resolve t hidden records = .ok out) ↔ ∀ r ∈ records, r.source = none ∨
      ∃ ds, Collects t r ds ∧ ∀ x, ¬ Baseless ds x) ∧
    (KeysFree t records → ∀ dictionary out, resolve t hidden records = .ok (dictionary, out) →
      List.Forall₂ (Given t dictionary) records out) := by
  refine ⟨fun r ds dictionary hds => ⟨?_, fun fault => (resolveOne_eq_error_iff hds).mp⟩, ?_,
    fun hfree dictionary out h => ?_⟩
  · constructor
    · rintro ⟨fault, h⟩
      obtain ⟨x, hx, -⟩ := (resolveOne_eq_error_iff hds).mp h
      exact ⟨x, hx.baseless⟩
    · rintro ⟨x, hx⟩
      obtain ⟨first, hfirst⟩ := exists_firstBaseless hx
      exact ⟨_, (resolveOne_eq_error_iff hds).mpr ⟨first, hfirst, rfl⟩⟩
  · have hall : (∃ out, resolveAll t .empty records = .ok out) ↔ ∀ r ∈ records, Resolvable t r :=
      exists_resolveAll_iff
    refine Iff.trans ?_ hall
    constructor
    · rintro ⟨⟨dictionary, out⟩, h⟩
      obtain ⟨last, hall, -⟩ := resolve_eq_ok_iff.mp h
      exact ⟨_, hall⟩
    · rintro ⟨⟨last, out⟩, hall⟩
      exact ⟨_, resolve_eq_ok_iff.mpr ⟨last, hall, rfl⟩⟩
  · obtain ⟨last, hall, rfl⟩ := resolve_eq_ok_iff.mp h
    exact (given_of_resolveAll hfree hall).imp fun r r' => Given.hide

/-- A class that requires an attribute, a member that changes it, an element that changes it
without being a member, and one that has an attribute of the same name. -/
def keyedTable : Table := .ofList [
  .ofClass {
    ident := "att.keyed"
    kind := .attributes
    attributes := [.own { ident := "key", usage := some .required }] },
  .ofElement {
    ident := "person"
    memberships := ["att.keyed"]
    attributes := [.own { ident := "key", mode := some .change }] },
  .ofElement {
    ident := "place"
    attributes := [.own { ident := "key", mode := some .change }] },
  .ofElement { ident := "lock", attributes := [.own { ident := "key" }] }]

/-- The record of an element, without its attributes. -/
def recordOf (ident : String) : Record :=
  { name := ident, form := .node, origin := .hard, source := some ident }

/-- A place changes an attribute that none of its classes defines, and fails.  A person is given
what the law says. -/
theorem resolve_law_keyed :
    (∃ fault, resolveOne keyedTable .empty (recordOf "place") = .error fault) ∧
    KeysFree keyedTable [recordOf "person"] ∧ ∃ dictionary r',
      resolve keyedTable [] [recordOf "person"] = .ok (dictionary, [r']) ∧
        Given keyedTable dictionary (recordOf "person") r' := by
  have hcollects :
      Collects keyedTable (recordOf "place") [{ ident := "key", mode := some .change }] :=
    ⟨"place", _, rfl, rfl, by cbv⟩
  have hfree : KeysFree keyedTable [recordOf "person"] := by decide
  have hresolve : resolve keyedTable [] [recordOf "person"] = .ok (
      .ofList [
        ("key", { ident := "key", usage := some .required }),
        ("key-person", { ident := "key", usage := some .required, mode := some .change })],
      [{ recordOf "person" with
        validAttributes := ["key-person"], requiredAttributes := ["key-person"] }]) := by
    cbv
  obtain ⟨hone, -, -⟩ := resolve_law keyedTable [] [recordOf "place"]
  obtain ⟨-, -, hlaw⟩ := resolve_law keyedTable [] [recordOf "person"]
  refine ⟨(hone _ _ _ hcollects).1.mpr ⟨"key", _, rfl, .inl rfl⟩, hfree, _, _, hresolve, ?_⟩
  exact (List.forall₂_cons.mp (hlaw hfree _ _ hresolve)).1

end Records

end EditorSchema.Attributes
