/-
How far it matters that a record comes to a class along several ways.

The definitions of a record may also be met class by class with each class visited once, where
it is visited first.  Then the same records can be given attributes, and the others fail in the
same way; and if between two visits of a class nothing takes away what the class defines, the
attributes are the same.  They are not the same in general: a class that is visited again adds
an attribute anew that a class in between has deleted.

* `Attributes.resolveOnce`: a record with its attributes, each class visited once;
* `Attributes.ValidAlike`, `Attributes.RequiredAlike`: when the keys of one attribute do not
  tell the two apart;
* `Attributes.resolveOnce_law`: when the attributes are the same;
* `Attributes.resolve_brings_back`: an attribute that is there though it was deleted.
-/
import Mathlib.Tactic
import EditorSchema.Proofs.Attributes.Revisits

namespace EditorSchema.Attributes

open Outcome

variable {t : Table} {r : Record} {dictionary : AttributeDictionary} {vs : List Spec}
variable {ds es : List AttributeDef} {x : String} {start : AttributeDictionary}

/-! ### Each class once -/

/-- What a record is given for definitions, where the dictionary so far is given. -/
def given (dictionary : AttributeDictionary) (r : Record) (ds : List AttributeDef) :
    Except SchemaFault (AttributeDictionary × Record) := do
  let p ← ds.foldlM (step r.name) { dictionary }
  return (p.dictionary, withLists r p.lists)

/-- A record with its attributes and the dictionary after it, where each class is visited
once. -/
def resolveOnce (t : Table) (dictionary : AttributeDictionary) (r : Record) :
    Except SchemaFault (AttributeDictionary × Record) :=
  match r.source with
  | none => .ok (dictionary, r)
  | some source =>
    match t.get? source with
    | none => .error (.notLoaded source r.name)
    | some s => do given dictionary r (← Ancestry.definitionsOnce t s)

/-- The specs that a record has its definitions from, visit by visit. -/
def Descends (t : Table) (r : Record) (vs : List Spec) : Prop :=
  ∃ source s, r.source = some source ∧ t.get? source = some s ∧ Ancestry.lineage t s = .ok vs

lemma Descends.unique {ws : List Spec} (h : Descends t r vs) (h' : Descends t r ws) : vs = ws := by
  obtain ⟨source, s, hsource, hs, hvs⟩ := h
  obtain ⟨source', s', hsource', hs', hws⟩ := h'
  cases hsource.symm.trans hsource'
  cases hs.symm.trans hs'
  exact Except.ok.inj (hvs.symm.trans hws)

lemma Descends.collects (h : Descends t r vs) : Collects t r (definitionsOf vs) := by
  obtain ⟨source, s, hsource, hs, hlineage⟩ := h
  exact ⟨source, s, hsource, hs, by rw [Ancestry.definitions_eq, hlineage]; rfl⟩

lemma resolveOne_of_descends (h : Descends t r vs) :
    resolveOne t dictionary r = given dictionary r (definitionsOf vs) :=
  resolveOne_of_collects h.collects

lemma resolveOnce_of_descends (hacyclic : Acyclic t.MemberOf) (h : Descends t r vs) :
    resolveOnce t dictionary r = given dictionary r (definitionsOf vs.eraseDups) := by
  obtain ⟨source, s, hsource, hs, hlineage⟩ := h
  have hself : t.get? s.ident = some s := by rw [t.keyed hs, hs]
  rw [resolveOnce, hsource]
  simp only [hs, Ancestry.definitionsOnce_eq hacyclic hself, hlineage]
  rfl

/-- Where a record has no lineage, it makes no difference how often classes are visited. -/
lemma resolveOnce_of_not_descends (hacyclic : Acyclic t.MemberOf) (h : ∀ vs, ¬ Descends t r vs) :
    resolveOnce t dictionary r = resolveOne t dictionary r := by
  rw [resolveOnce, resolveOne]
  cases hsource : r.source with
  | none => rfl
  | some source =>
      dsimp only
      cases hs : t.get? source with
      | none => rfl
      | some s =>
          have hself : t.get? s.ident = some s := by rw [t.keyed hs, hs]
          cases hlineage : Ancestry.lineage t s with
          | error fault =>
              simp only [Ancestry.definitions_eq, Ancestry.definitionsOnce_eq hacyclic hself,
                hlineage]
              rfl
          | ok vs => exact absurd ⟨source, s, hsource, hs, hlineage⟩ (h vs)

/-! ### The same faults -/

lemma given_eq_error_iff {fault : SchemaFault} : given dictionary r ds = .error fault ↔
    ∃ ident, FirstBaseless ds ident ∧ fault = .changeWithoutBase ident r.name := by
  rw [given, bind_eq_error, run_eq_error_iff]
  exact or_iff_left fun ⟨_, _, h⟩ => nomatch h

lemma given_of_based (h : ∀ ident, ¬ Baseless ds ident) : given dictionary r ds =
    .ok ((after r.name dictionary ds).dictionary,
      withLists r (after r.name dictionary ds).lists) := by
  rw [given, (run_of_based h).1]
  rfl

lemma based_of_given {out : AttributeDictionary × Record} (h : given dictionary r ds = .ok out) :
    (∀ ident, ¬ Baseless ds ident) ∧ out = ((after r.name dictionary ds).dictionary,
      withLists r (after r.name dictionary ds).lists) := by
  obtain ⟨p, hp, hout⟩ := bind_eq_ok.mp h
  obtain ⟨hbased, rfl⟩ := based_of_run hp
  exact ⟨hbased, (pure_eq_ok.mp hout).symm⟩

/-- What is known in two ways that come to the same gives the same. -/
lemma Alike.given_eq (h : Alike (after r.name dictionary ds) (after r.name dictionary es))
    (hds : ∀ ident, ¬ Baseless ds ident) (hes : ∀ ident, ¬ Baseless es ident) :
    given dictionary r ds = given dictionary r es := by
  rw [given_of_based hds, given_of_based hes, withLists, withLists, h.dictionary,
    ordered_eq_iff.mpr h.lists.valid, ordered_eq_iff.mpr h.lists.required]

/-! ### The keys of one attribute -/

/-- The definitions of an attribute leave its shared key: there is one alone or the last one adds
it. -/
def SharedValid (o : List AttributeDef) : Prop :=
  o ≠ [] ∧ (o.length = 1 ∨ ∃ d, o.getLast? = some d ∧ d.effectiveMode = .add)

/-- The definitions of an attribute leave the record's own key: a later one redefines it and
none after that deletes it. -/
def OwnValid (o : List AttributeDef) : Prop :=
  Kept (fun before d => before ≠ [] ∧ d.Redefines) (·.effectiveMode = .delete) o

/-- The definitions of an attribute leave its shared key required: the first or one that adds it
says so, and all after that add it. -/
def SharedRequired (o : List AttributeDef) : Prop :=
  Kept (fun before d => (before = [] ∨ d.effectiveMode = .add) ∧ d.isRequired = true)
    (·.effectiveMode ≠ .add) o

/-- Two lists of definitions of an attribute leave the same of its keys. -/
def ValidAlike (o o' : List AttributeDef) : Prop :=
  (SharedValid o ↔ SharedValid o') ∧ (OwnValid o ↔ OwnValid o')

/-- Two lists of definitions of an attribute leave the same of its keys required, where changes
are laid on `base`. -/
def RequiredAlike (base : Option AttributeDef) (o o' : List AttributeDef) : Prop :=
  (SharedRequired o ↔ SharedRequired o') ∧ (OwnRequired base o ↔ OwnRequired base o')

/-- Keys of attributes and a record's own keys are the same if they are so for each attribute. -/
lemma ordered_eq_iff_of_keys {name : String} {idents keys others : List String}
    (hkeys : ∀ key, key ∈ keys ∨ key ∈ others → ∃ x ∈ idents, key = x ∨ key = ownKey x name) :
    ordered keys = ordered others ↔ ∀ x ∈ idents, (x ∈ keys ↔ x ∈ others) ∧
      (ownKey x name ∈ keys ↔ ownKey x name ∈ others) := by
  rw [ordered_eq_iff]
  constructor
  · exact fun h x _ => ⟨h x, h _⟩
  · intro h key
    by_cases hin : key ∈ keys ∨ key ∈ others
    · obtain ⟨x, hx, rfl | rfl⟩ := hkeys key hin
      · exact (h _ hx).1
      · exact (h x hx).2
    · rw [not_or] at hin
      exact iff_of_false hin.1 hin.2

lemma mem_identsOf_eraseDups :
    x ∈ identsOf (definitionsOf vs.eraseDups) ↔ x ∈ identsOf (definitionsOf vs) := by
  rw [← mem_identsOf_firstDefinitions, firstDefinitions_eraseDups, mem_identsOf_firstDefinitions]

lemma baseOf_eraseDups (start : AttributeDictionary) (x : String) (vs : List Spec) :
    baseOf start x (definitionsOf vs.eraseDups) = baseOf start x (definitionsOf vs) := by
  rw [baseOf, baseOf, head?_occurrences_eraseDups]

section Free

variable (hbased : ∀ ident, ¬ Baseless (definitionsOf vs) ident)
  (hown : ∀ y ∈ identsOf (definitionsOf vs), ∀ z ∈ identsOf (definitionsOf vs),
    ownKey y r.name ≠ z)

include hbased

lemma based_eraseDups : ∀ ident, ¬ Baseless (definitionsOf vs.eraseDups) ident :=
  fun ident h => hbased ident (baseless_eraseDups.mp h)

/-- The keys that a record may have are attributes that it meets and its own keys for them. -/
lemma key_of_valid {key : String}
    (h : key ∈ (after r.name start (definitionsOf vs)).lists.valid ∨
      key ∈ (after r.name start (definitionsOf vs.eraseDups)).lists.valid) :
    ∃ x ∈ identsOf (definitionsOf vs), key = x ∨ key = ownKey x r.name := by
  have hadded {ds : List AttributeDef}
      (hlasting : Lasting (Adds r.name key) (Removes r.name key) ds) :
      ∃ x ∈ identsOf ds, key = x ∨ key = ownKey x r.name := by
    obtain ⟨before, d, rest, rfl, hd, -⟩ := hlasting
    exact ⟨d.ident, by simp [identsOf], hd.key_eq⟩
  rcases h with h | h
  · exact hadded (((follows_of_based r.name start hbased).valid key).mp h)
  · obtain ⟨x, hx, hkey⟩ :=
      hadded (((follows_of_based r.name start (based_eraseDups hbased)).valid key).mp h)
    exact ⟨x, mem_identsOf_eraseDups.mp hx, hkey⟩

/-- So are the keys that it must have. -/
lemma key_of_required {key : String}
    (h : key ∈ (after r.name start (definitionsOf vs)).lists.required ∨
      key ∈ (after r.name start (definitionsOf vs.eraseDups)).lists.required) :
    ∃ x ∈ identsOf (definitionsOf vs), key = x ∨ key = ownKey x r.name := by
  rcases h with h | h
  · exact key_of_lasting (((follows_of_based r.name start hbased).required key).mp h)
  · obtain ⟨x, hx, hkey⟩ := key_of_lasting
      (((follows_of_based r.name start (based_eraseDups hbased)).required key).mp h)
    exact ⟨x, mem_identsOf_eraseDups.mp hx, hkey⟩

include hown

/-- The law for an attribute that is met, with all visits and with the first visits. -/
lemma attributeLaw_visits (start : AttributeDictionary)
    (hx : x ∈ identsOf (definitionsOf vs)) :
    AttributeLaw (baseOf start x (definitionsOf vs)) (occurrences x (definitionsOf vs)) x
        (withLists r (after r.name start (definitionsOf vs)).lists) ∧
      AttributeLaw (baseOf start x (definitionsOf vs))
        (occurrences x (definitionsOf vs.eraseDups)) x
        (withLists r (after r.name start (definitionsOf vs.eraseDups)).lists) := by
  refine ⟨attributeLaw_of_mem hbased hown start hx, ?_⟩
  rw [← baseOf_eraseDups]
  exact attributeLaw_of_mem (based_eraseDups hbased)
    (fun y hy z hz => hown y (mem_identsOf_eraseDups.mp hy) z (mem_identsOf_eraseDups.mp hz))
    start (mem_identsOf_eraseDups.mpr hx)

/-- **When a record may have the same attributes**: if visiting classes again does not matter for
the keys of each attribute. -/
theorem valid_eq_iff : (withLists r (after r.name start (definitionsOf vs)).lists).validAttributes =
      (withLists r (after r.name start (definitionsOf vs.eraseDups)).lists).validAttributes ↔
    ∀ x ∈ identsOf (definitionsOf vs), ValidAlike (occurrences x (definitionsOf vs))
      (occurrences x (definitionsOf vs.eraseDups)) := by
  refine (ordered_eq_iff_of_keys fun key => key_of_valid hbased).trans
    (forall₂_congr fun x hx => ?_)
  obtain ⟨hlaw, honce⟩ := attributeLaw_visits hbased hown start hx
  have hshared := hlaw.shared_valid
  have hown := hlaw.own_valid
  have hshared' := honce.shared_valid
  have hown' := honce.own_valid
  rw [withLists, mem_ordered] at hshared hown hshared' hown'
  rw [hshared, hown, hshared', hown']
  rfl

/-- **When a record must have the same attributes.** -/
theorem required_eq_iff :
    (withLists r (after r.name start (definitionsOf vs)).lists).requiredAttributes =
      (withLists r (after r.name start (definitionsOf vs.eraseDups)).lists).requiredAttributes ↔
    ∀ x ∈ identsOf (definitionsOf vs), RequiredAlike (baseOf start x (definitionsOf vs))
      (occurrences x (definitionsOf vs)) (occurrences x (definitionsOf vs.eraseDups)) := by
  refine (ordered_eq_iff_of_keys fun key => key_of_required hbased).trans
    (forall₂_congr fun x hx => ?_)
  obtain ⟨hlaw, honce⟩ := attributeLaw_visits hbased hown start hx
  have hshared := hlaw.shared_required
  have hown := hlaw.own_required
  have hshared' := honce.shared_required
  have hown' := honce.own_required
  rw [withLists, mem_ordered] at hshared hown hshared' hown'
  rw [hshared, hown, hshared', hown']
  rfl

end Free

/-! ### All visits and first visits -/

/-- **How far it matters that a class is visited again**, where memberships have no circle.  The
same records fail, and in the same way.  If nothing is taken away between two visits of a class,
a record is given the same attributes and leaves the same dictionary.  And where the keys of a
record are free, it is given the same attributes just if the definitions of each attribute, with
all visits and with the first visits, leave the same of its keys. -/
theorem resolveOnce_law (hacyclic : Acyclic t.MemberOf) (r : Record)
    (dictionary : AttributeDictionary) :
    (∀ fault, resolveOnce t dictionary r = .error fault ↔
      resolveOne t dictionary r = .error fault) ∧
    ((∀ vs, Descends t r vs → Undisturbed r.name vs) →
      resolveOnce t dictionary r = resolveOne t dictionary r) ∧
    ∀ vs left all left' once, Descends t r vs → KeysFree t [r] →
      resolveOne t dictionary r = .ok (left, all) →
      resolveOnce t dictionary r = .ok (left', once) →
      (all.validAttributes = once.validAttributes ↔ ∀ x ∈ identsOf (definitionsOf vs),
        ValidAlike (occurrences x (definitionsOf vs))
          (occurrences x (definitionsOf vs.eraseDups))) ∧
      (all.requiredAttributes = once.requiredAttributes ↔ ∀ x ∈ identsOf (definitionsOf vs),
        RequiredAlike (baseOf dictionary x (definitionsOf vs))
          (occurrences x (definitionsOf vs)) (occurrences x (definitionsOf vs.eraseDups))) := by
  refine ⟨fun fault => ?_, fun hund => ?_, fun vs left all left' once hvs hfree hall honce => ?_⟩
  · by_cases hlineage : ∃ vs, Descends t r vs
    · obtain ⟨vs, hvs⟩ := hlineage
      rw [resolveOne_of_descends hvs, resolveOnce_of_descends hacyclic hvs, given_eq_error_iff,
        given_eq_error_iff]
      simp only [firstBaseless_eraseDups]
    · rw [resolveOnce_of_not_descends hacyclic fun vs hvs => hlineage ⟨vs, hvs⟩]
  · by_cases hlineage : ∃ vs, Descends t r vs
    · obtain ⟨vs, hvs⟩ := hlineage
      rw [resolveOne_of_descends hvs, resolveOnce_of_descends hacyclic hvs]
      by_cases hbased : ∀ ident, ¬ Baseless (definitionsOf vs) ident
      · exact ((alike_eraseDups (hund vs hvs) hbased).given_eq hbased
          (based_eraseDups hbased)).symm
      · obtain ⟨ident, hident⟩ := not_forall_not.mp hbased
        obtain ⟨first, hfirst⟩ := exists_firstBaseless hident
        rw [given_eq_error_iff.mpr ⟨first, hfirst, rfl⟩,
          given_eq_error_iff.mpr ⟨first, firstBaseless_eraseDups.mpr hfirst, rfl⟩]
    · exact resolveOnce_of_not_descends hacyclic fun vs hvs => hlineage ⟨vs, hvs⟩
  · rw [resolveOne_of_descends hvs] at hall
    rw [resolveOnce_of_descends hacyclic hvs] at honce
    obtain ⟨hbased, hall⟩ := based_of_given hall
    obtain ⟨-, honce⟩ := based_of_given honce
    cases hall
    cases honce
    have hin {y : String} (hy : y ∈ identsOf (definitionsOf vs)) : y ∈ t.attributeIdents :=
      hvs.collects.mem_attributeIdents hy
    have hown : ∀ y ∈ identsOf (definitionsOf vs), ∀ z ∈ identsOf (definitionsOf vs),
        ownKey y r.name ≠ z :=
      fun y hy z hz => hfree.ne (List.mem_singleton_self r) (hin hy) (hin hz)
    exact ⟨valid_eq_iff hbased hown, required_eq_iff hbased hown⟩

/-- A class that defines an attribute. -/
def sharedClass : ClassSpec :=
  { ident := "att.shared", kind := .attributes, attributes := [.own { ident := "key" }] }

/-- A class that belongs to it. -/
def sharingClass (ident : String) : ClassSpec :=
  { ident, kind := .attributes, memberships := ["att.shared"] }

/-- An element that comes to it along two ways, and changes the attribute. -/
def changingElement : ElementSpec where
  ident := "p"
  memberships := ["att.left", "att.right"]
  attributes := [.own { ident := "key", mode := some .change }]

/-- The class with two that belong to it, one that deletes its attribute, and elements that come
to it along both ways, one of them by way of the deleting class in between. -/
def diamondTable : Table := .ofList [
  .ofClass sharedClass,
  .ofClass (sharingClass "att.left"),
  .ofClass (sharingClass "att.right"),
  .ofClass {
    ident := "att.none"
    kind := .attributes
    attributes := [.own { ident := "key", mode := some .delete }] },
  .ofElement changingElement,
  .ofElement { ident := "gap", memberships := ["att.left", "att.none", "att.right"] }]

/-- How many memberships lead up from an ident of the table. -/
def diamondRank (ident : String) : ℕ :=
  if ident ∈ ["p", "gap"] then 2 else if ident ∈ ["att.left", "att.right"] then 1 else 0

lemma acyclic_diamondTable : Acyclic diamondTable.MemberOf := by
  have hdown : ∀ s ∈ diamondTable.toList, ∀ group ∈ s.memberships,
      diamondRank group < diamondRank s.ident := by decide
  refine acyclic_of_rank diamondRank fun member group ⟨s, hs, hgroup⟩ => ?_
  rw [← diamondTable.keyed hs]
  exact hdown s (Table.mem_toList_of_get? hs) group hgroup

/-- The classes that the changing element comes to, visit by visit. -/
def diamondVisits : List Spec :=
  [.ofClass sharedClass, .ofClass (sharingClass "att.left"), .ofClass sharedClass,
    .ofClass (sharingClass "att.right")]

/-- The changing element is given the same attributes whether it comes to the shared class once or
along both ways, as nothing in between disturbs them. -/
theorem resolveOnce_law_diamond : ∃ vs left all,
    vs = diamondVisits ++ [.ofElement changingElement] ∧ Acyclic diamondTable.MemberOf ∧
    Descends diamondTable (recordOf "p") vs ∧ KeysFree diamondTable [recordOf "p"] ∧
    (∀ vs, Descends diamondTable (recordOf "p") vs → Undisturbed "p" vs) ∧
    resolveOne diamondTable .empty (recordOf "p") = .ok (left, all) ∧
    all.validAttributes = ["key-p"] ∧
    resolveOnce diamondTable .empty (recordOf "p") = .ok (left, all) ∧
    ∀ x ∈ identsOf (definitionsOf vs), ValidAlike (occurrences x (definitionsOf vs))
      (occurrences x (definitionsOf vs.eraseDups)) := by
  have hfree : KeysFree diamondTable [recordOf "p"] := by decide
  have hdescends : Descends diamondTable (recordOf "p")
      (diamondVisits ++ [.ofElement changingElement]) := ⟨"p", _, rfl, rfl, by cbv⟩
  have hund : ∀ vs, Descends diamondTable (recordOf "p") vs → Undisturbed "p" vs := by
    intro vs hvs
    have hadds : ∀ d ∈ definitionsOf diamondVisits, d.effectiveMode = .add := by decide
    have hnew : .ofElement changingElement ∉ diamondVisits := by decide
    rw [hvs.unique hdescends]
    exact (undisturbed_of_adds hadds).append_new hnew
  have hall : resolveOne diamondTable .empty (recordOf "p") = .ok (
      .ofList [("key", { ident := "key" }), ("key-p", { ident := "key", mode := some .change })],
      { recordOf "p" with validAttributes := ["key-p"] }) := by
    cbv
  obtain ⟨-, hsame, hkeys⟩ := resolveOnce_law acyclic_diamondTable (recordOf "p") .empty
  have honce := (hsame hund).trans hall
  exact ⟨_, _, _, rfl, acyclic_diamondTable, hdescends, hfree, hund, hall, rfl, honce,
    (hkeys _ _ _ _ _ hdescends hfree hall honce).1.mp rfl⟩

/-- **A class that is visited again brings back what was deleted**: a gap that has its key deleted
between two ways to the class that defines it has the key in the end. -/
theorem resolve_brings_back :
    ¬ ∀ (t : Table) (r : Record) (dictionary left left' : AttributeDictionary) (all once : Record),
      Acyclic t.MemberOf → resolveOne t dictionary r = .ok (left, all) →
      resolveOnce t dictionary r = .ok (left', once) →
      all.validAttributes = once.validAttributes ∧
        all.requiredAttributes = once.requiredAttributes := by
  intro h
  have hall : resolveOne diamondTable .empty (recordOf "gap") = .ok (
      .ofList [("key", { ident := "key" })],
      { recordOf "gap" with validAttributes := ["key"] }) := by
    cbv
  have honce : resolveOnce diamondTable .empty (recordOf "gap") = .ok (
      .ofList [("key", { ident := "key" })], recordOf "gap") := by
    cbv
  obtain ⟨hvalid, -⟩ := h _ _ _ _ _ _ _ acyclic_diamondTable hall honce
  exact absurd hvalid (by decide)

end EditorSchema.Attributes
