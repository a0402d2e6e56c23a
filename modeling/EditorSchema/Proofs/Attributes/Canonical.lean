/-
The keys in the lists of a record, and those of the dictionary.

A key comes into the lists of a record together with its definition in the dictionary, a key
that the record must have is one that it may have, and the dictionary loses no key.  So the
keys of a record have definitions, and beside a definition that a record has of its own for an
attribute there is one of the attribute, whatever attributes and records are called.

* `Attributes.key_of_mem_valid`: where the keys of a record come from;
* `Attributes.Listed`, `Attributes.Canonical`: how a record is left;
* `Attributes.resolve_canonical`: all records are left like this.
-/
import Mathlib.Tactic
import EditorSchema.Proofs.Attributes.Independence
import EditorSchema.Proofs.Attributes.Writes

namespace EditorSchema.Attributes

variable {name key x : String} {ds : List AttributeDef} {d : AttributeDef}
variable {start dictionary last : AttributeDictionary}

/-! ### The lists of one record -/

/-- A key in the lists of a record is an attribute that the record meets, or its own key for one
that is redefined. -/
lemma key_of_mem_valid (hbased : ∀ ident, ¬ Baseless ds ident)
    (hkey : key ∈ (after name start ds).lists.valid) :
    key ∈ identsOf ds ∨ ∃ x, redefinitions x ds ≠ [] ∧ key = ownKey x name := by
  obtain ⟨before, d, rest, rfl, hadds, -⟩ :=
    ((follows_of_based name start hbased).valid key).mp hkey
  have hmem : d.ident ∈ identsOf (before ++ d :: rest) := by simp [identsOf]
  rw [Adds] at hadds
  split at hadds
  · next hmet =>
    have hown (hred : d.Redefines) : redefinitions d.ident (before ++ d :: rest) ≠ [] :=
      List.ne_nil_of_mem (mem_redefinitions hmet hred)
    cases hmode : d.effectiveMode with
    | change => exact .inr ⟨d.ident, hown (.inl hmode), by simpa [hmode] using hadds⟩
    | replace => exact .inr ⟨d.ident, hown (.inr hmode), by simpa [hmode] using hadds⟩
    | add =>
        have hkey : key = d.ident := by simpa [hmode] using hadds
        exact .inl (hkey ▸ hmem)
    | delete => simp [hmode] at hadds
  · exact .inl (hadds ▸ hmem)

/-- A key that a record must have is one that it may have. -/
lemma mem_valid_of_mem_required (hbased : ∀ ident, ¬ Baseless ds ident)
    (hkey : key ∈ (after name start ds).lists.required) :
    key ∈ (after name start ds).lists.valid := by
  have hfollows := follows_of_based name start hbased
  rw [hfollows.valid]
  exact ((hfollows.required key).mp hkey).imp fun _ _ hdemands => hdemands.1

/-! ### All records -/

variable {t : Table} {hidden : List String} {r r' : Record} {records out : List Record}

/-- The lists of a record that has a source, where `r'` is the record `r` with its attributes. -/
structure Listed (t : Table) (dictionary : AttributeDictionary) (r r' : Record) : Prop where
  /-- What it must have, it may have. -/
  required_valid : ∀ key ∈ r'.requiredAttributes, key ∈ r'.validAttributes
  /-- What it may have is an attribute that it meets or a key that it owns, -/
  valid_met : ∀ key ∈ r'.validAttributes, key ∈ identsOf (definitionsMet t r) ∨ Owns t r key
  /-- and there is a definition of it. -/
  valid_defined : ∀ key ∈ r'.validAttributes, key ∈ dictionary.keys
  /-- The keys are in order, each once. -/
  valid_increasing : r'.validAttributes.Pairwise (· < ·)
  required_increasing : r'.requiredAttributes.Pairwise (· < ·)

/-- How a record is left when all records have their attributes. -/
structure Canonical (t : Table) (dictionary : AttributeDictionary) (r r' : Record) : Prop where
  /-- Nothing but its lists of attributes changes, -/
  same : SameButAttributes r r'
  /-- and they neither, where it has no source. -/
  kept : r.source = none → r' = r
  listed : r.source ≠ none → Listed t dictionary r r'

lemma ordered_pairwise (keys : List String) : (ordered keys).Pairwise (· < ·) :=
  Dictionary.keys_pairwise _

/-- The lists that a run over the definitions of a record leaves. -/
lemma listed_of_based (hds : Collects t r ds) (hbased : ∀ ident, ¬ Baseless ds ident)
    (hlast : ∀ key, (after r.name start ds).dictionary.contains key = true →
      last.contains key = true) :
    Listed t last r (withLists r (after r.name start ds).lists) := by
  have hmet {key : String} (hkey : key ∈ ordered (after r.name start ds).lists.valid) :
      key ∈ identsOf ds ∨ ∃ x, redefinitions x ds ≠ [] ∧ key = ownKey x r.name :=
    key_of_mem_valid hbased (mem_ordered.mp hkey)
  refine ⟨fun key hkey => ?_, fun key hkey => ?_, fun key hkey => ?_, ordered_pairwise _,
    ordered_pairwise _⟩
  · exact mem_ordered.mpr (mem_valid_of_mem_required hbased (mem_ordered.mp hkey))
  · rw [Owns, hds.definitionsMet_eq]
    exact hmet hkey
  · exact Dictionary.mem_keys_iff.mpr
      (hlast key ((contains_after hbased).mpr (.inr (hmet hkey))))

/-- **One record** is left as it should be, if what it hands on is not lost. -/
lemma canonical_of_resolveOne (h : resolveOne t start r = .ok (dictionary, r'))
    (hlast : ∀ key, dictionary.contains key = true → last.contains key = true) :
    Canonical t last r r' := by
  have hsame := sameButAttributes_of_resolveOne h
  rcases resolveOne_eq_ok_iff.mp h with ⟨hsource, -, rfl⟩ | ⟨ds, hds, hbased, rfl, rfl⟩
  · exact ⟨hsame, fun _ => rfl, fun hne => absurd hsource hne⟩
  · refine ⟨hsame, fun hnone => ?_, fun _ => listed_of_based hds hbased hlast⟩
    obtain ⟨source, s, hsource, -⟩ := hds
    cases hnone.symm.trans hsource

/-- **All records** are left as they should be. -/
lemma canonical_of_resolveAll (h : resolveAll t start records = .ok (last, out)) :
    List.Forall₂ (Canonical t last) records out := by
  induction records generalizing start out with
  | nil =>
      cases h
      exact .nil
  | cons r rest ih =>
      obtain ⟨between, first, others, hfirst, hothers, rfl⟩ := resolveAll_cons.mp h
      refine .cons (canonical_of_resolveOne hfirst fun key hkey => ?_) (ih hothers)
      exact (contains_resolveAll hothers).mpr (.inl hkey)

lemma Canonical.hide (h : Canonical t last r r') : Canonical t (hide hidden last) r r' :=
  { h with
    listed := fun hsource =>
      { h.listed hsource with
        valid_defined := fun key hkey => mem_keys_hide.mpr
          (Dictionary.mem_keys_iff.mp ((h.listed hsource).valid_defined key hkey)) } }

lemma canonical_of_resolve (h : resolve t hidden records = .ok (dictionary, out)) :
    List.Forall₂ (Canonical t dictionary) records out := by
  obtain ⟨last, hall, rfl⟩ := resolve_eq_ok_iff.mp h
  exact (canonical_of_resolveAll hall).imp fun r r' => Canonical.hide

/-- **Lists and dictionary agree**, whatever attributes and records are called: each record is
left with keys that have definitions, in order, and each key of the dictionary is an attribute
that is met or belongs to a record that redefines an attribute, which then has a definition
too. -/
theorem resolve_canonical (h : resolve t hidden records = .ok (dictionary, out)) :
    List.Forall₂ (Canonical t dictionary) records out ∧
      (∀ key ∈ dictionary.keys,
        key ∈ identsOf (allMet t records) ∨ ∃ r ∈ records, Owns t r key) ∧
      ∀ r ∈ records, ∀ x, redefinitions x (definitionsMet t r) ≠ [] →
        ownKey x r.name ∈ dictionary.keys ∧ x ∈ dictionary.keys := by
  refine ⟨canonical_of_resolve h, fun key => (mem_keys_resolve h).mp, fun r hr x hx => ⟨?_, ?_⟩⟩
  · exact (mem_keys_resolve h).mpr (.inr ⟨r, hr, x, hx, rfl⟩)
  · have hmet := mem_identsOf_allMet.mpr ⟨r, hr, mem_identsOf_of_redefinitions hx⟩
    exact (mem_keys_resolve h).mpr (.inl hmet)

/-- A lock and a person keep keys that have definitions, and the dictionary holds the attribute
beside the key of the person. -/
theorem resolve_canonical_keyed : ∃ dictionary lock person,
    resolve keyedTable [] ([recordOf "lock"] ++ recordOf "person" :: []) =
      .ok (dictionary, [lock, person]) ∧
    Canonical keyedTable dictionary (recordOf "lock") lock ∧
    Canonical keyedTable dictionary (recordOf "person") person ∧
    ownKey "key" "person" ∈ dictionary.keys ∧ "key" ∈ dictionary.keys := by
  have hmet : definitionsMet keyedTable (recordOf "person") = personKeys := by cbv
  have hred : redefinitions "key" (definitionsMet keyedTable (recordOf "person")) ≠ [] := by
    rw [hmet]
    decide
  obtain ⟨hrecords, -, hown⟩ := resolve_canonical resolve_lock_person
  obtain ⟨hlock, hrest⟩ := List.forall₂_cons.mp hrecords
  obtain ⟨hperson, -⟩ := List.forall₂_cons.mp hrest
  exact ⟨_, _, _, resolve_lock_person, hlock, hperson, hown _ (by simp) "key" hred⟩

end EditorSchema.Attributes
