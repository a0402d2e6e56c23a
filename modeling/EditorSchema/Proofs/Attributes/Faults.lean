/-
How records fail to be given their attributes.

A record fails where it has no spec, where something is wrong with the ancestry of its spec,
or at its first attribute without a base.  None of this depends on the records before it, so
records that are gone through one after the other fail as the first of them does that fails.

* `Attributes.Fails`: how one record fails;
* `Attributes.resolveAll_eq_error_iff`: how records fail one after the other;
* `Attributes.FirstRedefined`: the fault of an attribute that is redefined before it is defined;
* `Attributes.exists_base_of_run`: a later definition always finds something to start from.
-/
import Mathlib.Tactic
import EditorSchema.Proofs.Attributes.Records

namespace EditorSchema.Attributes

open Outcome

variable {t : Table} {r : Record} {records : List Record} {fault : SchemaFault}
variable {dictionary : AttributeDictionary}

/-! ### One record -/

/-- **How a record fails**: its spec is not there, something is wrong with the ancestry of its
spec, or the definitions that it meets redefine an attribute first. -/
inductive Fails (t : Table) (r : Record) : SchemaFault → Prop
  | lost {source : String} (hsource : r.source = some source) (hnone : t.get? source = none) :
      Fails t r (.notLoaded source r.name)
  | ancestry {source : String} {s : Spec} {fault : SchemaFault} (hsource : r.source = some source)
      (hs : t.get? source = some s) (hfault : Ancestry.definitions t s = .error fault) :
      Fails t r fault
  | baseless {ds : List AttributeDef} {ident : String} (hds : Collects t r ds)
      (hfirst : FirstBaseless ds ident) : Fails t r (.changeWithoutBase ident r.name)

/-- A record fails in one of these ways, whatever is in the dictionary. -/
theorem fails_iff : resolveOne t dictionary r = .error fault ↔ Fails t r fault := by
  constructor
  · intro h
    cases hsource : r.source with
    | none =>
        rw [resolveOne_of_no_source hsource] at h
        cases h
    | some source =>
        cases hs : t.get? source with
        | none =>
            rw [resolveOne, hsource] at h
            simp only [hs] at h
            cases h
            exact .lost hsource hs
        | some s =>
            cases hds : Ancestry.definitions t s with
            | error fault' =>
                rw [resolveOne, hsource] at h
                simp only [hs, hds] at h
                cases h
                exact .ancestry hsource hs hds
            | ok ds =>
                have hcollects : Collects t r ds := ⟨source, s, hsource, hs, hds⟩
                obtain ⟨ident, hfirst, rfl⟩ := (resolveOne_eq_error_iff hcollects).mp h
                exact .baseless hcollects hfirst
  · intro h
    cases h with
    | lost hsource hnone =>
        rw [resolveOne, hsource]
        simp only [hnone]
    | ancestry hsource hs hfault =>
        rw [resolveOne, hsource]
        simp only [hs, hfault]
        rfl
    | baseless hds hfirst => exact (resolveOne_eq_error_iff hds).mpr ⟨_, hfirst, rfl⟩

/-! ### Records one after the other -/

/-- **Records fail as the first of them that fails**, and those before it do not. -/
theorem resolveAll_eq_error_iff : resolveAll t dictionary records = .error fault ↔
    ∃ earlier r later, records = earlier ++ r :: later ∧ (∀ e ∈ earlier, Resolvable t e) ∧
      Fails t r fault := by
  induction records generalizing dictionary with
  | nil => simp [resolveAll]
  | cons r rest ih =>
      rw [resolveAll, bind_eq_error]
      constructor
      · rintro (hr | ⟨⟨between, first⟩, hfirst, h⟩)
        · exact ⟨[], r, rest, rfl, by simp, fails_iff.mp hr⟩
        · rcases bind_eq_error.mp h with hrest | ⟨_, _, h⟩
          · obtain ⟨earlier, r', later, rfl, hearlier, hfails⟩ := ih.mp hrest
            have hr : Resolvable t r := exists_resolveOne_iff.mp ⟨_, _, hfirst⟩
            exact ⟨r :: earlier, r', later, rfl, List.forall_mem_cons.mpr ⟨hr, hearlier⟩, hfails⟩
          · cases h
      · rintro ⟨earlier, r', later, hsplit, hearlier, hfails⟩
        cases earlier with
        | nil =>
            obtain ⟨rfl, rfl⟩ := List.cons.inj hsplit
            exact .inl (fails_iff.mpr hfails)
        | cons e earlier =>
            obtain ⟨rfl, rfl⟩ := List.cons.inj hsplit
            obtain ⟨hr, hearlier⟩ := List.forall_mem_cons.mp hearlier
            obtain ⟨between, first, hfirst⟩ :
                ∃ between first, resolveOne t dictionary r = .ok (between, first) :=
              exists_resolveOne_iff.mpr hr
            have hrest : resolveAll t between (earlier ++ r' :: later) = .error fault :=
              ih.mpr ⟨earlier, r', later, rfl, hearlier, hfails⟩
            exact .inr ⟨(between, first), hfirst, bind_eq_error.mpr (.inl hrest)⟩

/-- Hiding attributes does not fail. -/
lemma resolve_eq_error_iff {hidden : List String} :
    resolve t hidden records = .error fault ↔ resolveAll t .empty records = .error fault := by
  rw [resolve, bind_eq_error, or_iff_left]
  rintro ⟨_, -, h⟩
  cases h

/-- **The fault of an attribute that is redefined before it is defined**, at the first record
that meets such an attribute: among its attributes that are redefined by the first definition
that it meets, it is the one that comes first. -/
def FirstRedefined (t : Table) (records : List Record) (fault : SchemaFault) : Prop :=
  ∃ earlier r later ds ident, records = earlier ++ r :: later ∧
    (∀ e ∈ earlier, Resolvable t e) ∧ Collects t r ds ∧ FirstBaseless ds ident ∧
    fault = .changeWithoutBase ident r.name

/-- Records with whole ancestries fail only where an attribute is redefined first. -/
theorem firstRedefined_iff (h : ∀ r ∈ records, r.source = none ∨ ∃ ds, Collects t r ds) :
    resolveAll t dictionary records = .error fault ↔ FirstRedefined t records fault := by
  rw [resolveAll_eq_error_iff]
  constructor
  · rintro ⟨earlier, r, later, rfl, hearlier, hfails⟩
    have hwhole : r.source = none ∨ ∃ ds, Collects t r ds := h r (by simp)
    cases hfails with
    | lost hsource hnone =>
        rcases hwhole with hno | ⟨ds, source, s, hsource', hs, -⟩
        · cases hno.symm.trans hsource
        · cases hsource.symm.trans hsource'
          cases hnone.symm.trans hs
    | ancestry hsource hs hfault =>
        rcases hwhole with hno | ⟨ds, source, s, hsource', hs', hds⟩
        · cases hno.symm.trans hsource
        · cases hsource.symm.trans hsource'
          cases hs.symm.trans hs'
          cases hfault.symm.trans hds
    | baseless hds hfirst => exact ⟨earlier, r, later, _, _, rfl, hearlier, hds, hfirst, rfl⟩
  · rintro ⟨earlier, r, later, ds, ident, rfl, hearlier, hds, hfirst, rfl⟩
    exact ⟨earlier, r, later, rfl, hearlier, .baseless hds hfirst⟩

/-! ### Later definitions -/

/-- **A later definition finds something to start from**: the dictionary has a definition of
every attribute that a record has met. -/
theorem exists_base_of_run {name ident : String} {ds : List AttributeDef} {p : Progress}
    (h : ds.foldlM (step name) { dictionary } = .ok p) (hmet : ident ∈ p.met) :
    ∃ base, p.dictionary.get? ident = some base := by
  obtain ⟨hbased, rfl⟩ := based_of_run h
  have hfollows : Follows name dictionary ds := follows_of_based name dictionary hbased
  exact Dictionary.contains_iff.mp (hfollows.covered ident ((hfollows.met ident).mp hmet))

end EditorSchema.Attributes
