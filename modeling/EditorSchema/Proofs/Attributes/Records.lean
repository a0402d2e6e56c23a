/-
Records that are given their attributes one after the other.

Each record goes through the definitions of its own ancestry, but all of them share one
dictionary.  So a record is given its attributes whatever records come before it, or fails
whatever records come before it; only what the dictionary holds is handed on.

* `Attributes.Collects`: the definitions that a record meets;
* `Attributes.resolveOne_eq_error_iff`: how one record fails;
* `Attributes.exists_resolveAll_iff`: when all records are given their attributes;
* `Attributes.resolveAll_split`: what a record finds and what it leaves.
-/
import Mathlib.Tactic
import EditorSchema.Proofs.Attributes.Shared

namespace EditorSchema

open Outcome

variable {t : Table}

/-! ### Definitions that are collected -/

/-- The attributes that the specs of a table define. -/
def Table.attributeIdents (t : Table) : List String :=
  t.toList.flatMap fun s => s.ownDefinitions.map (·.ident)

lemma Table.mem_attributeIdents {ident : String} {s : Spec} {d : AttributeDef}
    (hs : t.get? ident = some s) (hd : d ∈ s.ownDefinitions) : d.ident ∈ t.attributeIdents := by
  refine List.mem_flatMap.mpr ⟨s, ?_, List.mem_map_of_mem hd⟩
  exact List.mem_map.mpr ⟨(ident, s), Dictionary.get?_eq_some_iff.mp hs, rfl⟩

namespace Ancestry

/-- Definitions that classes lead to are definitions of specs in the table. -/
lemma mem_attributeIdents_of_inherited {fresh path memberships : List String} {referrer : String}
    {ds : List AttributeDef} (h : inherited t fresh path referrer memberships = .ok ds) :
    ∀ d ∈ ds, d.ident ∈ t.attributeIdents := by
  induction fresh, path, referrer, memberships using inherited.induct t generalizing ds with
  | case1 fresh path referrer =>
      rw [inherited] at h
      cases h
      simp
  | case2 fresh path referrer ident rest hnone =>
      rw [inherited, hnone] at h
      cases h
  | case3 fresh path referrer ident rest s hs hfresh ihabove ihothers =>
      rw [inherited, hs] at h
      simp only [dif_pos hfresh] at h
      obtain ⟨above, habove, h⟩ := bind_eq_ok.mp h
      obtain ⟨others, hothers, h⟩ := bind_eq_ok.mp h
      obtain rfl := pure_eq_ok.mp h
      intro d hd
      rcases List.mem_append.mp hd with hd | hd
      · rcases List.mem_append.mp hd with hd | hd
        · exact ihabove habove d hd
        · exact Table.mem_attributeIdents hs hd
      · exact ihothers hothers d hd
  | case4 fresh path referrer ident rest s hs hfresh =>
      rw [inherited, hs] at h
      simp only [dif_neg hfresh] at h
      cases h

end Ancestry

namespace Attributes

variable {r r' : Record} {ds : List AttributeDef} {dictionary dictionary' : AttributeDictionary}

/-- The definitions that a record meets, where it has a source and its ancestry is whole. -/
def Collects (t : Table) (r : Record) (ds : List AttributeDef) : Prop :=
  ∃ source s, r.source = some source ∧ t.get? source = some s ∧
    Ancestry.definitions t s = .ok ds

lemma Collects.unique {es : List AttributeDef} (h : Collects t r ds) (h' : Collects t r es) :
    ds = es := by
  obtain ⟨source, s, hsource, hs, hds⟩ := h
  obtain ⟨source', s', hsource', hs', hes⟩ := h'
  cases hsource.symm.trans hsource'
  cases hs.symm.trans hs'
  exact Except.ok.inj (hds.symm.trans hes)

/-- Definitions that a record meets are definitions of specs in the table. -/
lemma Collects.mem_attributeIdents (h : Collects t r ds) {ident : String}
    (hident : ident ∈ identsOf ds) : ident ∈ t.attributeIdents := by
  obtain ⟨source, s, -, hs, hds⟩ := h
  obtain ⟨above, habove, hds⟩ := bind_eq_ok.mp hds
  obtain rfl := pure_eq_ok.mp hds
  obtain ⟨d, hd, rfl⟩ := List.mem_map.mp hident
  rcases List.mem_append.mp hd with hd | hd
  · exact Ancestry.mem_attributeIdents_of_inherited habove d hd
  · exact Table.mem_attributeIdents hs hd

/-! ### One record -/

/-- A record with the attributes of some lists. -/
def withLists (r : Record) (l : AttributeLists) : Record :=
  { r with validAttributes := ordered l.valid, requiredAttributes := ordered l.required }

@[simp] lemma mem_ordered {key : String} {keys : List String} :
    key ∈ ordered keys ↔ key ∈ keys :=
  IdentSet.mem_toList_ofIdents

lemma resolveOne_of_no_source (h : r.source = none) :
    resolveOne t dictionary r = .ok (dictionary, r) := by
  rw [resolveOne, h]

lemma resolveOne_of_collects (h : Collects t r ds) : resolveOne t dictionary r =
    (ds.foldlM (step r.name) { dictionary } >>= fun p =>
      .ok (p.dictionary, withLists r p.lists)) := by
  obtain ⟨source, s, hsource, hs, hds⟩ := h
  rw [resolveOne, hsource]
  simp only [hs, hds, withLists, hsource]
  rfl

/-- **How a record fails** whose ancestry is whole: at its first attribute without a base. -/
theorem resolveOne_eq_error_iff (h : Collects t r ds) {fault : SchemaFault} :
    resolveOne t dictionary r = .error fault ↔
      ∃ ident, FirstBaseless ds ident ∧ fault = .changeWithoutBase ident r.name := by
  have hrun : ds.foldlM (step r.name) { dictionary } = .error fault ↔
      ∃ ident, FirstBaseless ds ident ∧ fault = .changeWithoutBase ident r.name :=
    run_eq_error_iff
  rw [resolveOne_of_collects h, bind_eq_error, hrun]
  exact or_iff_left fun ⟨p, _, hp⟩ => nomatch hp

/-- What a record is given and what it hands on. -/
theorem resolveOne_eq_ok_iff : resolveOne t dictionary r = .ok (dictionary', r') ↔
    (r.source = none ∧ dictionary' = dictionary ∧ r' = r) ∨
      ∃ ds, Collects t r ds ∧ (∀ ident, ¬ Baseless ds ident) ∧
        dictionary' = (after r.name dictionary ds).dictionary ∧
        r' = withLists r (after r.name dictionary ds).lists := by
  constructor
  · intro h
    cases hsource : r.source with
    | none =>
        rw [resolveOne_of_no_source hsource] at h
        cases h
        exact .inl ⟨rfl, rfl, rfl⟩
    | some source =>
        cases hs : t.get? source with
        | none =>
            rw [resolveOne, hsource] at h
            simp only [hs] at h
            cases h
        | some s =>
            cases hds : Ancestry.definitions t s with
            | error fault =>
                rw [resolveOne, hsource] at h
                simp only [hs, hds] at h
                cases h
            | ok ds =>
                have hcollects : Collects t r ds := ⟨source, s, hsource, hs, hds⟩
                rw [resolveOne_of_collects hcollects] at h
                obtain ⟨p, hp, h⟩ := bind_eq_ok.mp h
                obtain ⟨hbased, rfl⟩ := based_of_run hp
                cases h
                exact .inr ⟨ds, hcollects, hbased, rfl, rfl⟩
  · rintro (⟨hsource, rfl, rfl⟩ | ⟨ds, hcollects, hbased, rfl, rfl⟩)
    · exact resolveOne_of_no_source hsource
    · rw [resolveOne_of_collects hcollects, (run_of_based hbased).1]
      rfl

/-! ### All records -/

/-- A record that can be given its attributes. -/
def Resolvable (t : Table) (r : Record) : Prop :=
  r.source = none ∨ ∃ ds, Collects t r ds ∧ ∀ ident, ¬ Baseless ds ident

lemma exists_resolveOne_iff :
    (∃ dictionary' r', resolveOne t dictionary r = .ok (dictionary', r')) ↔ Resolvable t r := by
  simp only [resolveOne_eq_ok_iff]
  constructor
  · rintro ⟨dictionary', r', ⟨hsource, -, -⟩ | ⟨ds, hcollects, hbased, -, -⟩⟩
    · exact .inl hsource
    · exact .inr ⟨ds, hcollects, hbased⟩
  · rintro (hsource | ⟨ds, hcollects, hbased⟩)
    · exact ⟨_, _, .inl ⟨hsource, rfl, rfl⟩⟩
    · exact ⟨_, _, .inr ⟨ds, hcollects, hbased, rfl, rfl⟩⟩

lemma resolveAll_cons {rest : List Record} {out : AttributeDictionary × List Record} :
    resolveAll t dictionary (r :: rest) = .ok out ↔ ∃ between first others,
      resolveOne t dictionary r = .ok (between, first) ∧
      resolveAll t between rest = .ok (out.1, others) ∧ out.2 = first :: others := by
  rw [resolveAll, bind_eq_ok]
  constructor
  · rintro ⟨⟨between, first⟩, hfirst, h⟩
    obtain ⟨⟨last, others⟩, hothers, h⟩ := bind_eq_ok.mp h
    obtain rfl := pure_eq_ok.mp h
    exact ⟨between, first, others, hfirst, hothers, rfl⟩
  · rintro ⟨between, first, others, hfirst, hothers, hout⟩
    refine ⟨(between, first), hfirst, bind_eq_ok.mpr ⟨(out.1, others), hothers, ?_⟩⟩
    exact pure_eq_ok.mpr (Prod.ext rfl hout.symm)

/-- A record that is another one but for its attributes. -/
def SameButAttributes (r r' : Record) : Prop :=
  r' = { r with
    validAttributes := r'.validAttributes, requiredAttributes := r'.requiredAttributes }

lemma sameButAttributes_of_resolveOne (h : resolveOne t dictionary r = .ok (dictionary', r')) :
    SameButAttributes r r' := by
  rcases resolveOne_eq_ok_iff.mp h with ⟨-, -, rfl⟩ | ⟨ds, -, -, -, rfl⟩ <;> rfl

/-- Nothing but the attributes of records changes. -/
theorem sameButAttributes_of_resolveAll {records out : List Record}
    (h : resolveAll t dictionary records = .ok (dictionary', out)) :
    List.Forall₂ SameButAttributes records out := by
  induction records generalizing dictionary out with
  | nil =>
      cases h
      exact .nil
  | cons r rest ih =>
      obtain ⟨between, first, others, hfirst, hothers, rfl⟩ := resolveAll_cons.mp h
      exact .cons (sameButAttributes_of_resolveOne hfirst) (ih hothers)

/-- Each record that is given its attributes comes from one before, and each of those is given
its attributes. -/
lemma exists_same_of_resolveAll {records out : List Record}
    (h : resolveAll t dictionary records = .ok (dictionary', out)) :
    (∀ r ∈ records, ∃ r' ∈ out, SameButAttributes r r') ∧
      ∀ r' ∈ out, ∃ r ∈ records, SameButAttributes r r' := by
  have hall := sameButAttributes_of_resolveAll h
  clear h
  induction hall with
  | nil => simp
  | cons hsame _ ih =>
      simp only [List.forall_mem_cons, List.exists_mem_cons_iff]
      exact ⟨⟨.inl hsame, fun r hr => .inr (ih.1 r hr)⟩, .inl hsame, fun r hr => .inr (ih.2 r hr)⟩

/-- **All records are given their attributes** if each of them can be. -/
theorem exists_resolveAll_iff {records : List Record} :
    (∃ out, resolveAll t dictionary records = .ok out) ↔ ∀ r ∈ records, Resolvable t r := by
  induction records generalizing dictionary with
  | nil => simp [resolveAll]
  | cons r rest ih =>
      rw [List.forall_mem_cons]
      constructor
      · rintro ⟨out, h⟩
        obtain ⟨between, first, others, hfirst, hothers, -⟩ := resolveAll_cons.mp h
        exact ⟨exists_resolveOne_iff.mp ⟨_, _, hfirst⟩, ih.mp ⟨_, hothers⟩⟩
      · rintro ⟨hr, hrest⟩
        obtain ⟨between, first, hfirst⟩ := exists_resolveOne_iff.mpr hr
        obtain ⟨⟨last, others⟩, hothers⟩ := ih.mpr hrest
        exact ⟨(last, first :: others),
          resolveAll_cons.mpr ⟨between, first, others, hfirst, hothers, rfl⟩⟩

/-- **A record among others** finds what those before it leave, and those after it find what
it leaves. -/
theorem resolveAll_split {earlier later : List Record} {out : List Record}
    (h : resolveAll t dictionary (earlier ++ r :: later) = .ok (dictionary', out)) :
    ∃ found left done first rest, resolveAll t dictionary earlier = .ok (found, done) ∧
      resolveOne t found r = .ok (left, first) ∧
      resolveAll t left later = .ok (dictionary', rest) ∧ out = done ++ first :: rest ∧
      done.length = earlier.length := by
  induction earlier generalizing dictionary out with
  | nil =>
      obtain ⟨left, first, rest, hfirst, hrest, rfl⟩ := resolveAll_cons.mp h
      exact ⟨dictionary, left, [], first, rest, rfl, hfirst, hrest, rfl, rfl⟩
  | cons e earlier ih =>
      obtain ⟨between, e', others, he, hothers, rfl⟩ := resolveAll_cons.mp h
      obtain ⟨found, left, done, first, rest, hdone, hfirst, hrest, rfl, hlen⟩ := ih hothers
      refine ⟨found, left, e' :: done, first, rest, ?_, hfirst, hrest, rfl, by simp [hlen]⟩
      exact resolveAll_cons.mpr ⟨between, e', done, he, hdone, rfl⟩

/-- Hiding attributes comes last. -/
lemma resolve_eq_ok_iff {records out : List Record} {hidden : List String} :
    resolve t hidden records = .ok (dictionary, out) ↔
      ∃ last, resolveAll t .empty records = .ok (last, out) ∧ dictionary = hide hidden last := by
  rw [resolve, bind_eq_ok]
  constructor
  · rintro ⟨⟨last, resolved⟩, hall, h⟩
    cases pure_eq_ok.mp h
    exact ⟨last, hall, rfl⟩
  · rintro ⟨last, hall, rfl⟩
    exact ⟨(last, out), hall, rfl⟩

end Attributes

end EditorSchema
