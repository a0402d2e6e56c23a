/-
Records that have their attributes from one spec.

Such records, as the two forms of an element that is both a block and a mark, meet the same
definitions.  What these say about the keys of an attribute is told from the definitions and
from the one that the dictionary holds for the attribute in the end, and this is the same for
all records, whichever was the first to meet it.  So the lists of two such records differ in
nothing but the name that is part of their own keys, and one definition stands under the own
keys of both.  It is shown under each of them as far as hiding lets it: attributes are hidden by
their keys, so one of the forms may be told to hide an attribute that the other one shows.

* `Attributes.rekey`: a key of one record as the key of another one;
* `Attributes.ownEntry`: the definition that stands under the own key of a record;
* `Attributes.resolve_forms`: records of one spec;
* `Attributes.resolve_hides_one_form`: a form that hides what the other one shows.
-/
import Mathlib.Tactic
import EditorSchema.Proofs.Attributes.Clashes

namespace EditorSchema.Attributes

variable {t : Table} {hidden idents : List String} {r r' a a' b b' : Record}
variable {records out : List Record} {dictionary : AttributeDictionary}
variable {x key name other source : String} {ds : List AttributeDef}

/-! ### Keys of one record and of another -/

/-- A key of one record as the key of another one: its own key for one of some attributes becomes
the other's own key for it, and any other key stays. -/
def rekey (idents : List String) (name other key : String) : String :=
  match idents.find? fun x => ownKey x name = key with
  | some x => ownKey x other
  | none => key

lemma rekey_ownKey (hx : x ∈ idents) :
    rekey idents name other (ownKey x name) = ownKey x other := by
  rw [rekey]
  cases hfind : idents.find? fun y => ownKey y name = ownKey x name with
  | some y =>
      obtain rfl : y = x := by simpa using List.find?_some hfind
      rfl
  | none => simpa using List.find?_eq_none.mp hfind x hx

lemma rekey_of_free (h : ∀ x ∈ idents, ownKey x name ≠ key) :
    rekey idents name other key = key := by
  have hfind : idents.find? (fun x => ownKey x name = key) = none := by
    simpa using h
  rw [rekey, hfind]

/-- A list of attributes of a record and of its own keys for some. -/
def KeyedBy (idents : List String) (name : String) (keys : List String) : Prop :=
  ∀ key ∈ keys, key ∈ idents ∨ ∃ x ∈ idents, key = ownKey x name

/-- Lists that agree on each attribute and on the own keys for it differ in the name alone. -/
lemma toFinset_eq_image_rekey {keys others : List String}
    (hfree : ∀ x ∈ idents, ∀ y ∈ idents, ownKey x name ≠ y)
    (hkeys : KeyedBy idents name keys) (hothers : KeyedBy idents other others)
    (hshared : ∀ x ∈ idents, x ∈ keys ↔ x ∈ others)
    (hown : ∀ x ∈ idents, ownKey x name ∈ keys ↔ ownKey x other ∈ others) :
    others.toFinset = keys.toFinset.image (rekey idents name other) := by
  have hstays {y : String} (hy : y ∈ idents) : rekey idents name other y = y :=
    rekey_of_free fun x hx => hfree x hx y hy
  ext key
  simp only [List.mem_toFinset, Finset.mem_image]
  constructor
  · intro hkey
    rcases hothers key hkey with hident | ⟨x, hx, rfl⟩
    · exact ⟨key, (hshared key hident).mpr hkey, hstays hident⟩
    · exact ⟨ownKey x name, (hown x hx).mpr hkey, rekey_ownKey hx⟩
  · rintro ⟨k, hk, rfl⟩
    rcases hkeys k hk with hident | ⟨x, hx, rfl⟩
    · rw [hstays hident]
      exact (hshared k hident).mp hk
    · rw [rekey_ownKey hx]
      exact (hown x hx).mp hk

/-! ### Lists -/

lemma SameButAttributes.name_eq (h : SameButAttributes r r') : r'.name = r.name := by
  rw [h]

/-- The keys that a record may have are attributes of its table or its own keys for some. -/
lemma Canonical.keyedBy_valid (h : Canonical t dictionary r r') (hsource : r.source ≠ none) :
    KeyedBy t.attributeIdents r.name r'.validAttributes := by
  intro key hkey
  rcases (h.listed hsource).valid_met key hkey with hmet | ⟨x, hx, rfl⟩
  · exact .inl (mem_attributeIdents_of_met hmet)
  · exact .inr ⟨x, mem_attributeIdents_of_met (mem_identsOf_of_redefinitions hx), rfl⟩

lemma Canonical.keyedBy_required (h : Canonical t dictionary r r') (hsource : r.source ≠ none) :
    KeyedBy t.attributeIdents r.name r'.requiredAttributes := fun key hkey =>
  h.keyedBy_valid hsource key ((h.listed hsource).required_valid key hkey)

/-- How a record is left when all records have their attributes, key by key and in whole. -/
lemma given_of_mem_zip (hfree : KeysFree t records)
    (h : resolve t hidden records = .ok (dictionary, out)) (hr : (r, r') ∈ records.zip out) :
    Given t dictionary r r' ∧ Canonical t dictionary r r' := by
  have hcanonical := (List.forall₂_iff_zip.mp (canonical_of_resolve h)).2 hr
  obtain ⟨last, hall, rfl⟩ := resolve_eq_ok_iff.mp h
  exact ⟨((List.forall₂_iff_zip.mp (given_of_resolveAll hfree hall)).2 hr).hide, hcanonical⟩

/-! ### Entries -/

/-- The definition under the own key for an attribute of a record that meets some definitions,
while all records meet those of some list: the last redefinition among the former, where a change
is laid on the first definition among the latter. -/
def ownEntry (x : String) (ds all : List AttributeDef) : Option AttributeDef := do
  let d ← (redefinitions x ds).getLast?
  let base ← (occurrences x all).head?
  return redefined base d

/-- **What stands under an own key**, where no keys clash. -/
lemma get?_ownKey_eq (hnames : (records.map (·.name)).Nodup) (hkeys : KeysApart t records)
    (h : resolve t hidden records = .ok (dictionary, out)) (hr : r ∈ records)
    (hx : x ∈ t.attributeIdents) : dictionary.get? (ownKey x r.name) =
      (ownEntry x (definitionsMet t r) (allMet t records)).map
        (shown hidden (ownKey x r.name)) := by
  cases hlast : (redefinitions x (definitionsMet t r)).getLast? with
  | some d =>
      obtain ⟨base, hbase, hget⟩ :=
        (intact_of_separate hnames hkeys.separate h).own r hr x d hlast
      rw [hget, ownEntry, hlast, hbase]
      rfl
  | none =>
      rw [ownEntry, hlast]
      -- a key that is there is an attribute or belongs to a record, and only to one
      refine Dictionary.contains_eq_false.mp (Bool.eq_false_iff.mpr fun hin => ?_)
      rcases (mem_keys_resolve h).mp (Dictionary.mem_keys_iff.mpr hin) with
        hmet | ⟨s, hs, y, hy, heq⟩
      · exact hkeys.free x hx r hr (mem_attributeIdents_of_allMet hmet)
      · have hyt : y ∈ t.attributeIdents :=
          mem_attributeIdents_of_met (mem_identsOf_of_redefinitions hy)
        obtain ⟨rfl, hname⟩ := hkeys.distinct x hx y hyt r hr s hs heq
        obtain rfl : r = s := List.inj_on_of_nodup_map hnames hr hs hname
        exact hy (List.getLast?_eq_none_iff.mp hlast)

/-- A definition is shown alike under two keys, unless one of them is to be hidden and the other
is not; then it is, too, if it is hidden itself. -/
lemma shown_eq_iff {k k' : String} {d : AttributeDef} :
    shown hidden k d = shown hidden k' d ↔
      (d.hidden = false → (k ∈ hidden ↔ k' ∈ hidden)) := by
  have hmark : shown hidden k d = shown hidden k' d ↔
      (d.hidden || hidden.contains k) = (d.hidden || hidden.contains k') :=
    ⟨congrArg AttributeDef.hidden, fun h => by rw [shown, h, shown]⟩
  rw [hmark]
  cases d.hidden with
  | true => simp
  | false =>
      simp only [Bool.false_or, true_imp_iff]
      rw [Bool.eq_iff_iff, List.contains_iff_mem, List.contains_iff_mem]

/-- What is shown under two keys is the same if no definition tells them apart. -/
lemma map_shown_eq_iff {k k' : String} {entry : Option AttributeDef} :
    entry.map (shown hidden k) = entry.map (shown hidden k') ↔
      ∀ d, entry = some d → d.hidden = false → (k ∈ hidden ↔ k' ∈ hidden) := by
  cases entry with
  | none => simp
  | some d => simp [shown_eq_iff]

/-- The keys that are hidden by default are not those of a record. -/
lemma ownKey_not_mem_default : ownKey x name ∉ ({} : Settings).hidden := by
  intro hmem
  have hplain : ∀ key ∈ ({} : Settings).hidden, '-' ∉ key.toList := by decide
  exact hplain _ hmem (by simp [toList_ownKey])

/-! ### Records of one spec -/

/-- A record with a source has met the definitions of its spec when all have their attributes. -/
lemma exists_collects (h : resolve t hidden records = .ok (dictionary, out)) (hr : r ∈ records)
    (hsource : r.source = some source) : ∃ ds, Collects t r ds := by
  obtain ⟨last, hall, -⟩ := resolve_eq_ok_iff.mp h
  rcases exists_resolveAll_iff.mp ⟨_, hall⟩ r hr with hnone | ⟨ds, hds, -⟩
  · cases hnone.symm.trans hsource
  · exact ⟨ds, hds⟩

lemma Collects.source_ne_none (h : Collects t r ds) : r.source ≠ none := by
  obtain ⟨source, s, hr, -, -⟩ := h
  simp [hr]

/-- Records of one spec meet the same definitions. -/
lemma Collects.of_source (h : Collects t a ds) (hsource : a.source = b.source) :
    Collects t b ds := by
  obtain ⟨source, s, ha, hs, hds⟩ := h
  exact ⟨source, s, hsource ▸ ha, hs, hds⟩

/-- The lists of records that meet the same definitions differ in their own keys alone. -/
lemma lists_of_collects (ha : Given t dictionary a a' ∧ Canonical t dictionary a a')
    (hb : Given t dictionary b b' ∧ Canonical t dictionary b b') (hads : Collects t a ds)
    (hbds : Collects t b ds)
    (hfree : ∀ x ∈ t.attributeIdents, ∀ y ∈ t.attributeIdents, ownKey x a.name ≠ y) :
    b'.validAttributes.toFinset =
        a'.validAttributes.toFinset.image (rekey t.attributeIdents a.name b.name) ∧
    b'.requiredAttributes.toFinset =
        a'.requiredAttributes.toFinset.image (rekey t.attributeIdents a.name b.name) := by
  have hlawa {x : String} (hx : x ∈ t.attributeIdents) := ha.1.law ds hads x hx
  have hlawb {x : String} (hx : x ∈ t.attributeIdents) := hb.1.law ds hbds x hx
  constructor
  · refine toFinset_eq_image_rekey hfree (ha.2.keyedBy_valid hads.source_ne_none)
      (hb.2.keyedBy_valid hbds.source_ne_none) (fun x hx => ?_) fun x hx => ?_
    · rw [(hlawa hx).shared_valid, (hlawb hx).shared_valid]
    · rw [← ha.1.same.name_eq, ← hb.1.same.name_eq, (hlawa hx).own_valid, (hlawb hx).own_valid]
  · refine toFinset_eq_image_rekey hfree (ha.2.keyedBy_required hads.source_ne_none)
      (hb.2.keyedBy_required hbds.source_ne_none) (fun x hx => ?_) fun x hx => ?_
    · rw [(hlawa hx).shared_required, (hlawb hx).shared_required]
    · rw [← ha.1.same.name_eq, ← hb.1.same.name_eq, (hlawa hx).own_required,
        (hlawb hx).own_required]

/-- **Records of one spec**, where no keys clash: the lists of one are those of the other under
its own keys, and one definition stands under the own keys of both, but for being hidden.  The
entries are the same just if the keys are both to be hidden or neither is, or the definition is
not there or hidden itself; the keys that are hidden by default are neither. -/
theorem resolve_forms (hnames : (records.map (·.name)).Nodup) (hkeys : KeysApart t records)
    (h : resolve t hidden records = .ok (dictionary, out)) (ha : (a, a') ∈ records.zip out)
    (hb : (b, b') ∈ records.zip out) (hsourcea : a.source = some source)
    (hsourceb : b.source = some source) :
    b'.validAttributes.toFinset =
        a'.validAttributes.toFinset.image (rekey t.attributeIdents a.name b.name) ∧
    b'.requiredAttributes.toFinset =
        a'.requiredAttributes.toFinset.image (rekey t.attributeIdents a.name b.name) ∧
    ∀ x ∈ t.attributeIdents,
      (∃ entry : Option AttributeDef,
        dictionary.get? (ownKey x a.name) = entry.map (shown hidden (ownKey x a.name)) ∧
        dictionary.get? (ownKey x b.name) = entry.map (shown hidden (ownKey x b.name)) ∧
        (dictionary.get? (ownKey x a.name) = dictionary.get? (ownKey x b.name) ↔
          ∀ d, entry = some d → d.hidden = false →
            (ownKey x a.name ∈ hidden ↔ ownKey x b.name ∈ hidden))) ∧
      ((ownKey x a.name ∈ hidden ↔ ownKey x b.name ∈ hidden) →
        dictionary.get? (ownKey x a.name) = dictionary.get? (ownKey x b.name)) ∧
      (hidden = ({} : Settings).hidden →
        dictionary.get? (ownKey x a.name) = dictionary.get? (ownKey x b.name)) := by
  have hain : a ∈ records := (List.of_mem_zip ha).1
  have hbin : b ∈ records := (List.of_mem_zip hb).1
  obtain ⟨ds, hads⟩ := exists_collects h hain hsourcea
  have hbds : Collects t b ds := hads.of_source (hsourcea.trans hsourceb.symm)
  obtain ⟨hvalid, hrequired⟩ := lists_of_collects (given_of_mem_zip hkeys.free h ha)
    (given_of_mem_zip hkeys.free h hb) hads hbds fun x hx y hy => hkeys.free.ne hain hx hy
  refine ⟨hvalid, hrequired, fun x hx => ?_⟩
  have hgeta := get?_ownKey_eq hnames hkeys h hain hx
  have hgetb := get?_ownKey_eq hnames hkeys h hbin hx
  rw [hads.definitionsMet_eq] at hgeta
  rw [hbds.definitionsMet_eq] at hgetb
  have halike : dictionary.get? (ownKey x a.name) = dictionary.get? (ownKey x b.name) ↔
      ∀ d, ownEntry x ds (allMet t records) = some d → d.hidden = false →
        (ownKey x a.name ∈ hidden ↔ ownKey x b.name ∈ hidden) := by
    rw [hgeta, hgetb, map_shown_eq_iff]
  refine ⟨⟨_, hgeta, hgetb, halike⟩, fun hboth => halike.mpr fun _ _ _ => hboth, ?_⟩
  rintro rfl
  exact halike.mpr fun _ _ _ => iff_of_false ownKey_not_mem_default ownKey_not_mem_default

/-- The mark of a person, which is both a mark and a block. -/
def personMark : Record :=
  { recordOf "person" with name := "markperson", form := .mark, origin := .inters }

/-- The node of a person. -/
def personNode : Record := { recordOf "person" with origin := .inters }

/-- What a person has as its attributes under a key of its own. -/
def withKey (key : String) (r : Record) : Record :=
  { r with validAttributes := [key], requiredAttributes := [key] }

/-- The mark and the node of a person each have a key of their own, with one definition under both,
whatever the lock between them defines. -/
theorem resolve_forms_person :
    ([personMark, recordOf "lock", personNode].map (·.name)).Nodup ∧
    KeysApart keyedTable [personMark, recordOf "lock", personNode] ∧
    ∃ dictionary mark lock node, resolve keyedTable ({} : Settings).hidden
        [personMark, recordOf "lock", personNode] = .ok (dictionary, [mark, lock, node]) ∧
      node.validAttributes.toFinset =
        mark.validAttributes.toFinset.image
          (rekey keyedTable.attributeIdents "markperson" "person") ∧
      "key-person" ∈ node.validAttributes ∧
      dictionary.get? "key-markperson" = dictionary.get? "key-person" ∧
      dictionary.get? "key-person" ≠ none := by
  have hnames : ([personMark, recordOf "lock", personNode].map (·.name)).Nodup := by decide
  have hkeys : KeysApart keyedTable [personMark, recordOf "lock", personNode] :=
    ⟨by decide, by decide⟩
  have hresolve : resolve keyedTable ({} : Settings).hidden
      [personMark, recordOf "lock", personNode] = .ok (
        .ofList [
          ("key", { ident := "key", usage := some .required }),
          ("key-markperson", { ident := "key", usage := some .required, mode := some .change }),
          ("key-person", { ident := "key", usage := some .required, mode := some .change })],
        [withKey "key-markperson" personMark,
          { recordOf "lock" with validAttributes := ["key"] },
          withKey "key-person" personNode]) := by
    cbv
  obtain ⟨hvalid, -, hentries⟩ := resolve_forms hnames hkeys hresolve (.head _)
    (.tail _ (.tail _ (.head _))) rfl rfl
  obtain ⟨-, -, hdefault⟩ := hentries "key" (by decide)
  exact ⟨hnames, hkeys, _, _, _, _, hresolve, hvalid, by decide, hdefault rfl, by decide⟩

/-- **A form may hide what the other one shows**: attributes are hidden by key, and the node of a
person has other keys than its mark. -/
theorem resolve_hides_one_form :
    ¬ ∀ (t : Table) (hidden : List String) (records out : List Record)
      (dictionary : AttributeDictionary) (a b : Record) (source : String),
      (records.map (·.name)).Nodup → KeysApart t records →
      resolve t hidden records = .ok (dictionary, out) → a ∈ records → b ∈ records →
      a.source = some source → b.source = some source →
      ∀ x ∈ t.attributeIdents,
        dictionary.get? (ownKey x a.name) = dictionary.get? (ownKey x b.name) := by
  intro h
  have hresolve : resolve keyedTable ["key-person"] [personMark, recordOf "lock", personNode] =
      .ok (
        .ofList [
          ("key", { ident := "key", usage := some .required }),
          ("key-markperson", { ident := "key", usage := some .required, mode := some .change }),
          ("key-person",
            { ident := "key", usage := some .required, mode := some .change, hidden := true })],
        [withKey "key-markperson" personMark,
          { recordOf "lock" with validAttributes := ["key"] },
          withKey "key-person" personNode]) := by
    cbv
  have hsame := h _ _ _ _ _ personMark personNode "person" (by decide) ⟨by decide, by decide⟩
    hresolve (by simp) (by simp) rfl rfl "key" (by decide)
  exact absurd hsame (by decide)

end EditorSchema.Attributes
