/-
The entries of the attribute dictionary.

As long as no key is shared, each entry has one origin.  The entry of an attribute is its first
definition, by the first record that meets it, and no later record alters it.  The entry under
the key that a record has of its own for an attribute is the last redefinition that the record
meets; a change is laid on the entry of the attribute.  Hiding comes last: it adds its mark to
the entries of the keys that are to be hidden, and to no others.

* `Attributes.Separate`: no key that a record owns is shared;
* `Attributes.KeysApart`: no key that a record could own is;
* `Attributes.Intact`: each definition is where it should be;
* `Attributes.intact_of_separate`: where no key is shared, each is;
* `Attributes.Entries`, `Attributes.resolve_entries`: what the dictionary holds in the end.
-/
import Mathlib.Tactic
import EditorSchema.Proofs.Attributes.Independence
import EditorSchema.Proofs.Attributes.Writes

namespace EditorSchema.Attributes

variable {t : Table} {hidden : List String} {r s : Record} {records out : List Record}
variable {dictionary last : AttributeDictionary} {x y key : String} {d : AttributeDef}

/-! ### Keys that are not shared -/

/-- No key that a record owns is shared. -/
structure Separate (t : Table) (records : List Record) : Prop where
  /-- It is not the name of an attribute that a record meets, -/
  free : ∀ r ∈ records, ∀ key, Owns t r key → key ∉ identsOf (allMet t records)
  /-- and it belongs to one attribute and one record. -/
  distinct : ∀ r ∈ records, ∀ s ∈ records, ∀ x y, redefinitions x (definitionsMet t r) ≠ [] →
    redefinitions y (definitionsMet t s) ≠ [] → ownKey x r.name = ownKey y s.name →
      x = y ∧ r.name = s.name

/-- No own key of any record for any attribute of a table is the name of an attribute or the own
key of another record or attribute. -/
structure KeysApart (t : Table) (records : List Record) : Prop where
  free : KeysFree t records
  distinct : ∀ x ∈ t.attributeIdents, ∀ y ∈ t.attributeIdents, ∀ r ∈ records, ∀ s ∈ records,
    ownKey x r.name = ownKey y s.name → x = y ∧ r.name = s.name

/-- A definition that a record meets is one of a table's. -/
lemma mem_attributeIdents_of_met (hx : x ∈ identsOf (definitionsMet t r)) :
    x ∈ t.attributeIdents := by
  have hcollects : Collects t r (definitionsMet t r) := by
    cases hsource : r.source.bind t.get? with
    | none => simp [definitionsMet, hsource, identsOf] at hx
    | some s =>
        obtain ⟨source, hr, hs⟩ := Option.bind_eq_some_iff.mp hsource
        cases hds : Ancestry.definitions t s with
        | error fault => simp [definitionsMet, hsource, hds, identsOf, Except.toOption] at hx
        | ok ds =>
            have hcollects : Collects t r ds := ⟨source, s, hr, hs, hds⟩
            rwa [hcollects.definitionsMet_eq]
  exact hcollects.mem_attributeIdents hx

lemma mem_attributeIdents_of_allMet (hx : x ∈ identsOf (allMet t records)) :
    x ∈ t.attributeIdents := by
  obtain ⟨r, -, hx⟩ := mem_identsOf_allMet.mp hx
  exact mem_attributeIdents_of_met hx

/-- Where no keys of attributes and records clash, those that are in use do not. -/
lemma KeysApart.separate (h : KeysApart t records) : Separate t records where
  free := by
    rintro r hr _ ⟨x, hx, rfl⟩ hkey
    exact h.free x (mem_attributeIdents_of_met (mem_identsOf_of_redefinitions hx)) r hr
      (mem_attributeIdents_of_allMet hkey)
  distinct r hr s hs x y hx hy heq :=
    h.distinct x (mem_attributeIdents_of_met (mem_identsOf_of_redefinitions hx)) y
      (mem_attributeIdents_of_met (mem_identsOf_of_redefinitions hy)) r hr s hs heq

/-! ### Definitions where they should be -/

/-- Each definition that counts is under its key. -/
structure Intact (t : Table) (hidden : List String) (records : List Record)
    (dictionary : AttributeDictionary) : Prop where
  /-- An attribute has the definition that is met first, record by record. -/
  shared : ∀ x ∈ identsOf (allMet t records), ∃ b,
    (occurrences x (allMet t records)).head? = some b ∧
      dictionary.get? x = some (shown hidden x b)
  /-- A record has its last redefinition of the attribute under its own key, and a change is
  laid on the definition that the attribute has. -/
  own : ∀ r ∈ records, ∀ x d, (redefinitions x (definitionsMet t r)).getLast? = some d → ∃ b,
    (occurrences x (allMet t records)).head? = some b ∧
      dictionary.get? (ownKey x r.name) = some (shown hidden (ownKey x r.name) (redefined b d))

lemma exists_first (hx : x ∈ identsOf (allMet t records)) :
    ∃ b, (occurrences x (allMet t records)).head? = some b := by
  rw [← not_not (a := x ∈ _), ← occurrences_eq_nil] at hx
  exact Option.ne_none_iff_exists'.mp (mt List.head?_eq_none_iff.mp hx)

/-- **Where no key is shared, each definition is where it should be.** -/
theorem intact_of_separate (hnames : (records.map (·.name)).Nodup) (hseparate : Separate t records)
    (h : resolve t hidden records = .ok (dictionary, out)) :
    Intact t hidden records dictionary := by
  have hfree (x : String) (hx : x ∈ identsOf (allMet t records)) :
      ∀ r ∈ records, ¬ Owns t r x := fun r hr hown => hseparate.free r hr x hown hx
  refine ⟨fun x hx => ?_, fun r hr x d hd => ?_⟩
  · obtain ⟨b, hb⟩ := exists_first hx
    exact ⟨b, hb, get?_resolve_of_not_owns h (hfree x hx) hb⟩
  · have hne : redefinitions x (definitionsMet t r) ≠ [] := fun hnil => by simp [hnil] at hd
    have hx := mem_identsOf_allMet.mpr ⟨r, hr, mem_identsOf_of_redefinitions hne⟩
    obtain ⟨earlier, later, rfl⟩ := List.append_of_mem hr
    -- a later record has another name, so it does not own the key
    have hlater : ∀ s ∈ later, ¬ Owns t s (ownKey x r.name) := by
      rintro s hs ⟨y, hy, heq⟩
      obtain ⟨-, hname⟩ := hseparate.distinct r hr s (by simp [hs]) x y hne hy heq
      rw [List.map_append, List.map_cons] at hnames
      have hnot := (List.nodup_cons.mp (List.nodup_append.mp hnames).2.1).1
      exact hnot (hname ▸ List.mem_map_of_mem hs)
    obtain ⟨b, hget, hbase⟩ := get?_ownKey_resolve h hd hlater
    refine ⟨b, hbase fun s hs => hfree x hx s ?_, hget⟩
    rw [List.append_cons]
    exact List.mem_append_left _ hs

/-! ### The dictionary in the end -/

/-- What the dictionary holds when all records have their attributes. -/
structure Entries (t : Table) (hidden : List String) (records : List Record)
    (dictionary : AttributeDictionary) : Prop extends Intact t hidden records dictionary where
  /-- The keys are the attributes that are met and the keys that records own. -/
  keys : ∀ key, key ∈ dictionary.keys ↔
    key ∈ identsOf (allMet t records) ∨ ∃ r ∈ records, Owns t r key
  /-- What an attribute has after the first records, it has in the end. -/
  kept : ∀ earlier later found done, records = earlier ++ later →
    resolveAll t .empty earlier = .ok (found, done) → ∀ x ∈ identsOf (allMet t earlier),
      ∃ b, found.get? x = some b ∧ dictionary.get? x = some (shown hidden x b)
  /-- Where no definition is hidden from the start, the hidden ones are those of the keys that
  are to be hidden. -/
  hidden_iff : (∀ d ∈ allMet t records, d.hidden = false) → ∀ key d,
    dictionary.get? key = some d → (d.hidden = true ↔ key ∈ hidden)

lemma mem_of_head?_occurrences {ds : List AttributeDef} {b : AttributeDef}
    (h : (occurrences x ds).head? = some b) : b ∈ ds :=
  List.mem_of_mem_filter (List.mem_of_head? h)

/-- A redefinition is hidden from the start only if one of the definitions that it is made of
is. -/
lemma hidden_redefined {b d : AttributeDef} (hb : b.hidden = false) (hd : d.hidden = false) :
    (redefined b d).hidden = false := by
  rw [redefined]
  split
  · exact hb
  · exact hd

/-- **The dictionary in the end**, where no key is shared. -/
theorem resolve_entries (hnames : (records.map (·.name)).Nodup) (hseparate : Separate t records)
    (h : resolve t hidden records = .ok (dictionary, out)) :
    Entries t hidden records dictionary := by
  have hintact := intact_of_separate hnames hseparate h
  have hmem (key : String) : key ∈ dictionary.keys ↔
      key ∈ identsOf (allMet t records) ∨ ∃ r ∈ records, Owns t r key := mem_keys_resolve h
  refine ⟨hintact, hmem, ?_, fun hplain key d hd => ?_⟩
  · rintro earlier later found done rfl hearlier x hx
    have hmet : x ∈ identsOf (allMet t (earlier ++ later)) := by
      obtain ⟨r, hr, hx⟩ := mem_identsOf_allMet.mp hx
      exact mem_identsOf_allMet.mpr ⟨r, List.mem_append_left _ hr, hx⟩
    have hfree : ∀ r ∈ earlier ++ later, ¬ Owns t r x :=
      fun r hr hown => hseparate.free r hr x hown hmet
    obtain ⟨b, hb⟩ := exists_first hx
    refine ⟨b, ?_, get?_resolve_of_not_owns h hfree ?_⟩
    · rw [get?_resolveAll_of_not_owns hearlier fun r hr => hfree r (List.mem_append_left _ hr),
        baseOf, hb]
      rfl
    · rw [allMet_append, occurrences_append, List.head?_append, hb]
      rfl
  · have hkey : key ∈ dictionary.keys :=
      Dictionary.mem_keys_iff.mpr (Dictionary.contains_iff.mpr ⟨d, hd⟩)
    rcases (hmem key).mp hkey with hx | ⟨r, hr, x, hne, rfl⟩
    · obtain ⟨b, hb, hget⟩ := hintact.shared key hx
      obtain rfl := Option.some.inj (hd.symm.trans hget)
      simp [shown, hplain b (mem_of_head?_occurrences hb)]
    · obtain ⟨e, he⟩ := exists_last_redefinition hne
      obtain ⟨b, hb, hget⟩ := hintact.own r hr x e he
      obtain rfl := Option.some.inj (hd.symm.trans hget)
      have hemet : e ∈ allMet t records := by
        refine List.mem_flatMap.mpr ⟨r, hr, ?_⟩
        have hoccurs := List.mem_of_mem_filter (List.mem_of_getLast? he)
        exact List.mem_of_mem_filter (List.mem_of_mem_tail hoccurs)
      simp [shown, hidden_redefined (hplain b (mem_of_head?_occurrences hb)) (hplain e hemet)]

/-- The dictionary of a lock and a person, where the attribute is hidden and the key of the person
is not. -/
theorem resolve_entries_keyed :
    ([recordOf "lock", recordOf "person"].map (·.name)).Nodup ∧
    Separate keyedTable [recordOf "lock", recordOf "person"] ∧
    Owns keyedTable (recordOf "person") "key-person" ∧ ∃ dictionary out,
      resolve keyedTable ["key"] [recordOf "lock", recordOf "person"] = .ok (dictionary, out) ∧
        Entries keyedTable ["key"] [recordOf "lock", recordOf "person"] dictionary := by
  have hnames : ([recordOf "lock", recordOf "person"].map (·.name)).Nodup := by decide
  have hkeys : KeysApart keyedTable [recordOf "lock", recordOf "person"] :=
    ⟨by decide, by decide⟩
  have hmet : definitionsMet keyedTable (recordOf "person") = personKeys := by cbv
  have howns : Owns keyedTable (recordOf "person") "key-person" :=
    ⟨"key", by rw [hmet]; decide, rfl⟩
  have hresolve : resolve keyedTable ["key"] [recordOf "lock", recordOf "person"] = .ok (
      .ofList [
        ("key", { ident := "key", hidden := true }),
        ("key-person", { ident := "key", mode := some .change })],
      [{ recordOf "lock" with validAttributes := ["key"] },
        { recordOf "person" with validAttributes := ["key-person"] }]) := by
    cbv
  exact ⟨hnames, hkeys.separate, howns, _, _, hresolve,
    resolve_entries hnames hkeys.separate hresolve⟩

end EditorSchema.Attributes
