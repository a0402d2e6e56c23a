/-
Keys of records that clash with other keys.

A record's own key for an attribute is put together with a hyphen, and it is kept beside the
attributes.  Attributes without hyphens keep the two apart.  Otherwise a redefinition may take
the place of an attribute that another record has, or of a redefinition by another record.  Who
wins is told from the records alone: under a key that records own is the redefinition of the
last of them, and only under one that nobody owns is the attribute of that name.

* `Attributes.separate_of_no_hyphen`: attributes without hyphens;
* `Attributes.exists_last_owner`: the record whose redefinition is kept;
* `Attributes.Denotes`, `Attributes.resolve_denotes`: what the keys stand for, whatever
  attributes and records are called;
* `Attributes.resolve_overwrites`: a redefinition in the place of an attribute.
-/
import Mathlib.Tactic
import EditorSchema.Proofs.Attributes.Canonical
import EditorSchema.Proofs.Attributes.Entries

namespace EditorSchema.Attributes

variable {t : Table} {hidden : List String} {r s : Record} {records out : List Record}
variable {dictionary : AttributeDictionary} {x y key : String}

/-! ### Attributes without hyphens -/

lemma toList_ownKey (x name : String) :
    (ownKey x name).toList = x.toList ++ '-' :: name.toList := by
  simp [ownKey]

/-- An attribute without hyphens is read off its own keys: it is what stands before the first
hyphen. -/
lemma takeWhile_ownKey (hx : '-' ∉ x.toList) (name : String) :
    (ownKey x name).toList.takeWhile (· ≠ '-') = x.toList := by
  have hall : ∀ c ∈ x.toList, decide (c ≠ '-') = true := fun c hc =>
    decide_eq_true fun heq => hx (heq ▸ hc)
  rw [toList_ownKey, List.takeWhile_append_of_pos hall]
  simp

lemma ownKey_inj_of_no_hyphen {name other : String} (hx : '-' ∉ x.toList) (hy : '-' ∉ y.toList)
    (h : ownKey x name = ownKey y other) : x = y ∧ name = other := by
  have hxy : x.toList = y.toList := by
    rw [← takeWhile_ownKey hx name, h, takeWhile_ownKey hy other]
  have hnames : x.toList ++ '-' :: name.toList = y.toList ++ '-' :: other.toList := by
    rw [← toList_ownKey, h, toList_ownKey]
  rw [hxy, List.append_cancel_left_eq, List.cons.injEq] at hnames
  exact ⟨String.ext hxy, String.ext hnames.2⟩

/-- Attributes without hyphens do not clash with any keys, whatever the records are called. -/
lemma separate_of_no_hyphen (h : ∀ x ∈ t.attributeIdents, '-' ∉ x.toList) :
    Separate t records where
  free := by
    rintro r - _ ⟨x, -, rfl⟩ hkey
    exact h _ (mem_attributeIdents_of_allMet hkey) (by simp [toList_ownKey])
  distinct r _ s _ x y hx hy heq :=
    ownKey_inj_of_no_hyphen
      (h x (mem_attributeIdents_of_met (mem_identsOf_of_redefinitions hx)))
      (h y (mem_attributeIdents_of_met (mem_identsOf_of_redefinitions hy))) heq

/-! ### The last owner -/

/-- One of the records that own a key is the last. -/
lemma exists_last_owner (h : ∃ r ∈ records, Owns t r key) :
    ∃ earlier r later, records = earlier ++ r :: later ∧ Owns t r key ∧
      ∀ s ∈ later, ¬ Owns t s key := by
  induction records with
  | nil => simp at h
  | cons first rest ih =>
      -- the first record is the last owner only if no other one is
      by_cases hrest : ∃ s ∈ rest, Owns t s key
      · obtain ⟨earlier, r, later, rfl, hr⟩ := ih hrest
        exact ⟨first :: earlier, r, later, rfl, hr⟩
      · have hfirst : Owns t first key := by
          obtain ⟨r, hr, hown⟩ := h
          rcases List.mem_cons.mp hr with rfl | hr
          · exact hown
          · exact absurd ⟨r, hr, hown⟩ hrest
        exact ⟨[], first, rest, rfl, hfirst, fun s hs hown => hrest ⟨s, hs, hown⟩⟩

/-! ### What the keys stand for -/

/-- What a key stands for: the first definition of the attribute of its name, if no record owns
it, and otherwise the last redefinition of the last record that does.  A change is laid on the
first definition of its attribute if no record up to that one owns a key of its name. -/
inductive Denotes (t : Table) (hidden : List String) (records : List Record)
    (dictionary : AttributeDictionary) (key : String) : Prop
  | shared (b : AttributeDef) (nobody : ∀ r ∈ records, ¬ Owns t r key)
      (first : (occurrences key (allMet t records)).head? = some b)
      (entry : dictionary.get? key = some (shown hidden key b))
  | own (earlier : List Record) (r : Record) (later : List Record) (x : String)
      (b d : AttributeDef) (split : records = earlier ++ r :: later)
      (key_eq : key = ownKey x r.name)
      (redefines : (redefinitions x (definitionsMet t r)).getLast? = some d)
      (last : ∀ s ∈ later, ¬ Owns t s key)
      (base : (∀ s ∈ earlier ++ [r], ¬ Owns t s x) →
        (occurrences x (allMet t records)).head? = some b)
      (entry : dictionary.get? key = some (shown hidden key (redefined b d)))

/-- What a key in the lists of a record stands for, where no key is shared: an attribute has the
definition that is met first, and an own key the record's own redefinition. -/
def Stands (t : Table) (hidden : List String) (records : List Record)
    (dictionary : AttributeDictionary) (r : Record) (key : String) : Prop :=
  (key ∈ identsOf (definitionsMet t r) ∧ ∃ b,
    (occurrences key (allMet t records)).head? = some b ∧
      dictionary.get? key = some (shown hidden key b)) ∨
  ∃ x b d, key = ownKey x r.name ∧ (redefinitions x (definitionsMet t r)).getLast? = some d ∧
    (occurrences x (allMet t records)).head? = some b ∧
      dictionary.get? key = some (shown hidden key (redefined b d))

/-- Where each definition is under its key, the keys of a record stand for its own. -/
lemma Intact.stands (hintact : Intact t hidden records dictionary) (hr : r ∈ records)
    (h : key ∈ identsOf (definitionsMet t r) ∨ Owns t r key) :
    Stands t hidden records dictionary r key := by
  rcases h with hmet | ⟨x, hne, rfl⟩
  · exact .inl ⟨hmet, hintact.shared key (mem_identsOf_allMet.mpr ⟨r, hr, hmet⟩)⟩
  · obtain ⟨d, hd⟩ := exists_last_redefinition hne
    obtain ⟨b, hb, hget⟩ := hintact.own r hr x d hd
    exact .inr ⟨x, b, d, rfl, hd, hb, hget⟩

/-- Each key that is met or owned stands for one definition. -/
lemma denotes_of_mem (h : resolve t hidden records = .ok (dictionary, out))
    (hkey : key ∈ identsOf (allMet t records) ∨ ∃ r ∈ records, Owns t r key) :
    Denotes t hidden records dictionary key := by
  by_cases howned : ∃ r ∈ records, Owns t r key
  · obtain ⟨earlier, r, later, rfl, ⟨x, hne, rfl⟩, hlater⟩ := exists_last_owner howned
    obtain ⟨d, hd⟩ := exists_last_redefinition hne
    obtain ⟨b, hget, hbase⟩ := get?_ownKey_resolve h hd hlater
    exact .own earlier r later x b d rfl rfl hd hlater hbase hget
  · have hnobody : ∀ r ∈ records, ¬ Owns t r key := fun r hr hown => howned ⟨r, hr, hown⟩
    obtain ⟨b, hb⟩ := exists_first (hkey.resolve_right howned)
    exact .shared b hnobody hb (get?_resolve_of_not_owns h hnobody hb)

/-- **What the keys stand for.**  Each key of the dictionary stands for one definition: the
redefinition of the last record that owns it, or else the attribute of that name.  So where no
key is shared, an attribute has the definition that is met first, and the keys in the lists of a
record stand for its own redefinitions.  Attributes without hyphens share no keys. -/
theorem resolve_denotes (hnames : (records.map (·.name)).Nodup)
    (h : resolve t hidden records = .ok (dictionary, out)) :
    ((∀ x ∈ t.attributeIdents, '-' ∉ x.toList) → Separate t records) ∧
      (∀ key ∈ dictionary.keys, Denotes t hidden records dictionary key) ∧
      (Separate t records → Intact t hidden records dictionary ∧
        List.Forall₂ (fun r r' => r.source ≠ none → ∀ key ∈ r'.validAttributes,
          Stands t hidden records dictionary r key) records out) := by
  refine ⟨separate_of_no_hyphen, fun key hkey => denotes_of_mem h ((mem_keys_resolve h).mp hkey),
    fun hseparate => ?_⟩
  have hintact := intact_of_separate hnames hseparate h
  refine ⟨hintact, ?_⟩
  have hrecords : List.Forall₂ (fun r r' => r ∈ records ∧ Canonical t dictionary r r')
      records out := (List.forall₂_and_left _ _).mpr ⟨fun r hr => hr, canonical_of_resolve h⟩
  exact hrecords.imp fun r r' hr hsource key hkey =>
    hintact.stands hr.1 ((hr.2.listed hsource).valid_met key hkey)

/-- Without hyphens in attributes, a lock and a person share no key, and the key of the person
stands for its own redefinition. -/
theorem resolve_denotes_keyed :
    ([recordOf "lock", recordOf "person"].map (·.name)).Nodup ∧
    (∀ x ∈ keyedTable.attributeIdents, '-' ∉ x.toList) ∧ ∃ dictionary lock person,
      resolve keyedTable [] ([recordOf "lock"] ++ recordOf "person" :: []) =
        .ok (dictionary, [lock, person]) ∧
      Separate keyedTable [recordOf "lock", recordOf "person"] ∧
      Intact keyedTable [] [recordOf "lock", recordOf "person"] dictionary ∧
      Stands keyedTable [] [recordOf "lock", recordOf "person"] dictionary (recordOf "person")
        "key-person" := by
  have hnames : ([recordOf "lock", recordOf "person"].map (·.name)).Nodup := by decide
  have hplain : ∀ x ∈ keyedTable.attributeIdents, '-' ∉ x.toList := by decide
  obtain ⟨hseparate, -, hclear⟩ := resolve_denotes hnames resolve_lock_person
  obtain ⟨hintact, hrecords⟩ := hclear (hseparate hplain)
  obtain ⟨-, hrest⟩ := List.forall₂_cons.mp hrecords
  obtain ⟨hperson, -⟩ := List.forall₂_cons.mp hrest
  exact ⟨hnames, hplain, _, _, _, resolve_lock_person, hseparate hplain, hintact,
    hperson (by decide) "key-person" (by simp)⟩

/-! ### A redefinition in the place of an attribute -/

/-- A page with an attribute whose name is the key that a note has for another one.  The note
has that one from a class, which changes what another class defines, and it takes it away. -/
def clashingTable : Table := .ofList [
  .ofClass { ident := "att.keyed", kind := .attributes, attributes := [.own { ident := "key" }] },
  .ofClass {
    ident := "att.changed"
    kind := .attributes
    memberships := ["att.keyed"]
    attributes := [.own { ident := "key", mode := some .change }] },
  .ofElement { ident := "page", attributes := [.own { ident := "key-note" }] },
  .ofElement {
    ident := "note"
    memberships := ["att.changed"]
    attributes := [.own { ident := "key", mode := some .delete }] }]

/-- **A redefinition may disturb another element**: the definition of an attribute of a page is
lost to a note, which is not related to the page, and which does not even keep the attribute
that is redefined. -/
theorem resolve_overwrites :
    ¬ ∀ (t : Table) (hidden : List String) (records out : List Record)
      (dictionary : AttributeDictionary), (records.map (·.name)).Nodup →
      resolve t hidden records = .ok (dictionary, out) →
      Separate t records ∧ Intact t hidden records dictionary := by
  intro h
  have hresolve : resolve clashingTable [] [recordOf "page", recordOf "note"] = .ok (
      .ofList [
        ("key", { ident := "key" }),
        ("key-note", { ident := "key", mode := some .change })],
      [{ recordOf "page" with validAttributes := ["key-note"] }, recordOf "note"]) := by
    cbv
  have hmet : allMet clashingTable [recordOf "page", recordOf "note"] = [
      { ident := "key-note" }, { ident := "key" }, { ident := "key", mode := some .change },
      { ident := "key", mode := some .delete }] := by
    cbv
  obtain ⟨-, hintact⟩ := h _ _ _ _ _ (by decide) hresolve
  obtain ⟨b, hb, hget⟩ := hintact.shared "key-note" (by rw [hmet]; decide)
  rw [hmet] at hb
  obtain rfl : { ident := "key-note" } = b := Option.some.inj hb
  exact absurd hget (by decide)

end EditorSchema.Attributes
