/-
How far the attributes of a record depend on other records.

The attributes that a record may have are told from its own ancestry.  Which of them it must
have is told from its ancestry too, but for one thing: a change is laid on the definition that
the shared dictionary holds for its attribute, and this may be the one of a record that came
before.  So a record may lose a required attribute, or gain one, by the records before it.

* `Attributes.resolve_among_others`: what a record among others shares with the record alone,
  and when it shares all;
* `Attributes.OverrideChain`: the case where a required attribute is changed, and nothing is
  said of its usage;
* `Attributes.resolve_depends_on_others`: a record that loses a required attribute.
-/
import Mathlib.Tactic
import EditorSchema.Proofs.Attributes.Occurrence

namespace EditorSchema.Attributes

variable {name key x : String} {before ds o : List AttributeDef} {d : AttributeDef}
variable {start start' : AttributeDictionary} {r : Record}

/-! ### Keys in the lists -/

lemma ordered_eq_iff {keys others : List String} :
    ordered keys = ordered others ↔ ∀ key, key ∈ keys ↔ key ∈ others :=
  IdentSet.toList_ofIdents_eq_iff

/-- A key that a definition adds is its attribute or the record's own key for it. -/
lemma Adds.key_eq (h : Adds name key before d) : key = d.ident ∨ key = ownKey d.ident name := by
  rw [Adds] at h
  split at h
  · split at h
    · exact .inr h
    · exact .inr h
    · exact .inl h
    · exact h.elim
  · exact .inl h

/-- A key that lasts is an attribute of the definitions or the record's own key for one. -/
lemma key_of_lasting (h : Lasting (Demands name start key) (Removes name key) ds) :
    ∃ x ∈ identsOf ds, key = x ∨ key = ownKey x name := by
  obtain ⟨before, d, rest, rfl, hd, -⟩ := h
  exact ⟨d.ident, by simp [identsOf], hd.1.key_eq⟩

/-! ### Two runs over the same definitions -/

/-- What a record may have does not depend on the dictionary that it finds. -/
lemma valid_withLists_eq (hbased : ∀ ident, ¬ Baseless ds ident) :
    (withLists r (after r.name start ds).lists).validAttributes =
      (withLists r (after r.name start' ds).lists).validAttributes := by
  refine ordered_eq_iff.mpr fun key => ?_
  rw [(follows_of_based r.name start hbased).valid, (follows_of_based r.name start' hbased).valid]

/-- What a record must have depends on it as far as changes are laid on what it holds. -/
lemma required_withLists_eq_iff (hbased : ∀ ident, ¬ Baseless ds ident) :
    (withLists r (after r.name start ds).lists).requiredAttributes =
        (withLists r (after r.name start' ds).lists).requiredAttributes ↔
      ∀ key, Lasting (Demands r.name start key) (Removes r.name key) ds ↔
        Lasting (Demands r.name start' key) (Removes r.name key) ds := by
  refine ordered_eq_iff.trans (forall_congr' fun key => ?_)
  rw [(follows_of_based r.name start hbased).required,
    (follows_of_based r.name start' hbased).required]

section Free

variable (hbased : ∀ ident, ¬ Baseless ds ident)
  (hown : ∀ y ∈ identsOf ds, ∀ z ∈ identsOf ds, ownKey y r.name ≠ z)

include hbased hown

lemma attributeLaw_of_mem (start : AttributeDictionary) (hx : x ∈ identsOf ds) :
    AttributeLaw (baseOf start x ds) (occurrences x ds) x
      (withLists r (after r.name start ds).lists) := by
  have hsame {y : String} (hy : y ∈ x :: identsOf ds) : y ∈ identsOf ds :=
    (List.mem_cons.mp hy).elim (fun heq => heq ▸ hx) id
  exact attributeLaw_of_based (fun y hy z hz => hown y (hsame hy) z (hsame hz)) hbased

/-- Where the keys of a record are free, it depends on the dictionary as far as the record's
own keys do. -/
lemma required_withLists_eq_iff_own :
    (withLists r (after r.name start ds).lists).requiredAttributes =
        (withLists r (after r.name start' ds).lists).requiredAttributes ↔
      ∀ x ∈ identsOf ds, OwnRequired (baseOf start x ds) (occurrences x ds) ↔
        OwnRequired (baseOf start' x ds) (occurrences x ds) := by
  have hlaw (dictionary : AttributeDictionary) {x : String} (hx : x ∈ identsOf ds) :
      AttributeLaw (baseOf dictionary x ds) (occurrences x ds) x
        (withLists r (after r.name dictionary ds).lists) :=
    attributeLaw_of_mem hbased hown dictionary hx
  have hlasting (dictionary : AttributeDictionary) (key : String) :
      key ∈ (withLists r (after r.name dictionary ds).lists).requiredAttributes ↔
        Lasting (Demands r.name dictionary key) (Removes r.name key) ds :=
    mem_ordered.trans ((follows_of_based r.name dictionary hbased).required key)
  refine (required_withLists_eq_iff hbased).trans ⟨fun h x hx => ?_, fun h key => ?_⟩
  · rw [← (hlaw start hx).own_required, ← (hlaw start' hx).own_required, hlasting, hlasting]
    exact h _
  · have hkey (x : String) (hx : x ∈ identsOf ds) (hkey : key = x ∨ key = ownKey x r.name) :
        Lasting (Demands r.name start key) (Removes r.name key) ds ↔
          Lasting (Demands r.name start' key) (Removes r.name key) ds := by
      rw [← hlasting, ← hlasting]
      rcases hkey with rfl | rfl
      · rw [(hlaw start hx).shared_required, (hlaw start' hx).shared_required]
      · exact (hlaw start hx).own_required.trans
          ((h x hx).trans (hlaw start' hx).own_required.symm)
    constructor
    · intro hl
      obtain ⟨x, hx, hxkey⟩ := key_of_lasting hl
      exact (hkey x hx hxkey).mp hl
    · intro hl
      obtain ⟨x, hx, hxkey⟩ := key_of_lasting hl
      exact (hkey x hx hxkey).mpr hl

end Free

/-! ### A required attribute that is changed -/

/-- The definitions of an attribute that is required at first and then changed, where the
changes say nothing of its usage. -/
def OverrideChain (o : List AttributeDef) : Prop :=
  ∃ d rest, o = d :: rest ∧ d.isRequired = true ∧ rest ≠ [] ∧
    ∀ e ∈ rest, e.effectiveMode = .change ∧ e.usage = none

lemma OverrideChain.requires_head? (h : OverrideChain o) : Requires o.head? := by
  obtain ⟨d, rest, rfl, hd, -, -⟩ := h
  exact ⟨d, rfl, hd⟩

lemma OverrideChain.mem_identsOf (h : OverrideChain (occurrences x ds)) : x ∈ identsOf ds := by
  obtain ⟨d, rest, ho, -⟩ := h
  exact not_not.mp (mt occurrences_eq_nil.mpr (by simp [ho]))

/-- The first change in it is kept. -/
lemma OverrideChain.exists_change (h : OverrideChain o) :
    ∃ d e rest, o = d :: e :: rest ∧ e.effectiveMode = .change ∧
      ∀ later ∈ rest, ¬ later.effectiveMode = .delete := by
  obtain ⟨d, rest, rfl, -, hrest, hchange⟩ := h
  obtain ⟨e, rest, rfl⟩ := List.exists_cons_of_ne_nil hrest
  refine ⟨d, e, rest, rfl, (hchange e (by simp)).1, fun later hlater => ?_⟩
  rw [(hchange later (List.mem_cons_of_mem _ hlater)).1]
  exact Mode.noConfusion

lemma OverrideChain.own_valid (h : OverrideChain o) :
    Kept (fun before d => before ≠ [] ∧ d.Redefines) (·.effectiveMode = .delete) o := by
  obtain ⟨d, e, rest, rfl, he, hrest⟩ := h.exists_change
  exact ⟨[d], e, rest, rfl, ⟨by simp, .inl he⟩, hrest⟩

/-- The own key is required exactly if the definition is that the changes are laid on. -/
lemma OverrideChain.own_required_iff (h : OverrideChain o) {base : Option AttributeDef} :
    OwnRequired base o ↔ Requires base := by
  constructor
  · rintro ⟨before, e, after, ho, ⟨hbefore, -, hreq | ⟨-, hbase⟩⟩, -⟩
    · obtain ⟨d, rest, rfl, -, -, hchange⟩ := h
      obtain ⟨d', before, rfl⟩ := List.exists_cons_of_ne_nil hbefore
      cases ho
      have hnone := (hchange e (by simp)).2
      simp [AttributeDef.isRequired, hnone] at hreq
    · exact hbase
  · intro hbase
    obtain ⟨d, e, rest, rfl, he, hrest⟩ := h.exists_change
    exact ⟨[d], e, rest, rfl, ⟨by simp, .inl he, .inr ⟨he, hbase⟩⟩, hrest⟩

/-- What a record may and must have of an attribute that is required and changed. -/
lemma OverrideChain.lists (h : OverrideChain (occurrences x ds))
    (hbased : ∀ ident, ¬ Baseless ds ident)
    (hown : ∀ y ∈ identsOf ds, ∀ z ∈ identsOf ds, ownKey y r.name ≠ z) :
    ownKey x r.name ∈ (withLists r (after r.name start ds).lists).validAttributes ∧
      (ownKey x r.name ∈ (withLists r (after r.name start ds).lists).requiredAttributes ↔
        Requires (baseOf start x ds)) := by
  have hlaw := attributeLaw_of_mem hbased hown start h.mem_identsOf
  exact ⟨hlaw.own_valid.mpr h.own_valid, hlaw.own_required.trans h.own_required_iff⟩

/-! ### A record among others -/

section Others

variable {t : Table} {hidden : List String} {earlier later out : List Record}
variable {dictionary : AttributeDictionary}

/-- The definition of an attribute that the dictionary holds counts for a record as the first
one that the record itself meets. -/
def SameBase (dictionary : AttributeDictionary) (ds : List AttributeDef) (x : String) : Prop :=
  OwnRequired (dictionary.get? x) (occurrences x ds) ↔
    OwnRequired (occurrences x ds).head? (occurrences x ds)

/-- A record that is given its attributes alone. -/
lemma resolve_singleton {r' : Record} (h : resolveOne t .empty r = .ok (dictionary, r')) :
    resolve t hidden [r] = .ok (hide hidden dictionary, [r']) := by
  have hnone : resolveAll t dictionary [] = .ok (dictionary, []) := rfl
  exact resolve_eq_ok_iff.mpr ⟨_, resolveAll_cons.mpr ⟨_, _, _, h, hnone, rfl⟩, rfl⟩

/-- **A record among others.**  It may have the attributes that it may have alone.  It must
have the same as alone if each change counts the same, whether it is laid on what the records
before leave in the dictionary or on what the record itself puts there.  Where the keys of
records are free, this is told from the definitions that the dictionary holds in the end: a
required attribute that is changed stays required only if the definition there requires it. -/
theorem resolve_among_others
    (h : resolve t hidden (earlier ++ r :: later) = .ok (dictionary, out)) :
    ∃ found done r' shown alone, resolveAll t .empty earlier = .ok (found, done) ∧
      out[earlier.length]? = some r' ∧ resolve t hidden [r] = .ok (shown, [alone]) ∧
      r'.validAttributes = alone.validAttributes ∧
      (r.source = none → r'.requiredAttributes = alone.requiredAttributes) ∧
      ∀ ds, Collects t r ds →
        (r'.requiredAttributes = alone.requiredAttributes ↔
          ∀ key, Lasting (Demands r.name found key) (Removes r.name key) ds ↔
            Lasting (Demands r.name .empty key) (Removes r.name key) ds) ∧
        (KeysFree t (earlier ++ r :: later) →
          (r'.requiredAttributes = alone.requiredAttributes ↔
            ∀ x ∈ identsOf ds, SameBase dictionary ds x) ∧
          ∀ x, OverrideChain (occurrences x ds) →
            ownKey x r.name ∈ r'.validAttributes ∧ ownKey x r.name ∈ alone.requiredAttributes ∧
            (ownKey x r.name ∈ r'.requiredAttributes ↔ Requires (dictionary.get? x))) := by
  obtain ⟨last, hall, rfl⟩ := resolve_eq_ok_iff.mp h
  obtain ⟨found, left, done, r', rest, hdone, hr', hrest, rfl, hlen⟩ := resolveAll_split hall
  have hat : (done ++ r' :: rest)[earlier.length]? = some r' := by
    rw [← hlen, List.getElem?_append_right le_rfl, Nat.sub_self, List.getElem?_cons_zero]
  rcases resolveOne_eq_ok_iff.mp hr' with ⟨hsource, -, rfl⟩ | ⟨ds, hds, hbased, hleft, rfl⟩
  · refine ⟨found, done, r', _, r', hdone, hat,
      resolve_singleton (resolveOne_of_no_source hsource), rfl, fun _ => rfl, fun ds hds => ?_⟩
    obtain ⟨source, s, hs, -⟩ := hds
    cases hsource.symm.trans hs
  · have halone : resolveOne t .empty r = .ok ((after r.name .empty ds).dictionary,
        withLists r (after r.name .empty ds).lists) :=
      resolveOne_eq_ok_iff.mpr (.inr ⟨ds, hds, hbased, rfl, rfl⟩)
    refine ⟨found, done, _, _, _, hdone, hat, resolve_singleton halone, valid_withLists_eq hbased,
      fun hsource => ?_, fun es hes => ?_⟩
    · obtain ⟨source, s, hs, -⟩ := hds
      cases hsource.symm.trans hs
    · cases hes.unique hds
      refine ⟨required_withLists_eq_iff hbased, fun hfree => ?_⟩
      have hthis : KeysFree t (r :: later) := hfree.mono fun e he => List.mem_append_right _ he
      have hown : ∀ y ∈ identsOf ds, ∀ z ∈ identsOf ds, ownKey y r.name ≠ z := fun y hy z hz =>
        hthis.ne List.mem_cons_self (hds.mem_attributeIdents hy) (hds.mem_attributeIdents hz)
      have hbase {x : String} (hx : x ∈ identsOf ds) :
          Requires ((hide hidden last).get? x) ↔ Requires (baseOf found x ds) := by
        rw [requires_hide, get?_eq_baseOf hthis hx hds hr' hrest]
      refine ⟨?_, fun x hchain => ?_⟩
      · rw [required_withLists_eq_iff_own hbased hown]
        refine forall₂_congr fun x hx => iff_congr ?_ Iff.rfl
        exact ownRequired_congr fun _ => (hbase hx).symm
      · obtain ⟨hvalid, hrequired⟩ := hchain.lists hbased hown
        obtain ⟨-, halone⟩ := hchain.lists hbased hown
        refine ⟨hvalid, halone.mpr hchain.requires_head?, ?_⟩
        rw [hrequired, hbase hchain.mem_identsOf]

/-- The definitions of its attribute that a person meets. -/
def personKeys : List AttributeDef :=
  [{ ident := "key", usage := some .required }, { ident := "key", mode := some .change }]

/-- A lock before a person, and the lists that the person is given then. -/
lemma resolve_lock_person :
    resolve keyedTable [] ([recordOf "lock"] ++ recordOf "person" :: []) = .ok (
      .ofList [
        ("key", { ident := "key" }),
        ("key-person", { ident := "key", mode := some .change })],
      [{ recordOf "lock" with validAttributes := ["key"] },
        { recordOf "person" with validAttributes := ["key-person"] }]) := by
  cbv

/-- A person after a lock has its own key, which is required just if the attribute of the lock is.
-/
theorem resolve_among_others_keyed :
    KeysFree keyedTable ([recordOf "lock"] ++ recordOf "person" :: []) ∧
    Collects keyedTable (recordOf "person") personKeys ∧
    OverrideChain (occurrences "key" personKeys) ∧ ∃ dictionary out r',
      resolve keyedTable [] ([recordOf "lock"] ++ recordOf "person" :: []) =
        .ok (dictionary, out) ∧
      out[1]? = some r' ∧ ownKey "key" "person" ∈ r'.validAttributes ∧
      (ownKey "key" "person" ∈ r'.requiredAttributes ↔ Requires (dictionary.get? "key")) := by
  have hfree : KeysFree keyedTable ([recordOf "lock"] ++ recordOf "person" :: []) := by decide
  have hcollects : Collects keyedTable (recordOf "person") personKeys :=
    ⟨"person", _, rfl, rfl, by cbv⟩
  have hchain : OverrideChain (occurrences "key" personKeys) :=
    ⟨_, _, rfl, rfl, by decide, by decide⟩
  obtain ⟨_, _, r', _, _, -, hat, -, -, -, hrequired⟩ := resolve_among_others resolve_lock_person
  obtain ⟨hvalid, -, hiff⟩ := ((hrequired _ hcollects).2 hfree).2 "key" hchain
  exact ⟨hfree, hcollects, hchain, _, _, r', resolve_lock_person, hat, hvalid, hiff⟩

/-- **A record depends on others**: a person that must have its key need not have it any more
after a lock, which has a key of its own and is not related to it. -/
theorem resolve_depends_on_others :
    ¬ ∀ (t : Table) (hidden : List String) (earlier later out : List Record)
      (r r' alone : Record) (dictionary shown : AttributeDictionary),
      resolve t hidden (earlier ++ r :: later) = .ok (dictionary, out) →
      out[earlier.length]? = some r' → resolve t hidden [r] = .ok (shown, [alone]) →
      r'.validAttributes = alone.validAttributes ∧
        r'.requiredAttributes = alone.requiredAttributes := by
  intro h
  have halone : resolve keyedTable [] [recordOf "person"] = .ok (
      .ofList [
        ("key", { ident := "key", usage := some .required }),
        ("key-person", { ident := "key", usage := some .required, mode := some .change })],
      [{ recordOf "person" with
        validAttributes := ["key-person"], requiredAttributes := ["key-person"] }]) := by
    cbv
  obtain ⟨-, hrequired⟩ := h _ _ _ _ _ _ _ _ _ _ resolve_lock_person rfl halone
  exact absurd hrequired (by decide)

end Others

end EditorSchema.Attributes
