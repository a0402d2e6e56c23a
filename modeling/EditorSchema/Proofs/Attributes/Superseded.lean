/-
When a record must have an attribute that it redefines.

A redefinition takes the place of an earlier one in the dictionary, but not in the lists of the
record: there the key is put once more, and what an earlier redefinition required stays
required.  So a record must have an attribute under its own key if the entry in the dictionary
says so, or what the entry is a change of, or else if an earlier redefinition said so that was
superseded since.  A record with one redefinition of an attribute is not concerned.

* `Attributes.Justified`: the dictionary tells why a key is required;
* `Attributes.Superseded`: a redefinition that does not count any more, but still requires;
* `Attributes.ownRequired_iff`: a key is required for one of these reasons, and only so;
* `Attributes.resolve_required`: when a record must have an attribute under its own key;
* `Attributes.resolve_keeps_superseded`: a key that is required for no reason that is left.
-/
import Mathlib.Tactic
import EditorSchema.Proofs.Attributes.Entries

namespace EditorSchema.Attributes

variable {x : String} {o ds : List AttributeDef} {d e : AttributeDef}
variable {base : Option AttributeDef}

/-! ### The last redefinition -/

/-- The redefinition of an attribute that comes last, where `o` are its definitions. -/
def lastRedefinition? (o : List AttributeDef) : Option AttributeDef :=
  (o.tail.filter fun d => d.Redefines).getLast?

lemma redefines_of_last (h : lastRedefinition? o = some d) : d.Redefines := by
  simpa using (List.mem_filter.mp (List.mem_of_getLast? h)).2

/-- No redefinition comes after the last one. -/
lemma mem_of_last {before after : List AttributeDef} (hbefore : before ≠ []) (he : e.Redefines)
    (hlast : lastRedefinition? (before ++ e :: after) = some d) : d ∈ e :: after := by
  rw [lastRedefinition?, List.tail_append_of_ne_nil hbefore, List.filter_append,
    List.getLast?_append_of_ne_nil _ (by simp [he])] at hlast
  exact List.mem_of_mem_filter (List.mem_of_getLast? hlast)

/-! ### Reasons -/

/-- The dictionary tells why a record must have an attribute under its own key, where `d` is the
redefinition that is kept: the entry of the key requires it, or it is a change of a definition
that does. -/
def Justified (dictionary : AttributeDictionary) (name x : String) (d : AttributeDef) : Prop :=
  Requires (dictionary.get? (ownKey x name)) ∨
    d.effectiveMode = .change ∧ Requires (dictionary.get? x)

/-- **A superseded redefinition**: it required an attribute, the last redefinition does not
require it any more, and the attribute was not deleted since. -/
def Superseded (base : Option AttributeDef) (o : List AttributeDef) : Prop :=
  ∃ before e between d rest, o = before ++ e :: (between ++ d :: rest) ∧ before ≠ [] ∧
    MakesRequired base e ∧ lastRedefinition? o = some d ∧ ¬ MakesRequired base d ∧
    ∀ later ∈ between ++ d :: rest, later.effectiveMode ≠ .delete

/-- **The reasons for which a key is required** that a record has of its own: the last
redefinition requires it, or one that was superseded. -/
theorem ownRequired_iff (hlast : lastRedefinition? o = some d) :
    OwnRequired base o ↔
      Kept (fun before d => before ≠ [] ∧ d.Redefines) (·.effectiveMode = .delete) o ∧
        (MakesRequired base d ∨ Superseded base o) := by
  constructor
  · rintro ⟨before, e, after, rfl, ⟨hbefore, hmakes⟩, hafter⟩
    refine ⟨⟨before, e, after, rfl, ⟨hbefore, hmakes.1⟩, hafter⟩, ?_⟩
    rw [or_iff_not_imp_left]
    intro hnot
    rcases List.mem_cons.mp (mem_of_last hbefore hmakes.1 hlast) with rfl | hd
    · exact absurd hmakes hnot
    · obtain ⟨between, rest, rfl⟩ := List.append_of_mem hd
      exact ⟨before, e, between, d, rest, rfl, hbefore, hmakes, hlast, hnot, hafter⟩
  · rintro ⟨⟨before, f, after, rfl, ⟨hbefore, hf⟩, hafter⟩, hmakes | hsuperseded⟩
    · rcases List.mem_cons.mp (mem_of_last hbefore hf hlast) with rfl | hd
      · exact ⟨before, d, after, rfl, ⟨hbefore, hmakes⟩, hafter⟩
      · obtain ⟨between, rest, rfl⟩ := List.append_of_mem hd
        refine ⟨before ++ f :: between, d, rest, by simp, ⟨by simp, hmakes⟩, fun later hlater => ?_⟩
        exact hafter later (by simp [hlater])
    · obtain ⟨before, e, between, d', rest, ho, hbefore, hmakes, -, -, hnone⟩ := hsuperseded
      exact ⟨before, e, between ++ d' :: rest, ho, ⟨hbefore, hmakes⟩, hnone⟩

/-- A redefinition of an attribute that was met before is there to be the last one. -/
lemma mem_tail_redefinitions {before after : List AttributeDef} (hbefore : before ≠ [])
    (he : e.Redefines) : e ∈ (before ++ e :: after).tail.filter fun d => d.Redefines := by
  rw [List.tail_append_of_ne_nil hbefore, List.mem_filter]
  exact ⟨by simp, by simpa using he⟩

lemma exists_last_of_ownRequired (h : OwnRequired base o) :
    ∃ d, lastRedefinition? o = some d := by
  obtain ⟨before, e, after, rfl, ⟨hbefore, he, -⟩, -⟩ := h
  refine Option.ne_none_iff_exists'.mp fun hnone => ?_
  exact List.ne_nil_of_mem (mem_tail_redefinitions hbefore he) (List.getLast?_eq_none_iff.mp hnone)

/-- One redefinition alone is not superseded. -/
lemma not_superseded_of_length_le_one (h : (o.tail.filter fun d => d.Redefines).length ≤ 1) :
    ¬ Superseded base o := by
  rintro ⟨before, e, between, d, rest, rfl, hbefore, hmakes, hlast, hnot, -⟩
  have he : e ∈ (before ++ e :: (between ++ d :: rest)).tail.filter fun d => d.Redefines :=
    mem_tail_redefinitions hbefore hmakes.1
  -- both are the one redefinition that there is
  obtain ⟨f, hf⟩ := List.length_eq_one_iff.mp (le_antisymm h (List.length_pos_of_mem he))
  have hd := List.mem_of_getLast? hlast
  rw [hf, List.mem_singleton] at he hd
  exact hnot (hd ▸ he ▸ hmakes)

/-! ### The dictionary and the lists -/

section Records

variable {t : Table} {hidden : List String} {r r' : Record} {records out : List Record}
variable {dictionary : AttributeDictionary}

lemma isRequired_shown (hidden : List String) (key : String) (d : AttributeDef) :
    (shown hidden key d).isRequired = d.isRequired := rfl

/-- What the dictionary justifies is what the redefinition requires that is kept. -/
lemma Intact.justified_iff (h : Intact t hidden records dictionary) (hr : r ∈ records)
    (hlast : lastRedefinition? (occurrences x (definitionsMet t r)) = some d) :
    Justified dictionary r.name x d ↔ MakesRequired (dictionary.get? x) d := by
  have hne : redefinitions x (definitionsMet t r) ≠ [] :=
    List.ne_nil_of_mem (List.mem_of_getLast? hlast)
  have hx : x ∈ identsOf (allMet t records) :=
    mem_identsOf_allMet.mpr ⟨r, hr, mem_identsOf_of_redefinitions hne⟩
  obtain ⟨b, hb, hown⟩ := h.own r hr x d hlast
  obtain ⟨b', hb', hshared⟩ := h.shared x hx
  obtain rfl := Option.some.inj (hb.symm.trans hb')
  rw [Justified, MakesRequired, and_iff_right (redefines_of_last hlast), hown, hshared]
  simp only [Requires, Option.some.injEq, exists_eq_left', isRequired_shown, redefined]
  by_cases hmode : d.effectiveMode = .change
  · have hor := AttributeDef.isRequired_overlay_or b d
    rw [Bool.eq_iff_iff, Bool.or_eq_true, Bool.or_eq_true] at hor
    simpa [hmode] using hor
  · simp [hmode]

/-- When a record must have an attribute under its own key, where `r'` is the record `r` with its
attributes. -/
structure OwnKeyLaw (t : Table) (dictionary : AttributeDictionary) (r r' : Record) (x : String) :
    Prop where
  /-- It must have it if it may have it and the dictionary tells why it must, or if it may have
  it and a redefinition requires it that was superseded. -/
  required_iff : ownKey x r.name ∈ r'.requiredAttributes ↔
    ownKey x r.name ∈ r'.validAttributes ∧
      ∃ d, lastRedefinition? (occurrences x (definitionsMet t r)) = some d ∧
        (Justified dictionary r.name x d ∨
          Superseded (dictionary.get? x) (occurrences x (definitionsMet t r)))
  /-- Where a redefinition was superseded, the dictionary does not tell why. -/
  unjustified : Superseded (dictionary.get? x) (occurrences x (definitionsMet t r)) →
    ∀ d, lastRedefinition? (occurrences x (definitionsMet t r)) = some d →
      ¬ Justified dictionary r.name x d
  /-- This takes two redefinitions. -/
  once : (redefinitions x (definitionsMet t r)).length ≤ 1 →
    ¬ Superseded (dictionary.get? x) (occurrences x (definitionsMet t r))

lemma ownKeyLaw_of_given (hgiven : Given t dictionary r r')
    (hds : Collects t r (definitionsMet t r)) (hintact : Intact t hidden records dictionary)
    (hr : r ∈ records) (hx : x ∈ t.attributeIdents) : OwnKeyLaw t dictionary r r' x := by
  have hlaw := hgiven.law _ hds x hx
  have hname : r'.name = r.name := by rw [hgiven.same]
  refine ⟨?_, ?_, fun h => not_superseded_of_length_le_one h⟩
  · rw [← hname, hlaw.own_required, hlaw.own_valid, hname]
    constructor
    · intro hrequired
      obtain ⟨d, hlast⟩ := exists_last_of_ownRequired hrequired
      obtain ⟨hkept, hreason⟩ := (ownRequired_iff hlast).mp hrequired
      exact ⟨hkept, d, hlast, hreason.imp_left (hintact.justified_iff hr hlast).mpr⟩
    · rintro ⟨hkept, d, hlast, hreason⟩
      exact (ownRequired_iff hlast).mpr
        ⟨hkept, hreason.imp_left (hintact.justified_iff hr hlast).mp⟩
  · rintro ⟨before, e, between, d', rest, -, -, -, hlast', hnot, -⟩ d hlast hjustified
    obtain rfl := Option.some.inj (hlast'.symm.trans hlast)
    exact hnot ((hintact.justified_iff hr hlast).mp hjustified)

/-- **When a record must have an attribute under its own key**, where no key clashes with
another one or with an attribute: if it may have it, and the entry in the dictionary requires it
or is a change of a definition that does, or else if a redefinition requires it that was
superseded since.  So for an attribute that the record redefines once at most, the dictionary
tells. -/
theorem resolve_required (hnames : (records.map (·.name)).Nodup) (hkeys : KeysApart t records)
    (h : resolve t hidden records = .ok (dictionary, out)) :
    List.Forall₂ (fun r r' => r.source ≠ none →
      ∀ x ∈ t.attributeIdents, OwnKeyLaw t dictionary r r' x) records out := by
  have hintact := intact_of_separate hnames hkeys.separate h
  obtain ⟨last, hall, rfl⟩ := resolve_eq_ok_iff.mp h
  have hresolvable := exists_resolveAll_iff.mp ⟨_, hall⟩
  have hrecords : List.Forall₂ (fun r r' => r ∈ records ∧ Given t last r r') records out :=
    (List.forall₂_and_left _ _).mpr ⟨fun r hr => hr, given_of_resolveAll hkeys.free hall⟩
  refine hrecords.imp fun r r' hr hsource x hx => ?_
  obtain ⟨ds, hds, -⟩ := (hresolvable r hr.1).resolve_left hsource
  rw [← hds.definitionsMet_eq] at hds
  exact ownKeyLaw_of_given hr.2.hide hds hintact hr.1 hx

/-- A class with an attribute, a member of it that requires the attribute by a change, and an
element that replaces what it is given by both. -/
def replacingTable : Table := .ofList [
  .ofClass { ident := "att.named", kind := .attributes, attributes := [.own { ident := "name" }] },
  .ofClass {
    ident := "att.titled"
    kind := .attributes
    memberships := ["att.named"]
    attributes := [.own { ident := "name", usage := some .required, mode := some .change }] },
  .ofElement {
    ident := "page"
    memberships := ["att.titled"]
    attributes := [.own { ident := "name", usage := some .optional, mode := some .replace }] }]

/-- The page with its attributes, and the dictionary. -/
lemma resolve_page : resolve replacingTable [] [recordOf "page"] = .ok (
    .ofList [
      ("name", { ident := "name" }),
      ("name-page", { ident := "name", usage := some .optional, mode := some .replace })],
    [{ recordOf "page" with
      validAttributes := ["name-page"], requiredAttributes := ["name-page"] }]) := by
  cbv

/-- The definitions of its attribute that a page meets. -/
def pageNames : List AttributeDef := [
  { ident := "name" },
  { ident := "name", usage := some .required, mode := some .change },
  { ident := "name", usage := some .optional, mode := some .replace }]

/-- The key of the page stays required, as the change of its class made it, though the page replaces
the definition by one that is optional. -/
theorem resolve_required_page :
    ([recordOf "page"].map (·.name)).Nodup ∧ KeysApart replacingTable [recordOf "page"] ∧
    ∃ dictionary r', resolve replacingTable [] [recordOf "page"] = .ok (dictionary, [r']) ∧
      "name-page" ∈ r'.requiredAttributes ∧
      OwnKeyLaw replacingTable dictionary (recordOf "page") r' "name" ∧
      Superseded (dictionary.get? "name") pageNames := by
  have hnames : ([recordOf "page"].map (·.name)).Nodup := by decide
  have hkeys : KeysApart replacingTable [recordOf "page"] := ⟨by decide, by decide⟩
  have hlaw := (List.forall₂_cons.mp (resolve_required hnames hkeys resolve_page)).1
  refine ⟨hnames, hkeys, _, _, resolve_page, by simp, hlaw (by decide) "name" (by decide), ?_⟩
  exact ⟨pageNames.take 1, _, [], _, [], rfl, by decide, ⟨.inl rfl, .inl rfl⟩, rfl,
    by simp [MakesRequired, AttributeDef.isRequired, AttributeDef.effectiveMode], by decide⟩

/-- **A key may be required for no reason that is left**: a page must have the attribute that it
replaces, since a class that it belongs to requires it by a change, though what is kept is the
replacement, and it says that the attribute is optional. -/
theorem resolve_keeps_superseded :
    ¬ ∀ (t : Table) (hidden : List String) (records out : List Record)
      (dictionary : AttributeDictionary), (records.map (·.name)).Nodup → KeysApart t records →
      resolve t hidden records = .ok (dictionary, out) →
      List.Forall₂ (fun r r' => r.source ≠ none → ∀ x ∈ t.attributeIdents, ∀ d,
        lastRedefinition? (occurrences x (definitionsMet t r)) = some d →
        ownKey x r.name ∈ r'.requiredAttributes → Justified dictionary r.name x d)
        records out := by
  intro h
  have hmet : definitionsMet replacingTable (recordOf "page") = pageNames := by cbv
  have hpage := (List.forall₂_cons.mp
    (h _ _ _ _ _ (by decide) ⟨by decide, by decide⟩ resolve_page)).1
  have hlast : lastRedefinition? (occurrences "name"
      (definitionsMet replacingTable (recordOf "page"))) =
        some { ident := "name", usage := some .optional, mode := some .replace } := by
    rw [hmet]
    rfl
  rcases hpage (by decide) "name" (by decide) _ hlast (by decide) with
    ⟨b, hb, hrequired⟩ | ⟨hmode, -⟩
  · obtain rfl : { ident := "name", usage := some .optional, mode := some .replace } = b :=
      Option.some.inj hb
    exact absurd hrequired (by decide)
  · exact absurd hmode (by decide)

end Records

end EditorSchema.Attributes
