/-
What records write into the attribute dictionary.

The first definition of an attribute that a record meets is put under the attribute, where
nothing is yet.  A later one that redefines the attribute is put under the record's own key for
it, whatever is there.  Nothing else is written, and nothing is taken away.  So the keys are
known from the definitions that the records meet; under a key that no record owns is the first
definition of the attribute of that name; and under a key that records own is the last
redefinition of the last of them.  None of this depends on what the keys look like.

* `Attributes.redefinitions`: the later definitions of an attribute that redefine it;
* `Attributes.dictionary_after`: what one definition writes;
* `Attributes.definitionsMet`: the definitions that a record meets;
* `Attributes.contains_resolveAll`: the keys in the end;
* `Attributes.get?_resolveAll_of_not_owns`, `Attributes.get?_ownKey_resolveAll`: what is under
  them.
-/
import Mathlib.Tactic
import EditorSchema.Proofs.Attributes.Occurrence

namespace EditorSchema.Attributes

open Outcome

variable {name key x : String} {ds : List AttributeDef} {d : AttributeDef}
variable {start : AttributeDictionary}

/-! ### Redefinitions -/

/-- The definitions of an attribute after the first one that redefine it. -/
def redefinitions (ident : String) (ds : List AttributeDef) : List AttributeDef :=
  (occurrences ident ds).tail.filter fun d => d.Redefines

/-- What a redefinition leaves, where `base` is the definition that a change is laid on. -/
def redefined (base d : AttributeDef) : AttributeDef :=
  if d.effectiveMode = .change then base.overlay d else d

lemma redefinitions_append_singleton : redefinitions x (ds ++ [d]) =
    if d.ident = x ∧ x ∈ identsOf ds ∧ d.Redefines then redefinitions x ds ++ [d]
      else redefinitions x ds := by
  rw [redefinitions, redefinitions, occurrences_append_singleton]
  by_cases hx : d.ident = x
  · rw [if_pos hx]
    cases hocc : occurrences x ds with
    | nil => simp [occurrences_eq_nil.mp hocc]
    | cons e es =>
        have hmet : x ∈ identsOf ds := not_not.mp (mt occurrences_eq_nil.mpr (by simp [hocc]))
        by_cases hred : d.Redefines <;> simp [hx, hmet, hred]
  · simp [hx]

/-- A definition that redefines an attribute after others is among its redefinitions. -/
lemma mem_redefinitions {before rest : List AttributeDef} (hmet : d.ident ∈ identsOf before)
    (hred : d.Redefines) : d ∈ redefinitions d.ident (before ++ d :: rest) := by
  have hne : occurrences d.ident before ≠ [] := mt occurrences_eq_nil.mp (not_not.mpr hmet)
  have hocc : occurrences d.ident (before ++ d :: rest) =
      occurrences d.ident before ++ d :: occurrences d.ident rest := by
    simp [occurrences]
  rw [redefinitions, hocc, List.tail_append_of_ne_nil hne, List.mem_filter]
  exact ⟨by simp, by simpa using hred⟩

/-- A redefinition that has a base is one of the redefinitions of its attribute. -/
lemma redefinitions_ne_nil (hbased : ∀ ident, ¬ Baseless ds ident) (hd : d ∈ ds)
    (hred : d.Redefines) : redefinitions d.ident ds ≠ [] := by
  obtain ⟨before, rest, rfl⟩ := List.append_of_mem hd
  rw [List.append_cons] at hbased
  have hmet : d.ident ∈ identsOf before := by
    by_contra hmet
    exact not_redefines_of_based (based_of_append hbased) hmet hred
  exact List.ne_nil_of_mem (mem_redefinitions hmet hred)

lemma mem_identsOf_of_redefinitions (h : redefinitions x ds ≠ []) : x ∈ identsOf ds := by
  by_contra hx
  exact h (by simp [redefinitions, occurrences_eq_nil.mpr hx])

lemma exists_last_redefinition (h : redefinitions x ds ≠ []) :
    ∃ d, (redefinitions x ds).getLast? = some d :=
  Option.ne_none_iff_exists'.mp (mt List.getLast?_eq_none_iff.mp h)

/-! ### What one definition writes -/

/-- **What a definition writes**: the first one of an attribute is put under the attribute,
where nothing is; a later one is put under the record's own key if it redefines the attribute,
and nowhere else. -/
lemma dictionary_after (name : String) (start : AttributeDictionary)
    (hbased : ∀ ident, ¬ Baseless (ds ++ [d]) ident) :
    (d.ident ∉ identsOf ds ∧ (after name start (ds ++ [d])).dictionary =
      (after name start ds).dictionary.insertNew d.ident d) ∨
    (d.ident ∈ identsOf ds ∧ d.Redefines ∧
      ∃ base, (after name start ds).dictionary.get? d.ident = some base ∧
        (after name start (ds ++ [d])).dictionary =
          (after name start ds).dictionary.insert (ownKey d.ident name) (redefined base d)) ∨
    (d.ident ∈ identsOf ds ∧ ¬ d.Redefines ∧
      (after name start (ds ++ [d])).dictionary = (after name start ds).dictionary) := by
  have hfollows := follows_of_based name start (based_of_append hbased)
  rw [after_append_singleton, proceed]
  by_cases hmet : d.ident ∈ identsOf ds
  · have hp := (hfollows.met d.ident).mpr hmet
    obtain ⟨base, hbase⟩ := Dictionary.contains_iff.mp (hfollows.covered d.ident hmet)
    cases hmode : d.effectiveMode with
    | change =>
        rw [step_change hp hmode hbase]
        exact .inr (.inl ⟨hmet, .inl hmode, base, hbase, by rw [redefined, if_pos hmode]⟩)
    | replace =>
        rw [step_replace hp hmode]
        exact .inr (.inl ⟨hmet, .inr hmode, base, hbase, by simp [redefined, hmode]⟩)
    | delete =>
        rw [step_delete hp hmode]
        exact .inr (.inr ⟨hmet, by simp [AttributeDef.Redefines, hmode], rfl⟩)
    | add =>
        rw [step_add hp hmode]
        exact .inr (.inr ⟨hmet, by simp [AttributeDef.Redefines, hmode], rfl⟩)
  · have hp : d.ident ∉ (after name start ds).met := fun hm => hmet ((hfollows.met _).mp hm)
    rw [step_first hp (not_redefines_of_based hbased hmet)]
    exact .inl ⟨hmet, rfl⟩

/-! ### One record -/

/-- One definition more adds an own key if it redefines an attribute that was met. -/
lemma exists_redefinitions_append_singleton :
    (∃ x, redefinitions x (ds ++ [d]) ≠ [] ∧ key = ownKey x name) ↔
      (∃ x, redefinitions x ds ≠ [] ∧ key = ownKey x name) ∨
        d.ident ∈ identsOf ds ∧ d.Redefines ∧ key = ownKey d.ident name := by
  constructor
  · rintro ⟨x, hne, hkey⟩
    rw [redefinitions_append_singleton] at hne
    split at hne
    · next h =>
      obtain ⟨rfl, hmet, hred⟩ := h
      exact .inr ⟨hmet, hred, hkey⟩
    · exact .inl ⟨x, hne, hkey⟩
  · rintro (⟨x, hne, hkey⟩ | ⟨hmet, hred, hkey⟩)
    · refine ⟨x, ?_, hkey⟩
      rw [redefinitions_append_singleton]
      split
      · simp
      · exact hne
    · exact ⟨d.ident, List.ne_nil_of_mem (mem_redefinitions hmet hred), hkey⟩

/-- **The keys that a record leaves**: those that it finds, the attributes that it meets, and
its own keys for those that are redefined. -/
lemma contains_after (hbased : ∀ ident, ¬ Baseless ds ident) :
    (after name start ds).dictionary.contains key = true ↔ start.contains key = true ∨
      key ∈ identsOf ds ∨ ∃ x, redefinitions x ds ≠ [] ∧ key = ownKey x name := by
  induction ds using List.reverseRecOn with
  | nil => simp [after, identsOf, redefinitions, occurrences]
  | append_singleton ds d ih =>
      have hrec := ih (based_of_append hbased)
      rw [mem_identsOf_append, exists_redefinitions_append_singleton]
      -- what is left is about the three ways a key comes in, not about what owning means
      generalize (∃ x, redefinitions x ds ≠ [] ∧ key = ownKey x name) = Own at hrec ⊢
      rcases dictionary_after name start hbased with
        ⟨hmet, hdict⟩ | ⟨hmet, hred, base, -, hdict⟩ | ⟨hmet, hred, hdict⟩
      · rw [hdict, Dictionary.contains_insertNew, hrec]
        simp only [hmet, false_and, or_false]
        grind
      · rw [hdict, Dictionary.contains_insert, hrec]
        simp only [hmet, hred, true_and]
        grind
      · rw [hdict, hrec]
        simp only [hred, false_and, and_false, or_false]
        grind

lemma baseOf_append_orElse (rest : List AttributeDef) : baseOf start x (ds ++ rest) =
    (baseOf start x ds <|> (occurrences x rest).head?) := by
  rw [baseOf, baseOf, occurrences_append, List.head?_append]
  cases start.get? x <;> cases (occurrences x ds).head? <;> rfl

/-- A definition that is there stays the base, whatever is met later. -/
lemma baseOf_append_of_some {base : AttributeDef} (h : baseOf start x ds = some base)
    (rest : List AttributeDef) : baseOf start x (ds ++ rest) = some base := by
  rw [baseOf_append_orElse, h]
  rfl

/-- **What a record leaves under its own key for an attribute** is the last redefinition, laid
on the definition that holds for the attribute if no key of the record is its name. -/
lemma get?_ownKey_after (name : String) (start : AttributeDictionary)
    (hbased : ∀ ident, ¬ Baseless ds ident)
    (hlast : (redefinitions x ds).getLast? = some d) :
    ∃ base, (after name start ds).dictionary.get? (ownKey x name) = some (redefined base d) ∧
      ((∀ e ∈ ds, e.Redefines → x ≠ ownKey e.ident name) → baseOf start x ds = some base) := by
  induction ds using List.reverseRecOn with
  | nil => simp [redefinitions, occurrences] at hlast
  | append_singleton ds e ih =>
      have hbefore := based_of_append hbased
      -- a definition that is no redefinition of `x` leaves what the ones before it made
      have hold (hlast : (redefinitions x ds).getLast? = some d) :
          ∃ base, (after name start ds).dictionary.get? (ownKey x name) = some (redefined base d) ∧
            ((∀ f ∈ ds ++ [e], f.Redefines → x ≠ ownKey f.ident name) →
              baseOf start x (ds ++ [e]) = some base) := by
        obtain ⟨base, hget, hbase⟩ := ih hbefore hlast
        exact ⟨base, hget, fun h =>
          baseOf_append_of_some (hbase fun f hf => h f (List.mem_append_left _ hf)) [e]⟩
      rw [redefinitions_append_singleton] at hlast
      rcases dictionary_after name start hbased with
        ⟨hmet, hdict⟩ | ⟨hmet, hred, base, hbase, hdict⟩ | ⟨hmet, hred, hdict⟩
      · rw [if_neg (by rintro ⟨rfl, hx, -⟩; exact hmet hx)] at hlast
        obtain ⟨base, hget, hbase⟩ := hold hlast
        refine ⟨base, ?_, hbase⟩
        rw [hdict, Dictionary.get?_insertNew, hget]
        split <;> rfl
      · by_cases hx : e.ident = x
        · subst hx
          rw [if_pos ⟨rfl, hmet, hred⟩, List.getLast?_concat, Option.some.injEq] at hlast
          subst hlast
          refine ⟨base, ?_, fun h => ?_⟩
          · rw [hdict, Dictionary.get?_insert, if_pos rfl]
          · rw [baseOf_append hmet, ← hbase]
            exact (get?_after hbefore fun f hf => h f (List.mem_append_left _ hf)).symm
        · rw [if_neg fun h => hx h.1] at hlast
          obtain ⟨base', hget, hbase'⟩ := hold hlast
          refine ⟨base', ?_, hbase'⟩
          rw [hdict, Dictionary.get?_insert, if_neg (mt ownKey_inj.mp hx), hget]
      · rw [if_neg fun h => hred h.2.2] at hlast
        rw [hdict]
        exact hold hlast

/-! ### All records -/

section Records

variable {t : Table} {r r' s : Record} {records earlier later out : List Record}
variable {dictionary last : AttributeDictionary} {hidden : List String}

/-- The definitions that a record meets: none if it has no source. -/
def definitionsMet (t : Table) (r : Record) : List AttributeDef :=
  match r.source.bind t.get? with
  | some s => (Ancestry.definitions t s).toOption.getD []
  | none => []

/-- The definitions that records meet, record by record. -/
def allMet (t : Table) (records : List Record) : List AttributeDef :=
  records.flatMap (definitionsMet t)

lemma allMet_append : allMet t (earlier ++ later) = allMet t earlier ++ allMet t later :=
  List.flatMap_append

lemma mem_identsOf_allMet :
    x ∈ identsOf (allMet t records) ↔ ∃ r ∈ records, x ∈ identsOf (definitionsMet t r) := by
  rw [allMet, identsOf, List.map_flatMap, List.mem_flatMap]
  rfl

/-- A key under which a record has a redefinition of its own. -/
def Owns (t : Table) (r : Record) (key : String) : Prop :=
  ∃ x, redefinitions x (definitionsMet t r) ≠ [] ∧ key = ownKey x r.name

lemma Collects.definitionsMet_eq (h : Collects t r ds) : definitionsMet t r = ds := by
  obtain ⟨source, s, hsource, hs, hds⟩ := h
  rw [definitionsMet, hsource, Option.bind_some]
  simp only [hs, hds]
  rfl

lemma definitionsMet_of_no_source (h : r.source = none) : definitionsMet t r = [] := by
  rw [definitionsMet, h, Option.bind_none]

/-- A record that is given its attributes meets no attribute without a base, and hands on what
it writes. -/
lemma dictionary_of_resolveOne (h : resolveOne t start r = .ok (dictionary, r')) :
    (∀ ident, ¬ Baseless (definitionsMet t r) ident) ∧
      dictionary = (after r.name start (definitionsMet t r)).dictionary := by
  rcases resolveOne_eq_ok_iff.mp h with ⟨hsource, rfl, -⟩ | ⟨ds, hds, hbased, rfl, -⟩
  · rw [definitionsMet_of_no_source hsource]
    refine ⟨fun ident hident => ?_, rfl⟩
    obtain ⟨d, hd, -⟩ := hident
    cases hd
  · rw [hds.definitionsMet_eq]
    exact ⟨hbased, rfl⟩

/-- **The keys in the end**: those that were there, the attributes that are met, and the keys
that records own. -/
theorem contains_resolveAll (h : resolveAll t start records = .ok (last, out)) :
    last.contains key = true ↔ start.contains key = true ∨
      key ∈ identsOf (allMet t records) ∨ ∃ r ∈ records, Owns t r key := by
  induction records generalizing start out with
  | nil =>
      cases h
      simp [allMet, identsOf]
  | cons r rest ih =>
      obtain ⟨between, first, others, hfirst, hothers, -⟩ := resolveAll_cons.mp h
      obtain ⟨hbased, rfl⟩ := dictionary_of_resolveOne hfirst
      have hr : (∃ x, redefinitions x (definitionsMet t r) ≠ [] ∧ key = ownKey x r.name) ↔
          Owns t r key := Iff.rfl
      rw [ih hothers, contains_after hbased, hr, mem_identsOf_allMet, mem_identsOf_allMet,
        List.exists_mem_cons_iff, List.exists_mem_cons_iff]
      grind

/-- **Under a key that no record owns** is what was there, or else the first definition of the
attribute of that name. -/
theorem get?_resolveAll_of_not_owns (h : resolveAll t start records = .ok (last, out))
    (hkey : ∀ r ∈ records, ¬ Owns t r key) :
    last.get? key = baseOf start key (allMet t records) := by
  induction records generalizing start out with
  | nil =>
      cases h
      simp [allMet, baseOf, occurrences]
  | cons r rest ih =>
      obtain ⟨between, first, others, hfirst, hothers, -⟩ := resolveAll_cons.mp h
      obtain ⟨hbased, rfl⟩ := dictionary_of_resolveOne hfirst
      obtain ⟨hr, hrest⟩ := List.forall_mem_cons.mp hkey
      have hleft : (after r.name start (definitionsMet t r)).dictionary.get? key =
          baseOf start key (definitionsMet t r) :=
        get?_after hbased fun d hd hred heq =>
          hr ⟨d.ident, redefinitions_ne_nil hbased hd hred, heq⟩
      rw [ih hothers hrest, baseOf, hleft, allMet, allMet, List.flatMap_cons,
        baseOf_append_orElse]

/-- What is under a key that no record owns stays there. -/
lemma get?_resolveAll_of_some {v : AttributeDef} (h : resolveAll t start records = .ok (last, out))
    (hkey : ∀ r ∈ records, ¬ Owns t r key) (hv : start.get? key = some v) :
    last.get? key = some v := by
  rw [get?_resolveAll_of_not_owns h hkey, baseOf, hv]
  rfl

/-- **Under a key that records own** is the last redefinition of the last of them, laid on the
first definition of the attribute if no record up to that one owns a key of its name. -/
theorem get?_ownKey_resolveAll
    (h : resolveAll t start (earlier ++ r :: later) = .ok (last, out))
    (hlast : (redefinitions x (definitionsMet t r)).getLast? = some d)
    (hlater : ∀ s ∈ later, ¬ Owns t s (ownKey x r.name)) :
    ∃ base, last.get? (ownKey x r.name) = some (redefined base d) ∧
      ((∀ s ∈ earlier ++ [r], ¬ Owns t s x) →
        baseOf start x (allMet t (earlier ++ r :: later)) = some base) := by
  obtain ⟨found, left, done, first, rest, hearlier, hr, hrest, -, -⟩ := resolveAll_split h
  obtain ⟨hbased, rfl⟩ := dictionary_of_resolveOne hr
  obtain ⟨base, hget, hbase⟩ := get?_ownKey_after r.name found hbased hlast
  refine ⟨base, get?_resolveAll_of_some hrest hlater hget, fun hx => ?_⟩
  have hxr : ∀ e ∈ definitionsMet t r, e.Redefines → x ≠ ownKey e.ident r.name :=
    fun e he hred heq => hx r (by simp) ⟨e.ident, redefinitions_ne_nil hbased he hred, heq⟩
  have hfound : found.get? x = baseOf start x (allMet t earlier) :=
    get?_resolveAll_of_not_owns hearlier fun s hs => hx s (List.mem_append_left _ hs)
  have hall : allMet t (earlier ++ r :: later) =
      (allMet t earlier ++ definitionsMet t r) ++ allMet t later := by
    rw [allMet_append, List.append_assoc]
    rfl
  rw [hall]
  refine baseOf_append_of_some ?_ _
  rw [baseOf_append_orElse, ← hfound]
  exact hbase hxr

/-! ### Hidden definitions -/

/-- A definition under a key, where the attributes of some keys are hidden. -/
def shown (hidden : List String) (key : String) (d : AttributeDef) : AttributeDef :=
  { d with hidden := d.hidden || hidden.contains key }

lemma get?_hide_eq : (hide hidden last).get? key = (last.get? key).map (shown hidden key) := by
  rw [get?_hide]
  refine congrArg (Option.map · _) (funext fun d => ?_)
  rw [shown]
  cases hidden.contains key with
  | false => simp
  | true => simp

lemma mem_keys_hide : key ∈ (hide hidden last).keys ↔ last.contains key = true := by
  rw [Dictionary.mem_keys_iff, Dictionary.contains, get?_hide_eq, Option.isSome_map,
    Dictionary.contains]

lemma get?_resolve_of_not_owns (h : resolve t hidden records = .ok (dictionary, out))
    (hkey : ∀ r ∈ records, ¬ Owns t r key)
    (hfirst : (occurrences key (allMet t records)).head? = some d) :
    dictionary.get? key = some (shown hidden key d) := by
  obtain ⟨last, hall, rfl⟩ := resolve_eq_ok_iff.mp h
  rw [get?_hide_eq, get?_resolveAll_of_not_owns hall hkey, baseOf, hfirst]
  rfl

lemma get?_ownKey_resolve
    (h : resolve t hidden (earlier ++ r :: later) = .ok (dictionary, out))
    (hlast : (redefinitions x (definitionsMet t r)).getLast? = some d)
    (hlater : ∀ s ∈ later, ¬ Owns t s (ownKey x r.name)) :
    ∃ base,
      dictionary.get? (ownKey x r.name) =
        some (shown hidden (ownKey x r.name) (redefined base d)) ∧
      ((∀ s ∈ earlier ++ [r], ¬ Owns t s x) →
        (occurrences x (allMet t (earlier ++ r :: later))).head? = some base) := by
  obtain ⟨last, hall, rfl⟩ := resolve_eq_ok_iff.mp h
  obtain ⟨base, hget, hbase⟩ := get?_ownKey_resolveAll hall hlast hlater
  refine ⟨base, ?_, hbase⟩
  rw [get?_hide_eq, hget]
  rfl

/-- The keys of the dictionary are the attributes that are met and the keys that records own. -/
lemma mem_keys_resolve (h : resolve t hidden records = .ok (dictionary, out)) :
    key ∈ dictionary.keys ↔
      key ∈ identsOf (allMet t records) ∨ ∃ r ∈ records, Owns t r key := by
  obtain ⟨last, hall, rfl⟩ := resolve_eq_ok_iff.mp h
  rw [mem_keys_hide, contains_resolveAll hall, Dictionary.contains_empty]
  simp

end Records

end EditorSchema.Attributes
