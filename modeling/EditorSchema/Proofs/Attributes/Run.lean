/-
A record that goes through the definitions of its ancestry.

Each definition adds a key to the lists of the record or removes some, and which of this it
does is told from its mode and from whether the record has met the attribute before.  So a
key is in a list in the end if a definition added it and no later one removed it.

* `Attributes.Baseless`: an attribute whose first definition redefines it;
* `Attributes.run_of_based`: without such an attribute the run succeeds, and its lists hold
  the keys that last;
* `Attributes.run_eq_error_iff`: otherwise it fails at the first such attribute.
-/
import Mathlib.Tactic
import EditorSchema.Proofs.Attributes.Lasting
import EditorSchema.Proofs.Dictionary
import EditorSchema.Proofs.Outcome
import EditorSchema.Schema.Attributes

namespace EditorSchema

/-! ### Definitions -/

namespace AttributeDef

/-- A definition that takes the place of an earlier one. -/
def Redefines (d : AttributeDef) : Prop :=
  d.effectiveMode = .change ∨ d.effectiveMode = .replace

instance (d : AttributeDef) : Decidable d.Redefines :=
  inferInstanceAs (Decidable (d.effectiveMode = .change ∨ d.effectiveMode = .replace))

/-- A change makes an attribute required if it says so, or if what it changes did. -/
lemma isRequired_overlay_or (base change : AttributeDef) :
    ((base.overlay change).isRequired || base.isRequired) =
      (change.isRequired || base.isRequired) := by
  cases h : change.usage with
  | none => simp [isRequired, overlay, h]
  | some u => simp [isRequired, overlay, h]

end AttributeDef

namespace AttributeLists

variable {l : AttributeLists} {key other : String} {required : Bool}

lemma mem_valid_add : other ∈ (l.add key required).valid ↔ other ∈ l.valid ∨ other = key := by
  simp [add]

lemma mem_required_add : other ∈ (l.add key required).required ↔
    other ∈ l.required ∨ other = key ∧ required = true := by
  cases required <;> simp [add]

lemma mem_valid_remove : other ∈ (l.remove key).valid ↔ other ∈ l.valid ∧ other ≠ key := by
  rw [remove, mem_without]

lemma mem_required_remove :
    other ∈ (l.remove key).required ↔ other ∈ l.required ∧ other ≠ key := by
  rw [remove, mem_without]

end AttributeLists

namespace Attributes

open Outcome

/-- The attributes that definitions are about. -/
def identsOf (ds : List AttributeDef) : List String := ds.map (·.ident)

/-- The definitions of one attribute, in order. -/
def occurrences (ident : String) (ds : List AttributeDef) : List AttributeDef :=
  ds.filter (·.ident == ident)

/-- The first definition of an attribute redefines it. -/
def Baseless (ds : List AttributeDef) (ident : String) : Prop :=
  ∃ d, (occurrences ident ds).head? = some d ∧ d.Redefines

/-- Among the attributes whose first definitions redefine them, the one that comes first. -/
def FirstBaseless (ds : List AttributeDef) (ident : String) : Prop :=
  ∃ before d after, ds = before ++ d :: after ∧ (∀ other, ¬ Baseless before other) ∧
    Baseless (before ++ [d]) ident

variable {name key : String} {ds : List AttributeDef} {d : AttributeDef}

lemma identsOf_append_singleton : identsOf (ds ++ [d]) = identsOf ds ++ [d.ident] := by
  simp [identsOf]

lemma mem_identsOf_append {ident : String} :
    ident ∈ identsOf (ds ++ [d]) ↔ ident ∈ identsOf ds ∨ ident = d.ident := by
  rw [identsOf_append_singleton, List.mem_append, List.mem_singleton]

lemma occurrences_append_singleton (ident : String) : occurrences ident (ds ++ [d]) =
    if d.ident = ident then occurrences ident ds ++ [d] else occurrences ident ds := by
  by_cases h : d.ident = ident <;> simp [occurrences, h]

lemma occurrences_eq_nil {ident : String} : occurrences ident ds = [] ↔ ident ∉ identsOf ds := by
  simp [occurrences, identsOf, List.filter_eq_nil_iff]

/-- A definition more makes an attribute baseless if it is the first one and redefines it. -/
lemma baseless_append_singleton {ident : String} : Baseless (ds ++ [d]) ident ↔
    Baseless ds ident ∨ ident ∉ identsOf ds ∧ d.ident = ident ∧ d.Redefines := by
  rw [Baseless, Baseless, occurrences_append_singleton, ← occurrences_eq_nil]
  cases hocc : occurrences ident ds with
  | nil => by_cases h : d.ident = ident <;> simp [h]
  | cons e es => by_cases h : d.ident = ident <;> simp [h]

lemma occurrences_append (ident : String) (rest : List AttributeDef) :
    occurrences ident (ds ++ rest) = occurrences ident ds ++ occurrences ident rest :=
  List.filter_append ..

/-- An attribute that is baseless stays so, whatever comes later. -/
lemma Baseless.append {ident : String} (h : Baseless ds ident) (rest : List AttributeDef) :
    Baseless (ds ++ rest) ident := by
  obtain ⟨d, hd, hred⟩ := h
  exact ⟨d, by rw [occurrences_append, List.head?_append, hd, Option.some_or], hred⟩

lemma based_of_append {rest : List AttributeDef} (h : ∀ ident, ¬ Baseless (ds ++ rest) ident) :
    ∀ ident, ¬ Baseless ds ident :=
  fun ident hb => h ident (hb.append rest)

/-! ### What a definition does -/

/-- A definition that a record meets after others adds a key to the lists of the record. -/
def Adds (name key : String) (before : List AttributeDef) (d : AttributeDef) : Prop :=
  if d.ident ∈ identsOf before then
    match d.effectiveMode with
    | .change | .replace => key = ownKey d.ident name
    | .add => key = d.ident
    | .delete => False
  else key = d.ident

/-- A definition that a record meets after others removes a key from the lists. -/
def Removes (name key : String) (before : List AttributeDef) (d : AttributeDef) : Prop :=
  d.ident ∈ identsOf before ∧
    match d.effectiveMode with
    | .change | .replace => key = d.ident
    | .delete => key = d.ident ∨ key = ownKey d.ident name
    | .add => False

section Steps

variable {p : Progress}

/-- The first definition of an attribute, where it redefines nothing. -/
lemma step_first (hmet : d.ident ∉ p.met) (hd : ¬ d.Redefines) : step name p d = .ok {
    dictionary := p.dictionary.insertNew d.ident d
    lists := p.lists.add d.ident d.isRequired
    met := d.ident :: p.met } := by
  rw [step, if_neg (by simpa using hmet), meet]
  cases hmode : d.effectiveMode with
  | change => exact absurd (.inl hmode) hd
  | replace => exact absurd (.inr hmode) hd
  | add | delete => rfl

/-- The first definition of an attribute, where there is nothing that it could redefine. -/
lemma step_baseless (hmet : d.ident ∉ p.met) (hd : d.Redefines) :
    step name p d = .error (.changeWithoutBase d.ident name) := by
  rw [step, if_neg (by simpa using hmet), meet]
  rcases hd with hmode | hmode <;> rw [hmode]

lemma step_change {base : AttributeDef} (hmet : d.ident ∈ p.met)
    (hmode : d.effectiveMode = .change) (hbase : p.dictionary.get? d.ident = some base) :
    step name p d = .ok { p with
      dictionary := p.dictionary.insert (ownKey d.ident name) (base.overlay d)
      lists := (p.lists.remove d.ident).add (ownKey d.ident name)
        ((base.overlay d).isRequired || base.isRequired) } := by
  rw [step, if_pos (by simpa using hmet), meetAgain, hmode]
  simp only [hbase]

lemma step_replace (hmet : d.ident ∈ p.met) (hmode : d.effectiveMode = .replace) :
    step name p d = .ok { p with
      dictionary := p.dictionary.insert (ownKey d.ident name) d
      lists := (p.lists.remove d.ident).add (ownKey d.ident name) d.isRequired } := by
  rw [step, if_pos (by simpa using hmet), meetAgain, hmode]

lemma step_delete (hmet : d.ident ∈ p.met) (hmode : d.effectiveMode = .delete) :
    step name p d = .ok { p with
      lists := (p.lists.remove d.ident).remove (ownKey d.ident name) } := by
  rw [step, if_pos (by simpa using hmet), meetAgain, hmode]

lemma step_add (hmet : d.ident ∈ p.met) (hmode : d.effectiveMode = .add) :
    step name p d = .ok { p with lists := p.lists.add d.ident d.isRequired } := by
  rw [step, if_pos (by simpa using hmet), meetAgain, hmode]

end Steps

/-- A step that leaves everything as it is where it cannot be made. -/
def proceed (name : String) (p : Progress) (d : AttributeDef) : Progress :=
  match step name p d with
  | .ok next => next
  | .error _ => p

/-- What is known after the definitions of a record, where the dictionary so far is given. -/
def after (name : String) (start : AttributeDictionary) (ds : List AttributeDef) : Progress :=
  ds.foldl (proceed name) { dictionary := start }

/-- There is a definition, and it makes its attribute required. -/
def Requires (base : Option AttributeDef) : Prop := ∃ b, base = some b ∧ b.isRequired = true

/-- A change is laid on a definition that makes its attribute required. -/
def LaidOnRequired (name : String) (start : AttributeDictionary) (before : List AttributeDef)
    (d : AttributeDef) : Prop :=
  d.ident ∈ identsOf before ∧ d.effectiveMode = .change ∧
    Requires ((after name start before).dictionary.get? d.ident)

/-- A definition that a record meets after others makes a key required. -/
def Demands (name : String) (start : AttributeDictionary) (key : String)
    (before : List AttributeDef) (d : AttributeDef) : Prop :=
  Adds name key before d ∧ (d.isRequired = true ∨ LaidOnRequired name start before d)

variable {start : AttributeDictionary}

lemma after_append_singleton :
    after name start (ds ++ [d]) = proceed name (after name start ds) d := by
  simp [after]

/-- What is known after definitions none of which is missing a base. -/
structure Follows (name : String) (start : AttributeDictionary) (ds : List AttributeDef) :
    Prop where
  /-- The attributes that were met are those of the definitions. -/
  met : ∀ ident, ident ∈ (after name start ds).met ↔ ident ∈ identsOf ds
  /-- The dictionary has a definition of each of them. -/
  covered : ∀ ident ∈ identsOf ds, (after name start ds).dictionary.contains ident = true
  /-- The keys that were added and not removed since. -/
  valid : ∀ key, key ∈ (after name start ds).lists.valid ↔
    Lasting (Adds name key) (Removes name key) ds
  /-- The keys that were made required and not removed since. -/
  required : ∀ key, key ∈ (after name start ds).lists.required ↔
    Lasting (Demands name start key) (Removes name key) ds

lemma follows_nil : Follows name start [] where
  met := by simp [after, identsOf]
  covered := by simp [identsOf]
  valid := by simp [after]
  required := by simp [after]

/-- What a step must do for its result to be what is known after one definition more. -/
lemma Follows.extend (h : Follows name start ds) {next : Progress}
    (hstep : step name (after name start ds) d = .ok next)
    (hmet : ∀ ident, ident ∈ next.met ↔ ident ∈ (after name start ds).met ∨ ident = d.ident)
    (hkept : ∀ ident, (after name start ds).dictionary.contains ident = true →
      next.dictionary.contains ident = true)
    (hnew : next.dictionary.contains d.ident = true)
    (hvalid : ∀ key, key ∈ next.lists.valid ↔
      Adds name key ds d ∨ key ∈ (after name start ds).lists.valid ∧ ¬ Removes name key ds d)
    (hrequired : ∀ key, key ∈ next.lists.required ↔ Demands name start key ds d ∨
      key ∈ (after name start ds).lists.required ∧ ¬ Removes name key ds d) :
    step name (after name start ds) d = .ok (after name start (ds ++ [d])) ∧
      Follows name start (ds ++ [d]) := by
  have hafter : after name start (ds ++ [d]) = next := by
    rw [after_append_singleton, proceed, hstep]
  refine ⟨by rw [hafter, hstep], ?_, ?_, ?_, ?_⟩
  · intro ident
    rw [hafter, hmet, h.met, mem_identsOf_append]
  · intro ident hident
    rw [hafter]
    rcases mem_identsOf_append.mp hident with hold | rfl
    · exact hkept ident (h.covered ident hold)
    · exact hnew
  · intro key
    rw [hafter, hvalid, h.valid, lasting_append_singleton]
  · intro key
    rw [hafter, hrequired, h.required, lasting_append_singleton]

/-- A later definition of an attribute that was met extends what is known. -/
lemma Follows.step_met (h : Follows name start ds) (hmet : d.ident ∈ identsOf ds) :
    step name (after name start ds) d = .ok (after name start (ds ++ [d])) ∧
      Follows name start (ds ++ [d]) := by
  have hp : d.ident ∈ (after name start ds).met := (h.met d.ident).mpr hmet
  have hcovered := h.covered d.ident hmet
  have hknown (ident : String) :
      ident ∈ (after name start ds).met ↔ ident ∈ (after name start ds).met ∨ ident = d.ident :=
    ⟨.inl, fun ho => ho.elim id fun heq => heq ▸ hp⟩
  cases hmode : d.effectiveMode with
  | change =>
      obtain ⟨base, hbase⟩ := Dictionary.contains_iff.mp hcovered
      refine h.extend (step_change hp hmode hbase) hknown
        (fun ident hi => (Dictionary.contains_insert _ _ _ _).mpr (.inr hi))
        ((Dictionary.contains_insert _ _ _ _).mpr (.inr hcovered)) (fun key => ?_) fun key => ?_
      · simp only [AttributeLists.mem_valid_add, AttributeLists.mem_valid_remove, Adds, Removes,
          hmet, hmode, if_true, true_and]
        tauto
      · rw [AttributeLists.mem_required_add, AttributeLists.mem_required_remove,
          AttributeDef.isRequired_overlay_or]
        simp only [Demands, Adds, Removes, LaidOnRequired, Requires, hmet, hmode, hbase, if_true,
          true_and, Option.some.injEq, exists_eq_left', Bool.or_eq_true]
        tauto
  | replace =>
      refine h.extend (step_replace hp hmode) hknown
        (fun ident hi => (Dictionary.contains_insert _ _ _ _).mpr (.inr hi))
        ((Dictionary.contains_insert _ _ _ _).mpr (.inr hcovered)) (fun key => ?_) fun key => ?_
      · simp only [AttributeLists.mem_valid_add, AttributeLists.mem_valid_remove, Adds, Removes,
          hmet, hmode, if_true, true_and]
        tauto
      · simp only [AttributeLists.mem_required_add, AttributeLists.mem_required_remove, Demands,
          Adds, Removes, LaidOnRequired, hmet, hmode, if_true, true_and, reduceCtorEq, false_and,
          or_false]
        tauto
  | delete =>
      refine h.extend (step_delete hp hmode) hknown (fun ident hi => hi) hcovered
        (fun key => ?_) fun key => ?_
      · simp only [AttributeLists.mem_valid_remove, Adds, Removes, hmet, hmode, if_true, true_and]
        tauto
      · simp only [AttributeLists.mem_required_remove, Demands, Adds, Removes, hmet, hmode,
          if_true, true_and]
        tauto
  | add =>
      refine h.extend (step_add hp hmode) hknown (fun ident hi => hi) hcovered
        (fun key => ?_) fun key => ?_
      · simp only [AttributeLists.mem_valid_add, Adds, Removes, hmet, hmode, if_true, true_and]
        tauto
      · simp only [AttributeLists.mem_required_add, Demands, Adds, Removes, LaidOnRequired, hmet,
          hmode, if_true, true_and, reduceCtorEq, false_and, or_false]
        tauto

/-- The first definition of an attribute extends what is known, if it redefines nothing. -/
lemma Follows.step_new (h : Follows name start ds) (hmet : d.ident ∉ identsOf ds)
    (hbased : ¬ d.Redefines) :
    step name (after name start ds) d = .ok (after name start (ds ++ [d])) ∧
      Follows name start (ds ++ [d]) := by
  have hp : d.ident ∉ (after name start ds).met := fun hm => hmet ((h.met d.ident).mp hm)
  refine h.extend (step_first hp hbased) (fun ident => ?_)
    (fun ident hi => (Dictionary.contains_insertNew _ _ _ _).mpr (.inr hi))
    ((Dictionary.contains_insertNew _ _ _ _).mpr (.inl rfl)) (fun key => ?_) fun key => ?_
  · rw [List.mem_cons, or_comm]
  · simp only [AttributeLists.mem_valid_add, Adds, Removes, hmet, if_false, false_and]
    tauto
  · simp only [AttributeLists.mem_required_add, Demands, Adds, Removes, LaidOnRequired, hmet,
      if_false, false_and, or_false]
    tauto

/-- **One step**: the next definition extends what is known, unless it redefines an attribute
that was not met. -/
lemma Follows.step (h : Follows name start ds)
    (hbased : d.ident ∉ identsOf ds → ¬ d.Redefines) :
    step name (after name start ds) d = .ok (after name start (ds ++ [d])) ∧
      Follows name start (ds ++ [d]) := by
  by_cases hmet : d.ident ∈ identsOf ds
  · exact h.step_met hmet
  · exact h.step_new hmet (hbased hmet)

/-! ### A whole run -/

/-- The last of definitions without baseless attributes redefines none that was not met. -/
lemma not_redefines_of_based (h : ∀ ident, ¬ Baseless (ds ++ [d]) ident)
    (hmet : d.ident ∉ identsOf ds) : ¬ d.Redefines :=
  fun hred => h d.ident (baseless_append_singleton.mpr (.inr ⟨hmet, rfl, hred⟩))

/-- **A run without baseless attributes succeeds**, and its lists hold the keys that last. -/
theorem run_of_based (h : ∀ ident, ¬ Baseless ds ident) :
    ds.foldlM (Attributes.step name) { dictionary := start } = .ok (after name start ds) ∧
      Follows name start ds := by
  induction ds using List.reverseRecOn with
  | nil => exact ⟨rfl, follows_nil⟩
  | append_singleton ds d ih =>
      obtain ⟨hrun, hfollows⟩ := ih (based_of_append h)
      obtain ⟨hstep, hnext⟩ := hfollows.step (not_redefines_of_based h)
      refine ⟨?_, hnext⟩
      rw [List.foldlM_append, hrun]
      exact bind_eq_ok.mpr ⟨_, rfl, bind_eq_ok.mpr ⟨_, hstep, rfl⟩⟩

lemma follows_of_based (name : String) (start : AttributeDictionary)
    (h : ∀ ident, ¬ Baseless ds ident) : Follows name start ds :=
  (run_of_based h).2

/-- Where an attribute is baseless, one of them comes first. -/
lemma exists_firstBaseless {ident : String} (h : Baseless ds ident) :
    ∃ first, FirstBaseless ds first := by
  induction ds using List.reverseRecOn generalizing ident with
  | nil =>
      obtain ⟨d, hd, -⟩ := h
      simp [occurrences] at hd
  | append_singleton ds d ih =>
      by_cases hds : ∃ other, Baseless ds other
      · obtain ⟨other, hother⟩ := hds
        obtain ⟨first, before, e, rest, rfl, hbased, hfirst⟩ := ih hother
        exact ⟨first, before, e, rest ++ [d], by simp, hbased, hfirst⟩
      · exact ⟨ident, ds, d, [], rfl, fun other hother => hds ⟨other, hother⟩, h⟩

lemma FirstBaseless.baseless {ident : String} (h : FirstBaseless ds ident) :
    Baseless ds ident := by
  obtain ⟨before, d, rest, rfl, -, hfirst⟩ := h
  rw [List.append_cons]
  exact hfirst.append rest

/-- A run fails at the first baseless attribute. -/
lemma run_of_firstBaseless {ident : String} (h : FirstBaseless ds ident) :
    ds.foldlM (Attributes.step name) { dictionary := start } =
      .error (.changeWithoutBase ident name) := by
  obtain ⟨before, d, rest, rfl, hbased, hfirst⟩ := h
  obtain ⟨hmet, rfl, hred⟩ :=
    (baseless_append_singleton.mp hfirst).resolve_left (hbased ident)
  have hp : d.ident ∉ (after name start before).met := fun hm =>
    hmet (((follows_of_based name start hbased).met _).mp hm)
  rw [List.foldlM_append, (run_of_based hbased).1]
  refine bind_eq_error.mpr (.inr ⟨_, rfl, ?_⟩)
  rw [List.foldlM_cons]
  exact bind_eq_error.mpr (.inl (step_baseless hp hred))

/-- **A run fails at the first baseless attribute**, and in no other way. -/
theorem run_eq_error_iff {fault : SchemaFault} :
    ds.foldlM (Attributes.step name) { dictionary := start } = .error fault ↔
      ∃ ident, FirstBaseless ds ident ∧ fault = .changeWithoutBase ident name := by
  constructor
  · intro h
    by_cases hbased : ∃ ident, Baseless ds ident
    · obtain ⟨ident, hident⟩ := hbased
      obtain ⟨first, hfirst⟩ := exists_firstBaseless hident
      rw [run_of_firstBaseless hfirst, Except.error.injEq] at h
      exact ⟨first, hfirst, h.symm⟩
    · rw [(run_of_based fun ident hb => hbased ⟨ident, hb⟩).1] at h
      cases h
  · rintro ⟨ident, hfirst, rfl⟩
    exact run_of_firstBaseless hfirst

/-- A run that succeeds has no baseless attribute. -/
theorem based_of_run {p : Progress}
    (h : ds.foldlM (Attributes.step name) { dictionary := start } = .ok p) :
    (∀ ident, ¬ Baseless ds ident) ∧ p = after name start ds := by
  have hbased : ∀ ident, ¬ Baseless ds ident := by
    intro ident hb
    obtain ⟨first, hfirst⟩ := exists_firstBaseless hb
    rw [run_of_firstBaseless hfirst] at h
    cases h
  rw [(run_of_based hbased).1, Except.ok.injEq] at h
  exact ⟨hbased, h.symm⟩

end Attributes

end EditorSchema
