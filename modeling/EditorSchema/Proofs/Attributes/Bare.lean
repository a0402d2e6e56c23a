/-
Attributes of bare records.

A definition is met, changed or replaced by what it says of its attribute's type, values and
usage, and by its mode.  What is said about the attribute goes along with it.  So the attributes
of records are those of the bare records, from bare definitions.

* `Record.bare`, `AttributeDictionary.bare`: records and dictionaries without what is only shown;
* `Attributes.step_bare`: going on with a definition;
* `Attributes.resolve_bare`: bare records with their attributes.
-/
import Mathlib.Tactic
import EditorSchema.Proofs.Dictionary
import EditorSchema.Proofs.Spec.Bare
import EditorSchema.Schema.Attributes

namespace EditorSchema

open Outcome

/-- A record without its description, its icon and its default nodes. -/
def Record.bare (r : Record) : Record :=
  { r with description := none, icon := none, defaultNodes := none }

/-! ### Dictionaries -/

/-- A dictionary without descriptions, in which nothing is hidden. -/
def AttributeDictionary.bare (d : AttributeDictionary) : AttributeDictionary :=
  d.map fun _ => AttributeDef.bare

namespace AttributeDictionary

variable (d : AttributeDictionary) (key : String) (definition : AttributeDef)

lemma get?_bare : d.bare.get? key = (d.get? key).map AttributeDef.bare := Dictionary.get?_map ..

lemma insert_bare : bare (d.insert key definition) = d.bare.insert key definition.bare := by
  refine Dictionary.ext_get? fun other => ?_
  rw [get?_bare, Dictionary.get?_insert, Dictionary.get?_insert, get?_bare]
  split <;> rfl

lemma insertNew_bare :
    bare (d.insertNew key definition) = d.bare.insertNew key definition.bare := by
  refine Dictionary.ext_get? fun other => ?_
  rw [get?_bare, Dictionary.get?_insertNew, Dictionary.get?_insertNew, get?_bare]
  split
  · cases d.get? other <;> rfl
  · rfl

end AttributeDictionary

lemma AttributeDef.overlay_bare (base change : AttributeDef) :
    (base.overlay change).bare = base.bare.overlay change.bare := by
  simp only [bare, overlay]
  cases change.values <;> rfl

/-! ### Definitions -/

lemma Ancestry.inherited_bare (t : Table) (fresh path : List String) (referrer : String)
    (memberships : List String) :
    inherited t.bare fresh path referrer memberships =
      (inherited t fresh path referrer memberships).map (List.map AttributeDef.bare) := by
  fun_induction inherited t fresh path referrer memberships with
  | case1 fresh path referrer => rw [inherited]; rfl
  | case2 fresh path referrer ident rest hnone =>
      simp only [inherited, Table.get?_bare, hnone]
      rfl
  | case3 fresh path referrer ident rest s hs hfresh ihabove ihothers =>
      simp only [inherited, Table.get?_bare, hs, Option.map_some, dif_pos hfresh,
        Spec.memberships_bare, ihabove, ihothers, Spec.ownDefinitions_bare]
      cases inherited t (without ident fresh) (path ++ [ident]) ident s.memberships with
      | error fault => rfl
      | ok above =>
          cases inherited t fresh path referrer rest with
          | error fault => rfl
          | ok others => exact congrArg Except.ok (by simp)
  | case4 fresh path referrer ident rest s hs hfresh =>
      simp only [inherited, Table.get?_bare, hs, Option.map_some, dif_neg hfresh]
      rfl

lemma Ancestry.definitions_bare (t : Table) (s : Spec) :
    definitions t.bare s.bare = (definitions t s).map (List.map AttributeDef.bare) := by
  rw [definitions, definitions, Spec.ident_bare, Spec.memberships_bare, Table.idents_bare,
    inherited_bare]
  cases inherited t (without s.ident t.idents) [s.ident] s.ident s.memberships with
  | error fault => rfl
  | ok above =>
      refine congrArg Except.ok ?_
      rw [List.map_append, Spec.ownDefinitions_bare]

namespace Attributes

/-! ### Steps -/

/-- What is known while definitions are gone through, without descriptions. -/
def Progress.bare (p : Progress) : Progress := { p with dictionary := p.dictionary.bare }

variable (recordName : String) (p : Progress) (d : AttributeDef)

lemma meet_bare : meet recordName p.bare d.bare = (meet recordName p d).map Progress.bare := by
  have hmode : d.bare.effectiveMode = d.effectiveMode := rfl
  rw [meet, meet, hmode]
  split
  · rfl
  · rfl
  -- whether it adds or deletes, a first definition is entered
  all_goals
    have hnew := AttributeDictionary.insertNew_bare p.dictionary d.ident d
    exact congrArg (fun dictionary => Except.ok (Progress.mk dictionary _ _)) hnew.symm

lemma meetAgain_bare :
    meetAgain recordName p.bare d.bare = (meetAgain recordName p d).map Progress.bare := by
  have hmode : d.bare.effectiveMode = d.effectiveMode := rfl
  rw [meetAgain, meetAgain, hmode]
  dsimp only
  split
  · have hbase : p.bare.dictionary.get? d.bare.ident =
        (p.dictionary.get? d.ident).map AttributeDef.bare :=
      AttributeDictionary.get?_bare ..
    rw [hbase]
    cases p.dictionary.get? d.ident with
    | none => rfl
    | some base =>
        rw [Option.map_some]
        dsimp only
        rw [← AttributeDef.overlay_bare]
        exact congrArg (fun dictionary => Except.ok (Progress.mk dictionary _ _))
          (AttributeDictionary.insert_bare ..).symm
  · exact congrArg (fun dictionary => Except.ok (Progress.mk dictionary _ _))
      (AttributeDictionary.insert_bare ..).symm
  · rfl
  · rfl

lemma step_bare : step recordName p.bare d.bare = (step recordName p d).map Progress.bare := by
  have hmet : p.bare.met.contains d.bare.ident = p.met.contains d.ident := rfl
  rw [step, step, hmet]
  split
  · exact meetAgain_bare recordName p d
  · exact meet_bare recordName p d

/-- Bare definitions are gone through as the definitions are. -/
lemma foldlM_step_bare (ds : List AttributeDef) :
    (ds.map AttributeDef.bare).foldlM (step recordName) p.bare =
      (ds.foldlM (step recordName) p).map Progress.bare := by
  induction ds generalizing p with
  | nil => rfl
  | cons d ds ih =>
      rw [List.map_cons, List.foldlM_cons, List.foldlM_cons, step_bare, map_bind]
      cases step recordName p d with
      | error fault => rfl
      | ok q => exact ih q

/-! ### Records with their attributes -/

/-- A dictionary and what comes with it, without what is only shown. -/
def bareWith {α : Type} (bare : α → α) :
    AttributeDictionary × α → AttributeDictionary × α :=
  Prod.map AttributeDictionary.bare bare

lemma resolveOne_bare (t : Table) (dictionary : AttributeDictionary) (r : Record) :
    resolveOne t.bare dictionary.bare r.bare =
      (resolveOne t dictionary r).map (bareWith Record.bare) := by
  have hsource : r.bare.source = r.source := rfl
  rw [resolveOne, resolveOne, hsource]
  cases r.source with
  | none => rfl
  | some source =>
      dsimp only
      rw [Table.get?_bare]
      cases t.get? source with
      | none => rfl
      | some s =>
          rw [Option.map_some]
          dsimp only
          rw [Ancestry.definitions_bare, map_bind]
          cases Ancestry.definitions t s with
          | error fault => rfl
          | ok definitions =>
              have hrun := foldlM_step_bare r.name { dictionary } definitions
              change (definitions.map AttributeDef.bare).foldlM (step r.name)
                (Progress.bare { dictionary }) >>= _ = Except.map _ (definitions.foldlM _ _ >>= _)
              rw [hrun]
              cases definitions.foldlM (step r.name) { dictionary } <;> rfl

lemma resolveAll_bare (t : Table) (dictionary : AttributeDictionary) (records : List Record) :
    resolveAll t.bare dictionary.bare (records.map Record.bare) =
      (resolveAll t dictionary records).map (bareWith (List.map Record.bare)) := by
  induction records generalizing dictionary with
  | nil => rfl
  | cons r rest ih =>
      rw [List.map_cons, resolveAll, resolveAll, resolveOne_bare]
      cases resolveOne t dictionary r with
      | error fault => rfl
      | ok first =>
          obtain ⟨after, first⟩ := first
          change resolveAll t.bare after.bare _ >>= _ = Except.map _ (resolveAll t after rest >>= _)
          rw [ih]
          cases resolveAll t after rest <;> rfl

/-- Whether an attribute is hidden is only shown. -/
lemma hide_bare (hidden : List String) (d : AttributeDictionary) :
    hide [] d.bare = AttributeDictionary.bare (hide hidden d) := by
  refine Dictionary.ext_get? fun key => ?_
  rw [AttributeDictionary.get?_bare, hide, hide, Dictionary.get?_map, Dictionary.get?_map,
    AttributeDictionary.get?_bare]
  cases d.get? key with
  | none => rfl
  | some definition =>
      rw [Option.map_some, Option.map_some, Option.map_some, if_neg (by simp)]
      split <;> rfl

/-- **Bare records with their attributes** are those of the bare records, and so is the bare
dictionary. -/
theorem resolve_bare (t : Table) (hidden : List String) (records : List Record) :
    resolve t.bare [] (records.map Record.bare) =
      (resolve t hidden records).map (bareWith (List.map Record.bare)) := by
  have hall := resolveAll_bare t .empty records
  rw [resolve, resolve]
  change resolveAll t.bare .empty (records.map Record.bare) = _ at hall
  rw [hall, map_bind]
  cases resolveAll t .empty records with
  | error fault => rfl
  | ok resolved =>
      refine congrArg Except.ok (Prod.ext ?_ rfl)
      exact hide_bare hidden resolved.1

end Attributes

end EditorSchema
