/-
Decoration makes no difference to a schema.

Descriptions are read in the language of the settings, icons and default nodes come with a
decoration, and the settings name the attributes that are hidden.  All this is only shown.  A
schema without it is bare, and what is bare of a schema is made of what is bare of specs: each
step of the way, from the table of specs to records and from records to their attributes, takes
what is bare to what is bare.  So the bare schema is the same for all settings and decorations,
and so are the texts that are asked for and the fault where there is no schema.

* `Classification.elaborate_bare`: the bare records of a classification;
* `Schema.ofTable_bare`: the bare schema of a table;
* `Schema.compile_alike`: the bare schema of a source.
-/
import Mathlib.Tactic
import EditorSchema.Proofs.Attributes.Bare
import EditorSchema.Proofs.Corpus.Languages
import EditorSchema.Schema.Basic

namespace EditorSchema

open Outcome

/-! ### References -/

namespace References

lemma walk_bare (t : Table) (fresh : List String) (pending : List (String × String)) :
    walk t.bare fresh pending = walk t fresh pending := by
  fun_induction walk t fresh pending with
  | case1 fresh => rw [walk]
  | case2 fresh referrer ident pending hnone => simp only [walk, Table.class?_bare, hnone]; rfl
  | case3 fresh referrer ident pending c hc hfresh ih =>
      simp only [walk, Table.class?_bare, hc, Option.map_some, dif_pos hfresh]
      exact congrArg (· >>= _) ih
  | case4 fresh referrer ident pending c hc hfresh ih =>
      simp only [walk, Table.class?_bare, hc, Option.map_some, dif_neg hfresh]
      exact ih

/-- The references of a classification are those of the bare table. -/
lemma build_bare (c : Classification) (t : Table) : build c t.bare = build c t := by
  have hplace : place t.bare = place t := by
    funext (category, ident)
    rw [place, place, Table.element?_bare]
    cases t.element? ident with
    | none => rfl
    | some e =>
        rw [Option.map_some]
        dsimp only
        rw [modelClasses, modelClasses, walk_bare, Table.idents_bare]
        rfl
  rw [build, build, hplace]

end References

/-! ### Records -/

namespace TextLeaves

lemma bindOne_bare (known : List Signature) (r : Record) :
    bindOne known r.bare = (bindOne known r).bare := by
  have hholds : holdsText r.bare = holdsText r := rfl
  have hsame : r.bare.content = r.content := rfl
  cases hcontent : r.content with
  | none => simp only [bindOne, hsame, hcontent]
  | some content =>
      simp only [bindOne, hsame, hcontent, hholds]
      split <;> rfl

/-- Bare records are bound as the records are, and nothing is shown of leaves. -/
lemma bind_bare (records : List Record) :
    bind (records.map Record.bare) = ((bind records).1.map Record.bare, (bind records).2) := by
  have hsignatures : signatures (records.map Record.bare) = signatures records := by
    rw [signatures, signatures, List.filter_map, List.map_map]
    rfl
  rw [bind, bind, hsignatures, List.map_map, List.map_map]
  refine Prod.ext (List.map_congr_left fun r _ => ?_) rfl
  exact bindOne_bare _ r

lemma leaves_bare (known : List Signature) :
    (leaves known).map Record.bare = leaves known := by
  rw [leaves, List.map_map]
  rfl

end TextLeaves

lemma References.wrappers_bare (r : References) : r.wrappers.map Record.bare = r.wrappers := by
  rw [wrappers, List.map_append, List.map_map, List.map_map]
  rfl

namespace Elaboration

variable (r : References) (d : Decoration)

lemma recordsOf_bare (category : Category) (e : ElementSpec) :
    (recordsOf r d category e).map Record.bare = recordsOf r {} category e.bare := by
  cases category <;> rfl

lemma recordsFor_bare (t : Table) (entry : Category × String) :
    (recordsFor r d t entry).map (List.map Record.bare) = recordsFor r {} t.bare entry := by
  obtain ⟨category, ident⟩ := entry
  rw [recordsFor, recordsFor, Table.element?_bare]
  cases t.element? ident with
  | none => rfl
  | some e => exact congrArg Except.ok (recordsOf_bare r d category e)

/-- The records of elements after the roots, bound to their leaves, with all that is generated. -/
def completed (own : List Record) : List Record :=
  (TextLeaves.bind (Record.documentRoots ++ own)).1 ++
    (TextLeaves.bind (Record.documentRoots ++ own)).2 ++ r.wrappers

/-- Records of which no two have one name. -/
def distinct (all : List Record) : Except SchemaFault (List Record) :=
  match repeatedName? [] (all.map Record.name) with
  | some name => .error (.duplicateName name)
  | none => .ok all

lemma records_eq (c : Classification) (t : Table) :
    records c t d r = c.entries.mapM (recordsFor r d t) >>= fun own =>
      distinct (completed r own.flatten) := rfl

lemma completed_bare (own : List Record) :
    completed r (own.map Record.bare) = (completed r own).map Record.bare := by
  have hroots : Record.documentRoots ++ own.map Record.bare =
      (Record.documentRoots ++ own).map Record.bare := by
    rw [List.map_append]
    rfl
  have hleaves : (TextLeaves.bind (Record.documentRoots ++ own)).2.map Record.bare =
      (TextLeaves.bind (Record.documentRoots ++ own)).2 := TextLeaves.leaves_bare _
  rw [completed, completed, hroots, TextLeaves.bind_bare, List.map_append, List.map_append,
    hleaves, r.wrappers_bare]

lemma distinct_bare (all : List Record) :
    distinct (all.map Record.bare) = (distinct all).map (List.map Record.bare) := by
  have hnames : (all.map Record.bare).map Record.name = all.map Record.name := by
    rw [List.map_map]
    rfl
  rw [distinct, distinct, hnames]
  split <;> rfl

end Elaboration

/-- **The bare records of a classification** are its records in the bare table, without
decoration. -/
theorem Classification.elaborate_bare (c : Classification) (t : Table) (d : Decoration) :
    (c.elaborate t d).map (List.map Record.bare) = c.elaborate t.bare {} := by
  rw [elaborate, elaborate, map_bind, References.build_bare]
  refine bind_congr fun r => ?_
  rw [Elaboration.records_eq, Elaboration.records_eq, map_bind,
    ← funext (Elaboration.recordsFor_bare r d t), ← map_mapM]
  cases c.entries.mapM (Elaboration.recordsFor r d t) with
  | error fault => rfl
  | ok own =>
      change _ = Elaboration.distinct (Elaboration.completed r (own.map _).flatten)
      rw [← List.map_flatten, Elaboration.completed_bare, Elaboration.distinct_bare]
      rfl

/-! ### Schemas -/

namespace Schema

/-- **What is left of a schema without what is only shown**: the descriptions, icons and default
nodes of its records, the descriptions of its attributes and their values, and what is hidden. -/
def bare (s : Schema) : Schema :=
  { s with records := s.records.map Record.bare, attributes := s.attributes.bare }

lemma modulePairs_bare (t : Table) : modulePairs t.bare = modulePairs t := by
  rw [modulePairs, modulePairs, Table.toList_bare, List.filterMap_map]
  refine List.filterMap_congr fun s _ => ?_
  cases s <;> rfl

lemma describe_bare (records : List Record) (attributes : AttributeDictionary) (t : Table) :
    describe (records.map Record.bare) attributes.bare t.bare =
      (describe records attributes t).bare := by
  have hgroups : groupPairs (records.map Record.bare) = groupPairs records := by
    rw [groupPairs, List.flatMap_map]
    rfl
  rw [describe, hgroups, modulePairs_bare]
  rfl

/-- **The bare schema of a table** is the schema of the bare table without decoration, in which
nothing is hidden. -/
theorem ofTable_bare (settings : Settings) (c : Classification) (d : Decoration) (t : Table) :
    (ofTable settings c d t).map bare = ofTable { hidden := [] } c {} t.bare := by
  rw [ofTable, ofTable, ← Classification.elaborate_bare c t d, map_bind]
  cases c.elaborate t d with
  | error fault => rfl
  | ok records =>
      change Except.map _ (Attributes.resolve t settings.hidden records >>= _) =
        Attributes.resolve t.bare [] (records.map Record.bare) >>= _
      rw [Attributes.resolve_bare t settings.hidden]
      cases Attributes.resolve t settings.hidden records with
      | error fault => rfl
      | ok resolved => exact congrArg Except.ok (describe_bare ..).symm

variable (settings settings' : Settings) (source : Source) (c : Classification)
variable (d d' : Decoration)

/-- Tables that are the same without descriptions have the same bare schemas. -/
lemma map_ofTable_eq {t t' : Table} (h : t.bare = t'.bare) :
    (ofTable settings c d t).map bare = (ofTable settings' c d' t').map bare := by
  rw [ofTable_bare, ofTable_bare, h]

/-- What is loaded and what comes of it, without what is only shown. -/
lemma compile_bare :
    (compile settings source c d).1.bare = (compile settings' source c d').1.bare ∧
      (compile settings source c d).2.map bare = (compile settings' source c d').2.map bare := by
  rw [compile, compile]
  cases validate c with
  | error fault => exact ⟨rfl, rfl⟩
  | ok _ =>
      obtain ⟨hcorpus, htable⟩ :=
        Corpus.loadExpanded_bare settings.language settings'.language source c.seeds
      dsimp only
      rcases hload : Corpus.loadExpanded settings.language source c.seeds with ⟨corpus, result⟩
      rcases hload' : Corpus.loadExpanded settings'.language source c.seeds with
        ⟨corpus', result'⟩
      rw [hload, hload'] at hcorpus htable
      rcases alike_of_map htable with ⟨fault, rfl, rfl⟩ | ⟨t, t', rfl, rfl, ht⟩
      · exact ⟨hcorpus, rfl⟩
      · exact ⟨hcorpus, map_ofTable_eq settings settings' c d d' ht⟩

/-- **Decoration makes no difference to a schema**: with all settings and decorations, the texts
of the same idents are asked for in the same order, and there is the same fault, or the schemas are
the same without what is only shown. -/
theorem compile_alike :
    (compile settings source c d).1.reads = (compile settings' source c d').1.reads ∧
      ((∃ fault, (compile settings source c d).2 = .error fault ∧
          (compile settings' source c d').2 = .error fault) ∨
        ∃ s s', (compile settings source c d).2 = .ok s ∧
          (compile settings' source c d').2 = .ok s' ∧ s.bare = s'.bare) := by
  obtain ⟨hcorpus, hschema⟩ := compile_bare settings settings' source c d d'
  exact ⟨Corpus.reads_of_bare hcorpus, alike_of_map hschema⟩

end Schema

end EditorSchema
