/-
Which records a schema has, and in which order.

The roots come first.  Every classified ident has a record of its own, with its name and its
attributes, and next to it, depending on its category, the records that go along with it: before
a span that is also a block its mark, and after a note its container and its document.  Then come
the leaves of text, and the wrappers around inline nodes and their groups.  There are no other
records, and no two of these have one name.  So an ident that is classified twice is found out,
even where the classification has not been looked at before.

* `Record.Outline`: what a record is, apart from what it holds and what is shown of it;
* `Elaboration.Lists`: all records of a classification, in order;
* `Schema.validate_eq_ok_iff`: a classification is in order if it classifies no ident twice;
* `Elaboration.lists_of_elaborate`: the records of a schema, and what becomes of a classification
  that is not in order.
-/
import Mathlib.Tactic
import EditorSchema.Proofs.Schema.Apart
import EditorSchema.Proofs.Schema.Binding
import EditorSchema.Proofs.Schema.Split

namespace EditorSchema

open Naming Outcome

/-! ### Outlines -/

namespace Record

/-- What a record is, apart from what it holds and what is shown of it. -/
structure Outline where
  name : String
  form : Form
  origin : Origin
  synthetic : Bool
  source : Option String
deriving DecidableEq

/-- The outline of a record. -/
def outline (r : Record) : Outline := ⟨r.name, r.form, r.origin, r.synthetic, r.source⟩

/-- The outline of a record that stands for no element. -/
def Outline.generated (origin : Origin) (name : String) : Outline :=
  ⟨name, .node, origin, true, none⟩

end Record

open Record (Outline)

/-- What an element of a category becomes. -/
def Category.form : Category → Record.Form
  | .hard | .soft | .inter => .node
  | .aside | .inline => .inlineNode
  | .mark => .mark

namespace Elaboration

/-- The outlines of the records of a classified ident. -/
def outlines : Category × String → List Outline
  | (category, ident) =>
    let own : Outline := ⟨ident, category.form, category.origin, false, some ident⟩
    match category with
    | .inter => [⟨markName ident, .mark, .inters, true, some ident⟩, own]
    | .aside => [own, .generated .asides (ident ++ "X"), .generated .docNodes (ident ++ "Doc")]
    | .hard | .soft | .inline | .mark => [own]

/-- A group of an element that becomes an inline node. -/
def InlineGroup (c : Classification) (t : Table) (group : String) : Prop :=
  ∃ ident ∈ c.asides ++ c.inlines, ∃ e classes, t.element? ident = some e ∧
    References.modelClasses t e = .ok classes ∧ group ∈ classes

/-- The outlines of all records of a classification, where there are some leaves of text and some
groups of inline nodes: the roots come first, then the records of each classified ident, then the
leaves, and then a wrapper for each group and each ident of inline nodes. -/
def listed (c : Classification) (leaves : ℕ) (groups : List String) : List Outline :=
  [.generated .docNodes "doc", .generated .docNodes "headerDoc"] ++ c.entries.flatMap outlines ++
    (List.range leaves).map (fun n => .generated .textNodes (TextLeaves.leafName n)) ++
    (groups ++ c.asides ++ c.inlines).map fun name => .generated .globalNodes (blockName name)

/-- **All records of a classification**, in order, where there are some leaves of text and some
groups of inline nodes. -/
structure Lists (c : Classification) (t : Table) (all : List Record) (leaves : ℕ)
    (groups : List String) : Prop where
  /-- No two records have one name. -/
  distinct : (all.map Record.name).Nodup
  /-- These are all, in this order. -/
  outlines_eq : all.map Record.outline = listed c leaves groups
  /-- Every leaf is named in the content of a record. -/
  named : ∀ n < leaves, ∃ r ∈ all, ∃ content, r.content = some content ∧
    TextLeaves.leafName n ∈ names content
  /-- The groups are those of the elements that become inline nodes, each once. -/
  groups_nodup : groups.Nodup
  mem_groups : ∀ g, g ∈ groups ↔ InlineGroup c t g
  /-- The records that are the elements of specs themselves are those of the classified idents. -/
  own : (all.filter fun r => !r.synthetic).map (fun r => (r.name, r.source)) =
    c.seeds.map fun ident => (ident, some ident)
  /-- Of the other ones, marks of elements that are also blocks have the attributes of specs, -/
  marks : (all.filter fun r => r.synthetic && r.source.isSome).map (fun r => (r.name, r.source)) =
    c.inter.map fun ident => (markName ident, some ident)
  /-- and these are the ones that have none. -/
  generated : (all.filter fun r => r.synthetic && r.source.isNone).map Record.name =
    ["doc", "headerDoc"] ++ c.asides.flatMap (fun ident => [ident ++ "X", ident ++ "Doc"]) ++
      (List.range leaves).map TextLeaves.leafName ++
      (groups ++ c.asides ++ c.inlines).map blockName

variable {c : Classification} {d : Decoration} {t : Table} {all : List Record}

/-! ### The records of elements -/

lemma outline_recordsOf (r : References) (d : Decoration) (category : Category) (e : ElementSpec) :
    (recordsOf r d category e).map Record.outline = outlines (category, e.ident) := by
  cases category <;> rfl

/-- The records of classified idents, in order. -/
lemma outlines_of_mapM {r : References} {entries : List (Category × String)}
    {own : List (List Record)} (h : entries.mapM (recordsFor r d t) = .ok own) :
    own.flatten.map Record.outline = entries.flatMap outlines := by
  have hall := forall₂_of_mapM h
  clear h
  induction hall with
  | nil => rfl
  | @cons records entry own entries hentry _ ih =>
      obtain ⟨category, ident⟩ := entry
      rw [recordsFor] at hentry
      split at hentry
      · cases hentry
      · next e he =>
        obtain rfl := Except.ok.inj hentry
        rw [List.flatten_cons, List.map_append, ih, List.flatMap_cons, outline_recordsOf,
          (Table.ident_of_element? he).2]

/-! ### What is generated -/

/-- What a record is does not depend on its leaf. -/
lemma outline_bindOne (known : List TextLeaves.Signature) (r : Record) :
    (TextLeaves.bindOne known r).outline = r.outline := by
  rw [TextLeaves.bindOne_eq]
  rfl

lemma outline_leaves (known : List TextLeaves.Signature) :
    (TextLeaves.leaves known).map Record.outline = (List.range known.length).map
      fun n => .generated .textNodes (TextLeaves.leafName n) := by
  rw [TextLeaves.leaves, List.map_map, List.range_eq_range', ← List.zipIdx_map_snd, List.map_map]
  rfl

/-- Elements are placed in the order of the entries. -/
lemma map_placed {entries : List (Category × String)} {placed : List References.Placed}
    (h : entries.mapM (References.place t) = .ok placed) :
    placed.map (fun p => (p.category, p.ident)) = entries := by
  have hall := forall₂_of_mapM h
  clear h
  induction hall with
  | nil => rfl
  | cons hplace _ ih =>
      obtain ⟨e, groups, -, -, rfl⟩ := References.place_eq_ok.mp hplace
      rw [List.map_cons, ih]

/-- Notes come before the other inline nodes, since their category does. -/
lemma inlineIdents_ofPlaced {placed : List References.Placed}
    (h : References.PlacedAs c t placed) :
    (References.ofPlaced placed).inlineIdents = c.asides ++ c.inlines := by
  have hentries : (References.ofPlaced placed).inlineIdents =
      ((placed.map fun p => (p.category, p.ident)).filter (·.1.isInline)).map Prod.snd := by
    rw [List.filter_map, List.map_map]
    rfl
  rw [hentries, map_placed h]
  simp [Classification.entries, Category.all, Classification.idents, List.filter_map,
    Function.comp_def, Category.isInline]

lemma mem_inlineGroups {placed : List References.Placed} (h : References.PlacedAs c t placed)
    (g : String) :
    g ∈ (References.ofPlaced placed).inlineGroups ↔ InlineGroup c t g := by
  rw [References.mem_inlineGroups_ofPlaced, InlineGroup, ← inlineIdents_ofPlaced h]
  constructor
  · rintro ⟨p, hp, hinline, hg⟩
    obtain ⟨-, e, he, hclasses⟩ := h.exists_entry hp
    exact ⟨p.ident, References.mem_inlineIdents_ofPlaced.mpr ⟨p, hp, hinline, rfl⟩,
      e, p.groups, he, hclasses, hg⟩
  · rintro ⟨ident, hident, e, classes, he, hclasses, hg⟩
    obtain ⟨p, hp, hinline, rfl⟩ := References.mem_inlineIdents_ofPlaced.mp hident
    obtain ⟨-, e', he', hclasses'⟩ := h.exists_entry hp
    obtain rfl := Option.some.inj (he.symm.trans he')
    obtain rfl := Except.ok.inj (hclasses.symm.trans hclasses')
    exact ⟨p, hp, hinline, hg⟩

/-- Every leaf is named by a record that is bound to it. -/
lemma exists_named {records : List Record} {n : ℕ}
    (hn : n < (TextLeaves.signatures records).length) :
    ∃ r ∈ (TextLeaves.bind records).1, ∃ content, r.content = some content ∧
      TextLeaves.leafName n ∈ names content := by
  have hnodup : (TextLeaves.signatures records).Nodup := nodup_eraseDups _
  obtain ⟨r, hr, htext, hsignature⟩ := TextLeaves.mem_signatures.mp (List.getElem_mem hn)
  have hindex : (TextLeaves.signatures records).idxOf (TextLeaves.signature r) = n := by
    rw [hsignature]
    exact hnodup.idxOf_getElem n hn
  refine ⟨_, List.mem_map_of_mem hr, ?_⟩
  have hholds : TextLeaves.holdsText r = true := TextLeaves.holdsText_iff.mpr htext
  obtain ⟨content, hcontent, hmem⟩ := htext
  refine ⟨replace content Particle.textName (TextLeaves.leafName n), ?_, ?_⟩
  · simp only [TextLeaves.bindOne, hcontent, hholds, if_true, hindex]
  · rw [names_replace (isName_leafName n)]
    exact List.mem_map.mpr ⟨_, hmem, if_pos rfl⟩

/-! ### All records -/

/-- What can be told of some records from their outlines. -/
lemma map_filter_outline {α : Type} (all : List Record) (p : Outline → Bool) (f : Outline → α) :
    (all.filter fun r => p r.outline).map (fun r => f r.outline) =
      ((all.map Record.outline).filter p).map f := by
  rw [List.filter_map, List.map_map]
  rfl

/-- The records of entries of which something can be told, category by category. -/
lemma map_filter_outlines {α : Type} (c : Classification) (p : Outline → Bool)
    (f : Outline → α) : ((c.entries.flatMap outlines).filter p).map f =
      Category.all.flatMap fun category => (c.idents category).flatMap fun ident =>
        ((outlines (category, ident)).filter p).map f := by
  rw [List.filter_flatMap, List.map_flatMap, Classification.entries, List.flatMap_assoc]
  simp only [List.flatMap_map]

lemma flatMap_none {α : Type} (idents : List String) :
    idents.flatMap (fun _ => ([] : List α)) = [] :=
  List.flatMap_eq_nil_iff.mpr fun _ _ => rfl

section Listed

variable (c : Classification) (leaves : ℕ) (groups : List String)

/-- Each category contributes the elements themselves. -/
lemma own_listed :
    ((listed c leaves groups).filter fun o => !o.synthetic).map (fun o => (o.name, o.source)) =
      c.seeds.map fun ident => (ident, some ident) := by
  simp only [listed, List.filter_append, List.map_append, map_filter_outlines]
  simp [Outline.generated, outlines, Classification.seeds, Classification.entries, Category.all,
    Classification.idents, List.filter_map, Function.comp_def, ← List.map_eq_flatMap]

/-- Only elements that are also blocks contribute something else that has attributes. -/
lemma marks_listed :
    ((listed c leaves groups).filter fun o => o.synthetic && o.source.isSome).map
      (fun o => (o.name, o.source)) = c.inter.map fun ident => (markName ident, some ident) := by
  simp only [listed, List.filter_append, List.map_append, map_filter_outlines]
  simp [Outline.generated, outlines, Category.all, Classification.idents, List.filter_map,
    Function.comp_def, flatMap_none, ← List.map_eq_flatMap]

/-- Of the elements, only notes contribute something that has none. -/
lemma generated_listed :
    ((listed c leaves groups).filter fun o => o.synthetic && o.source.isNone).map Outline.name =
      ["doc", "headerDoc"] ++ c.asides.flatMap (fun ident => [ident ++ "X", ident ++ "Doc"]) ++
        (List.range leaves).map TextLeaves.leafName ++
        (groups ++ c.asides ++ c.inlines).map blockName := by
  simp only [listed, List.filter_append, List.map_append, map_filter_outlines]
  simp [Outline.generated, outlines, Category.all, Classification.idents, List.filter_map,
    Function.comp_def, flatMap_none]

end Listed

/-- **All records of a classification** that is elaborated are these. -/
lemma exists_lists (h : c.elaborate t d = .ok all) :
    ∃ leaves groups, Lists c t all leaves groups := by
  obtain ⟨placed, own, hplaced, hown, hall, hnone⟩ := exists_records h
  let records := Record.documentRoots ++ own.flatten
  let leaves := (TextLeaves.signatures records).length
  let groups := (References.ofPlaced placed).inlineGroups
  have houtlines : all.map Record.outline = listed c leaves groups := by
    have hbound : (TextLeaves.bind records).1.map Record.outline = records.map Record.outline := by
      rw [TextLeaves.bind, List.map_map]
      exact List.map_congr_left fun r _ => outline_bindOne _ r
    have hrecords : records.map Record.outline =
        [.generated .docNodes "doc", .generated .docNodes "headerDoc"] ++
          c.entries.flatMap outlines := by
      rw [List.map_append, outlines_of_mapM hown]
      rfl
    have hleaves : (TextLeaves.bind records).2.map Record.outline =
        (List.range leaves).map fun n => .generated .textNodes (TextLeaves.leafName n) :=
      outline_leaves _
    have hwrappers : (References.ofPlaced placed).wrappers.map Record.outline =
        (groups ++ c.asides ++ c.inlines).map fun name =>
          .generated .globalNodes (blockName name) := by
      rw [List.append_assoc, ← inlineIdents_ofPlaced hplaced, References.wrappers,
        List.map_append, List.map_append, List.map_map, List.map_map]
      rfl
    rw [hall, List.map_append, List.map_append, hbound, hrecords, hleaves, hwrappers, listed]
  refine ⟨leaves, groups, (repeatedName?_eq_none hnone).1, houtlines, fun n hn => ?_,
    nodup_eraseDups _, mem_inlineGroups hplaced, ?_, ?_, ?_⟩
  · obtain ⟨r, hr, hnamed⟩ := exists_named hn
    rw [hall]
    exact ⟨r, List.mem_append_left _ (List.mem_append_left _ hr), hnamed⟩
  · refine (map_filter_outline all (fun o => !o.synthetic) fun o => (o.name, o.source)).trans ?_
    rw [houtlines, own_listed]
  · refine (map_filter_outline all (fun o => o.synthetic && o.source.isSome)
      fun o => (o.name, o.source)).trans ?_
    rw [houtlines, marks_listed]
  · refine (map_filter_outline all (fun o => o.synthetic && o.source.isNone)
      Outline.name).trans ?_
    rw [houtlines, generated_listed]

end Elaboration

/-! ### Classifications that are in order -/

namespace Classification

lemma firstRepetition_eq_none {before entries : List (Category × String)} :
    firstRepetition before entries = none ↔
      (entries.map Prod.snd).Nodup ∧ ∀ entry ∈ entries, entry.2 ∉ before.map Prod.snd := by
  induction entries generalizing before with
  | nil => simp [firstRepetition]
  | cons entry rest ih =>
      obtain ⟨category, ident⟩ := entry
      rw [firstRepetition, List.map_cons, List.nodup_cons, List.forall_mem_cons]
      split
      · next previous other hfound =>
        have hbefore : ident ∈ before.map Prod.snd := List.mem_map.mpr
          ⟨_, List.mem_of_find?_eq_some hfound, by simpa using List.find?_some hfound⟩
        simp [hbefore]
      · next hnone =>
        have hbefore : ident ∉ before.map Prod.snd := by
          intro hmem
          obtain ⟨entry, hentry, rfl⟩ := List.mem_map.mp hmem
          simpa using List.find?_eq_none.mp hnone entry hentry
        have hrest : (∀ entry ∈ rest, entry.2 ∉ ((category, ident) :: before).map Prod.snd) ↔
            ident ∉ rest.map Prod.snd ∧ ∀ entry ∈ rest, entry.2 ∉ before.map Prod.snd := by
          simp only [List.map_cons, List.mem_cons, not_or, forall₂_and, List.mem_map, not_exists,
            not_and]
        rw [ih, hrest]
        tauto

end Classification

namespace Schema

/-- A classification is in order if it classifies no ident twice. -/
lemma validate_eq_ok_iff {c : Classification} : validate c = .ok () ↔ c.seeds.Nodup := by
  have hrepetition : c.repetition? = none ↔ c.seeds.Nodup := by
    rw [Classification.repetition?, Classification.firstRepetition_eq_none]
    simp [Classification.seeds]
  rw [validate, ← hrepetition]
  cases c.repetition? <;> simp

end Schema

namespace Elaboration

/-- **The records of a schema**: all records of a classification that is elaborated are listed,
with some leaves and groups.  So a classification that is not in order is never elaborated, and
has no schema, whether it has been looked at before or not. -/
theorem lists_of_elaborate :
    (∀ c t d all, Classification.elaborate c t d = .ok all →
      ∃ leaves groups, Lists c t all leaves groups) ∧
    ∀ settings c d t fault, Schema.validate c = .error fault →
      ∃ fault', Schema.ofTable settings c d t = .error fault' := by
  refine ⟨fun c t d all => exists_lists, fun settings c d t fault hfault => ?_⟩
  cases hschema : Schema.ofTable settings c d t with
  | error fault' => exact ⟨fault', rfl⟩
  | ok schema =>
      obtain ⟨all, hall, -⟩ := bind_eq_ok.mp hschema
      obtain ⟨leaves, groups, hlists⟩ := exists_lists hall
      -- the names of the elements themselves are the classified idents
      have hnames : ((all.filter fun r => !r.synthetic).map Record.name).Nodup :=
        hlists.distinct.sublist (List.filter_sublist.map _)
      have hseeds : (all.filter fun r => !r.synthetic).map Record.name = c.seeds := by
        have hown := congrArg (List.map Prod.fst) hlists.own
        simpa [Function.comp_def] using hown
      rw [hseeds, ← Schema.validate_eq_ok_iff, hfault] at hnames
      cases hnames

/-- Quotations, notes and page breaks. -/
def noteTable : Table := .ofList [
  .ofClass { ident := "phrase", kind := .model },
  .ofElement { ident := "q", content := .model (.group "textNode") },
  .ofElement { ident := "note", memberships := ["phrase"] },
  .ofElement { ident := "pb" }]

/-- What they become. -/
def notes : Classification where
  inter := ["q"]
  asides := ["note"]
  inlines := ["pb"]

/-- A classification by which notes become two things. -/
def notesTwice : Classification := { notes with inlines := ["pb", "note"] }

/-- Quotations, notes and page breaks have their records in the order of the classification, with
the leaf of text and the wrappers after them.  Notes that are to become two things are refused, by
the schema as well. -/
theorem lists_of_elaborate_notes :
    (∃ all leaves groups, notes.elaborate noteTable {} = .ok all ∧
      all.map Record.name = ["doc", "headerDoc", "markq", "q", "note", "noteX", "noteDoc",
        "pb", "textNode0", "phrase_g", "note_g", "pb_g"] ∧
      Lists notes noteTable all leaves groups) ∧
    ∃ fault fault', Schema.validate notesTwice = .error fault ∧
      Schema.ofTable {} notesTwice {} noteTable = .error fault' := by
  constructor
  · have hnames : (notes.elaborate noteTable {}).toOption.map (List.map Record.name) =
        some ["doc", "headerDoc", "markq", "q", "note", "noteX", "noteDoc", "pb",
          "textNode0", "phrase_g", "note_g", "pb_g"] := by
      cbv
    cases hall : notes.elaborate noteTable {} with
    | error fault =>
        rw [hall] at hnames
        cases hnames
    | ok all =>
        rw [hall] at hnames
        obtain ⟨leaves, groups, hlists⟩ := lists_of_elaborate.1 notes noteTable {} all hall
        exact ⟨all, leaves, groups, rfl, Option.some.inj hnames, hlists⟩
  · have hfault : Schema.validate notesTwice =
        .error (.classifiedTwice "note" .aside .inline) := by
      decide
    obtain ⟨fault', hfault'⟩ := lists_of_elaborate.2 {} notesTwice {} noteTable _ hfault
    exact ⟨_, fault', hfault, hfault'⟩

end Elaboration

end EditorSchema
