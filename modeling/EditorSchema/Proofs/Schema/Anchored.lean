/-
No name is left dangling in a schema.

The records of a schema come from its elements, from the leaves of their texts, and from the
wrappers around inline nodes.  In each of them every name is answered by some record; where
only blocks may stand, by a block, among the inline nodes of a text by an inline node, and
among its marks by a mark.  Only the roots of documents name what they like.

* `Stage.names_content`, `Stage.names_block`, `Stage.names_inline`, `Stage.names_mark`: the
  names in the records of a classification;
* `Schema.Anchored`: no name in a record is left dangling;
* `Schema.anchored_of_ofTable`: so it is in every schema.
-/
import Mathlib.Tactic
import EditorSchema.Proofs.Attributes.Records
import EditorSchema.Proofs.Schema.Answers
import EditorSchema.Schema.Basic

namespace EditorSchema

open Naming Outcome

/-! ### Names in the records of a classification -/

namespace Elaboration.Stage

open References (Placed PlacedAs ofPlaced)

variable {c : Classification} {d : Decoration} {t : Table} {placed : List Placed}
variable {own all : List Record} {r x : Record} {content name : String}

/-- The signatures of the records of a classification that hold text. -/
abbrev known (own : List Record) : List TextLeaves.Signature :=
  TextLeaves.signatures (Record.documentRoots ++ own)

/-- The records of a schema are roots, those of elements, leaves and wrappers. -/
lemma mem_all (h : Stage c d t placed own all) : r ∈ all ↔
    (∃ x ∈ Record.documentRoots, TextLeaves.bindOne (known own) x = r) ∨
    (∃ x ∈ own, TextLeaves.bindOne (known own) x = r) ∨
    r ∈ TextLeaves.leaves (known own) ∨
    r ∈ (ofPlaced placed).wrappers := by
  rw [h.all_eq, List.mem_append, List.mem_append, or_assoc, TextLeaves.bind, List.map_append,
    List.mem_append, List.mem_map, List.mem_map, or_assoc]

/-- A root has neither inline nodes nor marks. -/
lemma of_mem_documentRoots (hx : x ∈ Record.documentRoots) :
    (x.name = "doc" ∨ x.name = "headerDoc") ∧ x.origin = .docNodes ∧ x.inlineContent = none ∧
      x.markContent = none := by
  simp only [Record.documentRoots, List.map_cons, List.map_nil, List.mem_cons,
    List.not_mem_nil, or_false] at hx
  rcases hx with rfl | rfl <;> simp

lemma exists_of_mem_wrappers (hr : r ∈ (ofPlaced placed).wrappers) :
    ∃ name content, r = .wrapper (blockName name) content := by
  rcases List.mem_append.mp hr with hr | hr <;> obtain ⟨n, -, rfl⟩ := List.mem_map.mp hr <;>
    exact ⟨_, _, rfl⟩

lemma of_mem_wrappers (hr : r ∈ (ofPlaced placed).wrappers) :
    r.origin = .globalNodes ∧ r.inlineContent = none ∧ r.markContent = none := by
  obtain ⟨name, content, rfl⟩ := exists_of_mem_wrappers hr
  exact ⟨rfl, rfl, rfl⟩

/-- The inline nodes of an element are answered by inline nodes, its marks by marks. -/
lemma names_own (h : Stage c d t placed own all) (hx : x ∈ own) :
    (∀ content, x.inlineContent = some content → ∀ name ∈ names content,
      Answered all .inlineNode name) ∧
    ∀ content, x.markContent = some content → ∀ name ∈ names content,
      Answered all .mark name := by
  obtain ⟨entry, -, e, -, hrecord⟩ := (h.mem_own x).mp hx
  obtain ⟨-, hinline, hmark⟩ := views_of_mem hrecord
  exact ⟨fun content hcontent name hname => h.names_inlineView (hinline content hcontent) hname,
    fun content hcontent name hname => h.names_markView (hmark content hcontent) hname⟩

/-- What an element holds, once it is bound to its leaf, is answered by blocks. -/
lemma names_bound (h : Stage c d t placed own all) (hx : x ∈ own)
    (hcontent : (TextLeaves.bindOne (known own) x).content
      = some content) (hname : name ∈ names content) : Answered all .node name := by
  obtain ⟨before, hbefore, hnames⟩ :=
    TextLeaves.mem_names_bindOne (List.mem_append_right _ hx) hcontent
  rcases hnames name hname with ⟨hin, hne⟩ | ⟨leaf, hleaf, rfl⟩
  · obtain ⟨entry, hentry, e, he, hrecord⟩ := (h.mem_own x).mp hx
    rcases (views_of_mem hrecord).1 before hbefore with hview | ⟨hcategory, rfl, -⟩
    · exact (h.names_blockView hview hin).resolve_right hne
    · obtain ⟨hcontains, hident⟩ := Table.ident_of_element? he
      have hisName : IsName (e.ident ++ "X") :=
        (hident ▸ h.named _ hcontains : IsName e.ident).append (by decide)
      rw [names_of_isName hisName, List.mem_singleton] at hin
      rw [hcategory] at hrecord
      obtain ⟨y, hy, hform, hyname⟩ :=
        exists_container (r := ofPlaced placed) (d := d) (e := e)
      have hyown : y ∈ own := (h.mem_own y).mpr ⟨entry, hentry, e, he, hcategory ▸ hy⟩
      rw [← hform]
      exact h.answered_of_mem hyown (.inl (hyname.trans hin.symm))
  · obtain ⟨n, r, -, rfl⟩ := TextLeaves.exists_of_mem_leaves hleaf
    exact ⟨_, h.mem_all.mpr (.inr (.inr (.inl hleaf))), rfl, .inl rfl⟩

/-- What a wrapper is around is answered by inline nodes. -/
lemma names_wrapper (h : Stage c d t placed own all) (hr : r ∈ (ofPlaced placed).wrappers)
    (hcontent : r.content = some content) (hname : name ∈ names content) :
    Answered all .inlineNode name := by
  rcases List.mem_append.mp hr with hr | hr
  · obtain ⟨g, hg, rfl⟩ := List.mem_map.mp hr
    obtain ⟨p, hp, hcategory, hg⟩ := References.mem_inlineGroups_ofPlaced.mp hg
    obtain rfl := Option.some.inj hcontent
    rw [names_of_isName (isName_inlineName (h.isName_group hp g hg)),
      List.mem_singleton] at hname
    rw [hname]
    exact h.answered_inlineName hp hcategory hg
  · obtain ⟨ident, hident, rfl⟩ := List.mem_map.mp hr
    obtain ⟨p, hp, hcategory, rfl⟩ := References.mem_inlineIdents_ofPlaced.mp hident
    obtain rfl := Option.some.inj hcontent
    rw [names_of_isName (h.isName_of_mem hp List.mem_cons_self), List.mem_singleton] at hname
    rw [hname]
    exact h.answered_inline hp hcategory

/-- What a leaf holds besides character data is answered by inline nodes, and its marks are
answered by marks. -/
lemma names_leaf (h : Stage c d t placed own all)
    (hr : r ∈ TextLeaves.leaves (known own)) :
    r.origin = .textNodes ∧ r.inlineContent = none ∧
    (∀ content, r.content = some content → ∀ name ∈ names content,
      name = "text" ∨ Answered all .inlineNode name) ∧
    ∀ content, r.markContent = some content → ∀ name ∈ names content,
      Answered all .mark name := by
  obtain ⟨n, x, hx, rfl⟩ := TextLeaves.exists_of_mem_leaves hr
  refine ⟨rfl, rfl, fun content hcontent name hname => ?_, fun content hcontent name hname => ?_⟩
  · refine (TextLeaves.mem_names_leaf hcontent hname).imp_right ?_
    rintro ⟨inline, hinline, hname⟩
    rcases List.mem_append.mp hx with hroot | hown
    · rw [(of_mem_documentRoots hroot).2.2.1] at hinline
      cases hinline
    · exact (h.names_own hown).1 inline hinline name hname
  · have hmark : x.markContent = some content := hcontent
    rcases List.mem_append.mp hx with hroot | hown
    · rw [(of_mem_documentRoots hroot).2.2.2] at hmark
      cases hmark
    · exact (h.names_own hown).2 content hmark name hname

/-- The records of elements are told by their origins. -/
lemma exists_own (h : Stage c d t placed own all) (hr : r ∈ all)
    (horigin : r.origin ∈ [.hard, .soft, .inters, .asides]) :
    ∃ x ∈ own, TextLeaves.bindOne (known own) x = r := by
  rcases h.mem_all.mp hr with ⟨x, hroot, rfl⟩ | hown | hleaf | hwrapper
  · rw [TextLeaves.bindOne_eq, (of_mem_documentRoots hroot).2.1] at horigin
    exact absurd horigin (by decide)
  · exact hown
  · rw [(h.names_leaf hleaf).1] at horigin
    exact absurd horigin (by decide)
  · rw [(of_mem_wrappers hwrapper).1] at horigin
    exact absurd horigin (by decide)

/-- **The content of every record but the roots**: its names are answered, but for the
character data of leaves. -/
theorem names_content (h : Stage c d t placed own all) (hr : r ∈ all) (hdoc : r.name ≠ "doc")
    (hheader : r.name ≠ "headerDoc") (hcontent : r.content = some content)
    (hname : name ∈ names content) :
    name = "text" ∧ r.origin = .textNodes ∨ ∃ form, Answered all form name := by
  rcases h.mem_all.mp hr with ⟨x, hroot, rfl⟩ | ⟨x, hown, rfl⟩ | hleaf | hwrapper
  · rw [TextLeaves.bindOne_eq] at hdoc hheader
    rcases (of_mem_documentRoots hroot).1 with hroot | hroot
    · exact absurd hroot hdoc
    · exact absurd hroot hheader
  · exact .inr ⟨_, h.names_bound hown hcontent hname⟩
  · obtain ⟨horigin, -, hnames, -⟩ := h.names_leaf hleaf
    exact (hnames content hcontent name hname).imp (⟨·, horigin⟩) (⟨_, ·⟩)
  · exact .inr ⟨_, h.names_wrapper hwrapper hcontent hname⟩

/-- **The content of every block of an element**: its names are answered by blocks. -/
theorem names_block (h : Stage c d t placed own all) (hr : r ∈ all)
    (horigin : r.origin ∈ [.hard, .soft, .inters, .asides]) (hcontent : r.content = some content)
    (hname : name ∈ names content) : Answered all .node name := by
  obtain ⟨x, hx, rfl⟩ := h.exists_own hr horigin
  exact h.names_bound hx hcontent hname

/-- **The inline content of every record**: its names are answered by inline nodes. -/
theorem names_inline (h : Stage c d t placed own all) (hr : r ∈ all)
    (hcontent : r.inlineContent = some content) (hname : name ∈ names content) :
    Answered all .inlineNode name := by
  rcases h.mem_all.mp hr with ⟨x, hroot, rfl⟩ | ⟨x, hown, rfl⟩ | hleaf | hwrapper
  · rw [TextLeaves.bindOne_eq] at hcontent
    cases (of_mem_documentRoots hroot).2.2.1.symm.trans hcontent
  · rw [TextLeaves.bindOne_eq] at hcontent
    exact (h.names_own hown).1 content hcontent name hname
  · cases (h.names_leaf hleaf).2.1.symm.trans hcontent
  · cases (of_mem_wrappers hwrapper).2.1.symm.trans hcontent

/-- **The marks of every record**: their names are answered by marks. -/
theorem names_mark (h : Stage c d t placed own all) (hr : r ∈ all)
    (hcontent : r.markContent = some content) (hname : name ∈ names content) :
    Answered all .mark name := by
  rcases h.mem_all.mp hr with ⟨x, hroot, rfl⟩ | ⟨x, hown, rfl⟩ | hleaf | hwrapper
  · rw [TextLeaves.bindOne_eq] at hcontent
    cases (of_mem_documentRoots hroot).2.2.2.symm.trans hcontent
  · rw [TextLeaves.bindOne_eq] at hcontent
    exact (h.names_own hown).2 content hcontent name hname
  · exact (h.names_leaf hleaf).2.2.2 content hcontent name hname
  · cases (of_mem_wrappers hwrapper).2.2.symm.trans hcontent

end Elaboration.Stage

/-! ### Schemas -/

namespace Schema

variable {settings : Settings} {c : Classification} {d : Decoration} {t : Table} {s : Schema}

/-- The keys of what is gathered. -/
lemma contains_gather {pairs : List (String × String)} {key : String} :
    (gather pairs).contains key = true ↔ ∃ name, (key, name) ∈ pairs := by
  induction pairs using List.reverseRecOn with
  | nil => simp [gather]
  | append_singleton pairs pair ih =>
      rw [gather, List.foldl_append, List.foldl_cons, List.foldl_nil, Dictionary.contains_insert]
      rw [gather] at ih
      rw [ih]
      constructor
      · rintro (rfl | ⟨name, hname⟩)
        · exact ⟨pair.2, by simp⟩
        · exact ⟨name, List.mem_append_left _ hname⟩
      · rintro ⟨name, hname⟩
        rcases List.mem_append.mp hname with hin | hin
        · exact .inr ⟨name, hin⟩
        · exact .inl (congrArg Prod.fst (List.mem_singleton.mp hin)).symm

/-- The keys of the groups of records are their groups. -/
lemma contains_elementGroups {records : List Record} {attributes : AttributeDictionary}
    {name : String} : (describe records attributes t).elementGroups.contains name = true ↔
      ∃ r ∈ records, name ∈ r.groups := by
  simp only [describe, contains_gather, groupPairs, List.mem_flatMap, List.mem_map,
    Prod.mk.injEq]
  constructor
  · rintro ⟨_, r, hr, g, hg, rfl, -⟩
    exact ⟨r, hr, hg⟩
  · rintro ⟨r, hr, hg⟩
    exact ⟨r.name, r, hr, name, hg, rfl, rfl⟩

/-- **No name in a record is left dangling.** -/
structure Anchored (s : Schema) (r : Record) : Prop where
  /-- Every name in its content is that of a record or of a group; leaves of text also hold
  character data, and the roots of documents name what they like. -/
  content : r.name ≠ "doc" → r.name ≠ "headerDoc" → ∀ content, r.content = some content →
    ∀ name ∈ names content, name = "text" ∧ r.origin = .textNodes ∨
      (∃ x ∈ s.records, x.name = name) ∨ s.elementGroups.contains name = true
  /-- What the block of an element holds is answered by blocks. -/
  block : r.origin ∈ [.hard, .soft, .inters, .asides] → ∀ content, r.content = some content →
    ∀ name ∈ names content, Answered s.records .node name
  /-- The inline nodes of its text are answered by inline nodes. -/
  inline : ∀ content, r.inlineContent = some content → ∀ name ∈ names content,
    Answered s.records .inlineNode name
  /-- The marks of its text are answered by marks. -/
  mark : ∀ content, r.markContent = some content → ∀ name ∈ names content,
    Answered s.records .mark name

/-- Attributes do not matter for what answers to a name. -/
lemma answered_of_resolveAll {dictionary dictionary' : AttributeDictionary}
    {all resolved : List Record} {form : Record.Form} {name : String}
    (hresolve : Attributes.resolveAll t dictionary all = .ok (dictionary', resolved))
    (h : Answered all form name) : Answered resolved form name := by
  obtain ⟨x, hx, hform, hname⟩ := h
  obtain ⟨x', hx', hsame⟩ := (Attributes.exists_same_of_resolveAll hresolve).1 x hx
  refine ⟨x', hx', ?_, ?_⟩ <;> rw [hsame]
  · exact hform
  · exact hname

/-- **No name is left dangling** in a schema, where the idents of all specs can be names. -/
theorem anchored_of_ofTable (hnamed : t.Named) (h : ofTable settings c d t = .ok s) :
    ∀ r ∈ s.records, s.Anchored r := by
  obtain ⟨all, hall, h⟩ := bind_eq_ok.mp h
  obtain ⟨⟨attributes, resolved⟩, hresolve, h⟩ := bind_eq_ok.mp h
  obtain rfl := pure_eq_ok.mp h
  obtain ⟨last, hgiven, rfl⟩ := Attributes.resolve_eq_ok_iff.mp hresolve
  obtain ⟨placed, own, hstage⟩ := Elaboration.exists_stage hnamed hall
  have hanswered {form : Record.Form} {name : String} (h : Answered all form name) :
      Answered resolved form name := answered_of_resolveAll hgiven h
  intro r' hr'
  obtain ⟨r, hr, hsame⟩ := (Attributes.exists_same_of_resolveAll hgiven).2 r' hr'
  rw [hsame]
  constructor
  · intro hdoc hheader content hcontent name hname
    refine (hstage.names_content hr hdoc hheader hcontent hname).imp_right ?_
    rintro ⟨form, hform⟩
    obtain ⟨x, hx, -, hxname | hgroup⟩ := hanswered hform
    · exact .inl ⟨x, hx, hxname⟩
    · exact .inr (contains_elementGroups.mpr ⟨x, hx, hgroup⟩)
  · exact fun horigin content hcontent name hname =>
      hanswered (hstage.names_block hr horigin hcontent hname)
  · exact fun content hcontent name hname => hanswered (hstage.names_inline hr hcontent hname)
  · exact fun content hcontent name hname => hanswered (hstage.names_mark hr hcontent hname)

/-- Divisions of paragraphs and page breaks, and headings that hold page breaks. -/
def pageTable : Table := .ofList [
  .ofClass { ident := "model.pLike", kind := .model },
  .ofElement { ident := "div", content := .model (.group "model.pLike") },
  .ofElement {
    ident := "p"
    memberships := ["model.pLike"]
    content := .model (.group "textNode") },
  .ofElement { ident := "pb", memberships := ["model.pLike"] },
  .ofElement { ident := "fw", content := .model (.group "pb") }]

/-- What they become. -/
def pages : Classification := { hard := ["div"], soft := ["p", "fw"], inlines := ["pb"] }

/-- All names in the schema of pages are answered, those in the wrappers and in the leaf of text
among them. -/
theorem anchored_of_ofTable_pages : pageTable.Named ∧ ∃ s, ofTable {} pages {} pageTable = .ok s ∧
    s.records.map Record.name = ["doc", "headerDoc", "div", "p", "fw", "pb", "textNode0",
      "model.pLike_g", "pb_g"] ∧ ∀ r ∈ s.records, s.Anchored r := by
  have hnamed : pageTable.Named := by
    have hidents : ∀ ident ∈ pageTable.idents, IsName ident := by decide
    exact fun ident h => hidents ident (Dictionary.mem_keys_iff.mpr h)
  have hnames : (ofTable {} pages {} pageTable).toOption.map (·.records.map Record.name) =
      some ["doc", "headerDoc", "div", "p", "fw", "pb", "textNode0", "model.pLike_g", "pb_g"] := by
    cbv
  cases h : ofTable {} pages {} pageTable with
  | error fault =>
      rw [h] at hnames
      cases hnames
  | ok s =>
      rw [h] at hnames
      exact ⟨hnamed, s, rfl, Option.some.inj hnames, anchored_of_ofTable hnamed h⟩

end Schema

end EditorSchema
