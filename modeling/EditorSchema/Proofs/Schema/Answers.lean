/-
What answers to the names that the records of a schema hold.

A name in the content of a record stands for a record of that name or for those in a group of
that name.  Each name that a view of an element keeps belongs to some classified element, and
this element has a record under the name that the view gives it: its block, its inline node,
its mark, or a wrapper around it.

* `Answered`: a record of some form answers to a name;
* `Elaboration.Stage`: the records of a classification on their way into a schema;
* `Stage.answered_block`, `Stage.answered_inline`, `Stage.answered_mark`,
  `Stage.answered_wrapper`: the names of placed elements are answered;
* `Stage.names_blockView`, `Stage.names_inlineView`, `Stage.names_markView`: so are the names
  in the views of an element.
-/
import Mathlib.Tactic
import EditorSchema.Proofs.Schema.TextLeaves

namespace EditorSchema

open Naming Outcome

/-! ### Answers -/

/-- A record of a form answers to a name, by its own name or by one of its groups. -/
def Answered (records : List Record) (form : Record.Form) (name : String) : Prop :=
  ∃ r ∈ records, r.form = form ∧ (r.name = name ∨ name ∈ r.groups)

/-- The idents of all specs in a table can be names in content. -/
def Table.Named (t : Table) : Prop := ∀ ident, t.contains ident = true → IsName ident

lemma Table.ident_of_element? {t : Table} {ident : String} {e : ElementSpec}
    (h : t.element? ident = some e) : t.contains ident = true ∧ e.ident = ident := by
  rw [Table.element?] at h
  split at h
  · next s hs =>
    cases h
    exact ⟨Dictionary.contains_iff.mpr ⟨_, hs⟩, t.keyed hs⟩
  · cases h

lemma Table.contains_of_class? {t : Table} {ident : String} {s : ClassSpec}
    (h : t.class? ident = some s) : t.contains ident = true := by
  rw [Table.class?] at h
  split at h
  · next s hs => exact Dictionary.contains_iff.mpr ⟨_, hs⟩
  · cases h

namespace Elaboration

open References (Placed PlacedAs ofPlaced)

/-- The records of a classification on their way into a schema: those of its placed elements,
and all that they become with their leaves and wrappers. -/
structure Stage (c : Classification) (d : Decoration) (t : Table) (placed : List Placed)
    (own all : List Record) : Prop where
  named : t.Named
  placed_eq : PlacedAs c t placed
  mem_own : ∀ x, x ∈ own ↔ ∃ entry ∈ c.entries, ∃ e, t.element? entry.2 = some e ∧
    x ∈ recordsOf (ofPlaced placed) d entry.1 e
  all_eq : all = (TextLeaves.bind (Record.documentRoots ++ own)).1 ++
    (TextLeaves.bind (Record.documentRoots ++ own)).2 ++ (ofPlaced placed).wrappers

variable {c : Classification} {d : Decoration} {t : Table} {placed : List Placed}
variable {own all : List Record} {name : String} {p : Placed}

/-- What is elaborated is built from placed elements, and no two of its records have one name. -/
lemma exists_records (h : c.elaborate t d = .ok all) : ∃ placed own, PlacedAs c t placed ∧
    c.entries.mapM (recordsFor (ofPlaced placed) d t) = .ok own ∧
    all = (TextLeaves.bind (Record.documentRoots ++ own.flatten)).1 ++
      (TextLeaves.bind (Record.documentRoots ++ own.flatten)).2 ++ (ofPlaced placed).wrappers ∧
    repeatedName? [] (all.map Record.name) = none := by
  obtain ⟨r, hr, h⟩ := bind_eq_ok.mp h
  obtain ⟨placed, hplaced, rfl⟩ := References.exists_placed hr
  obtain ⟨own, hown, h⟩ := bind_eq_ok.mp h
  refine ⟨placed, own, hplaced, hown, ?_⟩
  split at h
  next bound leaves hbind =>
  dsimp only at h
  split at h
  · cases h
  · next hnone =>
    obtain rfl := Except.ok.inj h
    rw [hbind]
    exact ⟨rfl, hnone⟩

/-- The records of the elements of a classification. -/
lemma mem_flatten_of_mapM {r : References} {own : List (List Record)} {x : Record}
    (h : c.entries.mapM (recordsFor r d t) = .ok own) :
    x ∈ own.flatten ↔ ∃ entry ∈ c.entries, ∃ e, t.element? entry.2 = some e ∧
      x ∈ recordsOf r d entry.1 e := by
  rw [List.mem_flatten]
  constructor
  · rintro ⟨rs, hrs, hx⟩
    obtain ⟨entry, hentry, hrecords⟩ := ((mem_of_mapM h).1 rs).mp hrs
    rw [recordsFor] at hrecords
    split at hrecords
    · cases hrecords
    · next e he => cases hrecords; exact ⟨entry, hentry, e, he, hx⟩
  · rintro ⟨entry, hentry, e, he, hx⟩
    refine ⟨_, ((mem_of_mapM h).1 _).mpr ⟨entry, hentry, ?_⟩, hx⟩
    rw [recordsFor, he]

/-- A classification that is elaborated goes through this stage. -/
lemma exists_stage (hnamed : t.Named) (h : c.elaborate t d = .ok all) :
    ∃ placed own, Stage c d t placed own all := by
  obtain ⟨placed, own, hplaced, hown, hall, -⟩ := exists_records h
  exact ⟨placed, own.flatten, hnamed, hplaced, fun x => mem_flatten_of_mapM hown, hall⟩

namespace Stage

/-! ### Elements answer to their names -/

/-- A record of a placed element answers under its name and its groups. -/
lemma answered_of_mem (h : Stage c d t placed own all) {x : Record} (hx : x ∈ own)
    (hname : x.name = name ∨ name ∈ x.groups) : Answered all x.form name := by
  have hbound := TextLeaves.bindOne_eq (TextLeaves.signatures (Record.documentRoots ++ own)) x
  refine ⟨TextLeaves.bindOne _ x, ?_, by rw [hbound], ?_⟩
  · rw [h.all_eq, TextLeaves.bind]
    refine List.mem_append_left _ (List.mem_append_left _ (List.mem_map_of_mem ?_))
    exact List.mem_append_right _ hx
  · rw [hbound]
    exact hname

/-- The element of a placed ident, with its records. -/
lemma exists_element (h : Stage c d t placed own all) (hp : p ∈ placed) :
    ∃ e, e.ident = p.ident ∧ IsName p.ident ∧
      ∀ x ∈ recordsOf (ofPlaced placed) d p.category e, x ∈ own := by
  obtain ⟨hentry, e, he, -⟩ := h.placed_eq.exists_entry hp
  obtain ⟨hcontains, hident⟩ := Table.ident_of_element? he
  exact ⟨e, hident, h.named _ hcontains, fun x hx => (h.mem_own x).mpr ⟨_, hentry, e, he, hx⟩⟩

lemma isName_group (h : Stage c d t placed own all) (hp : p ∈ placed) :
    ∀ g ∈ p.groups, IsName g := by
  intro g hg
  obtain ⟨s, hs⟩ := h.placed_eq.class_of_mem_groups hp g hg
  exact h.named _ (Table.contains_of_class? hs)

/-- All names of a placed element can be names in content. -/
lemma isName_of_mem (h : Stage c d t placed own all) (hp : p ∈ placed) (hname : name ∈ p.names) :
    IsName name := by
  rcases List.mem_cons.mp hname with rfl | hg
  · obtain ⟨e, -, hident, -⟩ := h.exists_element hp
    exact hident
  · exact h.isName_group hp name hg

/-- The groups of a record that has the groups of its element, each with an ending. -/
lemma groups_of_groupLine (h : Stage c d t placed own all) (hp : p ∈ placed) {x : Record}
    {ending : String} (hending : IsWhole ending)
    (hx : x.group = (ofPlaced placed).groupLine p.ident ending) :
    x.groups = p.groups.map (· ++ ending) := by
  rw [Record.groups, hx, References.words_groupLine _ hending.isSolid,
    h.placed_eq.groupsOf_ofPlaced hp]
  rw [h.placed_eq.groupsOf_ofPlaced hp]
  exact fun g hg => (h.isName_group hp g hg).isWord

/-- An element of a block category answers to its names as a block. -/
lemma answered_block (h : Stage c d t placed own all) (hp : p ∈ placed)
    (hcategory : p.category.isBlock = true) (hname : name ∈ p.names) :
    Answered all .node name := by
  obtain ⟨e, hident, -, hown⟩ := h.exists_element hp
  obtain ⟨x, hx, hform, hxname, hgroup⟩ := exists_block hcategory
  rw [← hform]
  refine h.answered_of_mem (hown x hx) ?_
  rw [hident] at hxname hgroup
  rw [hxname, h.groups_of_groupLine hp (by decide) hgroup]
  simpa [Placed.names, eq_comm] using hname

/-- An element of an inline category answers to its ident as an inline node. -/
lemma answered_inline (h : Stage c d t placed own all) (hp : p ∈ placed)
    (hcategory : p.category.isInline = true) : Answered all .inlineNode p.ident := by
  obtain ⟨e, hident, -, hown⟩ := h.exists_element hp
  obtain ⟨x, hx, hform, hxname, -⟩ := exists_inline hcategory
  rw [← hform]
  exact h.answered_of_mem (hown x hx) (.inl (hxname.trans hident))

/-- It answers to its groups under the names that they have among inline nodes. -/
lemma answered_inlineName (h : Stage c d t placed own all) (hp : p ∈ placed)
    (hcategory : p.category.isInline = true) {g : String} (hg : g ∈ p.groups) :
    Answered all .inlineNode (inlineName g) := by
  obtain ⟨e, hident, -, hown⟩ := h.exists_element hp
  obtain ⟨x, hx, hform, -, hgroup⟩ := exists_inline hcategory
  rw [hident] at hgroup
  rw [← hform]
  refine h.answered_of_mem (hown x hx) (.inr ?_)
  rw [h.groups_of_groupLine hp (by decide) hgroup]
  exact List.mem_map_of_mem hg

/-- An element of a category of marks answers to its groups as a mark, and to its ident or, if
it is a block as well, to the name of its mark. -/
lemma answered_mark (h : Stage c d t placed own all) (hp : p ∈ placed)
    (hcategory : p.category.isMark = true)
    (hname : name = (if p.category = .inter then markName p.ident else p.ident) ∨
      name ∈ p.groups) : Answered all .mark name := by
  obtain ⟨e, hident, -, hown⟩ := h.exists_element hp
  obtain ⟨x, hx, hform, hxname, hgroup⟩ := exists_mark hcategory
  rw [← hform]
  refine h.answered_of_mem (hown x hx) ?_
  rw [hident] at hxname hgroup
  rw [hxname, h.groups_of_groupLine hp (by decide) hgroup]
  simpa [eq_comm] using hname

/-- There is a wrapper around every name of an element of an inline category. -/
lemma answered_wrapper (h : Stage c d t placed own all) (hp : p ∈ placed)
    (hcategory : p.category.isInline = true) (hname : name ∈ p.names) :
    Answered all .node (blockName name) := by
  have hall : ∀ w ∈ (ofPlaced placed).wrappers, w ∈ all := fun w hw => by
    rw [h.all_eq]
    exact List.mem_append_right _ hw
  rcases List.mem_cons.mp hname with rfl | hg
  · have hident := References.mem_inlineIdents_ofPlaced.mpr ⟨p, hp, hcategory, rfl⟩
    exact ⟨_, hall _ (List.mem_append_right _ (List.mem_map_of_mem hident)), rfl, .inl rfl⟩
  · have hgroup := References.mem_inlineGroups_ofPlaced.mpr ⟨p, hp, hcategory, hg⟩
    exact ⟨_, hall _ (List.mem_append_left _ (List.mem_map_of_mem hgroup)), rfl, .inl rfl⟩

/-! ### Names in the views of an element -/

section Views

variable {q : Option Particle} {content : String}

lemma isName_of_contains (h : Stage c d t placed own all) {category : Category → Bool}
    (hn : ∃ p ∈ placed, category p.category = true ∧ name ∈ p.names) : IsName name := by
  obtain ⟨p, hp, -, hname⟩ := hn
  exact h.isName_of_mem hp hname

lemma isName_of_structural (h : Stage c d t placed own all)
    (hn : (ofPlaced placed).structural.contains name = true) : IsName name := by
  rcases References.contains_structural.mp hn with hb | hi | rfl
  · exact h.isName_of_contains (References.blocks_ofPlaced.mp hb)
  · exact h.isName_of_contains (References.inlines_ofPlaced.mp hi)
  · exact isName_textName

/-- What a block names are blocks and text. -/
theorem names_blockView (h : Stage c d t placed own all)
    (hview : (ofPlaced placed).blockView q = some content) (hname : name ∈ names content) :
    Answered all .node name ∨ name = Particle.textName := by
  obtain ⟨leaf, hleaf, rfl⟩ :=
    References.mem_names_blockView (fun _ => h.isName_of_structural) hview hname
  by_cases honly : (ofPlaced placed).isInlineOnly leaf = true
  · rw [if_pos honly]
    rw [References.isInlineOnly, Bool.and_eq_true] at honly
    obtain ⟨p, hp, hcategory, hleaf⟩ := References.inlines_ofPlaced.mp honly.1
    exact .inl (h.answered_wrapper hp hcategory hleaf)
  · rw [if_neg honly]
    have hblock : (ofPlaced placed).blocks.contains leaf = true ∨ leaf = Particle.textName := by
      rcases References.contains_structural.mp hleaf with hb | hi | htext
      · exact .inl hb
      · rw [References.isInlineOnly, hi] at honly
        exact .inl (by simpa using honly)
      · exact .inr htext
    refine hblock.imp_left fun hb => ?_
    obtain ⟨p, hp, hcategory, hleaf⟩ := References.blocks_ofPlaced.mp hb
    exact h.answered_block hp hcategory hleaf

/-- What the text of an element names as inline are inline nodes. -/
theorem names_inlineView (h : Stage c d t placed own all)
    (hview : (ofPlaced placed).inlineView q = some content) (hname : name ∈ names content) :
    Answered all .inlineNode name := by
  have hnames : ∀ n, (ofPlaced placed).inlines.contains n = true → IsName n := fun n hn =>
    h.isName_of_contains (References.inlines_ofPlaced.mp hn)
  obtain ⟨leaf, hleaf, rfl⟩ := References.mem_names_inlineView hnames hview hname
  by_cases hgroup : (ofPlaced placed).isInlineGroup leaf = true
  · rw [if_pos hgroup]
    obtain ⟨p, hp, hcategory, hg⟩ := References.isInlineGroup_ofPlaced.mp hgroup
    exact h.answered_inlineName hp hcategory hg
  · rw [if_neg hgroup]
    obtain ⟨p, hp, hcategory, hleaf⟩ := References.inlines_ofPlaced.mp hleaf
    rcases List.mem_cons.mp hleaf with rfl | hg
    · exact h.answered_inline hp hcategory
    · exact absurd (References.isInlineGroup_ofPlaced.mpr ⟨p, hp, hcategory, hg⟩) hgroup

/-- What the text of an element names as marks are marks. -/
theorem names_markView (h : Stage c d t placed own all)
    (hview : (ofPlaced placed).markView q = some content) (hname : name ∈ names content) :
    Answered all .mark name := by
  have hnames : ∀ n, (ofPlaced placed).marks.contains n = true → IsName n := fun n hn =>
    h.isName_of_contains (References.marks_ofPlaced.mp hn)
  obtain ⟨leaf, hleaf, rfl⟩ := References.mem_names_markView hnames hview hname
  by_cases hinter : (ofPlaced placed).interIdents.contains leaf = true
  · rw [if_pos hinter]
    obtain ⟨p, hp, hcategory, rfl⟩ := References.interIdents_ofPlaced.mp hinter
    exact h.answered_mark hp (by rw [hcategory]; rfl) (.inl (by rw [if_pos hcategory]))
  · rw [if_neg hinter]
    obtain ⟨p, hp, hcategory, hleaf⟩ := References.marks_ofPlaced.mp hleaf
    refine h.answered_mark hp hcategory ((List.mem_cons.mp hleaf).imp_left fun hident => ?_)
    have hne : p.category ≠ .inter := fun heq =>
      hinter (References.interIdents_ofPlaced.mpr ⟨p, hp, heq, hident.symm⟩)
    rw [if_neg hne, hident]

end Views

end Stage

end Elaboration

end EditorSchema
