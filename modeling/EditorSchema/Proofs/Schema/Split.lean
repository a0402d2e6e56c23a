/-
Splitting the content of an element loses nothing.

The block of an element shows its content in up to four views.  Each of them is read as the
leaves of the content that the view is about, in order, under the names that they have there;
a view is missing if there is no such leaf.  Text in a block is named after the leaf of text
that the block is bound to.  Where inline nodes and marks are told apart, every leaf of the
view of all content is found in the block or among the marks.

* `Split`: the views of an element in the record of its block;
* `TextLeaves.content_bindOne`: binding renames text among the leaves, and nothing else;
* `References.writes_part`, `References.lists_markView`: what the views are read as;
* `Elaboration.split_of_elaborate`: the records of a classification are split.
-/
import Mathlib.Tactic
import EditorSchema.Proofs.Content.Written
import EditorSchema.Proofs.FirstOccurrences
import EditorSchema.Proofs.Schema.Anchored

namespace EditorSchema

open Naming Outcome

/-! ### Views of an element -/

/-- The leaves of the content of an element. -/
def ElementSpec.leaves (e : ElementSpec) : List String := Particle.leavesLeft e.content.particle?

/-- The origin of the records of a category. -/
def Category.origin : Category → Record.Origin
  | .hard => .hard
  | .soft => .soft
  | .inter => .inters
  | .aside => .asides
  | .inline => .inlines
  | .mark => .marks

/-- The record of the block of an element; a note has one for its content. -/
structure Record.BlockOf (category : Category) (e : ElementSpec) (x : Record) : Prop where
  form : x.form = .node
  origin : x.origin = category.origin
  name : x.name = if category = .aside then e.ident ++ "X" else e.ident

namespace References

variable (r : References) (leaf : String)

/-- The name of a leaf in a block. -/
def blockLeaf : String := if r.isInlineOnly leaf then blockName leaf else leaf

/-- The name of a leaf among inline nodes. -/
def inlineLeaf : String := if r.isInlineGroup leaf then inlineName leaf else leaf

/-- The name of a leaf among marks. -/
def markLeaf : String := if r.interIdents.contains leaf then markName leaf else leaf

end References

namespace TextLeaves

/-- A leaf, where text is named after a leaf of text. -/
def named (name leaf : String) : String := if leaf = Particle.textName then name else leaf

/-- The leaf of text for what a record says about inline nodes and marks. -/
def LeafOf (x leaf : Record) : Prop := ∃ n, leaf = TextLeaves.leaf n (signature x)

end TextLeaves

/-- Names in a line: it is not there without names, and otherwise they are its words, and none
of them is there twice. -/
structure Lists (content : Option String) (names : List String) : Prop where
  absent : content = none ↔ names = []
  words : ∀ text, content = some text → Text.words text = names
  nodup : names.Nodup

/-- The views of an element in the record of its block, one of the records of a schema. -/
structure Split (r : References) (all : List Record) (category : Category) (e : ElementSpec)
    (x : Record) (text : String) : Prop extends x.BlockOf category e where
  /-- The block holds blocks, blocks around inline nodes, and text. -/
  block : Writes x.content ((e.leaves.filter r.structural.contains).map fun leaf =>
    TextLeaves.named text (r.blockLeaf leaf))
  /-- Its text is a leaf of text that is made for its inline nodes and marks, the only one. -/
  bound : Particle.textName ∈ (e.leaves.filter r.structural.contains).map r.blockLeaf →
    ∃ leaf ∈ all, leaf.name = text ∧ TextLeaves.LeafOf x leaf ∧
      ∀ other ∈ all, TextLeaves.LeafOf x other → other = leaf
  inline : if category ∈ [.soft, .inter] then
      Writes x.inlineContent ((e.leaves.filter r.inlines.contains).map r.inlineLeaf)
    else x.inlineContent = none
  all : if category ∈ [.hard, .soft, .inter] then
      Writes x.allContent (e.leaves.filter r.all.contains)
    else x.allContent = none
  marks : if category ∈ [.soft, .inter, .aside] then
      Lists x.markContent ((e.leaves.filter r.marks.contains).map r.markLeaf).eraseDups
    else x.markContent = none
  /-- What is shown in the view of all content is found in the block or among the marks. -/
  found : category ∈ [.soft, .inter] → ∀ leaf, Holds x.allContent leaf →
    Holds x.content (TextLeaves.named text (r.blockLeaf leaf)) ∨
      ∃ marks, x.markContent = some marks ∧ r.markLeaf leaf ∈ Text.words marks

lemma Lists.exists_of_mem {content : Option String} {names : List String} {name : String}
    (h : Lists content names) (hname : name ∈ names) :
    ∃ text, content = some text ∧ name ∈ Text.words text := by
  cases hcontent : content with
  | none => exact absurd (h.absent.mp hcontent) (List.ne_nil_of_mem hname)
  | some text => exact ⟨text, rfl, h.words text hcontent ▸ hname⟩

/-! ### What the views are read as -/

namespace References

variable {r : References} {p : Option Particle} {targets : IdentSet} {f : String → String}
variable {name : String}

/-- The part of a particle that names what is in a set is read as its leaves in the set. -/
theorem writes_part (hnames : ∀ n, targets.contains n = true → IsName (f n)) :
    Writes ((part targets p).map fun kept => (kept.rename f).encode)
      (((Particle.leavesLeft p).filter targets.contains).map f) := by
  rw [part_eq]
  cases p with
  | none => exact ⟨by simp [Particle.leavesLeft], nofun⟩
  | some t => exact Particle.writes_rename_filter fun n _ hn => hnames n hn

lemma writes_allView (hnames : ∀ n, r.all.contains n = true → IsName n) :
    Writes (r.allView p) ((Particle.leavesLeft p).filter r.all.contains) := by
  have hview : r.allView p = (part r.all p).map fun kept => (kept.rename id).encode := by
    simp only [allView, Particle.rename_eq_self fun n _ => id_eq n]
  rw [hview, ← List.map_id ((Particle.leavesLeft p).filter r.all.contains)]
  exact writes_part hnames

/-- The marks of a text are read as the leaves that are marks, each once. -/
theorem lists_markView (hnames : ∀ n, r.marks.contains n = true → IsName n) :
    Lists (r.markView p)
      (((Particle.leavesLeft p).filter r.marks.contains).map r.markLeaf).eraseDups := by
  have hmarks : ∀ n, r.marks.contains n = true → IsName (r.markLeaf n) := by
    intro n hn
    rw [markLeaf]
    split
    · exact isName_markName (hnames n hn)
    · exact hnames n hn
  refine ⟨?_, fun text htext => ?_, nodup_eraseDups _⟩
  · rw [eraseDups_eq_nil_iff, ← (writes_part hmarks).absent, Option.map_eq_none_iff, markView,
      Option.map_eq_none_iff]
  · obtain ⟨kept, hkept, rfl⟩ := Option.map_eq_some_iff.mp htext
    rw [leaves_of_part hkept]
    refine Text.words_unwords fun w hw => ?_
    rw [List.mem_eraseDups, List.mem_map] at hw
    obtain ⟨leaf, hleaf, rfl⟩ := hw
    exact (hmarks leaf (List.mem_filter.mp hleaf).2).isWord

/-- All that content may name is a block, an inline node, a mark or text. -/
lemma contains_all : r.all.contains name = true ↔
    r.structural.contains name = true ∨ r.marks.contains name = true := by
  simp only [all, contains_structural, IdentSet.contains_ofIdents, decide_eq_true_iff,
    List.mem_append, Dictionary.mem_keys_iff, List.mem_singleton]
  tauto

end References

/-! ### Binding to a leaf of text -/

namespace TextLeaves

variable {known : List Signature} {x y : Record} {records : List Record}

/-- **Binding renames text** among the leaves of what a record holds, and nothing else. -/
theorem content_bindOne {kept : Option Particle} (hx : x.content = kept.map Particle.encode)
    (hnames : ∀ t, kept = some t → ∀ n ∈ t.leaves, IsName n) :
    (bindOne known x).content =
      kept.map fun t => (t.rename (named (leafName (known.idxOf (signature x))))).encode := by
  rw [bindOne]
  cases kept with
  | none =>
      rw [Option.map_none] at hx
      rw [hx]
      exact hx
  | some t =>
      rw [Option.map_some] at hx
      simp only [hx, Option.map_some]
      have hnames := hnames t rfl
      split
      · exact congrArg some (Particle.replace_encode hnames)
      · next htext =>
        have hself : t.rename (named (leafName (known.idxOf (signature x)))) = t := by
          refine Particle.rename_eq_self fun n hn => if_neg ?_
          rintro rfl
          exact htext (holdsText_iff.mpr ⟨_, hx, (names_encode hnames).symm ▸ hn⟩)
        rw [hself, hx]

/-- The leaf of text tells what its records say about inline nodes and marks. -/
lemma signature_eq_of_leaf_eq {n m : ℕ} {s s' : Signature} (h : leaf n s = leaf m s') :
    s = s' :=
  signature_eq_of_shown (congrArg Record.content h) (congrArg Record.markContent h)

/-- There is one leaf of text for what a record says about inline nodes and marks. -/
lemma eq_leaf_of_mem_leaves (hx : x ∈ leaves known) (hknown : known.Nodup) {n : ℕ}
    {s : Signature} (h : x = leaf n s) : x = leaf (known.idxOf s) s := by
  obtain ⟨⟨s', m⟩, hs, rfl⟩ := List.mem_map.mp hx
  obtain rfl : s' = s := signature_eq_of_leaf_eq h
  obtain ⟨hlt, hget⟩ := List.getElem?_eq_some_iff.mp (List.mk_mem_zipIdx_iff_getElem?.mp hs)
  have hidx : known.idxOf s' = m := hget ▸ hknown.idxOf_getElem m hlt
  rw [hidx]

end TextLeaves

/-! ### Records of blocks -/

namespace Elaboration

open References (Placed PlacedAs ofPlaced)

/-- What the record of the block of an element shows before it is bound to a leaf of text. -/
structure Shows (r : References) (category : Category) (e : ElementSpec) (y : Record) : Prop
    extends y.BlockOf category e where
  block : y.content = r.blockView e.content.particle?
  inline : y.inlineContent =
    if category ∈ [.soft, .inter] then r.inlineView e.content.particle? else none
  all : y.allContent =
    if category ∈ [.hard, .soft, .inter] then r.allView e.content.particle? else none
  marks : y.markContent =
    if category ∈ [.soft, .inter, .aside] then r.markView e.content.particle? else none

variable {r : References} {d : Decoration} {category : Category} {e : ElementSpec} {y : Record}

lemma shows_of_mem (hy : y ∈ recordsOf r d category e) (hform : y.form = .node)
    (horigin : y.origin ∈ [.hard, .soft, .inters, .asides]) : Shows r category e y := by
  cases category with
  | hard | soft =>
      obtain rfl := List.mem_singleton.mp hy
      exact ⟨⟨rfl, rfl, rfl⟩, rfl, rfl, rfl, rfl⟩
  | inter =>
      simp only [recordsOf, List.mem_cons, List.not_mem_nil, or_false] at hy
      obtain rfl | rfl := hy
      · cases hform
      · exact ⟨⟨rfl, rfl, rfl⟩, rfl, rfl, rfl, rfl⟩
  | aside =>
      simp only [recordsOf, List.mem_cons, List.not_mem_nil, or_false] at hy
      obtain rfl | rfl | rfl := hy
      · cases hform
      · exact ⟨⟨rfl, rfl, rfl⟩, rfl, rfl, rfl, rfl⟩
      · simp at horigin
  | inline | mark =>
      obtain rfl := List.mem_singleton.mp hy
      cases hform

lemma exists_shows (h : category ∈ [.hard, .soft, .inter, .aside]) :
    ∃ y ∈ recordsOf r d category e, Shows r category e y := by
  cases category with
  | hard | soft => exact ⟨_, List.mem_singleton_self _, ⟨rfl, rfl, rfl⟩, rfl, rfl, rfl, rfl⟩
  | inter | aside =>
      exact ⟨_, List.mem_cons_of_mem _ List.mem_cons_self, ⟨rfl, rfl, rfl⟩, rfl, rfl, rfl, rfl⟩
  | inline | mark => exact absurd h (by decide)

/-- No record of an element is a leaf of text. -/
lemma origin_ne_textNodes (hy : y ∈ recordsOf r d category e) : y.origin ≠ .textNodes := by
  cases category <;>
    simp only [recordsOf, List.mem_cons, List.not_mem_nil, or_false] at hy <;>
    rcases hy with rfl | rfl | rfl <;> simp

namespace Stage

variable {c : Classification} {t : Table} {placed : List Placed} {own all : List Record}
variable {x : Record} {name : String}

/-- The leaves of text are told by their origin. -/
lemma mem_leaves_of_origin (h : Stage c d t placed own all) (hx : x ∈ all)
    (horigin : x.origin = .textNodes) : x ∈ TextLeaves.leaves (known own) := by
  rcases h.mem_all.mp hx with ⟨y, hroot, rfl⟩ | ⟨y, hown, rfl⟩ | hleaf | hwrapper
  · rw [TextLeaves.bindOne_eq] at horigin
    cases (of_mem_documentRoots hroot).2.1.symm.trans horigin
  · rw [TextLeaves.bindOne_eq] at horigin
    obtain ⟨entry, -, e, -, hrecord⟩ := (h.mem_own y).mp hown
    exact (origin_ne_textNodes hrecord horigin).elim
  · exact hleaf
  · cases (of_mem_wrappers hwrapper).1.symm.trans horigin

/-- There is one leaf of text for a record that holds text. -/
lemma exists_leaf (h : Stage c d t placed own all) (hy : y ∈ own)
    (htext : TextLeaves.holdsText y = true) :
    ∃ leaf ∈ all, leaf.name = TextLeaves.leafName ((known own).idxOf (TextLeaves.signature y)) ∧
      TextLeaves.LeafOf y leaf ∧ ∀ other ∈ all, TextLeaves.LeafOf y other → other = leaf := by
  have hsignature : TextLeaves.signature y ∈ known own :=
    TextLeaves.signature_mem (List.mem_append_right _ hy) htext
  refine ⟨_, h.mem_all.mpr (.inr (.inr (.inl (TextLeaves.leaf_mem_leaves hsignature)))), rfl,
    ⟨_, rfl⟩, ?_⟩
  rintro other hother ⟨n, rfl⟩
  exact TextLeaves.eq_leaf_of_mem_leaves (h.mem_leaves_of_origin hother rfl)
    (nodup_eraseDups _) rfl

lemma isName_of_all (h : Stage c d t placed own all)
    (hn : (ofPlaced placed).all.contains name = true) : IsName name := by
  rcases References.contains_all.mp hn with hs | hm
  · exact h.isName_of_structural hs
  · exact h.isName_of_contains (References.marks_ofPlaced.mp hm)

lemma isName_blockLeaf (h : Stage c d t placed own all)
    (hn : (ofPlaced placed).structural.contains name = true) :
    IsName ((ofPlaced placed).blockLeaf name) := by
  rw [References.blockLeaf]
  split
  · exact isName_blockName (h.isName_of_structural hn)
  · exact h.isName_of_structural hn

lemma isName_inlineLeaf (h : Stage c d t placed own all)
    (hn : (ofPlaced placed).inlines.contains name = true) :
    IsName ((ofPlaced placed).inlineLeaf name) := by
  have hname : IsName name := h.isName_of_contains (References.inlines_ofPlaced.mp hn)
  rw [References.inlineLeaf]
  split
  · exact isName_inlineName hname
  · exact hname

/-- The leaves of a block are names. -/
lemma isName_of_mem_block (h : Stage c d t placed own all) {kept : Particle}
    (hkept : References.part (ofPlaced placed).structural e.content.particle? = some kept) :
    ∀ n ∈ (kept.rename (ofPlaced placed).blockLeaf).leaves, IsName n := by
  intro n hn
  rw [Particle.leaves_rename, List.mem_map] at hn
  obtain ⟨leaf, hleaf, rfl⟩ := hn
  exact h.isName_blockLeaf (References.contains_of_mem_part hkept leaf hleaf)

/-- What a bound block holds is read as its leaves, text under its name. -/
lemma writes_block (h : Stage c d t placed own all)
    (hshows : Shows (ofPlaced placed) category e y) :
    Writes (TextLeaves.bindOne (known own) y).content
      ((e.leaves.filter (ofPlaced placed).structural.contains).map fun leaf =>
        TextLeaves.named (TextLeaves.leafName ((known own).idxOf (TextLeaves.signature y)))
          ((ofPlaced placed).blockLeaf leaf)) := by
  have hkept : y.content =
      ((References.part (ofPlaced placed).structural e.content.particle?).map
        (Particle.rename (ofPlaced placed).blockLeaf)).map Particle.encode := by
    rw [hshows.block, Option.map_map]
    rfl
  rw [TextLeaves.content_bindOne hkept, Option.map_map]
  · simp only [Function.comp_def, Particle.rename_rename]
    refine References.writes_part fun n hn => ?_
    rw [TextLeaves.named]
    split
    · exact isName_leafName _
    · exact h.isName_blockLeaf hn
  · intro u hu
    obtain ⟨kept, hpart, rfl⟩ := Option.map_eq_some_iff.mp hu
    exact h.isName_of_mem_block hpart

/-- A block with text among its leaves holds text. -/
lemma holdsText_of_mem (h : Stage c d t placed own all)
    (hshows : Shows (ofPlaced placed) category e y)
    (htext : Particle.textName ∈ (e.leaves.filter (ofPlaced placed).structural.contains).map
      (ofPlaced placed).blockLeaf) : TextLeaves.holdsText y = true := by
  have hview : Writes ((ofPlaced placed).blockView e.content.particle?)
      ((e.leaves.filter (ofPlaced placed).structural.contains).map (ofPlaced placed).blockLeaf) :=
    References.writes_part fun n hn => h.isName_blockLeaf hn
  cases hcontent : (ofPlaced placed).blockView e.content.particle? with
  | none => exact absurd (hview.absent.mp hcontent) (List.ne_nil_of_mem htext)
  | some content =>
      obtain ⟨kept, hpart, rfl⟩ := Option.map_eq_some_iff.mp hcontent
      refine TextLeaves.holdsText_iff.mpr ⟨_, hshows.block.trans hcontent, ?_⟩
      have hnames := names_encode (h.isName_of_mem_block hpart)
      rw [Particle.leaves_rename, References.leaves_of_part hpart] at hnames
      exact hnames.symm ▸ htext

/-- **The record of a block is split**, once it is bound to its leaf of text. -/
theorem split (h : Stage c d t placed own all) (hy : y ∈ own)
    (hshows : Shows (ofPlaced placed) category e y) :
    Split (ofPlaced placed) all category e (TextLeaves.bindOne (known own) y)
      (TextLeaves.leafName ((known own).idxOf (TextLeaves.signature y))) := by
  have hinline : if category ∈ [.soft, .inter] then
        Writes y.inlineContent
          ((e.leaves.filter (ofPlaced placed).inlines.contains).map (ofPlaced placed).inlineLeaf)
      else y.inlineContent = none := by
    rw [hshows.inline]
    split
    · exact References.writes_part fun n hn => h.isName_inlineLeaf hn
    · rfl
  have hall : if category ∈ [.hard, .soft, .inter] then
        Writes y.allContent (e.leaves.filter (ofPlaced placed).all.contains)
      else y.allContent = none := by
    rw [hshows.all]
    split
    · exact References.writes_allView fun n hn => h.isName_of_all hn
    · rfl
  have hmarks : if category ∈ [.soft, .inter, .aside] then
        Lists y.markContent ((e.leaves.filter (ofPlaced placed).marks.contains).map
          (ofPlaced placed).markLeaf).eraseDups
      else y.markContent = none := by
    rw [hshows.marks]
    split
    · exact References.lists_markView fun n hn =>
        h.isName_of_contains (References.marks_ofPlaced.mp hn)
    · rfl
  have hblock := h.writes_block hshows
  rw [TextLeaves.bindOne_eq] at hblock ⊢
  refine ⟨⟨hshows.form, hshows.origin, hshows.name⟩, hblock, fun htext => ?_, hinline, hall,
    hmarks, fun hcategory leaf hleaf => ?_⟩
  · exact h.exists_leaf hy (h.holdsText_of_mem hshows htext)
  · have hmarked : category ∈ [.soft, .inter, .aside] := by
      rcases List.mem_pair.mp hcategory with rfl | rfl <;> decide
    rw [if_pos (List.mem_cons_of_mem _ hcategory)] at hall
    rw [if_pos hmarked] at hmarks
    obtain ⟨hmem, hcontains⟩ := List.mem_filter.mp (hall.holds_iff.mp hleaf)
    rcases References.contains_all.mp hcontains with hstructural | hmark
    · refine .inl (hblock.holds_iff.mpr ?_)
      exact List.mem_map_of_mem (List.mem_filter.mpr ⟨hmem, hstructural⟩)
    · refine .inr (hmarks.exists_of_mem (List.mem_eraseDups.mpr ?_))
      exact List.mem_map_of_mem (List.mem_filter.mpr ⟨hmem, hmark⟩)

end Stage

/-- **Splitting loses nothing.**  Every record of a block that stands for an element shows the
views of its content, and every classified element with a block has such a record. -/
theorem split_of_elaborate {c : Classification} {t : Table} {all : List Record}
    (hnamed : t.Named) (h : c.elaborate t d = .ok all) :
    ∃ r, References.build c t = .ok r ∧
      (∀ x ∈ all, x.form = .node → x.origin ∈ [.hard, .soft, .inters, .asides] →
        ∃ category e text, (category, e.ident) ∈ c.entries ∧ t.element? e.ident = some e ∧
          Split r all category e x text) ∧
      ∀ category e, (category, e.ident) ∈ c.entries → t.element? e.ident = some e →
        category ∈ [.hard, .soft, .inter, .aside] →
        ∃ x ∈ all, ∃ text, Split r all category e x text := by
  obtain ⟨placed, own, hstage⟩ := exists_stage hnamed h
  have hall {y : Record} (hy : y ∈ own) : TextLeaves.bindOne (Stage.known own) y ∈ all :=
    hstage.mem_all.mpr (.inr (.inl ⟨y, hy, rfl⟩))
  refine ⟨ofPlaced placed, bind_eq_ok.mpr ⟨placed, hstage.placed_eq, rfl⟩, ?_, ?_⟩
  · intro x hx hform horigin
    obtain ⟨y, hy, rfl⟩ := hstage.exists_own hx horigin
    obtain ⟨⟨category, ident⟩, hentry, e, he, hrecord⟩ := (hstage.mem_own y).mp hy
    rw [TextLeaves.bindOne_eq] at hform horigin
    obtain rfl : e.ident = ident := (Table.ident_of_element? he).2
    exact ⟨category, e, _, hentry, he, hstage.split hy (shows_of_mem hrecord hform horigin)⟩
  · intro category e hentry he hcategory
    obtain ⟨y, hrecord, hshows⟩ := exists_shows (r := ofPlaced placed) (d := d) (e := e) hcategory
    have hy : y ∈ own := (hstage.mem_own y).mpr ⟨_, hentry, e, he, hrecord⟩
    exact ⟨_, hall hy, _, hstage.split hy hshows⟩

/-- Paragraphs: text with something bold in it. -/
def paragraph : ElementSpec where
  ident := "p"
  content := .model (.alternate [.group "textNode", .group "b"])

/-- Quotations: what is highlighted and other quotations, and no forme works. -/
def quotation : ElementSpec where
  ident := "q"
  content := .model (.sequence [.alternate [.group "hl", .group "fw", .group "q"], .group "hl"])

/-- What letters are made of. -/
def letterTable : Table := .ofList [
  .ofClass { ident := "hl", kind := .model },
  .ofElement paragraph,
  .ofElement quotation,
  .ofElement { ident := "b", memberships := ["hl"] },
  .ofElement { ident := "gap", memberships := ["hl"] }]

/-- What they become; marks and inline nodes are highlighted under one name. -/
def letter : Classification := { soft := ["p"], inter := ["q"], inlines := ["gap"], marks := ["b"] }

/-- A paragraph holds text, with what is bold among its marks.  A quotation holds what is
highlighted in all views, and quotations in the block and among the marks. -/
theorem split_of_elaborate_letter : letterTable.Named ∧
    ∃ all r, letter.elaborate letterTable {} = .ok all ∧
      References.build letter letterTable = .ok r ∧
      (∃ x ∈ all, ∃ text, Split r all .soft paragraph x text) ∧
      (∃ x ∈ all, ∃ text, Split r all .inter quotation x text) ∧
      ((all.filter fun x => x.name == "p" || x.name == "q").map fun x =>
        (x.content, x.inlineContent, x.markContent)) =
        [(some "textNode0", none, some "b"),
          (some "(hl_g|q) hl_g", some "hl_i hl_i", some "hl markq")] := by
  have hnamed : letterTable.Named := by
    have hidents : ∀ ident ∈ letterTable.idents, IsName ident := by decide
    exact fun ident h => hidents ident (Dictionary.mem_keys_iff.mpr h)
  have hviews : (letter.elaborate letterTable {}).toOption.map (fun all =>
      (all.filter fun x => x.name == "p" || x.name == "q").map fun x =>
        (x.content, x.inlineContent, x.markContent)) =
      some [(some "textNode0", none, some "b"),
        (some "(hl_g|q) hl_g", some "hl_i hl_i", some "hl markq")] := by
    cbv
  have hp : letterTable.element? paragraph.ident = some paragraph := by decide
  have hq : letterTable.element? quotation.ident = some quotation := by decide
  cases h : letter.elaborate letterTable {} with
  | error fault =>
      rw [h] at hviews
      cases hviews
  | ok all =>
      rw [h] at hviews
      obtain ⟨r, hr, -, hblocks⟩ := split_of_elaborate hnamed h
      exact ⟨hnamed, all, r, rfl, hr, hblocks .soft paragraph (by decide) hp (by decide),
        hblocks .inter quotation (by decide) hq (by decide), Option.some.inj hviews⟩

end Elaboration

end EditorSchema
