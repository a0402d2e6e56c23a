/-
The names that occur in the records of an element.

Each view of a particle keeps the leaves that something answers to and renames some of them.
So the names in a view are the leaves that it keeps, each under the name that it has there.

* `References.mem_names_blockView`, `References.mem_names_inlineView`,
  `References.mem_names_markView`: the names in each view of a particle;
* `Elaboration.views_of_mem`: what the records of an element hold is a view of its particle;
* `Elaboration.exists_block`, `Elaboration.exists_inline`, `Elaboration.exists_mark`: the
  records in which an element answers to its names.
-/
import Mathlib.Tactic
import EditorSchema.Proofs.Content.Leaves
import EditorSchema.Proofs.Content.Names
import EditorSchema.Proofs.Schema.References
import EditorSchema.Schema.Elaboration

namespace EditorSchema

open Naming

/-! ### Names that are made from others -/

lemma isName_textName : IsName Particle.textName := by decide

lemma isName_blockName {name : String} (h : IsName name) : IsName (blockName name) :=
  h.append (by decide)

lemma isName_inlineName {name : String} (h : IsName name) : IsName (inlineName name) :=
  h.append (by decide)

lemma isName_markName {name : String} (h : IsName name) : IsName (markName name) :=
  (by decide : IsName "mark").append h.2

/-- A digit is no separator. -/
lemma not_isSeparator_of_isDigit {c : Char} (h : c.isDigit = true) : isSeparator c = false := by
  have hbounds : 48 ≤ c.toNat ∧ c.toNat ≤ 57 := by
    simpa [Char.isDigit, UInt32.le_iff_toNat_le] using h
  have hblank : Text.isBlank c = false := by
    rw [Bool.eq_false_iff]
    intro hb
    simp only [Text.isBlank, Bool.or_eq_true, Bool.and_eq_true, decide_eq_true_eq,
      beq_iff_eq] at hb
    omega
  have hne (d : Char) (hd : d.isDigit = false) : (c == d) = false := by
    rw [beq_eq_false_iff_ne]
    rintro rfl
    exact absurd h (by simp [hd])
  simp only [isSeparator, hblank, hne '(' (by decide), hne ')' (by decide), hne '|' (by decide),
    hne '?' (by decide), hne '*' (by decide), hne '+' (by decide), Bool.or_self]

lemma isName_leafName (n : ℕ) : IsName (TextLeaves.leafName n) := by
  refine isName_textName.append fun c hc => not_isSeparator_of_isDigit ?_
  have hdigit : c ∈ Nat.toDigits 10 n := by simpa [toString, Nat.repr] using hc
  exact Nat.isDigit_of_mem_toDigits (by decide) (by decide) hdigit

/-! ### Names in a view -/

namespace References

lemma part_eq (targets : IdentSet) (p : Option Particle) :
    part targets p = p.bind (Particle.filter targets.contains) := by
  have hkeep : (fun ident => targets.contains ident != false) = targets.contains := by
    funext ident
    exact Bool.bne_false _
  unfold part Particle.filterGroups
  rw [hkeep]

/-- The part of a particle that names what is in a set has its leaves in the set. -/
lemma leaves_of_part {targets : IdentSet} {p : Option Particle} {kept : Particle}
    (h : part targets p = some kept) :
    kept.leaves = (Particle.leavesLeft p).filter targets.contains := by
  rw [part_eq] at h
  obtain ⟨t, rfl, ht⟩ := Option.bind_eq_some_iff.mp h
  exact Particle.leaves_of_filter ht

lemma contains_of_mem_part {targets : IdentSet} {p : Option Particle} {kept : Particle}
    (h : part targets p = some kept) : ∀ leaf ∈ kept.leaves, targets.contains leaf = true := by
  intro leaf hleaf
  rw [leaves_of_part h] at hleaf
  exact (List.mem_filter.mp hleaf).2

/-- The names in a part whose leaves were renamed are the new names of leaves in the set. -/
lemma mem_names_rename_part {targets : IdentSet} {p : Option Particle} {kept : Particle}
    {f : String → String} {name : String} (h : part targets p = some kept)
    (htargets : ∀ n, targets.contains n = true → IsName n) (hf : ∀ n, IsName n → IsName (f n))
    (hmem : name ∈ names (kept.rename f).encode) :
    ∃ leaf, targets.contains leaf = true ∧ name = f leaf := by
  have hleaves := contains_of_mem_part h
  have hrename : ∀ n ∈ (kept.rename f).leaves, IsName n := by
    intro n hn
    rw [Particle.leaves_rename, List.mem_map] at hn
    obtain ⟨leaf, hleaf, rfl⟩ := hn
    exact hf leaf (htargets leaf (hleaves leaf hleaf))
  rw [names_encode hrename, Particle.leaves_rename, List.mem_map] at hmem
  obtain ⟨leaf, hleaf, rfl⟩ := hmem
  exact ⟨leaf, hleaves leaf hleaf, rfl⟩

variable {r : References} {p : Option Particle} {content name : String}

/-- The names in what a block holds are names of blocks, of inline nodes and of text, those
of inline nodes alone in the form of the blocks around them. -/
lemma mem_names_blockView (hnames : ∀ n, r.structural.contains n = true → IsName n)
    (h : r.blockView p = some content) (hmem : name ∈ names content) :
    ∃ leaf, r.structural.contains leaf = true ∧
      name = if r.isInlineOnly leaf = true then blockName leaf else leaf := by
  obtain ⟨kept, hkept, rfl⟩ := Option.map_eq_some_iff.mp h
  refine mem_names_rename_part hkept hnames (fun n hn => ?_) hmem
  split
  · exact isName_blockName hn
  · exact hn

/-- The names in the inline nodes of a text are names of inline nodes, their groups under
the names that they have among inline nodes. -/
lemma mem_names_inlineView (hnames : ∀ n, r.inlines.contains n = true → IsName n)
    (h : r.inlineView p = some content) (hmem : name ∈ names content) :
    ∃ leaf, r.inlines.contains leaf = true ∧
      name = if r.isInlineGroup leaf = true then inlineName leaf else leaf := by
  obtain ⟨kept, hkept, rfl⟩ := Option.map_eq_some_iff.mp h
  refine mem_names_rename_part hkept hnames (fun n hn => ?_) hmem
  split
  · exact isName_inlineName hn
  · exact hn

/-- The names in the marks of a text are names of marks, elements that are also blocks under
the names of their marks. -/
lemma mem_names_markView (hnames : ∀ n, r.marks.contains n = true → IsName n)
    (h : r.markView p = some content) (hmem : name ∈ names content) :
    ∃ leaf, r.marks.contains leaf = true ∧
      name = if r.interIdents.contains leaf = true then markName leaf else leaf := by
  obtain ⟨kept, hkept, rfl⟩ := Option.map_eq_some_iff.mp h
  have hleaves := contains_of_mem_part hkept
  rw [names_intercalate_of_isName (by decide), List.mem_eraseDups, List.mem_map] at hmem
  · obtain ⟨leaf, hleaf, rfl⟩ := hmem
    exact ⟨leaf, hleaves leaf hleaf, rfl⟩
  · intro n hn
    rw [List.mem_eraseDups, List.mem_map] at hn
    obtain ⟨leaf, hleaf, rfl⟩ := hn
    have := hnames leaf (hleaves leaf hleaf)
    split
    · exact isName_markName this
    · exact this

/-- The groups in a line are found again, each with its ending. -/
lemma words_groupLine {ident ending : String} (hgroups : ∀ g ∈ r.groupsOf ident, Text.IsWord g)
    (hending : Text.IsSolid ending) :
    ((r.groupLine ident ending).map Text.words).getD [] =
      (r.groupsOf ident).map (· ++ ending) := by
  rw [groupLine]
  cases hg : r.groupsOf ident with
  | nil => rfl
  | cons g gs =>
      rw [Option.map_some, Option.getD_some]
      refine Text.words_unwords fun w hw => ?_
      obtain ⟨h, hh, rfl⟩ := List.mem_map.mp hw
      exact (hgroups h (hg ▸ hh)).append hending

end References

/-! ### Records of an element -/

namespace Elaboration

variable {r : References} {d : Decoration} {category : Category} {e : ElementSpec}

/-- What the records of an element hold is what its particle says in one of its views; only
the record of a note as a document holds the note's block instead. -/
theorem views_of_mem {x : Record} (h : x ∈ recordsOf r d category e) :
    (∀ content ∈ x.content, r.blockView e.content.particle? = some content ∨
        category = .aside ∧ content = e.ident ++ "X" ∧ x.origin = .docNodes) ∧
      (∀ content ∈ x.inlineContent, r.inlineView e.content.particle? = some content) ∧
      ∀ content ∈ x.markContent, r.markView e.content.particle? = some content := by
  cases category with
  | hard | soft | inline | mark =>
      obtain rfl := List.mem_singleton.mp h
      simp
  | inter =>
      simp only [recordsOf, List.mem_cons, List.not_mem_nil, or_false] at h
      rcases h with rfl | rfl <;> simp
  | aside =>
      simp only [recordsOf, List.mem_cons, List.not_mem_nil, or_false] at h
      rcases h with rfl | rfl | rfl <;> simp

/-- An element of a block category has a block of its name and its groups. -/
lemma exists_block (h : category.isBlock = true) : ∃ x ∈ recordsOf r d category e,
    x.form = .node ∧ x.name = e.ident ∧ x.group = r.groupLine e.ident "" := by
  cases category with
  | hard | soft => exact ⟨_, List.mem_singleton_self _, rfl, rfl, rfl⟩
  | inter => exact ⟨_, List.mem_cons_of_mem _ (List.mem_singleton_self _), rfl, rfl, rfl⟩
  | aside | inline | mark => cases h

/-- An element of an inline category has an inline node of its name and its groups among
inline nodes. -/
lemma exists_inline (h : category.isInline = true) : ∃ x ∈ recordsOf r d category e,
    x.form = .inlineNode ∧ x.name = e.ident ∧ x.group = r.groupLine e.ident "_i" := by
  cases category with
  | aside => exact ⟨_, List.mem_cons_self, rfl, rfl, rfl⟩
  | inline => exact ⟨_, List.mem_singleton_self _, rfl, rfl, rfl⟩
  | hard | soft | inter | mark => cases h

/-- An element of a category of marks has a mark of its groups, under its own name unless it
is a block as well. -/
lemma exists_mark (h : category.isMark = true) : ∃ x ∈ recordsOf r d category e,
    x.form = .mark ∧ x.name = (if category = .inter then markName e.ident else e.ident) ∧
      x.group = r.groupLine e.ident "" := by
  cases category with
  | mark => exact ⟨_, List.mem_singleton_self _, rfl, rfl, rfl⟩
  | inter => exact ⟨_, List.mem_cons_self, rfl, rfl, rfl⟩
  | hard | soft | inline | aside => cases h

/-- A note has a block for its content. -/
lemma exists_container : ∃ x ∈ recordsOf r d .aside e,
    x.form = .node ∧ x.name = e.ident ++ "X" :=
  ⟨_, List.mem_cons_of_mem _ List.mem_cons_self, rfl, rfl⟩

end Elaboration

end EditorSchema
