/-
Inline nodes are kept apart from all else that answers to a name.

Inline nodes answer to their own idents and, for each of their groups, to a name that ends in a
way that no ident does.  Groups of blocks and marks are classes, and no two records have one
name.  So a name that an inline node answers to is answered by inline nodes only, and where only
blocks may stand, no inline node is named.

* `EndsInline`: names that end as groups among inline nodes do;
* `Stage.not_endsInline_name`: no record has such a name if no ident does;
* `Stage.not_answered`: what answers to a name is inline nodes only or not at all;
* `Elaboration.apart_of_elaborate`: the names in the blocks of elements and those among their
  inline nodes are apart.
-/
import Mathlib.Tactic
import EditorSchema.Proofs.Schema.Anchored
import EditorSchema.Proofs.Schema.Reached

namespace EditorSchema

open Naming Outcome

/-! ### Endings -/

/-- A name ends as the names of groups among inline nodes do. -/
def EndsInline (name : String) : Prop := ∃ g, name = g ++ "_i"

lemma getLast?_of_endsInline {name : String} (h : EndsInline name) :
    name.toList.getLast? = some 'i' := by
  obtain ⟨g, rfl⟩ := h
  have hend : "_i".toList = ['_', 'i'] := rfl
  rw [String.toList_append, hend, List.getLast?_append]
  rfl

/-- What is put at the end of a name decides. -/
lemma not_endsInline_append {ending : String} {c : Char}
    (hlast : ending.toList.getLast? = some c) (hc : c ≠ 'i') (name : String) :
    ¬ EndsInline (name ++ ending) := by
  intro h
  have hi := getLast?_of_endsInline h
  rw [String.toList_append, List.getLast?_append, hlast, Option.some_or, Option.some.injEq] at hi
  exact hc hi

lemma not_endsInline_leafName (n : ℕ) : ¬ EndsInline (TextLeaves.leafName n) := by
  have hdigits : (toString n).toList = Nat.toDigits 10 n := by simp [toString, Nat.repr]
  obtain ⟨c, hc⟩ : ∃ c, (toString n).toList.getLast? = some c := by
    rw [hdigits]
    exact ⟨_, List.getLast?_eq_some_getLast Nat.toDigits_ne_nil⟩
  refine not_endsInline_append hc ?_ _
  rintro rfl
  have hmem : 'i' ∈ Nat.toDigits 10 n := hdigits ▸ List.mem_of_getLast? hc
  exact absurd (Nat.isDigit_of_mem_toDigits (by decide) (by decide) hmem) (by decide)

/-- The name of a mark ends as the ident of its element does. -/
lemma endsInline_of_markName {ident : String} (hne : ident ≠ "")
    (h : EndsInline (markName ident)) : EndsInline ident := by
  obtain ⟨g, hg⟩ := h
  have hchars : ['m', 'a', 'r', 'k'] ++ ident.toList = g.toList ++ ['_', 'i'] := by
    simpa [markName] using congrArg String.toList hg
  have hends : ['_', 'i'] <:+ ['m', 'a', 'r', 'k'] ++ ident.toList := ⟨g.toList, hchars.symm⟩
  have hsuffix : ['_', 'i'] <:+ ident.toList := by
    cases hident : ident.toList with
    | nil => exact absurd (String.toList_eq_nil_iff.mp hident) hne
    | cons c l =>
        rw [hident] at hends
        cases l with
        | nil =>
            -- Then the ending would begin within the word that is put before the ident.
            have hlast : ['_', 'i'] = ['k', c] := by
              simpa using (List.suffix_iff_eq_drop.mp hends)
            cases hlast
        | cons d l => exact List.suffix_of_suffix_length_le hends (List.suffix_append _ _) (by simp)
  obtain ⟨l, hl⟩ := hsuffix
  refine ⟨String.ofList l, String.toList_inj.mp ?_⟩
  rw [← hl, String.toList_append, String.toList_ofList]
  rfl

/-! ### Records and what they answer to -/

namespace Elaboration

variable {r : References} {d : Decoration} {category : Category} {e : ElementSpec} {x y : Record}

/-- The name of a record of an element is its ident or made of it. -/
lemma name_of_mem (h : x ∈ recordsOf r d category e) :
    x.name ∈ [e.ident, markName e.ident, e.ident ++ "X", e.ident ++ "Doc"] := by
  cases category <;>
    simp only [recordsOf, List.mem_cons, List.not_mem_nil, or_false] at h <;>
    rcases h with rfl | rfl | rfl <;> simp

/-- An inline node has the name of its element and is in its groups under the names that they
have among inline nodes; any other record is in them under their own names, if at all. -/
lemma group_of_mem (h : x ∈ recordsOf r d category e) :
    x.form = .inlineNode ∧ x.name = e.ident ∧ x.group = r.groupLine e.ident "_i" ∨
      x.form ≠ .inlineNode ∧ (x.group = none ∨ x.group = r.groupLine e.ident "") := by
  cases category <;>
    simp only [recordsOf, List.mem_cons, List.not_mem_nil, or_false] at h <;>
    rcases h with rfl | rfl | rfl <;> simp

/-- Nothing is repeated if no name is found that is. -/
lemma repeatedName?_eq_none {before names : List String}
    (h : repeatedName? before names = none) : names.Nodup ∧ ∀ n ∈ names, n ∉ before := by
  fun_induction repeatedName? before names with
  | case1 => simp
  | case2 => cases h
  | case3 before name rest hnew ih =>
      obtain ⟨hrest, hbefore⟩ := ih h
      have hname : name ∉ rest := fun hin => hbefore name hin List.mem_cons_self
      refine ⟨List.nodup_cons.mpr ⟨hname, hrest⟩, List.forall_mem_cons.mpr ⟨?_, ?_⟩⟩
      · simpa using hnew
      · exact fun n hn hin => hbefore n hn (List.mem_cons_of_mem _ hin)

/-- The records of a schema are told by their names. -/
lemma eq_of_name_eq {c : Classification} {t : Table} {all : List Record}
    (h : c.elaborate t d = .ok all) (hx : x ∈ all) (hy : y ∈ all) (hname : x.name = y.name) :
    x = y := by
  obtain ⟨placed, own, -, -, -, hnone⟩ := exists_records h
  exact List.inj_on_of_nodup_map (repeatedName?_eq_none hnone).1 hx hy hname

lemma form_ne_of_node (h : x.form = .node) : x.form ≠ .inlineNode := by
  rw [h]
  decide

/-- What a record answers to besides its name, and what that is: for an inline node, whose name
is the ident of an element, names that end as groups among inline nodes do, and for any other
record, classes. -/
def Grouped (t : Table) (x : Record) : Prop :=
  x.form = .inlineNode ∧ (∃ e, t.element? x.name = some e) ∧ (∀ g ∈ x.groups, EndsInline g) ∨
    x.form ≠ .inlineNode ∧ ∀ g ∈ x.groups, ∃ s, t.class? g = some s

lemma grouped_of_group_eq_none {t : Table} (hform : x.form ≠ .inlineNode)
    (hgroup : x.group = none) : Grouped t x := by
  refine .inr ⟨hform, ?_⟩
  simp [Record.groups, hgroup]

namespace Stage

open References (Placed PlacedAs ofPlaced)

variable {c : Classification} {t : Table} {placed : List Placed} {own all : List Record}
variable {name : String}

/-- No record has a name that ends as groups among inline nodes do, if no ident does. -/
lemma not_endsInline_name (h : Stage c d t placed own all)
    (hends : ∀ ident, t.contains ident = true → ¬ EndsInline ident) (hx : x ∈ all) :
    ¬ EndsInline x.name := by
  rcases h.mem_all.mp hx with ⟨y, hroot, rfl⟩ | ⟨y, hown, rfl⟩ | hleaf | hwrapper
  · rw [TextLeaves.bindOne_eq]
    rcases (of_mem_documentRoots hroot).1 with hname | hname <;> intro hi <;>
      exact absurd (getLast?_of_endsInline hi) (by rw [hname]; decide)
  · obtain ⟨entry, -, e, he, hrecord⟩ := (h.mem_own y).mp hown
    obtain ⟨hcontains, hident⟩ := Table.ident_of_element? he
    rw [← hident] at hcontains
    have hname := name_of_mem hrecord
    simp only [List.mem_cons, List.not_mem_nil, or_false] at hname
    rw [TextLeaves.bindOne_eq]
    rcases hname with hname | hname | hname | hname <;> rw [hname]
    · exact hends _ hcontains
    · exact fun hi => hends _ hcontains (endsInline_of_markName (h.named _ hcontains).1 hi)
    · exact not_endsInline_append rfl (by decide) _
    · exact not_endsInline_append rfl (by decide) _
  · obtain ⟨n, y, -, rfl⟩ := TextLeaves.exists_of_mem_leaves hleaf
    exact not_endsInline_leafName n
  · obtain ⟨n, content, rfl⟩ := exists_of_mem_wrappers hwrapper
    exact not_endsInline_append rfl (by decide) n

lemma grouped_own (h : Stage c d t placed own all) (hy : y ∈ own) : Grouped t y := by
  obtain ⟨entry, hentry, e, he, hrecord⟩ := (h.mem_own y).mp hy
  obtain ⟨p, hp, -, hident⟩ := h.placed_eq.exists_mem hentry
  have hpe : e.ident = p.ident := (Table.ident_of_element? he).2.trans hident.symm
  rcases group_of_mem hrecord with ⟨hform, hname, hgroup⟩ | ⟨hform, hgroup | hgroup⟩
  · rw [hpe] at hname hgroup
    have hgroups := h.groups_of_groupLine hp (by decide) hgroup
    refine .inl ⟨hform, ⟨e, hname ▸ hident ▸ he⟩, fun g hg => ?_⟩
    obtain ⟨k, -, rfl⟩ := List.mem_map.mp (hgroups ▸ hg)
    exact ⟨k, rfl⟩
  · exact grouped_of_group_eq_none hform hgroup
  · rw [hpe] at hgroup
    have hgroups := h.groups_of_groupLine hp (by decide) hgroup
    refine .inr ⟨hform, fun g hg => ?_⟩
    obtain ⟨k, hk, rfl⟩ := List.mem_map.mp (hgroups ▸ hg)
    rw [String.append_empty]
    exact h.placed_eq.class_of_mem_groups hp k hk

lemma grouped_of_mem (h : Stage c d t placed own all) (hx : x ∈ all) : Grouped t x := by
  rcases h.mem_all.mp hx with ⟨y, hroot, rfl⟩ | ⟨y, hown, rfl⟩ | hleaf | hwrapper
  · simp only [Record.documentRoots, List.map_cons, List.map_nil, List.mem_cons,
      List.not_mem_nil, or_false] at hroot
    rw [TextLeaves.bindOne_eq]
    rcases hroot with rfl | rfl <;> exact grouped_of_group_eq_none (form_ne_of_node rfl) rfl
  · have hgrouped : Grouped t y := h.grouped_own hown
    rw [TextLeaves.bindOne_eq]
    exact hgrouped
  · obtain ⟨n, y, -, rfl⟩ := TextLeaves.exists_of_mem_leaves hleaf
    exact grouped_of_group_eq_none (form_ne_of_node rfl) rfl
  · obtain ⟨n, content, rfl⟩ := exists_of_mem_wrappers hwrapper
    exact grouped_of_group_eq_none (form_ne_of_node rfl) rfl

/-- **What answers to a name** is inline nodes only or not at all. -/
theorem not_answered (h : Stage c d t placed own all)
    (hends : ∀ ident, t.contains ident = true → ¬ EndsInline ident)
    (hunique : ∀ x ∈ all, ∀ y ∈ all, x.name = y.name → x = y) (hy : y ∈ all)
    (hform : y.form ≠ .inlineNode) (hname : y.name = name ∨ name ∈ y.groups) :
    ¬ Answered all .inlineNode name := by
  rintro ⟨x, hx, hxform, hxname⟩
  obtain ⟨-, ⟨e, he⟩, hinline⟩ :=
    (h.grouped_of_mem hx).resolve_right fun hother => hother.1 hxform
  have hclasses := ((h.grouped_of_mem hy).resolve_left fun hinline => hform hinline.1).2
  rcases hname with rfl | hgroup
  · rcases hxname with hxname | hxgroup
    · exact hform (hunique x hx y hy hxname ▸ hxform)
    · exact h.not_endsInline_name hends hy (hinline _ hxgroup)
  · obtain ⟨s, hs⟩ := hclasses name hgroup
    rcases hxname with rfl | hxgroup
    · have hget := (Table.get?_of_class? hs).symm.trans (Table.get?_of_element? he)
      cases hget
    · exact hends name (Table.contains_of_class? hs) (hinline name hxgroup)

end Stage

/-- **Blocks and inline nodes are kept apart**, where idents can be names and none of them ends as
groups among inline nodes do.  No name in the block of an element stands for an inline node, and
the names among its inline nodes stand for nothing else. -/
theorem apart_of_elaborate {c : Classification} {t : Table} {all : List Record} (hnamed : t.Named)
    (hends : ∀ ident, t.contains ident = true → ¬ EndsInline ident)
    (h : c.elaborate t d = .ok all) :
    (∀ x ∈ all, x.origin ∈ [.hard, .soft, .inters, .asides] → ∀ content, x.content = some content →
      ∀ name ∈ names content, ¬ Answered all .inlineNode name) ∧
    ∀ x ∈ all, ∀ content, x.inlineContent = some content → ∀ name ∈ names content,
      Answered all .inlineNode name ∧
        ∀ y ∈ all, y.name = name ∨ name ∈ y.groups → y.form = .inlineNode := by
  obtain ⟨placed, own, hstage⟩ := exists_stage hnamed h
  have hunique : ∀ x ∈ all, ∀ y ∈ all, x.name = y.name → x = y :=
    fun x hx y hy => eq_of_name_eq h hx hy
  constructor
  · intro x hx horigin content hcontent name hname
    obtain ⟨y, hy, hform, hyname⟩ := hstage.names_block hx horigin hcontent hname
    exact hstage.not_answered hends hunique hy (form_ne_of_node hform) hyname
  · intro x hx content hcontent name hname
    have hinline := hstage.names_inline hx hcontent hname
    refine ⟨hinline, fun y hy hyname => ?_⟩
    by_contra hform
    exact hstage.not_answered hends hunique hy hform hyname hinline

open Schema (pageTable pages)

/-- A heading holds page breaks as inline nodes, and in its block the wrapper around them; a
division holds paragraphs in its block alone. -/
theorem apart_of_elaborate_pages : pageTable.Named ∧
    (∀ ident, pageTable.contains ident = true → ¬ EndsInline ident) ∧
    ∃ all, pages.elaborate pageTable {} = .ok all ∧
      (all.find? (·.name == "fw")).map (fun x => (x.content, x.inlineContent)) =
        some (some "pb_g", some "pb") ∧
      (all.find? (·.name == "div")).map (fun x => (x.content, x.inlineContent)) =
        some (some "model.pLike", none) ∧
      (∀ x ∈ all, x.origin ∈ [.hard, .soft, .inters, .asides] → ∀ content,
        x.content = some content → ∀ name ∈ names content, ¬ Answered all .inlineNode name) ∧
      ∀ x ∈ all, ∀ content, x.inlineContent = some content → ∀ name ∈ names content,
        Answered all .inlineNode name ∧
          ∀ y ∈ all, y.name = name ∨ name ∈ y.groups → y.form = .inlineNode := by
  have hidents : ∀ ident ∈ pageTable.idents,
      IsName ident ∧ ident.toList.getLast? ≠ some 'i' := by decide
  have hnamed : pageTable.Named :=
    fun ident h => (hidents ident (Dictionary.mem_keys_iff.mpr h)).1
  have hends : ∀ ident, pageTable.contains ident = true → ¬ EndsInline ident := fun ident h hi =>
    (hidents ident (Dictionary.mem_keys_iff.mpr h)).2 (getLast?_of_endsInline hi)
  have hviews : (pages.elaborate pageTable {}).toOption.map (fun all =>
      ((all.find? (·.name == "fw")).map (fun x => (x.content, x.inlineContent)),
        (all.find? (·.name == "div")).map (fun x => (x.content, x.inlineContent)))) =
      some (some (some "pb_g", some "pb"), some (some "model.pLike", none)) := by
    cbv
  cases h : pages.elaborate pageTable {} with
  | error fault =>
      rw [h] at hviews
      cases hviews
  | ok all =>
      rw [h] at hviews
      obtain ⟨hfw, hdiv⟩ := Prod.mk.inj (Option.some.inj hviews)
      exact ⟨hnamed, hends, all, rfl, hfw, hdiv, apart_of_elaborate hnamed hends h⟩

end Elaboration

end EditorSchema
