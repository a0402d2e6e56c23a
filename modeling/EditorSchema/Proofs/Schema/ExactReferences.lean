/-
The references of a classification, told from memberships alone.

What answers to a name is collected while the classified idents are gone through one after the
other, each with the groups that a walk has found for it.  In the end nothing is left of this:
whether a name is one of the blocks, say, is told from the idents that become blocks and from
what their memberships lead to.  The collecting fails just where an ident is no element, or
where its memberships lead to something that is no class.  So neither the order of the idents
nor a repetition among them makes a difference to what answers to a name.

* `References.NamedBy`: a name that elements of some categories answer to;
* `References.Exact`: references that are told from memberships;
* `References.SameAnswers`: references by which the same things answer to each name;
* `References.build_exact`: the references of a classification.
-/
import Mathlib.Tactic
import EditorSchema.Proofs.Schema.DepthFirst

namespace EditorSchema

open Outcome
open Relation (TransGen)

namespace Category

lemma isBlock_iff (category : Category) :
    category.isBlock = true ↔ category ∈ [Category.hard, .soft, .inter] := by
  cases category <;> decide

lemma isInline_iff (category : Category) :
    category.isInline = true ↔ category ∈ [Category.inline, .aside] := by
  cases category <;> decide

lemma isMark_iff (category : Category) :
    category.isMark = true ↔ category ∈ [Category.mark, .inter] := by
  cases category <;> decide

end Category

namespace Classification

variable {c : Classification} {category : Category} {ident : String}

lemma mem_entries : (category, ident) ∈ c.entries ↔ ident ∈ c.idents category := by
  have hall : category ∈ Category.all := by cases category <;> decide
  simp [entries, hall]

lemma mem_seeds : ident ∈ c.seeds ↔ ∃ category, ident ∈ c.idents category := by
  simp only [seeds, List.mem_map, Prod.exists, exists_eq_right, mem_entries]

end Classification

namespace References

variable {c c' : Classification} {t : Table} {r r' : References} {placed : List Placed}
variable {ident name group : String} {categories : List Category}

/-! ### What is told from memberships -/

/-- A group of an ident: a class of models that its memberships lead to. -/
def HasGroup (t : Table) (ident group : String) : Prop :=
  t.isModel group = true ∧ TransGen t.MemberOf ident group

/-- The idents of some categories. -/
def Classified (c : Classification) (categories : List Category) (ident : String) : Prop :=
  ∃ category ∈ categories, ident ∈ c.idents category

/-- **A name that elements of some categories answer to**: one of their idents or groups. -/
def NamedBy (c : Classification) (t : Table) (categories : List Category) (name : String) : Prop :=
  ∃ ident, Classified c categories ident ∧ (name = ident ∨ HasGroup t ident name)

/-- **References that are told from memberships.** -/
structure Exact (c : Classification) (t : Table) (r : References) : Prop where
  /-- The groups of an element are in the order in which all ways along its memberships come to
  them, -/
  groups : ∀ ident ∈ c.seeds, r.groupsOf ident =
    (allWays t.classesOf t.idents (t.classesOf ident)).eraseDups.filter fun group => t.isModel group
  /-- they are all that there are, -/
  mem_groups : ∀ ident ∈ c.seeds, ∀ group, group ∈ r.groupsOf ident ↔ HasGroup t ident group
  /-- and none of them is there twice. -/
  nodup_groups : ∀ ident ∈ c.seeds, (r.groupsOf ident).Nodup
  blocks : ∀ name, r.blocks.contains name = true ↔ NamedBy c t [.hard, .soft, .inter] name
  inlines : ∀ name, r.inlines.contains name = true ↔ NamedBy c t [.inline, .aside] name
  marks : ∀ name, r.marks.contains name = true ↔ NamedBy c t [.mark, .inter] name
  /-- Structural content may name blocks, inline nodes and text, -/
  structural : ∀ name, r.structural.contains name = true ↔
    r.blocks.contains name = true ∨ r.inlines.contains name = true ∨ name = Particle.textName
  /-- and content of any kind may name marks as well. -/
  all : ∀ name, r.all.contains name = true ↔
    r.structural.contains name = true ∨ r.marks.contains name = true
  mem_inlineGroups : ∀ group, group ∈ r.inlineGroups ↔
    ∃ ident, Classified c [.inline, .aside] ident ∧ HasGroup t ident group
  nodup_inlineGroups : r.inlineGroups.Nodup

/-- **References by which the same things answer to each name**, where the idents of a
classification have the same groups. -/
structure SameAnswers (c : Classification) (r r' : References) : Prop where
  groups : ∀ ident ∈ c.seeds, r.groupsOf ident = r'.groupsOf ident
  blocks : r.blocks = r'.blocks
  inlines : r.inlines = r'.inlines
  marks : r.marks = r'.marks
  structural : r.structural = r'.structural
  all : r.all = r'.all
  inlineGroups : r.inlineGroups.Perm r'.inlineGroups

/-! ### Placed elements -/

namespace PlacedAs

/-- What holds of a placed element of some categories holds of an ident of these. -/
lemma exists_iff (h : PlacedAs c t placed) {p : Category → Bool}
    (hp : ∀ category, p category = true ↔ category ∈ categories) {P : Placed → Prop}
    {Q : String → Prop} (hPQ : ∀ e ∈ placed, P e ↔ Q e.ident) :
    (∃ e ∈ placed, p e.category = true ∧ P e) ↔
      ∃ ident, Classified c categories ident ∧ Q ident := by
  constructor
  · rintro ⟨e, he, hcategory, hP⟩
    exact ⟨e.ident, ⟨e.category, (hp _).mp hcategory,
      Classification.mem_entries.mp (h.exists_entry he).1⟩, (hPQ e he).mp hP⟩
  · rintro ⟨ident, ⟨category, hcategory, hident⟩, hQ⟩
    obtain ⟨e, he, rfl, rfl⟩ := h.exists_mem (Classification.mem_entries.mpr hident)
    exact ⟨e, he, (hp _).mpr hcategory, (hPQ e he).mpr hQ⟩

/-- The groups of a placed element are those of its ident. -/
lemma mem_groups_iff (h : PlacedAs c t placed) {e : Placed} (he : e ∈ placed) :
    group ∈ e.groups ↔ HasGroup t e.ident group := by
  obtain ⟨-, spec, hspec, hgroups⟩ := h.exists_entry he
  exact mem_modelClasses hspec hgroups

/-- The names of placed elements of some categories are those of their idents. -/
lemma named_iff (h : PlacedAs c t placed) {p : Category → Bool}
    (hp : ∀ category, p category = true ↔ category ∈ categories) :
    (∃ e ∈ placed, p e.category = true ∧ name ∈ e.names) ↔ NamedBy c t categories name :=
  h.exists_iff hp fun e he => by rw [Placed.names, List.mem_cons, h.mem_groups_iff he]

/-- A classified ident is placed with the groups of its element. -/
lemma groupsOf_eq (h : PlacedAs c t placed) (hident : ident ∈ c.seeds) :
    ∃ e, t.element? ident = some e ∧ modelClasses t e = .ok ((ofPlaced placed).groupsOf ident) := by
  obtain ⟨category, hident⟩ := Classification.mem_seeds.mp hident
  obtain ⟨p, hp, -, rfl⟩ := h.exists_mem (Classification.mem_entries.mpr hident)
  rw [h.groupsOf_ofPlaced hp]
  exact (h.exists_entry hp).2

/-- The references of placed elements are told from memberships. -/
lemma exact (h : PlacedAs c t placed) : Exact c t (ofPlaced placed) where
  groups ident hident := by
    obtain ⟨e, he, hgroups⟩ := h.groupsOf_eq hident
    rw [modelClasses_eq hgroups, Table.classesOf_of_element? he]
  mem_groups ident hident group := by
    obtain ⟨e, he, hgroups⟩ := h.groupsOf_eq hident
    exact mem_modelClasses he hgroups
  nodup_groups ident hident := by
    obtain ⟨e, he, hgroups⟩ := h.groupsOf_eq hident
    exact nodup_modelClasses hgroups
  blocks name := blocks_ofPlaced.trans (h.named_iff Category.isBlock_iff)
  inlines name := inlines_ofPlaced.trans (h.named_iff Category.isInline_iff)
  marks name := marks_ofPlaced.trans (h.named_iff Category.isMark_iff)
  structural name := contains_structural
  all name := by
    rw [contains_structural]
    simp only [References.all, IdentSet.contains_ofIdents, decide_eq_true_iff, List.mem_append,
      Dictionary.mem_keys_iff, List.mem_singleton]
    tauto
  mem_inlineGroups group := mem_inlineGroups_ofPlaced.trans
    (h.exists_iff Category.isInline_iff fun e he => h.mem_groups_iff he)
  nodup_inlineGroups := nodup_eraseDups _

end PlacedAs

/-- **When there are references of a classification**: if its idents are elements whose
memberships lead to classes only. -/
lemma exists_build_iff : (∃ r, build c t = .ok r) ↔ ∀ ident ∈ c.seeds,
    (∃ e, t.element? ident = some e) ∧
      ∀ other, TransGen t.MemberOf ident other → t.IsClass other := by
  have hbuild : (∃ r, build c t = .ok r) ↔ ∀ entry ∈ c.entries, ∃ p, place t entry = .ok p := by
    constructor
    · rintro ⟨r, h⟩
      obtain ⟨placed, hplaced, -⟩ := exists_placed h
      exact (mem_of_mapM hplaced).2
    · intro hall
      obtain ⟨placed, hplaced⟩ := exists_mapM hall
      exact ⟨ofPlaced placed, bind_eq_ok.mpr ⟨placed, hplaced, rfl⟩⟩
  have hplace (entry : Category × String) : (∃ p, place t entry = .ok p) ↔
      (∃ e, t.element? entry.2 = some e) ∧
        ∀ other, TransGen t.MemberOf entry.2 other → t.IsClass other := by
    constructor
    · rintro ⟨p, hp⟩
      obtain ⟨e, groups, he, hgroups, -⟩ := place_eq_ok.mp hp
      exact ⟨⟨e, he⟩, (exists_modelClasses_iff he).mp ⟨groups, hgroups⟩⟩
    · rintro ⟨⟨e, he⟩, hall⟩
      obtain ⟨groups, hgroups⟩ := (exists_modelClasses_iff he).mpr hall
      exact ⟨_, place_eq_ok.mpr ⟨e, groups, he, hgroups, rfl⟩⟩
  rw [hbuild]
  simp only [hplace, Classification.seeds, List.forall_mem_map]

/-! ### Classifications of the same idents -/

/-- Classifications with the same idents in each category, in whatever order. -/
def SameIdents (c c' : Classification) : Prop :=
  ∀ category ident, ident ∈ c.idents category ↔ ident ∈ c'.idents category

lemma SameIdents.mem_seeds (h : SameIdents c c') : ident ∈ c.seeds ↔ ident ∈ c'.seeds := by
  simp only [Classification.mem_seeds, h _ ident]

lemma SameIdents.classified (h : SameIdents c c') :
    Classified c categories ident ↔ Classified c' categories ident := by
  simp only [Classified, h _ ident]

lemma SameIdents.namedBy (h : SameIdents c c') :
    NamedBy c t categories name ↔ NamedBy c' t categories name := by
  simp only [NamedBy, h.classified]

/-- Sets of names are the same if they are those of the same idents. -/
lemma SameIdents.set_eq (h : SameIdents c c') {s s' : IdentSet}
    (hs : ∀ name, s.contains name = true ↔ NamedBy c t categories name)
    (hs' : ∀ name, s'.contains name = true ↔ NamedBy c' t categories name) : s = s' :=
  IdentSet.ext_contains fun name => by rw [Bool.eq_iff_iff, hs, hs', h.namedBy]

/-- References that are told from memberships are told from the idents of each category. -/
lemma Exact.same (h : Exact c t r) (h' : Exact c' t r') (hsame : SameIdents c c') :
    SameAnswers c r r' := by
  have hblocks : r.blocks = r'.blocks := hsame.set_eq h.blocks h'.blocks
  have hinlines : r.inlines = r'.inlines := hsame.set_eq h.inlines h'.inlines
  have hmarks : r.marks = r'.marks := hsame.set_eq h.marks h'.marks
  refine ⟨fun ident hident => ?_, hblocks, hinlines, hmarks, ?_, ?_, ?_⟩
  · rw [h.groups ident hident, h'.groups ident (hsame.mem_seeds.mp hident)]
  · rw [References.structural, hblocks, hinlines, References.structural]
  · rw [References.all, hblocks, hinlines, hmarks, References.all]
  · refine (List.perm_ext_iff_of_nodup h.nodup_inlineGroups h'.nodup_inlineGroups).mpr ?_
    intro group
    simp only [h.mem_inlineGroups, h'.mem_inlineGroups, hsame.classified]

/-- **The references of a classification.**  There are some just if the classified idents are
elements whose memberships lead to classes only, and they are told from what the memberships lead
to.  The order of the idents in the classification makes no difference to what answers to a
name. -/
theorem build_exact (c : Classification) (t : Table) :
    ((∃ r, build c t = .ok r) ↔ ∀ ident ∈ c.seeds, (∃ e, t.element? ident = some e) ∧
      ∀ other, TransGen t.MemberOf ident other → t.IsClass other) ∧
    (∀ r, build c t = .ok r → Exact c t r) ∧
    ∀ c', SameIdents c c' → ((∃ r, build c t = .ok r) ↔ ∃ r, build c' t = .ok r) ∧
      ∀ r r', build c t = .ok r → build c' t = .ok r' → SameAnswers c r r' := by
  have hexact {c : Classification} {r : References} (h : build c t = .ok r) : Exact c t r := by
    obtain ⟨placed, hplaced, rfl⟩ := exists_placed h
    exact PlacedAs.exact hplaced
  refine ⟨exists_build_iff, fun r h => hexact h, fun c' hsame => ⟨?_, fun r r' h h' => ?_⟩⟩
  · simp only [exists_build_iff, hsame.mem_seeds]
  · exact (hexact h).same (hexact h') hsame

/-- Classes of models and of attributes that are members of each other, and three elements. -/
def roundTable : Table := .ofList [
  .ofClass { ident := "model.phrase", kind := .model, memberships := ["att.spanning"] },
  .ofClass {
    ident := "att.spanning"
    kind := .attributes
    memberships := ["model.phrase", "model.common"] },
  .ofClass { ident := "model.common", kind := .model, memberships := ["att.spanning"] },
  .ofElement { ident := "ab", memberships := ["model.common"] },
  .ofElement { ident := "p", memberships := ["model.common"] },
  .ofElement { ident := "hi", memberships := ["att.spanning", "model.phrase"] }]

/-- Two blocks of text, and a block that is a span as well. -/
def spanning : Classification := { soft := ["p", "ab"], inter := ["hi"] }

/-- The same with the two blocks the other way round. -/
def spanningSwapped : Classification := { soft := ["ab", "p"], inter := ["hi"] }

/-- The span is in both groups of models, which lead to each other, in the order in which they are
reached.  The answers are the same when the two blocks are swapped. -/
theorem build_exact_round :
    SameIdents spanning spanningSwapped ∧ ∃ r r', build spanning roundTable = .ok r ∧
      build spanningSwapped roundTable = .ok r' ∧ SameAnswers spanning r r' ∧
      r.groupsOf "hi" = ["model.phrase", "model.common"] ∧
      HasGroup roundTable "p" "model.phrase" ∧
      NamedBy spanning roundTable [.mark, .inter] "model.common" := by
  have hsame : SameIdents spanning spanningSwapped := by
    intro category ident
    cases category <;> simp [Classification.idents, spanning, spanningSwapped, or_comm]
  have hbuild : build spanning roundTable = .ok {
      groups := .ofList [
        ("ab", ["model.common", "model.phrase"]),
        ("p", ["model.common", "model.phrase"]),
        ("hi", ["model.phrase", "model.common"])]
      blocks := .ofIdents ["ab", "p", "hi", "model.common", "model.phrase"]
      inlines := .ofIdents []
      marks := .ofIdents ["hi", "model.common", "model.phrase"]
      inlineGroups := []
      inlineIdents := []
      interIdents := .ofIdents ["hi"] } := by
    cbv
  obtain ⟨-, hexact, horder⟩ := build_exact spanning roundTable
  obtain ⟨halike, hanswers⟩ := horder spanningSwapped hsame
  obtain ⟨r', hbuild'⟩ := halike.mp ⟨_, hbuild⟩
  have hr := hexact _ hbuild
  exact ⟨hsame, _, r', hbuild, hbuild', hanswers _ r' hbuild hbuild', by decide,
    (hr.mem_groups "p" (by decide) _).mp (by decide), (hr.marks _).mp (by decide)⟩

end References

end EditorSchema
