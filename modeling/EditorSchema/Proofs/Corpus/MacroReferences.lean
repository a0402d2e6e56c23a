/-
What becomes of references to macros, from the descriptions of specs to their expanded contents.

Content may be a reference to a macro, or such references may stand in its sequences and choices.
Of either kind the macro is loaded, which means that there is a text for its ident; but the text
need not define the macro.  When contents are expanded, content that is a reference is not expanded
without the macro.  A reference within a sequence or choice has become a group, like a class or an
element, and so it is one that is not a macro: it stays, and nothing tells that a macro is lacking.

* `Xml.Node.IsMacroContent`, `Xml.Node.HoldsMacroContent`: the two kinds of references;
* `Content.exists_ofNode_of_holds`: a reference within a sequence or choice is read as a group;
* `Particle.mem_leaves_inline`: a group that is no macro stays;
* `Corpus.Treated`, `Corpus.expand_treats_references`: what becomes of references;
* `Corpus.expand_keeps_missing_macro`: a reference to a macro that is lacking, and stays.
-/
import Mathlib.Tactic
import EditorSchema.Proofs.Corpus.Closure
import EditorSchema.Proofs.Spec.Expanded

namespace EditorSchema

open Outcome

variable {ident key : String}

/-! ### References to macros in descriptions -/

namespace Xml.Node

/-- A macro is referred to where particles are read: by a node itself, or in a sequence or choice,
at any depth. -/
inductive HoldsMacro : Node → String → Prop
  | reference {n : Node} {ident : String} (hname : n.name = "macroRef")
      (hkey : n.attribute? "key" = some ident) : HoldsMacro n ident
  | part {n part : Node} {ident : String} (hname : n.name = "sequence" ∨ n.name = "alternate")
      (hpart : part ∈ n.children) (h : HoldsMacro part ident) : HoldsMacro n ident

/-- The content that a node describes is a reference to a macro. -/
def IsMacroContent (held : Node) (ident : String) : Prop :=
  ∃ child, held.elements = [child] ∧ child.name = "macroRef" ∧
    child.attribute? "key" = some ident

/-- The content that a node describes is a sequence or choice with a reference to a macro in it. -/
def HoldsMacroContent (held : Node) (ident : String) : Prop :=
  ∃ child, held.elements = [child] ∧ child.name ≠ "macroRef" ∧ child.HoldsMacro ident

variable {n m held child : Node}

lemma descendants_of_child (hchild : child ∈ n.children) (h : m ∈ child.descendants) :
    m ∈ n.descendants := by
  cases n with
  | element space name attributes children =>
      rw [descendants, descendantsAll_eq]
      exact List.mem_cons_of_mem _ (List.mem_flatMap.mpr ⟨child, hchild, h⟩)
  | text characters => cases hchild
  | comment text => cases hchild
  | instruction target text => cases hchild

lemma self_mem_descendants (n : Node) : n ∈ n.descendants := by
  cases n <;> simp [descendants]

/-- What is referred to where particles are read, is referred to. -/
lemma HoldsMacro.exists_descendant (h : n.HoldsMacro ident) :
    ∃ inner ∈ n.descendants, inner.name = "macroRef" ∧ inner.attribute? "key" = some ident := by
  induction h with
  | @reference n ident hname hkey => exact ⟨n, n.self_mem_descendants, hname, hkey⟩
  | part _ hpart _ ih =>
      obtain ⟨inner, hinner, hname, hkey⟩ := ih
      exact ⟨inner, descendants_of_child hpart hinner, hname, hkey⟩

/-- What is referred to in the content of a description, where particles are read, is one of the
references that the description makes. -/
lemma namesMacro_of_holds (hheld : n.elementNamed? "content" = some held)
    (hchild : child ∈ held.elements) (h : child.HoldsMacro ident) : n.NamesMacro ident := by
  obtain ⟨inner, hinner, hname, hkey⟩ := h.exists_descendant
  have hmem : child ∈ held.children := List.mem_of_mem_filter hchild
  exact ⟨held, inner, hheld, descendants_of_child hmem hinner, hname, hkey⟩

/-- Either kind of reference is one of those that a description makes. -/
lemma namesMacro (hheld : n.elementNamed? "content" = some held)
    (h : held.IsMacroContent ident ∨ held.HoldsMacroContent ident) : n.NamesMacro ident := by
  rcases h with ⟨child, helements, hname, hkey⟩ | ⟨child, helements, -, hholds⟩
  · exact namesMacro_of_holds hheld (by simp [helements]) (.reference hname hkey)
  · exact namesMacro_of_holds hheld (by simp [helements]) hholds

end Xml.Node

open Xml (Node)

/-- A node in which a macro is referred to stands for a particle with a group of that ident. -/
lemma Particle.exists_ofNode?_of_holds {n : Node} (h : n.HoldsMacro ident) :
    ∃ p, Particle.ofNode? n = some p ∧ ident ∈ p.leaves := by
  induction h with
  | @reference n ident hname hkey =>
      cases n with
      | element space name attributes children =>
          obtain rfl : name = "macroRef" := hname
          refine ⟨.group ident, ?_, List.mem_singleton_self _⟩
          rw [ofNode?, if_pos (by decide), hkey]
          rfl
      | text characters => cases hkey
      | comment text => cases hkey
      | instruction target text => cases hkey
  | @part n part ident hname hpart _ ih =>
      obtain ⟨p, hp, hleaf⟩ := ih
      cases n with
      | element space name attributes children =>
          have hmem : ident ∈ leavesAll (ofNodes children) := by
            rw [leavesAll_eq, ofNodes_eq]
            exact List.mem_flatMap.mpr ⟨p, List.mem_filterMap.mpr ⟨part, hpart, hp⟩, hleaf⟩
          rcases hname with hname | hname
          · obtain rfl : name = "sequence" := hname
            exact ⟨.sequence (ofNodes children), rfl, hmem⟩
          · obtain rfl : name = "alternate" := hname
            exact ⟨.alternate (ofNodes children), rfl, hmem⟩
      | text characters => cases hpart
      | comment text => cases hpart
      | instruction target text => cases hpart

namespace Content

variable {held : Node}

/-- Content that is a reference is read as one. -/
lemma ofNode_of_isMacro (h : held.IsMacroContent ident) : ofNode held = .ofMacro ident := by
  obtain ⟨child, helements, hname, hkey⟩ := h
  simp only [ofNode, helements, if_pos hname, hkey]

/-- **A reference within a sequence or choice is read as a group** of the ident of the macro. -/
lemma exists_ofNode_of_holds (h : held.HoldsMacroContent ident) :
    ∃ p, ofNode held = .model p ∧ ident ∈ p.leaves := by
  obtain ⟨child, helements, hname, hholds⟩ := h
  obtain ⟨p, hp, hleaf⟩ := Particle.exists_ofNode?_of_holds hholds
  refine ⟨p, ?_, hleaf⟩
  simp only [ofNode, helements, if_neg hname, hp]
  rfl

end Content

/-! ### The spec of a description -/

namespace SpecEntry

variable {language text : String} {n : Node} {e : SpecEntry} {entries : List SpecEntry}

/-- The content of a spec of a kind that has content is read off what holds it. -/
lemma content_of_ofNode (h : ofNode language n = .ok e) {content : Content}
    (hcontent : e.spec.content? = some content) {held : Node}
    (hheld : n.elementNamed? "content" = some held) : content = .ofNode held := by
  rw [ofNode] at h
  split at h
  · dsimp only at h
    rw [hheld] at h
    split at h
    · -- a class has no content
      obtain ⟨kind, -, h⟩ := bind_eq_ok.mp h
      obtain ⟨attributes, -, h⟩ := bind_eq_ok.mp h
      obtain rfl := pure_eq_ok.mp h
      cases hcontent
    · split at h
      · obtain ⟨attributes, -, h⟩ := bind_eq_ok.mp h
        obtain rfl := pure_eq_ok.mp h
        exact (Option.some.inj hcontent).symm
      · split at h
        · obtain rfl := pure_eq_ok.mp h
          exact (Option.some.inj hcontent).symm
        · obtain rfl := pure_eq_ok.mp h
          cases hcontent
  · cases h

/-- Each entry of a text comes from a description in it. -/
lemma exists_described (h : ofText language text = .ok entries) (he : e ∈ entries) :
    ∃ root, Node.ofText? text = some root ∧ ∃ n ∈ described root, ofNode language n = .ok e := by
  obtain ⟨root, hroot, hentries⟩ := exists_root_of_ofText h
  exact ⟨root, hroot, ((mem_of_mapM hentries).1 e).mp he⟩

end SpecEntry

/-! ### Groups that are no macros -/

/-- A spec of a kind that has content has the content that it is given. -/
lemma Spec.content?_of_withContent {s : Spec} {content : Content}
    (h : s.content? = some content) (other : Content) :
    (s.withContent other).content? = some other := by
  cases s with
  | ofClass spec => cases h
  | ofElement spec => rfl
  | ofMacro spec => rfl
  | ofData ident => cases h

/-- **A group that is no macro stays** when macros are replaced. -/
lemma Particle.mem_leaves_inline {t : Table} (value : String → Content) {p : Particle}
    (hleaf : ident ∈ p.leaves) (hnot : t.isMacro ident = false) :
    ∃ q, p.inline t value = some q ∧ ident ∈ q.leaves := by
  have parts (ps : List Particle)
      (ih : ∀ p ∈ ps, ident ∈ p.leaves → ∃ q, p.inline t value = some q ∧ ident ∈ q.leaves)
      (hleaf : ident ∈ leavesAll ps) :
      inlineAll t value ps ≠ [] ∧ ident ∈ leavesAll (inlineAll t value ps) := by
    rw [leavesAll_eq] at hleaf ⊢
    obtain ⟨p, hp, hleaf⟩ := List.mem_flatMap.mp hleaf
    obtain ⟨q, hq, hleaf⟩ := ih p hp hleaf
    have hmem : q ∈ inlineAll t value ps := mem_inlineAll.mpr ⟨p, hp, hq⟩
    exact ⟨List.ne_nil_of_mem hmem, List.mem_flatMap.mpr ⟨q, hmem, hleaf⟩⟩
  induction p using ind with
  | group other =>
      obtain rfl := List.mem_singleton.mp hleaf
      exact ⟨.group ident, by rw [inline, if_neg (by simp [hnot])], List.mem_singleton_self _⟩
  | sequence ps ih =>
      obtain ⟨hne, hmem⟩ := parts ps ih hleaf
      exact ⟨_, inline_sequence_eq_some.mpr ⟨hne, rfl⟩, hmem⟩
  | alternate ps ih =>
      obtain ⟨hne, hmem⟩ := parts ps ih hleaf
      exact ⟨_, inline_alternate_eq_some.mpr ⟨hne, rfl⟩, hmem⟩

/-- It stays when they are replaced throughout. -/
lemma Table.Inlines.exists_mem_leaves {t : Table} {p : Particle} {d : Content}
    (h : t.Inlines (.model p) d) (hleaf : ident ∈ p.leaves) (hnot : t.isMacro ident = false) :
    ∃ q, d = .model q ∧ ident ∈ q.leaves := by
  obtain ⟨_, value, _, _⟩ := h
  obtain ⟨q, hq, hleaf⟩ := Particle.mem_leaves_inline value hleaf hnot
  exact ⟨q, by rw [Content.inline, hq]; rfl, hleaf⟩

/-! ### What becomes of references -/

namespace Corpus

open SpecEntry (first)

variable {language : String} {source : Source} {seeds : List String} {c : Corpus}

/-- **What becomes of a reference to a macro** in the content of the spec of an ident. -/
structure Treated (c : Corpus) (ident : String) (held : Node) (key : String) : Prop where
  /-- The macro is there, or the text for its ident was read. -/
  reached : held.IsMacroContent key ∨ held.HoldsMacroContent key → Reached c key
  /-- Contents are not expanded if one of them is a reference to a macro that is lacking.  This is
  the fault that is told, of this macro or of another, unless macros refer to each other in a
  circle. -/
  missed : held.IsMacroContent key → c.table.macro? key = none →
    ∃ fault, c.table.expand = .error fault ∧
      ((∃ other, fault = .notFound other Expansion.tablePlace ∧ c.table.macro? other = none ∧
        c.table.Has (.ofMacro other)) ∨ ¬ Acyclic c.table.Refers)
  /-- In expanded contents no group is left of a reference to a macro that is there, -/
  replaced : held.HoldsMacroContent key → (∃ m, c.table.macro? key = some m) →
    ∀ u, c.table.expand = .ok u → ∀ p, u.Has (.model p) → key ∉ p.leaves
  /-- and of a reference to one that is lacking, the group stays. -/
  kept : held.HoldsMacroContent key → c.table.macro? key = none →
    ∀ u, c.table.expand = .ok u →
      ∃ p, (u.get? ident).bind Spec.content? = some (.model p) ∧ key ∈ p.leaves

/-- The description that an entry comes from is in one of the texts that were read. -/
lemma Loading.exists_description {tasks : List Task} (h : Loading language source seeds tasks c)
    {e : SpecEntry} (he : e ∈ found language source c.reads) :
    ∃ n ∈ descriptions source c.reads, SpecEntry.ofNode language n = .ok e := by
  obtain ⟨asked, hasked, he⟩ := List.mem_flatMap.mp he
  obtain ⟨text, entries, htext, hentries⟩ := h.readable asked hasked
  rw [entriesOf_eq htext hentries] at he
  obtain ⟨root, hroot, n, hn, hofNode⟩ := SpecEntry.exists_described hentries he
  refine ⟨n, List.mem_flatMap.mpr ⟨asked, hasked, ?_⟩, hofNode⟩
  simp only [htext, hroot]
  exact hn

/-- A reference of a spec whose contents and whose dependencies are known. -/
lemma treated_of_ofNode {e : SpecEntry} {n held : Node} {content : Content}
    (hget : c.table.get? ident = some e.spec) (hofNode : SpecEntry.ofNode language n = .ok e)
    (hreached : ∀ other ∈ e.dependencies, Reached c other)
    (hcontent : e.spec.content? = some content)
    (hheld : n.elementNamed? "content" = some held) : Treated c ident held key := by
  have hread : content = .ofNode held := SpecEntry.content_of_ofNode hofNode hcontent hheld
  have hhas : c.table.Has content := ⟨e.spec, Table.mem_toList_of_get? hget, hcontent⟩
  constructor
  · intro hreference
    have hkey : key ∈ e.macros := ((SpecEntry.readOff_of_ofNode hofNode).macros key).mpr
      (Node.namesMacro hheld hreference)
    exact hreached key (List.mem_append_right _ hkey)
  · intro halone hnone
    rw [hread, Content.ofNode_of_isMacro halone] at hhas
    cases hexpand : c.table.expand with
    | ok u =>
        have hinlines : c.table.InlinesTo u := Table.inlinesTo_of_expandIn (fun _ => .rfl) hexpand
        obtain ⟨m, hm⟩ := Table.isMacro_iff.mp (hinlines.expandable.named key hhas)
        cases hnone.symm.trans hm
    | error fault =>
        refine ⟨fault, rfl, ?_⟩
        cases Table.faulty_of_expandIn (fun _ => .rfl) hexpand with
        | missing hother hnone => exact .inl ⟨_, rfl, hnone, hother⟩
        | circle hcircle => exact .inr hcircle.not_acyclic
  · intro _ hthere u hexpand p hp hleaf
    have hinlines : c.table.InlinesTo u := Table.inlinesTo_of_expandIn (fun _ => .rfl) hexpand
    have hreferences : p.leaves.filter u.isMacro = [] := (hinlines.plain hp).references
    rw [hinlines.isMacro, List.filter_eq_nil_iff] at hreferences
    exact hreferences key hleaf (Table.isMacro_iff.mpr hthere)
  · intro hwithin hnone u hexpand
    have hinlines : c.table.InlinesTo u := Table.inlinesTo_of_expandIn (fun _ => .rfl) hexpand
    obtain ⟨p, hp, hleaf⟩ := Content.exists_ofNode_of_holds hwithin
    obtain ⟨d, hd, hbecomes⟩ := hinlines.2 ident e.spec hget
    have hmodel : c.table.Inlines (.model p) d := hp ▸ hread ▸ hbecomes content hcontent
    obtain ⟨q, rfl, hleaf⟩ :=
      hmodel.exists_mem_leaves hleaf (by simp [Table.isMacro, hnone])
    exact ⟨q, by rw [hd, Option.bind_some, Spec.content?_of_withContent hcontent], hleaf⟩

/-- **References to macros**, when a loading has succeeded.  Every spec in the table was read off a
description in a text that was read; and this is what becomes of a reference to a macro, whether
the content of the description is the reference or has it in a sequence or choice. -/
theorem expand_treats_references (h : loadAll language source seeds .empty = (c, .ok ())) :
    ∀ ident spec, c.table.get? ident = some spec →
      ∃ e, first (found language source c.reads) ident = some e ∧ e.spec = spec ∧
        ∃ n ∈ descriptions source c.reads, SpecEntry.ofNode language n = .ok e ∧
          ∀ held content, n.elementNamed? "content" = some held →
            spec.content? = some content → ∀ key, Treated c ident held key := by
  have hend : Loading language source seeds [] c := loading_start.of_run h
  intro ident spec hspec
  have hfirst := hend.holds ident
  rw [hspec] at hfirst
  obtain ⟨e, he, rfl⟩ := Option.map_eq_some_iff.mp hfirst.symm
  obtain ⟨n, hn, hofNode⟩ := hend.exists_description (List.mem_of_find?_eq_some he)
  refine ⟨e, he, rfl, n, hn, hofNode, fun held content hheld hcontent key => ?_⟩
  have hreached : ∀ other ∈ e.dependencies, Reached c other := fun other hother =>
    (hend.pending other (.inr ⟨ident, e, he, hother⟩)).resolve_right (by simp)
  exact treated_of_ofNode hspec hofNode hreached hcontent hheld

/-- An element with a reference to a macro in a sequence. -/
def nestedText : String := "<elementSpec ident=\"p\"><content><sequence>" ++
  "<macroRef key=\"m\"/></sequence></content></elementSpec>"

/-- An element whose content is the reference. -/
def aloneText : String := "<elementSpec ident=\"p\"><content>" ++
  "<macroRef key=\"m\"/></content></elementSpec>"

/-- The text for the ident of the macro defines another one. -/
def otherMacroText : String := "<macroSpec ident=\"n\"/>"

/-- What holds the content of the element with a sequence. -/
def nestedContent : Node := .element none "content" [] [.element none "sequence" []
  [.element none "macroRef" [⟨none, "key", "m"⟩] []]]

/-- The description of this element. -/
def nestedNode : Node := .element none "elementSpec" [⟨none, "ident", "p"⟩] [nestedContent]

/-- The description of the other macro. -/
def otherMacroNode : Node := .element none "macroSpec" [⟨none, "ident", "n"⟩] []

/-- The element with a sequence, and the text without the macro. -/
def nestedSource : Source := .ofTexts (.ofList [("m", otherMacroText), ("p", nestedText)])

/-- The element whose content is the reference, and the text without the macro. -/
def aloneSource : Source := .ofTexts (.ofList [("m", otherMacroText), ("p", aloneText)])

/-- What is loaded for the element, with one content or the other. -/
def withoutMacro (content : Content) : Corpus :=
  ⟨.ofList [.ofElement { ident := "p", content }, .ofMacro { ident := "n" }], ["p", "m"], .empty,
    .ofList [("p", ["m"])], [.undefined "m"]⟩

lemma ofText_nestedText : SpecEntry.ofText "en" nestedText =
    .ok [⟨.ofElement { ident := "p", content := .model (.sequence [.group "m"]) }, ["m"]⟩] := by
  decide +kernel

lemma ofText_aloneText : SpecEntry.ofText "en" aloneText =
    .ok [⟨.ofElement { ident := "p", content := .ofMacro "m" }, ["m"]⟩] := by
  decide +kernel

lemma ofText_otherMacroText : SpecEntry.ofText "en" otherMacroText =
    .ok [⟨.ofMacro { ident := "n" }, []⟩] := by
  decide +kernel

lemma loadAll_nested : loadAll "en" nestedSource ["p"] .empty =
    (withoutMacro (.model (.sequence [.group "m"])), .ok ()) := by
  rw [loadAll, List.map_singleton, run_visit_new rfl (by decide) rfl ofText_nestedText]
  exact (run_visit_new rfl (by decide) rfl ofText_otherMacroText).trans run_nil

lemma loadAll_alone : loadAll "en" aloneSource ["p"] .empty =
    (withoutMacro (.ofMacro "m"), .ok ()) := by
  rw [loadAll, List.map_singleton, run_visit_new rfl (by decide) rfl ofText_aloneText]
  exact (run_visit_new rfl (by decide) rfl ofText_otherMacroText).trans run_nil

lemma holdsMacroContent_nested : nestedContent.HoldsMacroContent "m" :=
  ⟨_, rfl, by decide, .part (.inl rfl) (List.mem_singleton_self _) (.reference rfl rfl)⟩

lemma ofNode_nestedNode : SpecEntry.ofNode "en" nestedNode =
    .ok ⟨.ofElement { ident := "p", content := .model (.sequence [.group "m"]) }, ["m"]⟩ := by
  cbv

lemma ofNode_otherMacroNode : SpecEntry.ofNode "en" otherMacroNode =
    .ok ⟨.ofMacro { ident := "n" }, []⟩ := by
  cbv

/-- The description, read in two steps: the markup by pieces, and what they build. -/
lemma ofText?_nestedText : Node.ofText? nestedText = some nestedNode := by
  have hpieces : Xml.Piece.ofText? nestedText = some
      [.opening ⟨"", "elementSpec"⟩ [(⟨"", "ident"⟩, "p")] false,
        .opening ⟨"", "content"⟩ [] false, .opening ⟨"", "sequence"⟩ [] false,
        .opening ⟨"", "macroRef"⟩ [(⟨"", "key"⟩, "m")] true,
        .closing ⟨"", "sequence"⟩, .closing ⟨"", "content"⟩, .closing ⟨"", "elementSpec"⟩] := by
    decide +kernel
  rw [Node.ofText?, hpieces]
  rfl

lemma ofText?_otherMacroText : Node.ofText? otherMacroText = some otherMacroNode := by
  have hpieces : Xml.Piece.ofText? otherMacroText = some
      [.opening ⟨"", "macroSpec"⟩ [(⟨"", "ident"⟩, "n")] true] := by
    decide +kernel
  rw [Node.ofText?, hpieces]
  rfl

lemma descriptions_nested :
    descriptions nestedSource ["p", "m"] = [nestedNode, otherMacroNode] := by
  have hread : nestedSource.read "p" = .ok nestedText ∧
      nestedSource.read "m" = .ok otherMacroText := ⟨rfl, rfl⟩
  simp only [descriptions, List.flatMap_cons, List.flatMap_nil, hread, ofText?_nestedText,
    ofText?_otherMacroText]
  rfl

lemma exists_expand_nested :
    ∃ u, (withoutMacro (.model (.sequence [.group "m"]))).table.expand = .ok u :=
  ⟨_, by cbv⟩

lemma expand_alone :
    (withoutMacro (.ofMacro "m")).table.expand = .error (.notFound "m" Expansion.tablePlace) := by
  cbv

/-- The text for `m` describes no macro of that name, and the reference within the content of `p`
stays as a group when all is expanded. -/
theorem expand_treats_references_nested : ∃ c u spec,
    loadAll "en" nestedSource ["p"] .empty = (c, .ok ()) ∧ c.table.expand = .ok u ∧
    c.table.get? "p" = some spec ∧ c.table.macro? "m" = none ∧
    Reached c "m" ∧ ∃ p, (u.get? "p").bind Spec.content? = some (.model p) ∧ "m" ∈ p.leaves := by
  obtain ⟨u, hu⟩ := exists_expand_nested
  refine ⟨_, u, _, loadAll_nested, hu, rfl, rfl, ?_⟩
  obtain ⟨e, -, hspec, n, hn, hofNode, htreated⟩ :=
    expand_treats_references loadAll_nested "p" _ rfl
  -- the other description is that of a macro
  obtain rfl : n = nestedNode := by
    rcases List.mem_pair.mp (descriptions_nested ▸ hn) with rfl | rfl
    · rfl
    · rw [ofNode_otherMacroNode] at hofNode
      cases hofNode
      cases hspec
  have hm : Treated _ "p" nestedContent "m" := htreated nestedContent _ rfl rfl "m"
  exact ⟨hm.reached (.inr holdsMacroContent_nested), hm.kept holdsMacroContent_nested rfl u hu⟩

/-- **A reference to a macro that is lacking, and stays**: the text for the ident of the macro does
not define it, and yet the element with a reference to it in a sequence is loaded and its content
is expanded.  If the reference is all of the content, the macro is missed. -/
theorem expand_keeps_missing_macro : ∃ c u e,
    loadAll "en" nestedSource ["p"] .empty = (c, .ok ()) ∧ c.table.expand = .ok u ∧
    first (found "en" nestedSource c.reads) "p" = some e ∧
    nestedNode ∈ descriptions nestedSource c.reads ∧ SpecEntry.ofNode "en" nestedNode = .ok e ∧
    nestedNode.elementNamed? "content" = some nestedContent ∧
    nestedContent.HoldsMacroContent "m" ∧ c.table.macro? "m" = none ∧
    ∃ c', loadAll "en" aloneSource ["p"] .empty = (c', .ok ()) ∧
      c'.table.expand = .error (.notFound "m" Expansion.tablePlace) := by
  obtain ⟨u, hu⟩ := exists_expand_nested
  have hfirst : first (found "en" nestedSource ["p", "m"]) "p" =
      some ⟨.ofElement { ident := "p", content := .model (.sequence [.group "m"]) }, ["m"]⟩ := by
    rw [found, List.flatMap_cons, entriesOf_eq rfl ofText_nestedText]
    rfl
  have hnode : nestedNode ∈ descriptions nestedSource ["p", "m"] := by
    rw [descriptions_nested]
    exact List.mem_cons_self
  exact ⟨_, u, _, loadAll_nested, hu, hfirst, hnode, ofNode_nestedNode, rfl,
    holdsMacroContent_nested, rfl, _, loadAll_alone, expand_alone⟩

end Corpus

end EditorSchema
