/-
Content as a document renders it, and what is read of it.

A particle is rendered by elements of a document: a sequence and a choice by elements that hold
renderings of their parts, and a group by a reference to it, in whatever namespace.  Around and
between the parts there may be text, comments, instructions, elements of other names and
references without a key, and what a reference holds itself does not matter.  Reading undoes all
this.  It finds the particle of every rendering, and what it reads as a particle is a rendering of
it.  The macros that a rendering refers to are among those that its spec is said to refer to,
which are looked for at any depth.

* `Keyed`, `Keyless`: the key of a reference;
* `Skipped`: what stands for no particle;
* `Renders`: the renderings of a particle, with the macros that they refer to;
* `Particle.ofNode?_eq_some_iff`: a node is read as the particle that it renders;
* `Content.ofNode_inverts`: reading content undoes rendering.
-/
import Mathlib.Tactic
import EditorSchema.Proofs.Corpus.MacroReferences

namespace EditorSchema

open Xml (Node Attribute)

/-! ### Renderings -/

/-- The first attribute `key` that has no namespace has this value. -/
def Keyed (attributes : List Attribute) (key : String) : Prop :=
  ∃ before after, attributes = before ++ ⟨none, "key", key⟩ :: after ∧
    ∀ a ∈ before, ¬ (a.space = none ∧ a.name = "key")

/-- No attribute `key` is without a namespace. -/
def Keyless (attributes : List Attribute) : Prop :=
  ∀ a ∈ attributes, ¬ (a.space = none ∧ a.name = "key")

/-- The names of the elements that stand for particles. -/
def particleNames : List String :=
  ["classRef", "elementRef", "macroRef", "textNode", "dataRef", "sequence", "alternate"]

/-- What stands for no particle: whatever is no element, elements of other names, and references
without a key. -/
inductive Skipped : Node → Prop
  | text {characters} : Skipped (.text characters)
  | comment {text} : Skipped (.comment text)
  | instruction {target text} : Skipped (.instruction target text)
  | unknown {space name attributes children} (hname : name ∉ particleNames) :
      Skipped (.element space name attributes children)
  | keyless {space name attributes children} (hname : name ∈ ["classRef", "elementRef", "macroRef"])
      (hkey : Keyless attributes) : Skipped (.element space name attributes children)

mutual

/-- **The renderings of a particle**, each with the macros that it refers to, in order. -/
inductive Renders : Particle → List String → Node → Prop
  | reference {space name attributes children key} (hname : name ∈ ["classRef", "elementRef"])
      (hkey : Keyed attributes key) :
      Renders (.group key) [] (.element space name attributes children)
  | ofMacro {space attributes children key} (hkey : Keyed attributes key) :
      Renders (.group key) [key] (.element space "macroRef" attributes children)
  | text {space name attributes children} (hname : name ∈ ["textNode", "dataRef"]) :
      Renders (.group "textNode") [] (.element space name attributes children)
  | sequence {space attributes children parts macros} (h : RendersAll parts macros children) :
      Renders (.sequence parts) macros (.element space "sequence" attributes children)
  | alternate {space attributes children branches macros}
      (h : RendersAll branches macros children) :
      Renders (.alternate branches) macros (.element space "alternate" attributes children)

/-- Renderings of particles one after the other, with nodes around and between them that stand
for none. -/
inductive RendersAll : List Particle → List String → List Node → Prop
  | nil : RendersAll [] [] []
  | skipped {n ns parts macros} (hskipped : Skipped n) (h : RendersAll parts macros ns) :
      RendersAll parts macros (n :: ns)
  | part {n ns p parts macros others} (hpart : Renders p macros n)
      (h : RendersAll parts others ns) : RendersAll (p :: parts) (macros ++ others) (n :: ns)

end

/-! ### Reading them -/

variable {space : Option String} {name key : String} {attributes : List Attribute}
variable {children ns : List Node} {n child held : Node}

lemma isKey_iff (a : Attribute) :
    (a.space == none && a.name == "key") = true ↔ a.space = none ∧ a.name = "key" := by
  rw [Bool.and_eq_true, beq_iff_eq, beq_iff_eq]

lemma attribute?_eq_some_iff :
    (Node.element space name attributes children).attribute? "key" = some key ↔
      Keyed attributes key := by
  rw [Node.attribute?, Node.attributeIn?, Node.attributes, Option.map_eq_some_iff]
  simp only [List.find?_eq_some_iff_append, Bool.not_eq_true', ← Bool.not_eq_true, isKey_iff]
  constructor
  · rintro ⟨⟨space, name, value⟩, ⟨⟨rfl, rfl⟩, before, after, rfl, hbefore⟩, rfl⟩
    exact ⟨before, after, rfl, hbefore⟩
  · rintro ⟨before, after, rfl, hbefore⟩
    exact ⟨_, ⟨⟨rfl, rfl⟩, before, after, rfl, hbefore⟩, rfl⟩

lemma attribute?_eq_none_iff :
    (Node.element space name attributes children).attribute? "key" = none ↔
      Keyless attributes := by
  rw [Node.attribute?, Node.attributeIn?, Node.attributes, Option.map_eq_none_iff,
    List.find?_eq_none]
  simp only [isKey_iff, Keyless]

namespace Particle

lemma ofNode?_reference (hname : name ∈ ["classRef", "elementRef", "macroRef"]) :
    ofNode? (.element space name attributes children) =
      ((Node.element space name attributes children).attribute? "key").map .group := by
  rw [ofNode?, if_pos]
  simpa [referenceNames] using hname

lemma ofNode?_text (hname : name ∈ ["textNode", "dataRef"]) :
    ofNode? (.element space name attributes children) = some (.group "textNode") := by
  rcases List.mem_pair.mp hname with rfl | rfl <;> rfl

lemma ofNode?_of_skipped (h : Skipped n) : ofNode? n = none := by
  cases h with
  | text | comment | instruction => simp [ofNode?]
  | unknown hname =>
      simp only [particleNames, List.mem_cons, List.not_mem_nil, or_false, not_or] at hname
      simp [ofNode?, referenceNames, textNames, hname]
  | keyless hname hkey =>
      rw [ofNode?_reference hname, attribute?_eq_none_iff.mpr hkey]
      rfl

mutual

lemma ofNode?_of_renders : ∀ (n : Node) (p : Particle) (macros : List String),
    Renders p macros n → ofNode? n = some p
  | .element space name attributes children, p, macros, h => by
      cases h with
      | reference hname hkey =>
          have hreference : name ∈ ["classRef", "elementRef", "macroRef"] :=
            List.mem_append_left ["macroRef"] hname
          rw [ofNode?_reference hreference, attribute?_eq_some_iff.mpr hkey]
          rfl
      | ofMacro hkey =>
          rw [ofNode?_reference (by decide), attribute?_eq_some_iff.mpr hkey]
          rfl
      | text hname => exact ofNode?_text hname
      | sequence h => exact congrArg (some ∘ sequence) (ofNodes_of_rendersAll children _ _ h)
      | alternate h => exact congrArg (some ∘ alternate) (ofNodes_of_rendersAll children _ _ h)

lemma ofNodes_of_rendersAll : ∀ (ns : List Node) (ps : List Particle) (macros : List String),
    RendersAll ps macros ns → ofNodes ns = ps
  | [], _, _, .nil => rfl
  | n :: ns, ps, macros, h => by
      cases h with
      | skipped hskipped h =>
          rw [ofNodes, ofNode?_of_skipped hskipped]
          exact ofNodes_of_rendersAll ns _ _ h
      | part hpart h =>
          rw [ofNodes, ofNode?_of_renders n _ _ hpart]
          exact congrArg _ (ofNodes_of_rendersAll ns _ _ h)

end

mutual

/-- What is read as a particle renders it, and all else is skipped. -/
lemma renders_or_skipped : ∀ n : Node, (∃ p macros, Renders p macros n) ∨ Skipped n
  | .element space name attributes children => by
      by_cases hname : name ∈ particleNames
      · have hkeyed : name ∈ ["classRef", "elementRef", "macroRef"] →
            (∃ key, Keyed attributes key) ∨ Skipped (.element space name attributes children) := by
          intro hreference
          cases hkey : (Node.element space name attributes children).attribute? "key" with
          | none => exact .inr (.keyless hreference (attribute?_eq_none_iff.mp hkey))
          | some key => exact .inl ⟨key, attribute?_eq_some_iff.mp hkey⟩
        obtain ⟨parts, macros, hparts⟩ := exists_rendersAll children
        simp only [particleNames, List.mem_cons, List.not_mem_nil, or_false] at hname
        rcases hname with rfl | rfl | rfl | rfl | rfl | rfl | rfl
        · exact (hkeyed (by decide)).imp_left fun ⟨key, hkey⟩ => ⟨_, _, .reference (by decide) hkey⟩
        · exact (hkeyed (by decide)).imp_left fun ⟨key, hkey⟩ => ⟨_, _, .reference (by decide) hkey⟩
        · exact (hkeyed (by decide)).imp_left fun ⟨key, hkey⟩ => ⟨_, _, .ofMacro hkey⟩
        · exact .inl ⟨_, _, .text (by decide)⟩
        · exact .inl ⟨_, _, .text (by decide)⟩
        · exact .inl ⟨_, _, .sequence hparts⟩
        · exact .inl ⟨_, _, .alternate hparts⟩
      · exact .inr (.unknown hname)
  | .text _ => .inr .text
  | .comment _ => .inr .comment
  | .instruction _ _ => .inr .instruction

lemma exists_rendersAll : ∀ ns : List Node, ∃ parts macros, RendersAll parts macros ns
  | [] => ⟨[], [], .nil⟩
  | n :: ns => by
      obtain ⟨parts, others, hrest⟩ := exists_rendersAll ns
      rcases renders_or_skipped n with ⟨p, macros, hpart⟩ | hskipped
      · exact ⟨_, _, .part hpart hrest⟩
      · exact ⟨_, _, .skipped hskipped hrest⟩

end

/-- **A node is read as the particle that it renders**, and as none if it renders none. -/
theorem ofNode?_eq_some_iff {p : Particle} :
    ofNode? n = some p ↔ ∃ macros, Renders p macros n := by
  constructor
  · intro h
    rcases renders_or_skipped n with ⟨q, macros, hq⟩ | hskipped
    · obtain rfl := Option.some.inj (h.symm.trans (ofNode?_of_renders n q macros hq))
      exact ⟨macros, hq⟩
    · cases h.symm.trans (ofNode?_of_skipped hskipped)
  · rintro ⟨macros, h⟩
    exact ofNode?_of_renders n p macros h

/-- Parts have a rendering, one beside the other, if each of them has one. -/
lemma exists_rendersParts {ps : List Particle} (hparts : ∀ p ∈ ps, ∃ n macros, Renders p macros n) :
    ∃ ns macros, RendersAll ps macros ns := by
  induction ps with
  | nil => exact ⟨[], [], .nil⟩
  | cons p ps ih =>
      obtain ⟨⟨n, macros, hfirst⟩, hrest⟩ := List.forall_mem_cons.mp hparts
      obtain ⟨ns, others, hrest⟩ := ih hrest
      exact ⟨_, _, .part hfirst hrest⟩

/-- Every particle has a rendering. -/
lemma exists_renders (t : Particle) : ∃ n macros, Renders t macros n := by
  induction t using ind with
  | group ident =>
      have hkey : Keyed [⟨none, "key", ident⟩] ident := ⟨[], [], rfl, nofun⟩
      exact ⟨.element none "classRef" _ [], [], .reference (by decide) hkey⟩
  | sequence ps ih =>
      obtain ⟨ns, macros, h⟩ := exists_rendersParts ih
      exact ⟨.element none "sequence" [] ns, macros, .sequence h⟩
  | alternate ps ih =>
      obtain ⟨ns, macros, h⟩ := exists_rendersParts ih
      exact ⟨.element none "alternate" [] ns, macros, .alternate h⟩

end Particle

/-! ### The macros of a rendering -/

mutual

/-- A rendering refers to its macros where particles are read. -/
lemma holdsMacro_of_renders : ∀ (n : Node) (p : Particle) (macros : List String),
    Renders p macros n → ∀ key ∈ macros, n.HoldsMacro key
  | .element space name attributes children, p, macros, h => by
      cases h with
      | reference | text => exact nofun
      | ofMacro hkey =>
          intro key hmem
          obtain rfl := List.mem_singleton.mp hmem
          exact .reference rfl (attribute?_eq_some_iff.mpr hkey)
      | sequence h =>
          intro key hmem
          obtain ⟨part, hpart, hholds⟩ := holdsMacro_of_rendersAll children _ _ h key hmem
          exact .part (.inl rfl) hpart hholds
      | alternate h =>
          intro key hmem
          obtain ⟨part, hpart, hholds⟩ := holdsMacro_of_rendersAll children _ _ h key hmem
          exact .part (.inr rfl) hpart hholds

lemma holdsMacro_of_rendersAll : ∀ (ns : List Node) (ps : List Particle) (macros : List String),
    RendersAll ps macros ns → ∀ key ∈ macros, ∃ n ∈ ns, n.HoldsMacro key
  | [], _, _, .nil => nofun
  | n :: ns, ps, macros, h => by
      cases h with
      | skipped _ h =>
          intro key hmem
          obtain ⟨m, hm, hholds⟩ := holdsMacro_of_rendersAll ns _ _ h key hmem
          exact ⟨m, List.mem_cons_of_mem _ hm, hholds⟩
      | part hpart h =>
          intro key hmem
          rcases List.mem_append.mp hmem with hmem | hmem
          · exact ⟨n, List.mem_cons_self, holdsMacro_of_renders n _ _ hpart key hmem⟩
          · obtain ⟨m, hm, hholds⟩ := holdsMacro_of_rendersAll ns _ _ h key hmem
            exact ⟨m, List.mem_cons_of_mem _ hm, hholds⟩

end

/-! ### Reading content -/

namespace Content

variable {t : Particle} {macros : List String}

/-- Content is read as the particle of the rendering that it holds, unless this is a reference to
a macro. -/
lemma ofNode_of_renders (helements : held.elements = [child]) (h : Renders t macros child)
    (hname : child.name ≠ "macroRef") : ofNode held = .model t := by
  simp only [ofNode, helements, if_neg hname, Particle.ofNode?_of_renders child t macros h,
    ofParticle?]

/-- Content that holds a reference to a macro is read as what the macro holds. -/
lemma ofNode_of_renders_macro (helements : held.elements = [child]) (h : Renders t macros child)
    (hname : child.name = "macroRef") :
    ∃ key, t = .group key ∧ macros = [key] ∧ ofNode held = .ofMacro key := by
  cases h with
  | ofMacro hkey =>
      refine ⟨_, rfl, rfl, ?_⟩
      simp only [ofNode, helements, if_pos hname, attribute?_eq_some_iff.mpr hkey]
  | reference h | text h =>
      obtain rfl : _ = "macroRef" := hname
      exact absurd h (by decide)
  | sequence | alternate => exact absurd hname (by simp [Node.name])

lemma ofNode_of_length_ne (h : held.elements.length ≠ 1) : ofNode held = .empty := by
  rw [ofNode]
  split
  · next child helements => simp [helements] at h
  · rfl

/-- Content that is read as anything holds a rendering. -/
lemma exists_renders_of_ofNode (h : ofNode held ≠ .empty) :
    ∃ child t macros, held.elements = [child] ∧ Renders t macros child := by
  rw [ofNode] at h
  split at h
  · next child helements =>
    rcases Particle.renders_or_skipped child with ⟨t, macros, hrenders⟩ | hskipped
    · exact ⟨child, t, macros, helements, hrenders⟩
    · exfalso
      rw [Particle.ofNode?_of_skipped hskipped] at h
      split at h
      · next hname =>
        cases hskipped with
        | unknown hunknown =>
            obtain rfl : _ = "macroRef" := hname
            exact hunknown (by decide)
        | keyless _ hkey => exact h (by rw [attribute?_eq_none_iff.mpr hkey])
        | text | comment | instruction => exact absurd hname (by simp [Node.name])
      · exact h rfl
  · exact absurd rfl h

/-- **Reading content undoes rendering.**  Every particle has renderings.  Content that holds a
rendering and no other element is read as its particle, or as what a macro holds if the rendering
is a reference to this macro; content that holds no element, or several, is read as none, and
what is not read as none holds a rendering.  The content of a spec is read like this, and the
macros that the rendering in it refers to are among those of the spec. -/
theorem ofNode_inverts :
    (∀ t : Particle, ∃ n macros, Renders t macros n) ∧
    (∀ held child t macros, held.elements = [child] → Renders t macros child →
      (child.name ≠ "macroRef" → ofNode held = .model t) ∧
      (child.name = "macroRef" →
        ∃ key, t = .group key ∧ macros = [key] ∧ ofNode held = .ofMacro key)) ∧
    (∀ held : Node, held.elements.length ≠ 1 → ofNode held = .empty) ∧
    (∀ held, ofNode held ≠ .empty →
      ∃ child t macros, held.elements = [child] ∧ Renders t macros child) ∧
    ∀ language n e held, SpecEntry.ofNode language n = .ok e →
      n.elementNamed? "content" = some held →
      (∀ content, e.spec.content? = some content → content = ofNode held) ∧
      ∀ child t macros, held.elements = [child] → Renders t macros child →
        ∀ key ∈ macros, key ∈ e.macros := by
  refine ⟨Particle.exists_renders, fun held child t macros helements h => ⟨?_, ?_⟩,
    fun held => ofNode_of_length_ne, fun held => exists_renders_of_ofNode,
    fun language n e held hofNode hheld => ⟨fun content hcontent => ?_, ?_⟩⟩
  · exact ofNode_of_renders helements h
  · exact ofNode_of_renders_macro helements h
  · exact SpecEntry.content_of_ofNode hofNode hcontent hheld
  · intro child t macros helements h key hkey
    refine ((SpecEntry.readOff_of_ofNode hofNode).macros key).mpr ?_
    exact Node.namesMacro_of_holds hheld (by simp [helements])
      (holdsMacro_of_renders child t macros h key hkey)

/-- A reference to what a macro holds. -/
def macroNode : Node := .element none "macroRef" [⟨none, "key", "macro.limited"⟩] []

/-- A choice between text and what the macro holds, with a comment. -/
def limitedNode : Node :=
  .element none "alternate" [] [
    .element none "dataRef" [⟨none, "key", "teidata.word"⟩] [],
    .comment "or",
    macroNode]

/-- A heading and then the choice, with text, a list of values and a reference that has a key of
another namespace. -/
def headedNode : Node :=
  .element (some "http://www.tei-c.org/ns/1.0") "sequence" [] [
    .text " ",
    .element none "elementRef" [⟨none, "minOccurs", "0"⟩, ⟨none, "key", "head"⟩] [.text "first"],
    .element none "valList" [] [.element none "classRef" [⟨none, "key", "model.lost"⟩] []],
    .element none "classRef" [⟨some "urn:other", "key", "model.lost"⟩] [],
    limitedNode]

/-- The particle that they render. -/
def headedParticle : Particle :=
  .sequence [.group "head", .alternate [.group "textNode", .group "macro.limited"]]

lemma renders_headedNode : Renders headedParticle ["macro.limited"] headedNode := by
  have hlimited : Renders (.alternate [.group "textNode", .group "macro.limited"])
      ["macro.limited"] limitedNode :=
    .alternate (.part (.text (by decide)) (.skipped .comment
      (.part (.ofMacro ⟨[], [], rfl, nofun⟩) .nil)))
  have hkey : Keyed [⟨none, "minOccurs", "0"⟩, ⟨none, "key", "head"⟩] "head" :=
    ⟨[⟨none, "minOccurs", "0"⟩], [], rfl, by decide⟩
  have hkeyless : Keyless [⟨some "urn:other", "key", "model.lost"⟩] := by
    simp [Keyless]
  exact .sequence (.skipped .text (.part (.reference (by decide) hkey)
    (.skipped (.unknown (by decide)) (.skipped (.keyless (by decide) hkeyless)
      (.part hlimited .nil)))))

/-- What holds some nodes as content. -/
def heldNode (children : List Node) : Node := .element none "content" [] children

/-- The spec of an element with some nodes as content. -/
def specNode (children : List Node) : Node :=
  .element none "elementSpec" [⟨none, "ident", "p"⟩] [.text " ", heldNode children]

/-- The sequence is read whatever stands between its parts, alone and in the spec of an element, and
a macro alone is read as such.  Two particles beside each other are no content. -/
theorem ofNode_inverts_headed :
    Renders headedParticle ["macro.limited"] headedNode ∧
    ofNode (heldNode [.text " ", headedNode, .comment "end"]) = .model headedParticle ∧
    ofNode (heldNode [macroNode]) = .ofMacro "macro.limited" ∧
    ofNode (heldNode [headedNode, limitedNode]) = .empty ∧
    ∃ e, SpecEntry.ofNode "en" (specNode [headedNode]) = .ok e ∧
      e.spec.content? = some (.model headedParticle) ∧ "macro.limited" ∈ e.macros := by
  have hmacro : Renders (.group "macro.limited") ["macro.limited"] macroNode :=
    .ofMacro ⟨[], [], rfl, nofun⟩
  obtain ⟨-, hrendered, hnone, -, hspec⟩ := ofNode_inverts
  have hentry : ∃ e, SpecEntry.ofNode "en" (specNode [headedNode]) = .ok e ∧
      ∃ content, e.spec.content? = some content := ⟨_, rfl, _, rfl⟩
  obtain ⟨e, he, content, hcontent⟩ := hentry
  have hheaded {children : List Node} (h : (heldNode children).elements = [headedNode]) :
      ofNode (heldNode children) = .model headedParticle :=
    (hrendered _ _ _ _ h renders_headedNode).1 (by decide)
  obtain ⟨hread, hmacros⟩ := hspec "en" _ e (heldNode [headedNode]) he rfl
  refine ⟨renders_headedNode, hheaded rfl, ?_, hnone _ (by decide), e, he, ?_, ?_⟩
  · obtain ⟨key, hkey, -, hofMacro⟩ := (hrendered (heldNode [macroNode]) _ _ _ rfl hmacro).2 rfl
    obtain rfl := Particle.group.inj hkey
    exact hofMacro
  · rw [hcontent, hread content hcontent, hheaded rfl]
  · exact hmacros _ _ _ rfl renders_headedNode _ (List.mem_singleton_self _)

end Content

end EditorSchema
