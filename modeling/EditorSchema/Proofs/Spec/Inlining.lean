/-
Inlining: what content becomes when macros are replaced by what they hold, told without regard
to how it is worked out.

Content refers to macros, and these refer to others.  If it is known what each macro that some
content refers to becomes, the content becomes what is left after they are put in place of
their names.  Nothing is said of an order, and nothing is kept for later, so content becomes
one thing only; and where content becomes something, no macro that it leads to leads back to
itself.

* `Content.references`, `Table.Refers`: the macros that content refers to;
* `Content.inline`: content with given contents in place of macros;
* `Table.Inlines`: what content becomes when this is done throughout;
* `Table.Inlines.unique`, `Table.Inlines.plain`: it becomes one thing only, in which nothing is
  left to inline;
* `Table.acyclic_of_inlines`: where every macro becomes something, none leads back to itself.
-/
import Mathlib.Tactic
import EditorSchema.Proofs.Acyclic
import EditorSchema.Proofs.Content.Shape
import EditorSchema.Spec.Table

namespace EditorSchema

open Relation (ReflTransGen TransGen)

variable {t : Table} {value other : String → Content} {ident : String}

/-! ### References to macros -/

/-- Whether an ident is that of a macro. -/
def Table.isMacro (t : Table) (ident : String) : Bool := (t.macro? ident).isSome

lemma Table.isMacro_iff : t.isMacro ident = true ↔ ∃ m, t.macro? ident = some m :=
  Option.isSome_iff_exists

/-- The macros that a particle refers to: those whose idents are among its groups. -/
def Particle.references (t : Table) (p : Particle) : List String := p.leaves.filter t.isMacro

/-- The macros that content refers to: the one that it names, even if there is none of that
ident, or those whose idents are among its groups. -/
def Content.references (t : Table) : Content → List String
  | .empty => []
  | .ofMacro ident => [ident]
  | .model p => p.references t

/-- The content of one macro refers to the other. -/
def Table.Refers (t : Table) (a b : String) : Prop :=
  ∃ m, t.macro? a = some m ∧ b ∈ m.content.references t

/-! ### Inlining once -/

namespace Particle

mutual

/-- What is left of a particle with given contents in place of macros: a group that is the ident
of a macro becomes the particle of its content, and disappears if there is none; a sequence or
choice that is left without a part disappears. -/
def inline (t : Table) (value : String → Content) : Particle → Option Particle
  | .group ident => if t.isMacro ident then (value ident).particle? else some (.group ident)
  | .sequence parts =>
    match inlineAll t value parts with
    | [] => none
    | left => some (.sequence left)
  | .alternate branches =>
    match inlineAll t value branches with
    | [] => none
    | left => some (.alternate left)

/-- What is left of each of several particles, where something is. -/
def inlineAll (t : Table) (value : String → Content) : List Particle → List Particle
  | [] => []
  | p :: ps => (inline t value p).toList ++ inlineAll t value ps

end

lemma inlineAll_eq (ps : List Particle) :
    inlineAll t value ps = ps.flatMap fun p => (p.inline t value).toList := by
  induction ps with
  | nil => rfl
  | cons p ps ih => rw [inlineAll, ih, List.flatMap_cons]

/-- A part that is left is left of one of the parts. -/
lemma mem_inlineAll {ps : List Particle} {q : Particle} :
    q ∈ inlineAll t value ps ↔ ∃ p ∈ ps, p.inline t value = some q := by
  rw [inlineAll_eq, List.mem_flatMap]
  simp only [Option.mem_toList]

lemma inline_sequence_eq_some {ps : List Particle} {q : Particle} :
    (sequence ps).inline t value = some q ↔
      inlineAll t value ps ≠ [] ∧ q = .sequence (inlineAll t value ps) := by
  rw [inline]
  split
  · next h => simp [h]
  · next hne =>
    exact ⟨fun heq => ⟨hne, (Option.some.inj heq).symm⟩, fun hq => congrArg some hq.2.symm⟩

lemma inline_alternate_eq_some {ps : List Particle} {q : Particle} :
    (alternate ps).inline t value = some q ↔
      inlineAll t value ps ≠ [] ∧ q = .alternate (inlineAll t value ps) := by
  rw [inline]
  split
  · next h => simp [h]
  · next hne =>
    exact ⟨fun heq => ⟨hne, (Option.some.inj heq).symm⟩, fun hq => congrArg some hq.2.symm⟩

lemma references_cons (p : Particle) (ps : List Particle) :
    (leavesAll (p :: ps)).filter t.isMacro =
      p.references t ++ (leavesAll ps).filter t.isMacro := by
  rw [leavesAll, List.filter_append, references]

/-- What one of several particles refers to, they refer to. -/
lemma mem_references_of_mem {p : Particle} {ps : List Particle} (hp : p ∈ ps)
    (h : ident ∈ p.references t) : ident ∈ (leavesAll ps).filter t.isMacro := by
  obtain ⟨hleaf, hmacro⟩ := List.mem_filter.mp h
  rw [leavesAll_eq]
  exact List.mem_filter.mpr ⟨List.mem_flatMap.mpr ⟨p, hp, hleaf⟩, hmacro⟩

lemma inlineAll_congr {ps : List Particle}
    (h : ∀ p ∈ ps, p.inline t value = p.inline t other) :
    inlineAll t value ps = inlineAll t other ps := by
  rw [inlineAll_eq, inlineAll_eq]
  exact List.flatMap_congr fun p hp => congrArg Option.toList (h p hp)

/-- What is left hangs on the macros alone that the particle refers to. -/
lemma inline_congr {p : Particle} (h : ∀ ident ∈ p.references t, value ident = other ident) :
    p.inline t value = p.inline t other := by
  induction p using ind with
  | group ident =>
      rw [inline, inline]
      split
      · next hmacro => rw [h ident (by simp [references, leaves, hmacro])]
      · rfl
  | sequence ps ih =>
      rw [references, leaves] at h
      have hps : inlineAll t value ps = inlineAll t other ps := inlineAll_congr fun p hp =>
        ih p hp fun ident hident => h ident (mem_references_of_mem hp hident)
      rw [inline, inline, hps]
  | alternate ps ih =>
      rw [references, leaves] at h
      have hps : inlineAll t value ps = inlineAll t other ps := inlineAll_congr fun p hp =>
        ih p hp fun ident hident => h ident (mem_references_of_mem hp hident)
      rw [inline, inline, hps]

end Particle

namespace Content

/-- Content with given contents in place of macros. -/
def inline (t : Table) (value : String → Content) : Content → Content
  | .empty => .empty
  | .ofMacro ident => value ident
  | .model p => .ofParticle? (p.inline t value)

lemma inline_congr {c : Content} (h : ∀ ident ∈ c.references t, value ident = other ident) :
    c.inline t value = c.inline t other := by
  cases c with
  | empty => rfl
  | ofMacro ident => exact h ident (List.mem_singleton_self ident)
  | model p => exact congrArg ofParticle? (Particle.inline_congr h)

/-- Nothing is left to inline in content: it refers to no macro, and every sequence and every
choice in it has a part. -/
structure Plain (t : Table) (c : Content) : Prop where
  references : c.references t = []
  filled : ∀ p, c = .model p → p.Filled

end Content

/-! ### Nothing is left to inline -/

namespace Particle

/-- What is left of particles is filled and refers to no macro, if this holds of what is left of
each. -/
lemma plain_of_inlineAll {ps : List Particle}
    (h : ∀ p ∈ ps, ∀ q, p.inline t value = some q → q.Filled ∧ q.references t = []) :
    (∀ q ∈ inlineAll t value ps, q.Filled) ∧
      (leavesAll (inlineAll t value ps)).filter t.isMacro = [] := by
  have hleft : ∀ q ∈ inlineAll t value ps, q.Filled ∧ q.references t = [] := by
    intro q hq
    obtain ⟨p, hp, hinline⟩ := mem_inlineAll.mp hq
    exact h p hp q hinline
  refine ⟨fun q hq => (hleft q hq).1, ?_⟩
  rw [leavesAll_eq, List.filter_flatMap, List.flatMap_eq_nil_iff]
  exact fun q hq => (hleft q hq).2

/-- What is left of a particle is filled and refers to no macro, if the contents in place of
macros are such. -/
lemma plain_of_inline {p q : Particle}
    (hvalue : ∀ ident ∈ p.references t, (value ident).Plain t)
    (h : p.inline t value = some q) : q.Filled ∧ q.references t = [] := by
  induction p using ind generalizing q with
  | group ident =>
      rw [inline] at h
      split at h
      · next hmacro =>
        have hplain : (value ident).Plain t :=
          hvalue ident (by simp [references, leaves, hmacro])
        cases hcontent : value ident with
        | empty => rw [hcontent] at h; cases h
        | ofMacro ident => rw [hcontent] at h; cases h
        | model p =>
            rw [hcontent] at h hplain
            cases h
            exact ⟨hplain.filled _ rfl, hplain.references⟩
      · next hmacro =>
        cases h
        exact ⟨throughout_group.mpr ⟨nofun, nofun⟩, by simp [references, leaves, hmacro]⟩
  | sequence ps ih =>
      obtain ⟨hne, rfl⟩ := inline_sequence_eq_some.mp h
      rw [references, leaves] at hvalue
      obtain ⟨hfilled, hreferences⟩ := plain_of_inlineAll fun p hp q =>
        ih p hp fun ident hident => hvalue ident (mem_references_of_mem hp hident)
      refine ⟨throughout_sequence.mpr ⟨⟨?_, nofun⟩, hfilled⟩, ?_⟩
      · exact fun heq => hne (sequence.inj heq)
      · rw [references, leaves, hreferences]
  | alternate ps ih =>
      obtain ⟨hne, rfl⟩ := inline_alternate_eq_some.mp h
      rw [references, leaves] at hvalue
      obtain ⟨hfilled, hreferences⟩ := plain_of_inlineAll fun p hp q =>
        ih p hp fun ident hident => hvalue ident (mem_references_of_mem hp hident)
      refine ⟨throughout_alternate.mpr ⟨⟨nofun, ?_⟩, hfilled⟩, ?_⟩
      · exact fun heq => hne (alternate.inj heq)
      · rw [references, leaves, hreferences]

lemma inlineAll_eq_self {ps : List Particle} (h : ∀ p ∈ ps, p.inline t value = some p) :
    inlineAll t value ps = ps :=
  calc inlineAll t value ps = ps.flatMap fun p => (p.inline t value).toList := inlineAll_eq ps
    _ = ps.flatMap fun p => [p] := List.flatMap_congr fun p hp => congrArg Option.toList (h p hp)
    _ = ps := List.flatMap_singleton' ps

/-- Particles that refer to no macro are each such. -/
lemma references_eq_nil_of_mem {ps : List Particle} (h : (leavesAll ps).filter t.isMacro = [])
    {p : Particle} (hp : p ∈ ps) : p.references t = [] := by
  rw [List.eq_nil_iff_forall_not_mem]
  intro ident hident
  have hmem : ident ∈ (leavesAll ps).filter t.isMacro := mem_references_of_mem hp hident
  rw [h] at hmem
  cases hmem

/-- All of a particle is left if it is filled and refers to no macro. -/
lemma inline_eq_self {p : Particle} (hfilled : p.Filled) (h : p.references t = []) :
    p.inline t value = some p := by
  induction p using ind with
  | group ident =>
      have hmacro : t.isMacro ident = false := by simpa [references, leaves] using h
      rw [inline, hmacro]
      rfl
  | sequence ps ih =>
      obtain ⟨⟨hne, -⟩, hps⟩ := throughout_sequence.mp hfilled
      rw [references, leaves] at h
      have hself : inlineAll t value ps = ps := inlineAll_eq_self fun p hp =>
        ih p hp (hps p hp) (references_eq_nil_of_mem h hp)
      rw [inline_sequence_eq_some, hself]
      exact ⟨fun heq => hne (heq ▸ rfl), rfl⟩
  | alternate ps ih =>
      obtain ⟨⟨-, hne⟩, hps⟩ := throughout_alternate.mp hfilled
      rw [references, leaves] at h
      have hself : inlineAll t value ps = ps := inlineAll_eq_self fun p hp =>
        ih p hp (hps p hp) (references_eq_nil_of_mem h hp)
      rw [inline_alternate_eq_some, hself]
      exact ⟨fun heq => hne (heq ▸ rfl), rfl⟩

end Particle

namespace Content

variable {c : Content}

lemma plain_empty : Plain t .empty := ⟨rfl, nofun⟩

/-- Nothing is left to inline after it was done, if nothing is in the contents in place of
macros. -/
lemma plain_inline (hvalue : ∀ ident ∈ c.references t, (value ident).Plain t) :
    (c.inline t value).Plain t := by
  cases c with
  | empty => exact plain_empty
  | ofMacro ident => exact hvalue ident (List.mem_singleton_self ident)
  | model p =>
      rw [inline]
      cases hleft : p.inline t value with
      | none => exact plain_empty
      | some q =>
          obtain ⟨hfilled, hreferences⟩ := Particle.plain_of_inline hvalue hleft
          exact ⟨hreferences, fun p' hp' => Content.model.inj hp' ▸ hfilled⟩

/-- Content in which nothing is left to inline stays as it is. -/
lemma inline_eq_self (h : c.Plain t) : c.inline t value = c := by
  cases c with
  | empty => rfl
  | ofMacro ident => exact absurd h.references (List.cons_ne_nil _ _)
  | model p => rw [inline, Particle.inline_eq_self (h.filled p rfl) h.references]; rfl

end Content

/-! ### Inlining throughout -/

namespace Table

variable {c d : Content}

/-- **What content becomes when macros are inlined throughout**: the content with other contents
in place of the macros that it refers to, where each of these is what the content of the macro
becomes. -/
inductive Inlines (t : Table) : Content → Content → Prop
  | intro (c : Content) (value : String → Content)
      (macros : ∀ ident ∈ c.references t, t.isMacro ident = true)
      (values : ∀ ident ∈ c.references t, ∀ m, t.macro? ident = some m →
        Inlines t m.content (value ident)) :
      Inlines t c (c.inline t value)

/-- Content becomes one thing only. -/
theorem Inlines.unique (h : t.Inlines c d) {d' : Content} (h' : t.Inlines c d') : d = d' := by
  induction h generalizing d' with
  | intro c value macros values ih =>
      obtain ⟨_, value', _, values'⟩ := h'
      refine Content.inline_congr fun ident hident => ?_
      obtain ⟨m, hm⟩ := isMacro_iff.mp (macros ident hident)
      exact ih ident hident m hm (values' ident hident m hm)

/-- In what content becomes nothing is left to inline. -/
theorem Inlines.plain (h : t.Inlines c d) : d.Plain t := by
  induction h with
  | intro c value macros values ih =>
      refine Content.plain_inline fun ident hident => ?_
      obtain ⟨m, hm⟩ := isMacro_iff.mp (macros ident hident)
      exact ih ident hident m hm

/-- Content in which nothing is left to inline becomes itself. -/
lemma inlines_self (h : c.Plain t) : t.Inlines c c := by
  have hself : c.inline t (fun _ => .empty) = c := Content.inline_eq_self h
  have hnone {ident : String} (hident : ident ∈ c.references t) : False := by
    rw [h.references] at hident
    cases hident
  have hinlines : t.Inlines c (c.inline t fun _ => .empty) :=
    .intro c _ (fun _ hident => (hnone hident).elim) (fun _ hident => (hnone hident).elim)
  rwa [hself] at hinlines

/-- What a macro becomes: what its content does. -/
def Becomes (t : Table) (ident : String) (d : Content) : Prop :=
  ∃ m, t.macro? ident = some m ∧ t.Inlines m.content d

lemma Becomes.isMacro (h : t.Becomes ident d) : t.isMacro ident = true :=
  let ⟨m, hm, _⟩ := h
  isMacro_iff.mpr ⟨m, hm⟩

/-- A macro becomes one thing only. -/
lemma Becomes.unique (h : t.Becomes ident d) {d' : Content} (h' : t.Becomes ident d') : d = d' := by
  obtain ⟨m, hm, hinlines⟩ := h
  obtain ⟨m', hm', hinlines'⟩ := h'
  obtain rfl := Option.some.inj (hm.symm.trans hm')
  exact hinlines.unique hinlines'

/-- Content becomes what is left of it with what macros become in their place. -/
lemma inlines_of_becomes (h : ∀ ident ∈ c.references t, t.Becomes ident (value ident)) :
    t.Inlines c (c.inline t value) := by
  refine .intro c value (fun ident hident => (h ident hident).isMacro) ?_
  intro ident hident m hm
  obtain ⟨m', hm', hinlines⟩ := h ident hident
  obtain rfl := Option.some.inj (hm.symm.trans hm')
  exact hinlines

/-- Content that names a macro becomes what the macro does. -/
lemma inlines_ofMacro (h : t.Becomes ident d) : t.Inlines (.ofMacro ident) d := by
  have hinlines : t.Inlines (.ofMacro ident) ((Content.ofMacro ident).inline t fun _ => d) :=
    inlines_of_becomes (List.forall_mem_singleton.mpr h)
  exact hinlines

/-- A macro that content refers to leads to no infinite chain of macros, if the content becomes
something. -/
lemma Inlines.acc (h : t.Inlines c d) :
    ∀ ident ∈ c.references t, Acc (fun b a => t.Refers a b) ident := by
  induction h with
  | intro c value macros values ih =>
      intro ident hident
      obtain ⟨m, hm⟩ := isMacro_iff.mp (macros ident hident)
      refine .intro ident fun b ⟨m', hm', hb⟩ => ?_
      obtain rfl := Option.some.inj (hm.symm.trans hm')
      exact ih ident hident m hm b hb

/-- **Where the content of every macro becomes something, no macro leads back to itself.** -/
theorem acyclic_of_inlines (h : ∀ ident m, t.macro? ident = some m → ∃ d, t.Inlines m.content d) :
    Acyclic t.Refers := by
  have hacc (a : String) : Acc (fun b a => t.Refers a b) a := by
    refine .intro a fun b ⟨m, hm, hb⟩ => ?_
    obtain ⟨d, hd⟩ := h a m hm
    exact hd.acc b hb
  intro a
  induction hacc a with
  | intro a _ ih =>
      intro hcycle
      obtain ⟨b, hedge, hback⟩ := TransGen.head'_iff.mp hcycle
      exact ih b hedge (TransGen.tail' hback hedge)

end Table

end EditorSchema
