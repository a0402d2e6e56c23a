/-
What comes of expanding content, step by step.

The macros that are being expanded form a chain, in which the content of each refers to the
next one; every other macro is still fresh.  So a macro that is not fresh when its turn comes
is one of the chain, and with it the chain has come back to itself.  What is known of a macro
is what it becomes when it is inlined throughout, whichever content asked for it first.

* `Expansion.Right`: what comes of an expansion is what it should, and what ends it is a fault
  of the table;
* `Expansion.macro_right`: this holds of a macro, however many are being expanded;
* `Expansion.ofSpecs_right`: it holds of specs one after the other, in any order.
-/
import Mathlib.Tactic
import EditorSchema.Proofs.Outcome
import EditorSchema.Proofs.Spec.Inlining
import EditorSchema.Spec.Expansion

namespace EditorSchema

open Outcome

variable {t : Table} {ident : String} {fresh chain : List String} {c d : Content}

namespace Table

lemma mem_toList {s : Spec} : s ∈ t.toList ↔ t.get? s.ident = some s := by
  rw [toList, Dictionary.values, List.mem_map]
  constructor
  · rintro ⟨⟨key, spec⟩, hentry, rfl⟩
    have hget : t.specs.get? key = some spec := Dictionary.get?_eq_some_iff.mpr hentry
    rw [t.keyed hget]
    exact hget
  · intro h
    exact ⟨(s.ident, s), Dictionary.get?_eq_some_iff.mp h, rfl⟩

lemma mem_toList_of_get? {s : Spec} (h : t.get? ident = some s) : s ∈ t.toList := by
  have hident : s.ident = ident := t.keyed h
  rw [mem_toList, hident]
  exact h

lemma get?_of_macro? {m : MacroSpec} (h : t.macro? ident = some m) :
    t.get? ident = some (.ofMacro m) := by
  rw [macro?] at h
  split at h
  · next s hs =>
    cases h
    exact hs
  · cases h

/-- Some spec of a table has this content. -/
def Has (t : Table) (c : Content) : Prop := ∃ s ∈ t.toList, s.content? = some c

lemma has_of_macro? {m : MacroSpec} (h : t.macro? ident = some m) : t.Has m.content :=
  ⟨.ofMacro m, mem_toList_of_get? (get?_of_macro? h), rfl⟩

/-- A macro that refers to itself by way of others: the content of each macro of a chain refers
to the next one, and that of the last one back to a macro of the chain, which holds no macro
twice. -/
structure Circle (t : Table) (chain : List String) (repeated : String) : Prop where
  refers : List.IsChain t.Refers (chain ++ [repeated])
  repeated_mem : repeated ∈ chain
  once : chain.Nodup
  macros : ∀ ident ∈ chain, t.isMacro ident = true

/-- **What may be wrong with a table**: content names a macro that is not there, or a macro
refers to itself by way of others. -/
inductive Faulty (t : Table) : SpecFault → Prop
  | missing {ident : String} (hcontent : t.Has (.ofMacro ident)) (h : t.macro? ident = none) :
      Faulty t (.notFound ident Expansion.tablePlace)
  | circle {chain : List String} {repeated : String} (h : t.Circle chain repeated) :
      Faulty t (.circularReference chain repeated)

end Table

namespace Expansion

variable {k : Known}

/-- What is known of macros is what they become. -/
def Sound (t : Table) (k : Known) : Prop :=
  ∀ ident d, k.get? ident = some d → t.Becomes ident d

lemma sound_empty : Sound t .empty := nofun

lemma Sound.insert (hk : Sound t k) (h : t.Becomes ident d) : Sound t (k.insert ident d) := by
  intro other e hother
  rw [Dictionary.get?_insert] at hother
  split at hother
  · next heq =>
    cases hother
    exact heq ▸ h
  · exact hk other e hother

/-- **What should come of an expansion**: a result of which `P` holds, with sound knowledge, or
else a fault of the table. -/
def Right {α : Type} (t : Table) (P : α → Prop) : Except SpecFault (α × Known) → Prop
  | .ok (a, k) => P a ∧ Sound t k
  | .error fault => t.Faulty fault

section Right

variable {α β : Type} {P P' : α → Prop} {Q : β → Prop}

lemma right_ok {a : α} (ha : P a) (hk : Sound t k) : Right t P (.ok (a, k)) := ⟨ha, hk⟩

lemma Right.imp {x : Except SpecFault (α × Known)} (hx : Right t P x)
    (h : ∀ a, P a → P' a) : Right t P' x := by
  cases x with
  | ok result => exact ⟨h _ hx.1, hx.2⟩
  | error fault => exact hx

/-- One expansion after the other. -/
lemma Right.bind {x : Except SpecFault (α × Known)}
    {f : α × Known → Except SpecFault (β × Known)} (hx : Right t P x)
    (hf : ∀ a k, P a → Sound t k → Right t Q (f (a, k))) : Right t Q (x >>= f) := by
  cases x with
  | ok result => exact hf _ _ hx.1 hx.2
  | error fault => exact hx

end Right

/-! ### The chain of macros that are being expanded -/

/-- The macros of the chain are being expanded, and all others are fresh. -/
structure Standing (t : Table) (fresh chain : List String) : Prop where
  refers : List.IsChain t.Refers chain
  once : chain.Nodup
  macros : ∀ ident ∈ chain, t.isMacro ident = true
  fresh_iff : ∀ ident, t.contains ident = true → (ident ∈ fresh ↔ ident ∉ chain)

lemma standing_start (t : Table) : Standing t t.idents [] where
  refers := .nil
  once := .nil
  macros := nofun
  fresh_iff ident h := by
    have hmem : ident ∈ t.idents := Dictionary.mem_keys_iff.mpr h
    exact ⟨fun _ => List.not_mem_nil, fun _ => hmem⟩

/-- The last macro of the chain refers to an ident, if there is a last one. -/
def Leads (t : Table) (chain : List String) (ident : String) : Prop :=
  List.IsChain t.Refers (chain ++ [ident])

lemma contains_of_isMacro (h : t.isMacro ident = true) : t.contains ident = true := by
  obtain ⟨m, hm⟩ := Table.isMacro_iff.mp h
  exact Option.isSome_iff_exists.mpr ⟨_, Table.get?_of_macro? hm⟩

/-- The chain goes on with a fresh macro to which it leads. -/
lemma Standing.open (h : Standing t fresh chain) (hisMacro : t.isMacro ident = true)
    (hfresh : ident ∈ fresh) (hleads : Leads t chain ident) :
    Standing t (without ident fresh) (chain ++ [ident]) where
  refers := hleads
  once := by
    have hnew : ident ∉ chain := (h.fresh_iff ident (contains_of_isMacro hisMacro)).mp hfresh
    refine List.nodup_append.mpr ⟨h.once, List.nodup_singleton ident, fun a ha b hb heq => hnew ?_⟩
    rwa [heq, List.mem_singleton.mp hb] at ha
  macros := by
    intro other hother
    rcases List.mem_append.mp hother with hold | hnew
    · exact h.macros other hold
    · rwa [List.mem_singleton.mp hnew]
  fresh_iff other hother := by
    rw [mem_without, List.mem_append, List.mem_singleton, not_or, h.fresh_iff other hother]

/-- The chain leads from its last macro to what the content of that macro refers to. -/
lemma leads_of_mem {m : MacroSpec} (hleads : Leads t chain ident) (hm : t.macro? ident = some m)
    {other : String} (hother : other ∈ m.content.references t) :
    Leads t (chain ++ [ident]) other := by
  refine List.IsChain.append hleads (.singleton other) fun a ha b hb => ?_
  rw [List.getLast?_concat, Option.mem_some_iff] at ha
  rw [List.head?_cons, Option.mem_some_iff] at hb
  exact ⟨m, ha ▸ hm, hb ▸ hother⟩

/-- A macro to which the chain leads and which is not fresh is one of the chain. -/
lemma Standing.circle (h : Standing t fresh chain) (hisMacro : t.isMacro ident = true)
    (hnot : ident ∉ fresh) (hleads : Leads t chain ident) : t.Circle chain ident where
  refers := hleads
  repeated_mem := by
    by_contra hnew
    exact hnot ((h.fresh_iff ident (contains_of_isMacro hisMacro)).mpr hnew)
  once := h.once
  macros := h.macros

/-! ### Expanding particles and content -/

/-- What comes of macros is right, where some are fresh. -/
def MacroRight (t : Table) (fresh : List String) : Prop :=
  ∀ chain k ident, Standing t fresh chain → Sound t k → Leads t chain ident →
    t.isMacro ident = true ∨ t.Has (.ofMacro ident) →
    Right t (t.Becomes ident) (ofMacro t fresh chain k ident)

/-- Something is what becomes of idents that are macros, however it is put together from what
these become. -/
def FromMacros {α : Type} (t : Table) (idents : List String) (make : (String → Content) → α)
    (a : α) : Prop :=
  (∀ ident ∈ idents, ∃ d, t.Becomes ident d) ∧
    ∀ value, (∀ ident ∈ idents, t.Becomes ident (value ident)) → make value = a

/-- What comes of a particle is right. -/
def ParticleRight (t : Table) (fresh : List String) (p : Particle) : Prop :=
  ∀ chain k, Standing t fresh chain → Sound t k →
    (∀ ident ∈ p.references t, Leads t chain ident) →
    Right t (FromMacros t (p.references t) fun value => p.inline t value)
      (ofParticle t fresh chain k p)

/-- What comes of particles one after the other is right if it is for each of them. -/
lemma particles_right {ps : List Particle} (h : ∀ p ∈ ps, ParticleRight t fresh p)
    (hstanding : Standing t fresh chain) (hk : Sound t k)
    (hleads : ∀ ident ∈ (Particle.leavesAll ps).filter t.isMacro, Leads t chain ident) :
    Right t (FromMacros t ((Particle.leavesAll ps).filter t.isMacro)
      fun value => Particle.inlineAll t value ps) (ofParticles t fresh chain k ps) := by
  induction ps generalizing k with
  | nil =>
      rw [ofParticles]
      exact right_ok ⟨List.forall_mem_nil _, fun _ _ => rfl⟩ hk
  | cons p ps ih =>
      have hps : ∀ q ∈ ps, ParticleRight t fresh q := fun q hq => h q (List.mem_cons_of_mem _ hq)
      simp only [Particle.references_cons, List.forall_mem_append] at hleads
      rw [ofParticles]
      refine (h p List.mem_cons_self chain k hstanding hk hleads.1).bind fun left k hleft hk => ?_
      refine (ih hps hk hleads.2).bind fun others k hothers hk => right_ok ?_ hk
      rw [Particle.references_cons]
      obtain ⟨hleft, hlefteq⟩ := hleft
      obtain ⟨hothers, hotherseq⟩ := hothers
      refine ⟨List.forall_mem_append.mpr ⟨hleft, hothers⟩, fun value hvalue => ?_⟩
      obtain ⟨hvalueleft, hvalueothers⟩ := List.forall_mem_append.mp hvalue
      have hfirst : p.inline t value = left := hlefteq value hvalueleft
      have hrest : Particle.inlineAll t value ps = others := hotherseq value hvalueothers
      change Particle.inlineAll t value (p :: ps) = left.toList ++ others
      rw [Particle.inlineAll, hfirst, hrest]

lemma wrapAll_inlineAll_sequence (value : String → Content) (ps : List Particle) :
    wrapAll .sequence (Particle.inlineAll t value ps) = (Particle.sequence ps).inline t value := by
  rw [Particle.inline]
  cases Particle.inlineAll t value ps <;> rfl

lemma wrapAll_inlineAll_alternate (value : String → Content) (ps : List Particle) :
    wrapAll .alternate (Particle.inlineAll t value ps) =
      (Particle.alternate ps).inline t value := by
  rw [Particle.inline]
  cases Particle.inlineAll t value ps <;> rfl

/-- **What comes of a particle is right** if it is for macros. -/
lemma particle_right (hmacros : MacroRight t fresh) (p : Particle) : ParticleRight t fresh p := by
  induction p using Particle.ind with
  | group ident =>
      intro chain k hstanding hk hleads
      rw [ofParticle]
      cases hm : t.isMacro ident with
      | true =>
          have hreferences : (Particle.group ident).references t = [ident] := by
            simp [Particle.references, Particle.leaves, hm]
          rw [hreferences, List.forall_mem_singleton] at hleads
          have hsome : (t.macro? ident).isSome = true := hm
          rw [hreferences, if_pos hsome]
          refine (hmacros chain k ident hstanding hk hleads (.inl hm)).bind
            fun d k hd hk => right_ok ⟨List.forall_mem_singleton.mpr ⟨d, hd⟩, ?_⟩ hk
          intro value hvalue
          have heq : value ident = d := (hvalue ident (List.mem_singleton_self ident)).unique hd
          change (Particle.group ident).inline t value = d.particle?
          rw [Particle.inline, if_pos hm, heq]
      | false =>
          have hreferences : (Particle.group ident).references t = [] := by
            simp [Particle.references, Particle.leaves, hm]
          have hneg : ¬ (t.macro? ident).isSome = true := fun h => by simp [Table.isMacro, h] at hm
          rw [hreferences, if_neg hneg]
          refine right_ok ⟨List.forall_mem_nil _, fun value _ => ?_⟩ hk
          change (Particle.group ident).inline t value = some (.group ident)
          rw [Particle.inline, if_neg (by simp [hm])]
  | sequence ps ih =>
      intro chain k hstanding hk hleads
      rw [Particle.references, Particle.leaves] at hleads ⊢
      rw [ofParticle]
      refine (particles_right ih hstanding hk hleads).bind fun left k hleft hk => right_ok ?_ hk
      obtain ⟨hleft, hlefteq⟩ := hleft
      refine ⟨hleft, fun value hvalue => ?_⟩
      rw [← hlefteq value hvalue, wrapAll_inlineAll_sequence]
  | alternate ps ih =>
      intro chain k hstanding hk hleads
      rw [Particle.references, Particle.leaves] at hleads ⊢
      rw [ofParticle]
      refine (particles_right ih hstanding hk hleads).bind fun left k hleft hk => right_ok ?_ hk
      obtain ⟨hleft, hlefteq⟩ := hleft
      refine ⟨hleft, fun value hvalue => ?_⟩
      rw [← hlefteq value hvalue, wrapAll_inlineAll_alternate]

/-- **What comes of content is right** if it is for macros. -/
lemma content_right (hmacros : MacroRight t fresh) (hstanding : Standing t fresh chain)
    (hk : Sound t k) (hcontent : t.Has c) (hleads : ∀ ident ∈ c.references t, Leads t chain ident) :
    Right t (t.Inlines c) (ofContent t fresh chain k c) := by
  cases c with
  | empty =>
      rw [ofContent]
      exact right_ok (Table.inlines_self Content.plain_empty) hk
  | ofMacro ident =>
      rw [ofContent]
      have hleads := hleads ident (List.mem_singleton_self ident)
      exact (hmacros chain k ident hstanding hk hleads (.inr hcontent)).imp
        fun d hd => Table.inlines_ofMacro hd
  | model p =>
      rw [ofContent]
      refine (particle_right hmacros p chain k hstanding hk hleads).bind
        fun left k hleft hk => right_ok ?_ hk
      obtain ⟨hsome, hlefteq⟩ := hleft
      choose! value hvalue using hsome
      rw [← hlefteq value hvalue]
      exact Table.inlines_of_becomes hvalue

/-- **What comes of a macro is right**, however many macros are being expanded. -/
theorem macro_right (t : Table) (fresh : List String) : MacroRight t fresh := by
  -- opening a macro uses it up
  induction hlength : fresh.length using Nat.strong_induction_on generalizing fresh with
  | _ n ih =>
      intro chain k ident hstanding hk hleads hnamed
      rw [ofMacro]
      split
      · next d hd => exact right_ok (hk ident d hd) hk
      · split
        · next hnone =>
          refine Table.Faulty.missing (hnamed.resolve_left ?_) hnone
          simp [Table.isMacro, hnone]
        · next m hm =>
          have hisMacro : t.isMacro ident = true := Table.isMacro_iff.mpr ⟨m, hm⟩
          split
          · next hfresh =>
            have hless : (without ident fresh).length < n := hlength ▸ length_without_lt hfresh
            refine (content_right (ih _ hless _ rfl) (hstanding.open hisMacro hfresh hleads) hk
              (Table.has_of_macro? hm) fun other => leads_of_mem hleads hm).bind
                fun d k hd hk => ?_
            exact right_ok ⟨m, hm, hd⟩ (hk.insert ⟨m, hm, hd⟩)
          · next hnot => exact Table.Faulty.circle (hstanding.circle hisMacro hnot hleads)

/-! ### Expanding specs -/

/-- What comes of content of a table that is expanded by itself is right. -/
lemma content_right_start (hk : Sound t k) (hcontent : t.Has c) :
    Right t (t.Inlines c) (ofContent t t.idents [] k c) :=
  content_right (macro_right t t.idents) (standing_start t) hk hcontent
    fun ident _ => .singleton ident

/-- Under the idents of specs stands what their contents become. -/
def Told (t : Table) (specs : List Spec) (contents : Dictionary Content) : Prop :=
  ∀ s ∈ specs, ∀ c, s.content? = some c → ∃ d, contents.get? s.ident = some d ∧ t.Inlines c d

/-- What the content of one more spec of the table becomes is put beside the others. -/
lemma Told.insert {s : Spec} {specs : List Spec} {contents : Dictionary Content}
    (h : Told t specs contents) (hspecs : ∀ r ∈ s :: specs, r ∈ t.toList)
    (hcontent : s.content? = some c) (hinlines : t.Inlines c d) :
    Told t (s :: specs) (contents.insert s.ident d) := by
  intro r hr e he
  rw [Dictionary.get?_insert]
  by_cases hident : s.ident = r.ident
  · -- specs of one ident in a table are one
    have hget : t.get? r.ident = some r := Table.mem_toList.mp (hspecs r hr)
    rw [← hident, Table.mem_toList.mp (hspecs s List.mem_cons_self)] at hget
    obtain rfl := Option.some.inj hget
    obtain rfl := Option.some.inj (hcontent.symm.trans he)
    exact ⟨d, if_pos rfl, hinlines⟩
  · rw [if_neg hident]
    have hrest : r ∈ specs := (List.mem_cons.mp hr).resolve_left fun heq => hident (heq ▸ rfl)
    exact h r hrest e he

/-- **What comes of specs of a table**, one after the other: what their contents become, or else
a fault of the table. -/
theorem ofSpecs_right {specs : List Spec} (hspecs : ∀ s ∈ specs, s ∈ t.toList) (hk : Sound t k) :
    (∀ fault, ofSpecs t specs k = .error fault → t.Faulty fault) ∧
    ∀ contents, ofSpecs t specs k = .ok contents → Told t specs contents := by
  induction specs generalizing k with
  | nil => exact ⟨nofun, fun _ _ s hs => absurd hs List.not_mem_nil⟩
  | cons s specs ih =>
      have ih {k : Known} (hk : Sound t k) :=
        ih (fun r hr => hspecs r (List.mem_cons_of_mem _ hr)) hk
      rw [ofSpecs]
      cases hcontent : s.content? with
      | none =>
          refine ⟨(ih hk).1, fun contents hok r hr c hc => ?_⟩
          rcases List.mem_cons.mp hr with rfl | hr
          · cases hcontent.symm.trans hc
          · exact (ih hk).2 contents hok r hr c hc
      | some content =>
          have hright : Right t (t.Inlines content) (ofContent t t.idents [] k content) :=
            content_right_start hk ⟨s, hspecs s List.mem_cons_self, hcontent⟩
          dsimp only
          cases hexpanded : ofContent t t.idents [] k content with
          | error fault =>
              rw [hexpanded] at hright
              exact ⟨fun _ h => Except.error.inj h ▸ hright, nofun⟩
          | ok result =>
              obtain ⟨expanded, k'⟩ := result
              rw [hexpanded] at hright
              obtain ⟨hinlines, hk'⟩ := hright
              constructor
              · intro fault h
                rcases bind_eq_error.mp h with h | ⟨_, h, h'⟩
                · cases h
                · cases h
                  rcases bind_eq_error.mp h' with h | ⟨_, _, h⟩
                  · exact (ih hk').1 fault h
                  · cases h
              · intro contents h
                obtain ⟨_, h, h'⟩ := bind_eq_ok.mp h
                cases h
                obtain ⟨others, hothers, h⟩ := bind_eq_ok.mp h'
                obtain rfl := pure_eq_ok.mp h
                exact ((ih hk').2 others hothers).insert hspecs hcontent hinlines

end Expansion

end EditorSchema
