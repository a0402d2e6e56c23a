/-
Reading what was written, and writing what was read.

Written and read again, a particle comes back in normal form.  The tokens of a particle put
its items, in normal form, into the group that is open, whatever follows and whatever is open
around it; so what is read can be followed along the particle.

What is read is always in normal form itself, so writing it and reading it again changes
nothing.

* `Expression.readsBack`: what the tokens of a particle do while others are still to come;
* `Expression.written_of_read`: what is read has idents as leaves and is filled and normal;
* `Particle.parse_encode`: both together.
-/
import Mathlib.Tactic
import EditorSchema.Proofs.Content.Shape
import EditorSchema.Proofs.Content.Tokens
import EditorSchema.Proofs.Outcome

namespace EditorSchema

open Outcome

/-! ### Reading what was written -/

namespace Expression

open Particle (ofItems ofChoice ofBranches)

variable {text : String}

namespace Open

variable {g : Open}

/-- The group with more items in its present branch. -/
def pushAll (g : Open) (items : List Particle) : Open := ⟨g.branches, g.items ++ items⟩

lemma pushAll_nil (g : Open) : g.pushAll [] = g := by
  rw [pushAll, List.append_nil]

lemma pushAll_append (g : Open) (items others : List Particle) :
    (g.pushAll items).pushAll others = g.pushAll (items ++ others) := by
  rw [pushAll, pushAll, pushAll, List.append_assoc]

/-- A branch with an item is the sequence of its items. -/
lemma branch_eq_ok (h : g.items ≠ []) : g.branch = .ok (ofItems g.items) := by
  obtain ⟨branches, items⟩ := g
  match items with
  | [] => exact absurd rfl h
  | [item] => rfl
  | item :: other :: items => rfl

lemma next_eq_ok (h : g.items ≠ []) : g.next = .ok ⟨g.branches ++ [ofItems g.items], []⟩ := by
  rw [next, branch_eq_ok h]
  rfl

/-- A finished group is the choice between its branches. -/
lemma finish_eq_ok (h : g.items ≠ []) :
    g.finish = .ok (ofChoice (g.branches ++ [ofItems g.items])) := by
  rw [finish, branch_eq_ok h]
  rcases g.branches with _ | ⟨p, _ | ⟨q, ps⟩⟩ <;> rfl

end Open

/-- In parentheses, the choice between some branches is a choice even if there is one branch. -/
lemma parenthesised_ofChoice (bs : List Particle) :
    parenthesised (ofChoice bs) = ofBranches bs := by
  rcases bs with _ | ⟨b, _ | ⟨c, bs⟩⟩
  · rfl
  · cases b <;> rfl
  · exact (Particle.ofBranches_eq_alternate (by simp)).symm

/-- The tokens of a particle put its items, in normal form, into the group that is open. -/
def ReadsBack (text : String) (t : Particle) : Prop :=
  ∀ rest g outer, read text (t.tokens ++ rest) g outer =
    read text rest (g.pushAll t.normalForm.items) outer

/-- The tokens of particles one after the other put the items of each into the group. -/
lemma read_flatten {ps : List Particle} (h : ∀ p ∈ ps, ReadsBack text p) (rest : List Token)
    (g : Open) (outer : List Open) :
    read text ((Particle.tokensAll ps).flatten ++ rest) g outer =
      read text rest (g.pushAll (ps.flatMap fun p => p.normalForm.items)) outer := by
  induction ps generalizing g with
  | nil => rw [List.flatMap_nil, Open.pushAll_nil]; rfl
  | cons p ps ih =>
      have hp : ReadsBack text p := h p List.mem_cons_self
      have hps := ih fun q hq => h q (List.mem_cons_of_mem _ hq)
      rw [Particle.tokensAll, List.flatten_cons, List.append_assoc, hp, hps,
        Open.pushAll_append, List.flatMap_cons]

/-- The tokens of branches with bars between them, up to the parenthesis that closes the group,
put the choice between them and the branches before them into the group around it. -/
lemma read_branches {b : Particle} {bs : List Particle}
    (h : ∀ p ∈ b :: bs, ReadsBack text p ∧ p.normalForm.items ≠ []) (rest : List Token)
    (before : List Particle) (g : Open) (outer : List Open) :
    read text ([Token.bar].intercalate (Particle.tokensAll (b :: bs)) ++ .closing :: rest)
        ⟨before, []⟩ (g :: outer) =
      read text rest (g.push (ofBranches (before ++ (b :: bs).map Particle.normalForm))) outer := by
  induction bs generalizing b before with
  | nil =>
      obtain ⟨hb, hne⟩ := h b List.mem_cons_self
      have hfinish : (Open.pushAll ⟨before, []⟩ b.normalForm.items).finish =
          .ok (ofChoice (before ++ [ofItems b.normalForm.items])) := Open.finish_eq_ok hne
      rw [Particle.ofItems_items_normalForm] at hfinish
      rw [Particle.tokensAll, Particle.tokensAll, List.intercalate_singleton, hb, read, hfinish,
        List.map_singleton, ← parenthesised_ofChoice]
      rfl
  | cons b' bs ih =>
      obtain ⟨hb, hne⟩ := h b List.mem_cons_self
      have hnext : (Open.pushAll ⟨before, []⟩ b.normalForm.items).next =
          .ok ⟨before ++ [ofItems b.normalForm.items], []⟩ := Open.next_eq_ok hne
      have hbs := ih (fun p hp => h p (List.mem_cons_of_mem _ hp)) (before ++ [b.normalForm])
      have hbranches : before ++ [b.normalForm] ++ (b' :: bs).map Particle.normalForm =
          before ++ (b :: b' :: bs).map Particle.normalForm := by
        rw [List.append_assoc, List.singleton_append, ← List.map_cons]
      rw [Particle.ofItems_items_normalForm] at hnext
      rw [hbranches, Particle.tokensAll] at hbs
      rw [Particle.tokensAll, Particle.tokensAll, List.intercalate_cons_cons, List.append_assoc,
        List.append_assoc, hb, List.singleton_append, read, hnext]
      exact hbs

/-- **What the tokens of a particle do** while others are still to come: they put its items, in
normal form, into the group that is open. -/
theorem readsBack {t : Particle} (h : t.Filled) : ReadsBack text t := by
  induction t using Particle.ind with
  | group ident =>
      intro rest g outer
      rw [Particle.tokens, List.singleton_append, read]
      rfl
  | sequence ps ih =>
      obtain ⟨-, hps⟩ := Particle.throughout_sequence.mp h
      intro rest g outer
      rw [Particle.tokens, Particle.items_normalForm_sequence]
      exact read_flatten (fun p hp => ih p hp (hps p hp)) rest g outer
  | alternate bs ih =>
      obtain ⟨⟨-, hne⟩, hbs⟩ := Particle.throughout_alternate.mp h
      intro rest g outer
      cases bs with
      | nil => exact absurd rfl hne
      | cons b bs =>
          have hall : ∀ p ∈ b :: bs, ReadsBack text p ∧ p.normalForm.items ≠ [] := fun p hp =>
            ⟨ih p hp (hbs p hp), Particle.items_normalForm_ne_nil (hbs p hp)⟩
          obtain ⟨branches, hb⟩ := Particle.ofBranches_isAlternate
            (Particle.normalForms (b :: bs))
          rw [Particle.tokens, List.cons_append, List.append_assoc, List.singleton_append, read,
            Open.start, read_branches hall, List.nil_append, Particle.normalForm,
            ← Particle.normalForms_eq, hb]
          rfl

/-! ### What is read -/

/-- What is written in an expression: every leaf is an ident, every sequence and every choice
has a part and leaves a trace of its own. -/
structure Written (t : Particle) : Prop where
  idents : ∀ ident ∈ t.leaves, IsIdent ident
  filled : t.Filled
  normal : t.Normal

lemma written_group {ident : String} (h : IsIdent ident) : Written (.group ident) where
  idents := by simpa [Particle.leaves] using h
  filled := Particle.throughout_group.mpr ⟨nofun, nofun⟩
  normal := Particle.throughout_group.mpr trivial

lemma written_sequence {ps : List Particle} (htwo : 2 ≤ ps.length)
    (h : ∀ p ∈ ps, Written p ∧ p.isSequence = false) : Written (.sequence ps) where
  idents := by
    intro ident hident
    rw [Particle.leaves, Particle.leavesAll_eq] at hident
    obtain ⟨p, hp, hident⟩ := List.mem_flatMap.mp hident
    exact (h p hp).1.idents ident hident
  filled := by
    refine Particle.throughout_sequence.mpr ⟨⟨?_, by simp⟩, fun p hp => (h p hp).1.filled⟩
    rintro heq
    obtain rfl := Particle.sequence.inj heq
    exact absurd htwo (by decide)
  normal := Particle.throughout_sequence.mpr
    ⟨⟨htwo, fun p hp => (h p hp).2⟩, fun p hp => (h p hp).1.normal⟩

lemma written_alternate {bs : List Particle} (hne : bs ≠ [])
    (htraced : ∀ b, bs = [b] → b.isAlternate = false) (h : ∀ b ∈ bs, Written b) :
    Written (.alternate bs) where
  idents := by
    intro ident hident
    rw [Particle.leaves, Particle.leavesAll_eq] at hident
    obtain ⟨b, hb, hident⟩ := List.mem_flatMap.mp hident
    exact (h b hb).idents ident hident
  filled := Particle.throughout_alternate.mpr
    ⟨⟨nofun, fun heq => hne (Particle.alternate.inj heq)⟩, fun b hb => (h b hb).filled⟩
  normal := Particle.throughout_alternate.mpr ⟨htraced, fun b hb => (h b hb).normal⟩

/-- An open group holds what is written, and no item of it is a sequence. -/
structure Open.Holding (g : Open) : Prop where
  branches : ∀ b ∈ g.branches, Written b
  items : ∀ p ∈ g.items, Written p ∧ p.isSequence = false

namespace Open

variable {g g' : Open} {p : Particle}

lemma holding_start : start.Holding := ⟨nofun, nofun⟩

lemma Holding.push (hg : g.Holding) (hp : Written p) (hseq : p.isSequence = false) :
    (g.push p).Holding where
  branches := hg.branches
  items := by
    intro q hq
    rcases List.mem_append.mp hq with hq | hq
    · exact hg.items q hq
    · rw [List.mem_singleton.mp hq]
      exact ⟨hp, hseq⟩

lemma Holding.branch (hg : g.Holding) (h : g.branch = .ok p) : Written p := by
  have hitems := hg.items
  rw [Open.branch] at h
  split at h
  · cases h
  · next item heq =>
    cases h
    exact (hitems p (by rw [heq]; exact List.mem_singleton_self _)).1
  · next items hne hone =>
    cases h
    refine written_sequence ?_ hitems
    match g.items, hne, hone with
    | [], hne, _ => exact absurd rfl hne
    | [item], _, hone => exact absurd rfl (hone item)
    | _ :: _ :: items, _, _ => simp

lemma Holding.next (hg : g.Holding) (h : g.next = .ok g') : g'.Holding := by
  obtain ⟨last, hlast, h⟩ := bind_eq_ok.mp h
  obtain rfl := pure_eq_ok.mp h
  refine ⟨fun b hb => ?_, nofun⟩
  rcases List.mem_append.mp hb with hb | hb
  · exact hg.branches b hb
  · rw [List.mem_singleton.mp hb]
    exact hg.branch hlast

lemma Holding.finish (hg : g.Holding) (h : g.finish = .ok p) : Written p := by
  obtain ⟨last, hlast, h⟩ := bind_eq_ok.mp h
  have hwritten : Written last := hg.branch hlast
  split at h
  · obtain rfl := pure_eq_ok.mp h
    exact hwritten
  · next branches hne =>
    obtain rfl := pure_eq_ok.mp h
    refine written_alternate (by simp) (fun b hb => ?_) fun b hb => ?_
    · -- there is a branch before the last one
      rcases List.append_eq_singleton_iff.mp hb with ⟨hnil, -⟩ | ⟨-, hnil⟩
      · exact absurd hnil hne
      · cases hnil
    · rcases List.mem_append.mp hb with hb | hb
      · exact hg.branches b hb
      · rw [List.mem_singleton.mp hb]
        exact hwritten

end Open

lemma Written.parenthesised {p : Particle} (h : Written p) :
    Written (parenthesised p) ∧ (Expression.parenthesised p).isSequence = false := by
  have hsingle (hp : p.isAlternate = false) : Written (.alternate [p]) :=
    written_alternate (by simp) (fun b hb => List.singleton_inj.mp hb ▸ hp) (by simpa using h)
  cases p with
  | group ident => exact ⟨hsingle rfl, rfl⟩
  | sequence parts => exact ⟨hsingle rfl, rfl⟩
  | alternate branches => exact ⟨h, rfl⟩

/-- **What is read is written in normal form**: its leaves are idents, and every sequence and
every choice has a part and leaves a trace of its own. -/
theorem written_of_read {tokens : List Token} {g : Open} {outer : List Open} {t : Particle}
    (htokens : ∀ ident, Token.name ident ∈ tokens → IsIdent ident) (hg : g.Holding)
    (houter : ∀ h ∈ outer, h.Holding) (h : read text tokens g outer = .ok t) : Written t := by
  fun_induction read text tokens g outer with
  | case1 g => exact hg.finish h
  | case2 g h' outer =>
      obtain ⟨p, -, h⟩ := bind_eq_ok.mp h
      cases h
  | case3 ident rest g outer ih =>
      have hident : Written (.group ident) := written_group (htokens ident List.mem_cons_self)
      exact ih (fun n hn => htokens n (List.mem_cons_of_mem _ hn)) (hg.push hident rfl) houter h
  | case4 rest g outer ih =>
      refine ih (fun n hn => htokens n (List.mem_cons_of_mem _ hn)) Open.holding_start ?_ h
      exact List.forall_mem_cons.mpr ⟨hg, houter⟩
  | case5 rest g outer ih =>
      obtain ⟨g', hnext, h⟩ := bind_eq_ok.mp h
      exact ih g' (fun n hn => htokens n (List.mem_cons_of_mem _ hn)) (hg.next hnext) houter h
  | case6 rest g =>
      obtain ⟨p, -, h⟩ := bind_eq_ok.mp h
      cases h
  | case7 rest g around outer ih =>
      obtain ⟨p, hfinish, h⟩ := bind_eq_ok.mp h
      obtain ⟨haround, houter⟩ := List.forall_mem_cons.mp houter
      obtain ⟨hp, hseq⟩ := (hg.finish hfinish).parenthesised
      exact ih p (fun n hn => htokens n (List.mem_cons_of_mem _ hn)) (haround.push hp hseq)
        houter h

end Expression

/-! ### The round trip -/

namespace Particle

open Expression

variable {t : Particle} {s : String}

/-- Written and read again, a particle comes back in normal form. -/
lemma parse_encode_eq_normalForm (hidents : ∀ ident ∈ t.leaves, IsIdent ident)
    (hfilled : t.Filled) : parse t.encode = .ok t.normalForm := by
  have hread : read t.encode (t.tokens ++ []) .start [] =
      read t.encode [] (Open.start.pushAll t.normalForm.items) [] := readsBack hfilled _ _ _
  have hfinish : (Open.start.pushAll t.normalForm.items).finish =
      .ok (ofItems t.normalForm.items) :=
    Open.finish_eq_ok (items_normalForm_ne_nil hfilled)
  rw [List.append_nil] at hread
  rw [parse, tokens_encode hidents, hread, Expression.read, hfinish, ofItems_items_normalForm]

/-- What is read is written in normal form. -/
lemma written_of_parse (h : parse s = .ok t) : Written t :=
  written_of_read (fun _ => isIdent_of_mem_tokens) Open.holding_start (by simp) h

/-- **Reading what was written, and writing what was read.**  A particle whose leaves are idents
and in which every sequence and every choice has a part comes back in normal form, so it comes
back as it was just if it is normal.  What was read comes back as it was. -/
theorem parse_encode :
    (∀ t : Particle, (∀ ident ∈ t.leaves, IsIdent ident) → t.Filled →
      parse t.encode = .ok t.normalForm ∧ (parse t.encode = .ok t ↔ t.Normal)) ∧
    ∀ s t, parse s = .ok t → parse t.encode = .ok t := by
  constructor
  · intro t hidents hfilled
    have hback : parse t.encode = .ok t.normalForm := parse_encode_eq_normalForm hidents hfilled
    refine ⟨hback, fun h => (written_of_parse h).normal, fun h => ?_⟩
    rw [hback, normalForm_eq_self h]
  · intro s t h
    have hwritten : Written t := written_of_parse h
    rw [parse_encode_eq_normalForm hwritten.idents hwritten.filled,
      normalForm_eq_self hwritten.normal]

/-- A particle with a sequence in a sequence, a sequence of one part and a choice of nothing
but a choice. -/
def nested : Particle :=
  .sequence [.sequence [.group "head", .group "p"],
    .alternate [.alternate [.group "a", .group "b"]], .sequence [.group "note"]]

/-- The particle is read back as its normal form.  Two expressions that differ in blanks and
parentheses are read as one choice. -/
theorem parse_encode_nested :
    (∀ ident ∈ nested.leaves, IsIdent ident) ∧ nested.Filled ∧ ¬ nested.Normal ∧
      nested.encode = "head p ((a|b)) note" ∧
      parse nested.encode = .ok (.sequence [.group "head", .group "p",
        .alternate [.group "a", .group "b"], .group "note"]) ∧
      parse " (a)|  b" = .ok (.alternate [.alternate [.group "a"], .group "b"]) ∧
      parse "((a)|b)" = .ok (.alternate [.alternate [.group "a"], .group "b"]) := by
  have hidents : ∀ ident ∈ nested.leaves, IsIdent ident :=
    @of_decide_eq_true _ (List.decidableBAll IsIdent nested.leaves) (by decide)
  have hfilled : nested.Filled := by decide
  have hread : parse " (a)|  b" = .ok (.alternate [.alternate [.group "a"], .group "b"]) := by
    cbv
  exact ⟨hidents, hfilled, by decide, by decide, (parse_encode.1 nested hidents hfilled).1,
    hread, parse_encode.2 _ _ hread⟩

end Particle

end EditorSchema
