/-
Filtering a particle that was written and read again.

Between two stages a particle may be written as an expression, and what is read again is its
normal form.  Filtering does not go together with that step by step: it may leave a sequence
inside a sequence, where reading would have merged the two, and a particle and its normal form
leave different trees.  But both leave the same items.

The items of what is left of a sequence are those of what is left of its parts, and the items of
what is left of a choice are told by those of its branches.  So it makes no difference to them
whether sequences were merged, or choices of nothing but a choice dropped, before the filtering;
and an expression with no sequence or choice of a single part is told by its items.

* `Particle.remains`: the items of what is left of a particle;
* `Particle.remains_sequence`, `Particle.remains_alternate`: they are told part by part;
* `Particle.remains_normalForm`: a particle and its normal form leave the same items;
* `Particle.encode_normalForm`: a reduced particle and its normal form have one expression;
* `Particle.encode_filterGroups_of_parse`: writing and reading between stages.
-/
import Mathlib.Tactic
import EditorSchema.Content.Basic
import EditorSchema.Proofs.Content.Filtering

namespace EditorSchema.Particle

open Expression (IsIdent)

variable {t kept : Particle} {keep : String → Bool} {ps : List Particle}

/-! ### The items of what is left -/

/-- The items of what is left of a particle, in normal form. -/
def remains (keep : String → Bool) (t : Particle) : List Particle :=
  match filter keep t with
  | some kept => kept.normalForm.items
  | none => []

lemma remains_of_filter (h : filter keep t = some kept) :
    remains keep t = kept.normalForm.items ∧ remains keep t ≠ [] := by
  have heq : remains keep t = kept.normalForm.items := by rw [remains, h]
  exact ⟨heq, heq ▸ items_normalForm_ne_nil (filled_of_filter h)⟩

lemma remains_of_none (h : filter keep t = none) : remains keep t = [] := by
  rw [remains, h]

/-- What is left of a list of particles has the items of what is left of each. -/
lemma flatMap_filterAll (keep : String → Bool) (ps : List Particle) :
    ((filterAll keep ps).flatMap fun q => q.normalForm.items) = ps.flatMap (remains keep) := by
  induction ps with
  | nil => rfl
  | cons p ps ih =>
      rw [filterAll_cons, List.flatMap_append, ih, List.flatMap_cons]
      cases h : filter keep p with
      | none => rw [remains_of_none h]; rfl
      | some q => rw [(remains_of_filter h).1, Option.toList_some, List.flatMap_singleton]

/-- **The items that are left of a sequence** are those of its parts, one after the other. -/
theorem remains_sequence (keep : String → Bool) (ps : List Particle) :
    remains keep (.sequence ps) = ps.flatMap (remains keep) := by
  rw [← flatMap_filterAll, remains, filter]
  rcases filterAll keep ps with _ | ⟨q, _ | ⟨r, qs⟩⟩
  · rfl
  · exact (List.flatMap_singleton ..).symm
  · exact items_normalForm_sequence (q :: r :: qs)

/-- The items of a choice, told by the items of its branches. -/
def choiceItems : List (List Particle) → List Particle
  | [] => []
  | [items] => items
  | branches => [.alternate (branches.map ofItems)]

/-- What is left of the branches of a choice, told by the items of those of which something is. -/
lemma map_filterAll (keep : String → Bool) (bs : List Particle) :
    ((filterAll keep bs).map fun q => q.normalForm.items) =
      (bs.map (remains keep)).filter fun items => !items.isEmpty := by
  induction bs with
  | nil => rfl
  | cons b bs ih =>
      rw [filterAll_cons, List.map_append, ih, List.map_cons]
      cases h : filter keep b with
      | none => rw [remains_of_none h]; rfl
      | some q =>
          obtain ⟨heq, hne⟩ := remains_of_filter h
          rw [List.filter_cons_of_pos (by simpa using hne), heq]
          rfl

/-- **The items that are left of a choice** are told by those of its branches. -/
theorem remains_alternate (keep : String → Bool) (bs : List Particle) :
    remains keep (.alternate bs) =
      choiceItems ((bs.map (remains keep)).filter fun items => !items.isEmpty) := by
  rw [← map_filterAll, remains, filter]
  rcases filterAll keep bs with _ | ⟨q, _ | ⟨r, qs⟩⟩
  · rfl
  · rfl
  · have hnormal : normalForm (.alternate (q :: r :: qs)) =
        .alternate ((q :: r :: qs).map normalForm) := by
      rw [normalForm, normalForms_eq, ofBranches_eq_alternate (by simp)]
    have hback : (q :: r :: qs).map normalForm =
        ((q :: r :: qs).map fun p => p.normalForm.items).map ofItems := by
      rw [List.map_map]
      exact List.map_congr_left fun p _ => (ofItems_items_normalForm p).symm
    show (normalForm (.alternate (q :: r :: qs))).items = [.alternate _]
    rw [hnormal, hback]
    rfl

/-! ### What is left of a normal form -/

lemma flatMap_items (keep : String → Bool) (t : Particle) :
    t.items.flatMap (remains keep) = remains keep t := by
  cases t with
  | group ident => exact List.flatMap_singleton ..
  | sequence ps => exact (remains_sequence keep ps).symm
  | alternate bs => exact List.flatMap_singleton ..

lemma remains_ofItems (keep : String → Bool) (ps : List Particle) :
    remains keep (ofItems ps) = ps.flatMap (remains keep) := by
  rcases ps with _ | ⟨p, _ | ⟨q, ps⟩⟩
  · exact remains_sequence keep []
  · exact (List.flatMap_singleton ..).symm
  · exact remains_sequence keep (p :: q :: ps)

/-- A choice of nothing but a choice leaves what that choice leaves. -/
lemma remains_ofBranches (keep : String → Bool) (bs : List Particle) :
    remains keep (ofBranches bs) = remains keep (.alternate bs) := by
  rw [ofBranches.eq_def]
  split
  · next branches =>
    rw [remains_alternate keep [_], List.map_singleton]
    cases remains keep (.alternate branches) <;> rfl
  · rfl

/-- **A particle and its normal form leave the same items.** -/
theorem remains_normalForm (keep : String → Bool) (t : Particle) :
    remains keep t.normalForm = remains keep t := by
  induction t using ind with
  | group ident => rfl
  | sequence ps ih =>
      calc remains keep (normalForm (.sequence ps))
          = ((normalForms ps).flatMap items).flatMap (remains keep) := by
            rw [normalForm, remains_ofItems]
        _ = ps.flatMap fun p => remains keep p.normalForm := by
            rw [List.flatMap_assoc, normalForms_eq, List.flatMap_map]
            exact List.flatMap_congr fun p _ => flatMap_items keep p.normalForm
        _ = ps.flatMap (remains keep) := List.flatMap_congr ih
        _ = remains keep (.sequence ps) := (remains_sequence keep ps).symm
  | alternate bs ih =>
      have hbranches : (normalForms bs).map (remains keep) = bs.map (remains keep) := by
        rw [normalForms_eq, List.map_map]
        exact List.map_congr_left ih
      rw [normalForm, remains_ofBranches, remains_alternate, remains_alternate, hbranches]

/-- What is left of a particle and what is left of its normal form have one normal form. -/
lemma map_normalForm_filter (keep : String → Bool) (t : Particle) :
    (filter keep t.normalForm).map normalForm = (filter keep t).map normalForm := by
  have hsame : remains keep t.normalForm = remains keep t := remains_normalForm keep t
  cases hleft : filter keep t.normalForm with
  | none =>
      cases hleft' : filter keep t with
      | none => rfl
      | some q =>
          rw [remains_of_none hleft] at hsame
          exact absurd hsame.symm (remains_of_filter hleft').2
  | some q =>
      cases hleft' : filter keep t with
      | none =>
          rw [remains_of_none hleft'] at hsame
          exact absurd hsame (remains_of_filter hleft).2
      | some r =>
          rw [(remains_of_filter hleft).1, (remains_of_filter hleft').1] at hsame
          rw [Option.map_some, Option.map_some, ← ofItems_items_normalForm q, hsame,
            ofItems_items_normalForm]

/-! ### The expression of a normal form -/

/-- Texts that are joined and then joined with others are joined all at once, if there are any. -/
lemma intercalate_flatMap {α : Type} (separator : String) {f : α → List String} {l : List α}
    (h : ∀ a ∈ l, f a ≠ []) :
    separator.intercalate (l.flatMap f) =
      separator.intercalate (l.map fun a => separator.intercalate (f a)) := by
  induction l with
  | nil => rfl
  | cons a l ih =>
      have hl := ih fun b hb => h b (List.mem_cons_of_mem _ hb)
      rw [List.flatMap_cons, List.map_cons]
      cases l with
      | nil => rw [List.flatMap_nil, List.append_nil, List.map_nil, String.intercalate_singleton]
      | cons b l =>
          have hne : (b :: l).flatMap f ≠ [] := by
            rw [List.flatMap_cons]
            exact List.append_ne_nil_of_left_ne_nil (h b (by simp)) _
          rw [String.intercalate_append_of_ne_nil (h a List.mem_cons_self) hne, hl,
            String.intercalate_cons_of_ne_nil (by simp)]

lemma encode_ofItems (ps : List Particle) :
    (ofItems ps).encode = " ".intercalate (ps.map encode) := by
  rcases ps with _ | ⟨p, _ | ⟨q, ps⟩⟩
  · rfl
  · exact String.intercalate_singleton.symm
  · show (sequence (p :: q :: ps)).encode = _
    rw [encode, encodeAll_eq]

/-- **A reduced particle and its normal form have one expression**: sequences that are merged are
written one after the other as well, and no choice has a single branch. -/
theorem encode_normalForm (h : t.Reduced) : t.normalForm.encode = t.encode := by
  induction t using ind with
  | group ident => rfl
  | sequence ps ih =>
      obtain ⟨-, hps⟩ := throughout_sequence.mp h
      have hitems : ∀ p ∈ ps, " ".intercalate (p.normalForm.items.map encode) = p.encode := by
        intro p hp
        rw [← encode_ofItems, ofItems_items_normalForm, ih p hp (hps p hp)]
      calc (normalForm (.sequence ps)).encode
          = " ".intercalate (ps.flatMap fun p => p.normalForm.items.map encode) := by
            rw [normalForm, encode_ofItems, normalForms_eq, List.flatMap_map, List.map_flatMap]
        _ = " ".intercalate (ps.map fun p => " ".intercalate (p.normalForm.items.map encode)) :=
            intercalate_flatMap " " fun p hp => by
              simpa using items_normalForm_ne_nil (filled_of_reduced (hps p hp))
        _ = " ".intercalate (ps.map encode) := by rw [List.map_congr_left hitems]
        _ = (sequence ps).encode := by rw [encode, encodeAll_eq]
  | alternate bs ih =>
      obtain ⟨htwo, hbs⟩ := throughout_alternate.mp h
      have hbranches : (normalForms bs).map encode = bs.map encode := by
        rw [normalForms_eq, List.map_map]
        exact List.map_congr_left fun p hp => ih p hp (hbs p hp)
      have hlength : 2 ≤ (normalForms bs).length := by
        rw [normalForms_eq, List.length_map]
        exact htwo
      rw [normalForm, ofBranches_eq_alternate hlength, encode, encode, encodeAll_eq, encodeAll_eq,
        hbranches]

/-! ### Writing and reading between stages -/

lemma encode_ofParticle? (p : Option Particle) :
    (Content.ofParticle? p).encode = (p.map encode).getD "" := by
  cases p <;> rfl

/-- What is left of a particle is written as its normal form is. -/
lemma map_encode_filter (keep : String → Bool) (t : Particle) :
    (filter keep t).map encode = ((filter keep t).map normalForm).map encode := by
  cases h : filter keep t with
  | none => rfl
  | some q => rw [Option.map_some, Option.map_some, Option.map_some,
      encode_normalForm (reduced_of_filter h)]

/-- What is left of a particle can be written and read again, and written once more without a
change. -/
lemma exists_parse_of_filter (hidents : ∀ ident ∈ t.leaves, IsIdent ident)
    (h : filter keep t = some kept) : ∃ v, parse kept.encode = .ok v ∧ v.encode = kept.encode := by
  have hleft : ∀ ident ∈ kept.leaves, IsIdent ident := by
    rw [leaves_of_filter h]
    exact fun ident hident => hidents ident (List.mem_of_mem_filter hident)
  exact ⟨kept.normalForm, parse_encode_eq_normalForm hleft (filled_of_filter h),
    encode_normalForm (reduced_of_filter h)⟩

/-- **Writing and reading between stages.**  A particle whose leaves are idents and in which every
sequence and every choice has a part can be written and read again.  Whatever filter is used on what
was read, it leaves what has the same expression as what it leaves of the particle itself, and that
expression, unless it is empty, is read and written again without a change. -/
theorem encode_filterGroups_of_parse (hidents : ∀ ident ∈ t.leaves, IsIdent ident)
    (hfilled : t.Filled) :
    ∃ u, parse t.encode = .ok u ∧ ∀ targets exclude, ∃ text,
      (Content.ofParticle? (filterGroups targets exclude t)).encode = text ∧
      (Content.ofParticle? (filterGroups targets exclude u)).encode = text ∧
      (text ≠ "" → ∃ v, parse text = .ok v ∧ v.encode = text) := by
  refine ⟨t.normalForm, parse_encode_eq_normalForm hidents hfilled, fun targets exclude => ?_⟩
  rw [filterGroups_eq, filterGroups_eq, encode_ofParticle?, encode_ofParticle?]
  refine ⟨_, rfl, ?_, fun htext => ?_⟩
  · rw [map_encode_filter, map_normalForm_filter, ← map_encode_filter]
  · cases hleft : filter (stays targets exclude) t with
    | none => exact absurd (by rw [hleft]; rfl) htext
    | some kept => exact exists_parse_of_filter hidents hleft

/-- A particle of which a filter leaves a sequence in a sequence, and another particle than of its
normal form. -/
def staged : Particle := .sequence
  [.sequence [.group "head", .alternate [.sequence [.group "p", .group "list"], .group "gap"]],
    .alternate [.alternate [.group "note", .group "gap"]]]

/-- A filter leaves another particle of what is read back, but with the same expression. -/
theorem encode_filterGroups_of_parse_staged :
    (∀ ident ∈ staged.leaves, IsIdent ident) ∧ staged.Filled ∧ ¬ staged.Normal ∧
      staged.encode = "head (p list|gap) ((note|gap))" ∧
      ∃ u, parse staged.encode = .ok u ∧
        filterGroups (.ofIdents ["gap"]) true u ≠ filterGroups (.ofIdents ["gap"]) true staged ∧
        ∃ text, text = "head p list note" ∧
          (Content.ofParticle? (filterGroups (.ofIdents ["gap"]) true staged)).encode = text ∧
          (Content.ofParticle? (filterGroups (.ofIdents ["gap"]) true u)).encode = text ∧
          ∃ v, parse text = .ok v ∧ v.encode = text := by
  have hidents : ∀ ident ∈ staged.leaves, IsIdent ident :=
    @of_decide_eq_true _ (List.decidableBAll IsIdent staged.leaves) (by decide)
  have hfilled : staged.Filled := by decide
  obtain ⟨u, hu, hfilter⟩ := encode_filterGroups_of_parse hidents hfilled
  obtain ⟨text, htext, hsame, hagain⟩ := hfilter (.ofIdents ["gap"]) true
  have hleft : text = "head p list note" := htext ▸ by decide
  obtain rfl : u = staged.normalForm :=
    Except.ok.inj (hu.symm.trans (parse_encode_eq_normalForm hidents hfilled))
  exact ⟨hidents, hfilled, by decide, by decide, _, hu, by decide, text, hleft, htext, hsame,
    hagain (hleft ▸ by decide)⟩

end EditorSchema.Particle
