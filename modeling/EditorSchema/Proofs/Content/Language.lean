/-
The words of a particle, and which of them filtering keeps.

A particle stands for words of idents: a group for its ident, a sequence for the words of its
parts one after the other, and a choice for the words of any of its branches.  What filtering
leaves stands for no other words than these with the unwanted idents struck out, and of the words
without unwanted idents it loses none.  Not every word with idents struck out is left, since a
branch of which nothing is left disappears and does not become empty.

* `Particle.language`: the words of a particle;
* `Particle.language_collapse`: a single part has the words of the sequence or choice of it;
* `Particle.exists_of_mem_language_filter`: where the words come from of what is left;
* `Particle.mem_language_filter`: the words that are not lost;
* `Particle.language_filterGroups`: filtering by a set of groups.
-/
import Mathlib.Computability.Language
import EditorSchema.Proofs.Content.Written

namespace EditorSchema.Particle

variable {t kept : Particle} {keep : String → Bool} {ps : List Particle} {w : List String}

mutual

/-- The words of a particle. -/
def language : Particle → Language String
  | .group ident => {[ident]}
  | .sequence parts => languageInTurn parts
  | .alternate branches => languageOfAny branches

/-- The words that are put together from one word of each particle of a list, in order. -/
def languageInTurn : List Particle → Language String
  | [] => 1
  | p :: ps => language p * languageInTurn ps

/-- The words of all particles of a list. -/
def languageOfAny : List Particle → Language String
  | [] => 0
  | p :: ps => language p + languageOfAny ps

end

lemma mem_language_group {ident : String} : w ∈ (group ident).language ↔ w = [ident] := .rfl

lemma mem_languageInTurn_cons {p : Particle} : w ∈ languageInTurn (p :: ps) ↔
    ∃ u ∈ p.language, ∃ v ∈ languageInTurn ps, u ++ v = w :=
  Language.mem_mul

lemma mem_languageOfAny : w ∈ languageOfAny ps ↔ ∃ p ∈ ps, w ∈ p.language := by
  induction ps with
  | nil => simp [languageOfAny]
  | cons p ps ih => rw [languageOfAny, Language.mem_add, ih, List.exists_mem_cons_iff]

lemma mem_leavesAll_of_mem_languageInTurn
    (hparts : ∀ p ∈ ps, ∀ {w}, w ∈ p.language → ∀ ident ∈ w, ident ∈ p.leaves)
    (h : w ∈ languageInTurn ps) : ∀ ident ∈ w, ident ∈ leavesAll ps := by
  induction ps generalizing w with
  | nil =>
      obtain rfl := (Language.mem_one w).mp h
      simp
  | cons p ps ih =>
      obtain ⟨hfirst, hrest⟩ := List.forall_mem_cons.mp hparts
      obtain ⟨u, hu, v, hv, rfl⟩ := mem_languageInTurn_cons.mp h
      intro ident hident
      rw [leavesAll, List.mem_append]
      exact (List.mem_append.mp hident).imp (hfirst hu ident) (ih hrest hv ident)

/-- The idents in a word are groups of the particle. -/
lemma mem_leaves_of_mem_language (h : w ∈ t.language) : ∀ ident ∈ w, ident ∈ t.leaves := by
  induction t using ind generalizing w with
  | group ident =>
      rw [mem_language_group.mp h]
      exact fun _ hident => hident
  | sequence ps ih => exact mem_leavesAll_of_mem_languageInTurn ih h
  | alternate ps ih =>
      obtain ⟨p, hp, hw⟩ := mem_languageOfAny.mp h
      rw [leaves, leavesAll_eq]
      exact fun ident hident => List.mem_flatMap.mpr ⟨p, hp, ih p hp hw ident hident⟩

lemma exists_mem_languageInTurn (hparts : ∀ p ∈ ps, ∃ w, w ∈ p.language) :
    ∃ w, w ∈ languageInTurn ps := by
  induction ps with
  | nil => exact ⟨[], rfl⟩
  | cons p ps ih =>
      obtain ⟨⟨u, hu⟩, hrest⟩ := List.forall_mem_cons.mp hparts
      obtain ⟨v, hv⟩ := ih hrest
      exact ⟨u ++ v, mem_languageInTurn_cons.mpr ⟨u, hu, v, hv, rfl⟩⟩

/-- Where every sequence and every choice has a part, there is a word. -/
lemma exists_mem_language (h : t.Filled) : ∃ w, w ∈ t.language := by
  induction t using ind with
  | group ident => exact ⟨[ident], rfl⟩
  | sequence ps ih =>
      have hps := (throughout_sequence.mp h).2
      exact exists_mem_languageInTurn fun p hp => ih p hp (hps p hp)
  | alternate ps ih =>
      obtain ⟨⟨-, hne⟩, hps⟩ := throughout_alternate.mp h
      obtain ⟨p, hp⟩ := List.exists_mem_of_ne_nil ps fun heq => hne (heq ▸ rfl)
      obtain ⟨w, hw⟩ := ih p hp (hps p hp)
      exact ⟨w, mem_languageOfAny.mpr ⟨p, hp, hw⟩⟩

/-! ### What is left -/

/-- A single part has the words of the sequence or choice of it alone, so collapsing changes no
word. -/
lemma language_collapse {wrap : List Particle → Particle}
    (hwrap : ∀ p, (wrap [p]).language = p.language) (h : collapse wrap ps = some kept) :
    kept.language = (wrap ps).language := by
  match ps with
  | [] => cases h
  | [p] =>
      cases h
      exact (hwrap _).symm
  | p :: q :: ps =>
      cases h
      rfl

lemma language_sequence_singleton (p : Particle) : (sequence [p]).language = p.language := by
  rw [language, languageInTurn, languageInTurn, mul_one]

lemma language_alternate_singleton (p : Particle) : (alternate [p]).language = p.language := by
  rw [language, languageOfAny, languageOfAny, add_zero]

/-- Where nothing is left of a particle, nothing is left of its words. -/
lemma filter_eq_nil_of_mem_language (h : filter keep t = none) (hw : w ∈ t.language) :
    w.filter keep = [] := by
  have hnone : ∀ ident ∈ t.leaves, ¬ keep ident = true :=
    List.filter_eq_nil_iff.mp (filter_eq_none_iff.mp h)
  exact List.filter_eq_nil_iff.mpr fun ident hident =>
    hnone ident (mem_leaves_of_mem_language hw ident hident)

/-- The words of what is left of parts in turn come from words of the parts in turn, if this is so
for each part. -/
lemma exists_of_mem_languageInTurn_filterAll (hps : ∀ p ∈ ps, p.Filled)
    (hparts : ∀ p ∈ ps, ∀ {q w}, filter keep p = some q → w ∈ q.language →
      ∃ v ∈ p.language, v.filter keep = w)
    (hw : w ∈ languageInTurn (filterAll keep ps)) :
    ∃ v ∈ languageInTurn ps, v.filter keep = w := by
  induction ps generalizing w with
  | nil => exact ⟨[], rfl, ((Language.mem_one w).mp hw).symm⟩
  | cons p ps ih =>
      obtain ⟨hp, hps⟩ := List.forall_mem_cons.mp hps
      obtain ⟨hfirst, hrest⟩ := List.forall_mem_cons.mp hparts
      rw [filterAll_cons] at hw
      cases hleft : filter keep p with
      | none =>
          -- a part that disappears had a word, of which nothing is left
          rw [hleft] at hw
          obtain ⟨u, hu⟩ := exists_mem_language hp
          obtain ⟨v, hv, rfl⟩ := ih hps hrest hw
          refine ⟨u ++ v, mem_languageInTurn_cons.mpr ⟨u, hu, v, hv, rfl⟩, ?_⟩
          rw [List.filter_append, filter_eq_nil_of_mem_language hleft hu, List.nil_append]
      | some q =>
          rw [hleft] at hw
          obtain ⟨x, hx, y, hy, rfl⟩ := mem_languageInTurn_cons.mp hw
          obtain ⟨u, hu, rfl⟩ := hfirst hleft hx
          obtain ⟨v, hv, rfl⟩ := ih hps hrest hy
          exact ⟨u ++ v, mem_languageInTurn_cons.mpr ⟨u, hu, v, hv, rfl⟩, List.filter_append ..⟩

/-- **Where the words come from of what is left**: they are words of the particle with the unwanted
idents struck out. -/
theorem exists_of_mem_language_filter (hfilled : t.Filled) (h : filter keep t = some kept)
    (hw : w ∈ kept.language) : ∃ v ∈ t.language, v.filter keep = w := by
  induction t using ind generalizing kept w with
  | group ident =>
      rw [filter] at h
      split at h
      · next hkeep =>
        cases h
        rw [mem_language_group.mp hw]
        exact ⟨[ident], rfl, by simp [hkeep]⟩
      · cases h
  | sequence ps ih =>
      have hps := (throughout_sequence.mp hfilled).2
      rw [language_collapse language_sequence_singleton h] at hw
      exact exists_of_mem_languageInTurn_filterAll hps (fun p hp => ih p hp (hps p hp)) hw
  | alternate ps ih =>
      have hps := (throughout_alternate.mp hfilled).2
      rw [language_collapse language_alternate_singleton h] at hw
      obtain ⟨q, hq, hw⟩ := mem_languageOfAny.mp hw
      obtain ⟨p, hp, hleft⟩ := mem_filterAll.mp hq
      obtain ⟨v, hv, rfl⟩ := ih p hp (hps p hp) hleft hw
      exact ⟨v, mem_languageOfAny.mpr ⟨p, hp, hv⟩, rfl⟩

/-- Something is left of a sequence or choice if something is of its parts. -/
lemma exists_collapse (wrap : List Particle → Particle) (hne : ps ≠ []) :
    ∃ kept, collapse wrap ps = some kept := by
  match ps with
  | [p] => exact ⟨p, rfl⟩
  | p :: q :: ps => exact ⟨wrap (p :: q :: ps), rfl⟩

/-- The words of parts in turn are not lost if those of each part are not. -/
lemma mem_languageInTurn_filterAll
    (hparts : ∀ p ∈ ps, ∀ {w}, w ∈ p.language → (∀ ident ∈ w, keep ident = true) →
      ∃ q, filter keep p = some q ∧ w ∈ q.language)
    (hw : w ∈ languageInTurn ps) (hkeep : ∀ ident ∈ w, keep ident = true) :
    (ps ≠ [] → filterAll keep ps ≠ []) ∧ w ∈ languageInTurn (filterAll keep ps) := by
  induction ps generalizing w with
  | nil => exact ⟨id, hw⟩
  | cons p ps ih =>
      obtain ⟨hfirst, hrest⟩ := List.forall_mem_cons.mp hparts
      obtain ⟨u, hu, v, hv, rfl⟩ := mem_languageInTurn_cons.mp hw
      obtain ⟨hkeepu, hkeepv⟩ := List.forall_mem_append.mp hkeep
      obtain ⟨q, hq, hu⟩ := hfirst hu hkeepu
      obtain ⟨-, hv⟩ := ih hrest hv hkeepv
      rw [filterAll_cons, hq]
      exact ⟨fun _ => List.cons_ne_nil _ _, mem_languageInTurn_cons.mpr ⟨u, hu, v, hv, rfl⟩⟩

/-- **The words that are not lost**: something is left of a particle that has a word without
unwanted idents, and the word is one of what is left. -/
theorem mem_language_filter (hfilled : t.Filled) (hw : w ∈ t.language)
    (hkeep : ∀ ident ∈ w, keep ident = true) :
    ∃ kept, filter keep t = some kept ∧ w ∈ kept.language := by
  induction t using ind generalizing w with
  | group ident =>
      rw [mem_language_group.mp hw] at hkeep ⊢
      have hident : keep ident = true := hkeep ident (List.mem_singleton_self ident)
      exact ⟨.group ident, by rw [filter, if_pos hident], rfl⟩
  | sequence ps ih =>
      obtain ⟨⟨hne, -⟩, hps⟩ := throughout_sequence.mp hfilled
      obtain ⟨hleft, hw⟩ :=
        mem_languageInTurn_filterAll (fun p hp => ih p hp (hps p hp)) hw hkeep
      obtain ⟨kept, hkept⟩ := exists_collapse .sequence (hleft fun hnil => hne (hnil ▸ rfl))
      refine ⟨kept, hkept, ?_⟩
      rw [language_collapse language_sequence_singleton hkept]
      exact hw
  | alternate ps ih =>
      have hps := (throughout_alternate.mp hfilled).2
      obtain ⟨p, hp, hw⟩ := mem_languageOfAny.mp hw
      obtain ⟨q, hq, hw⟩ := ih p hp (hps p hp) hw hkeep
      have hmem : q ∈ filterAll keep ps := mem_filterAll.mpr ⟨p, hp, hq⟩
      obtain ⟨kept, hkept⟩ := exists_collapse .alternate (List.ne_nil_of_mem hmem)
      refine ⟨kept, hkept, ?_⟩
      rw [language_collapse language_alternate_singleton hkept]
      exact mem_languageOfAny.mpr ⟨q, hmem, hw⟩

/-! ### Filtering by a set of groups -/

/-- Whether the groups of a set stay, or all others, if the set is excluded. -/
def stays (targets : IdentSet) (exclude : Bool) (ident : String) : Bool :=
  targets.contains ident != exclude

/-- **Filtering respects the words of a particle**, where every sequence and every choice has a
part.  Nothing is left just where no group of the particle stays.  Otherwise every word of groups
that stay is a word of what is left, and every word of what is left is a word of the particle
without the groups that do not stay. -/
theorem language_filterGroups (hfilled : t.Filled) (targets : IdentSet) (exclude : Bool) :
    (filterGroups targets exclude t = none ↔
      ∀ ident ∈ t.leaves, stays targets exclude ident = false) ∧
    ∀ kept, filterGroups targets exclude t = some kept →
      (∀ w ∈ t.language, (∀ ident ∈ w, stays targets exclude ident = true) →
        w ∈ kept.language) ∧
      ∀ w ∈ kept.language, ∃ v ∈ t.language, v.filter (stays targets exclude) = w := by
  have heq : filterGroups targets exclude t = filter (stays targets exclude) t := rfl
  rw [heq]
  refine ⟨?_, fun kept hkept => ⟨fun w hw hstays => ?_, fun w hw => ?_⟩⟩
  · rw [filter_eq_none_iff, List.filter_eq_nil_iff]
    simp only [Bool.not_eq_true]
  · obtain ⟨kept', hkept', hw⟩ := mem_language_filter hfilled hw hstays
    obtain rfl := Option.some.inj (hkept.symm.trans hkept')
    exact hw
  · exact exists_of_mem_language_filter hfilled hkept hw

/-- A heading, then a paragraph or a gap with a list after it. -/
def gapped : Particle := .sequence
  [.group "head", .alternate [.group "p", .sequence [.group "gap", .group "list"]]]

/-- Without the gap, a heading and a paragraph are still a word, and each word that is left comes
from one of before.  Nothing is left of notes, as there are none. -/
theorem language_filterGroups_gapped : gapped.Filled ∧
    filterGroups (.ofIdents ["note"]) false gapped = none ∧
    ["head", "p"] ∈ gapped.language ∧
    ∃ kept, filterGroups (.ofIdents ["gap"]) true gapped = some kept ∧
      kept.encode = "head (p|list)" ∧ ["head", "p"] ∈ kept.language ∧
      ∀ w ∈ kept.language, ∃ v ∈ gapped.language,
        v.filter (stays (.ofIdents ["gap"]) true) = w := by
  have hfilled : gapped.Filled := by decide
  have hp : ["p"] ∈ (alternate [group "p", sequence [group "gap", group "list"]]).language :=
    mem_languageOfAny.mpr ⟨group "p", List.mem_cons_self, rfl⟩
  have hword : ["head", "p"] ∈ gapped.language := by
    refine mem_languageInTurn_cons.mpr ⟨["head"], rfl, ["p"], ?_, rfl⟩
    exact mem_languageInTurn_cons.mpr ⟨["p"], hp, [], rfl, rfl⟩
  have hnone := (language_filterGroups hfilled (.ofIdents ["note"]) false).1.mpr (by decide)
  obtain ⟨kept, hkept, hencode⟩ : ∃ kept, filterGroups (.ofIdents ["gap"]) true gapped = some kept ∧
      kept.encode = "head (p|list)" := ⟨_, rfl, by decide⟩
  obtain ⟨hkeeps, hstruck⟩ := (language_filterGroups hfilled (.ofIdents ["gap"]) true).2 kept hkept
  exact ⟨hfilled, hnone, hword, kept, hkept, hencode, hkeeps _ hword (by decide), hstruck⟩

end EditorSchema.Particle
