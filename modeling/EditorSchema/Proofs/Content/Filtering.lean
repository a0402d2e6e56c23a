/-
Filtering a particle twice, and what filtering keeps of its shape.

Sequences and choices that are left with a single part collapse, so every filtering changes the
shape.  But a part that has collapsed is filtered on as if it had not, and what collapses only in
the second filtering would not have been touched before.  So two filters in turn are one filter,
which keeps what both keep.

What is left has the leaves that are kept, in order, and no sequence and no choice of fewer than
two parts.  A leaf can be found again by counting the kept ones before it, and what joins two
leaves, the innermost sequence or choice around both, is still of the same kind.

* `Particle.filter_bind_filter`: two filters in turn;
* `Particle.both`: the filter by a set of groups that does the work of two;
* `Particle.filterGroups_bind`: filters by sets of groups compose, commute and are idempotent;
* `Particle.joint`, `Particle.rank`: what joins two leaves, and where a leaf is found again;
* `Particle.joint_filter`: filtering keeps what joins two leaves;
* `Particle.filterGroups_keeps`: the leaves and the shape of what is left.
-/
import Mathlib.Tactic
import EditorSchema.Proofs.Content.Language

namespace EditorSchema.Particle

variable {t kept : Particle} {keep : String → Bool} {ps : List Particle} {i j : Nat} {a b : String}

/-! ### Filtering twice -/

/-- What is left of a collapsed sequence or choice is what collapses out of its filtered parts. -/
lemma collapse_bind_filter {wrap : List Particle → Particle}
    (hwrap : ∀ qs, filter keep (wrap qs) = collapse wrap (filterAll keep qs)) (ps : List Particle) :
    (collapse wrap ps).bind (filter keep) = collapse wrap (filterAll keep ps) := by
  match ps with
  | [] => rfl
  | [p] =>
      -- a single part stands for itself, before it is filtered and after
      show filter keep p = collapse wrap (filterAll keep [p])
      rw [filterAll_cons, filterAll, List.append_nil]
      cases filter keep p <;> rfl
  | p :: q :: ps => exact hwrap (p :: q :: ps)

/-- **Two filters in turn** are the filter that keeps what both keep. -/
theorem filter_bind_filter (first second : String → Bool) (t : Particle) :
    (filter first t).bind (filter second) =
      filter (fun ident => first ident && second ident) t := by
  have parts (ps : List Particle) (ih : ∀ p ∈ ps, (filter first p).bind (filter second) =
      filter (fun ident => first ident && second ident) p) :
      filterAll second (filterAll first ps) =
        filterAll (fun ident => first ident && second ident) ps := by
    calc filterAll second (filterAll first ps)
        = ps.filterMap fun p => (filter first p).bind (filter second) := by
          rw [filterAll_eq, filterAll_eq, List.filterMap_filterMap]
      _ = ps.filterMap (filter fun ident => first ident && second ident) :=
          List.filterMap_congr ih
      _ = filterAll (fun ident => first ident && second ident) ps := (filterAll_eq _ _).symm
  induction t using ind with
  | group ident =>
      rw [filter, filter]
      by_cases h : first ident <;> simp [h, filter]
  | sequence ps ih =>
      rw [filter, filter, collapse_bind_filter (fun _ => by rw [filter]), parts ps ih]
  | alternate ps ih =>
      rw [filter, filter, collapse_bind_filter (fun _ => by rw [filter]), parts ps ih]

lemma filterGroups_eq (targets : IdentSet) (exclude : Bool) (t : Particle) :
    filterGroups targets exclude t = filter (stays targets exclude) t := rfl

/-- The filter that keeps what two filters keep, as a set of groups and whether they are excluded.
If one of the two keeps the groups of a set, so does it, and otherwise it excludes both sets. -/
def both (targets : IdentSet) (exclude : Bool) (targets' : IdentSet) (exclude' : Bool) :
    IdentSet × Bool :=
  match exclude, exclude' with
  | false, _ => (.ofIdents (targets.toList.filter (stays targets' exclude')), false)
  | true, false => (.ofIdents (targets'.toList.filter (stays targets true)), false)
  | true, true => (.ofIdents (targets.toList ++ targets'.toList), true)

lemma mem_toList {s : IdentSet} {ident : String} : ident ∈ s.toList ↔ s.contains ident = true :=
  Dictionary.mem_keys_iff

lemma stays_both (targets : IdentSet) (exclude : Bool) (targets' : IdentSet) (exclude' : Bool)
    (ident : String) :
    stays (both targets exclude targets' exclude').1 (both targets exclude targets' exclude').2
        ident =
      (stays targets exclude ident && stays targets' exclude' ident) := by
  rw [Bool.eq_iff_iff]
  cases exclude with
  | false => simp [both, stays, IdentSet.contains_ofIdents, mem_toList]
  | true =>
      cases exclude' with
      | false => simp [both, stays, IdentSet.contains_ofIdents, mem_toList, and_comm]
      | true => simp [both, stays, IdentSet.contains_ofIdents, mem_toList]

/-- **Filters compose.**  A group by itself is left just if it stays.  To filter what another filter
has left is to filter once, by the groups that stay in both, so filters commute, and the second
use of a filter changes nothing. -/
theorem filterGroups_bind (t : Particle) (targets : IdentSet) (exclude : Bool)
    (targets' : IdentSet) (exclude' : Bool) :
    (∀ targets exclude ident, filterGroups targets exclude (.group ident) =
      if stays targets exclude ident then some (.group ident) else none) ∧
    (∃ targets'' exclude'',
      (∀ ident, stays targets'' exclude'' ident =
        (stays targets exclude ident && stays targets' exclude' ident)) ∧
      (filterGroups targets exclude t).bind (filterGroups targets' exclude') =
        filterGroups targets'' exclude'' t) ∧
    (filterGroups targets exclude t).bind (filterGroups targets' exclude') =
      (filterGroups targets' exclude' t).bind (filterGroups targets exclude) ∧
    (filterGroups targets exclude t).bind (filterGroups targets exclude) =
      filterGroups targets exclude t := by
  have hbind (s : IdentSet) (e : Bool) (s' : IdentSet) (e' : Bool) :
      (filterGroups s e t).bind (filterGroups s' e') =
        filter (fun ident => stays s e ident && stays s' e' ident) t :=
    filter_bind_filter (stays s e) (stays s' e') t
  have hboth := stays_both targets exclude targets' exclude'
  refine ⟨fun _ _ _ => by rw [filterGroups_eq, filter], ⟨_, _, hboth, ?_⟩, ?_, ?_⟩
  · rw [hbind, filterGroups_eq, funext hboth]
  · rw [hbind, hbind]
    simp only [Bool.and_comm]
  · rw [hbind, filterGroups_eq]
    simp only [Bool.and_self]

/-! ### What joins two leaves -/

/-- What joins two leaves. -/
inductive Joint where
  | sequence
  | alternate
deriving DecidableEq, Repr

mutual

/-- What joins two leaves of a particle, which are told by their numbers: the innermost sequence or
choice around both. -/
def joint : Particle → Nat → Nat → Option Joint
  | .group _, _, _ => none
  | .sequence parts, i, j => jointAll .sequence parts i j
  | .alternate branches, i, j => jointAll .alternate branches i j

/-- What joins two leaves of the parts of a sequence or a choice: what joins them in a part that has
both, and otherwise the sequence or choice itself. -/
def jointAll (whole : Joint) : List Particle → Nat → Nat → Option Joint
  | [], _, _ => none
  | p :: ps, i, j =>
    let n := p.leaves.length
    if i < n ∧ j < n then joint p i j
    else if i < n ∨ j < n then some whole
    else jointAll whole ps (i - n) (j - n)

end

section Parts

variable {whole : Joint} {p : Particle}

lemma jointAll_of_lt (hi : i < p.leaves.length) (hj : j < p.leaves.length) :
    jointAll whole (p :: ps) i j = p.joint i j := by
  rw [jointAll, if_pos ⟨hi, hj⟩]

/-- Two leaves of which just one is in the first part are joined by the whole. -/
lemma jointAll_of_apart (h : i < p.leaves.length ↔ ¬ j < p.leaves.length) :
    jointAll whole (p :: ps) i j = some whole := by
  rw [jointAll, if_neg (by omega), if_pos (by omega)]

lemma jointAll_of_le (hi : p.leaves.length ≤ i) (hj : p.leaves.length ≤ j) :
    jointAll whole (p :: ps) i j =
      jointAll whole ps (i - p.leaves.length) (j - p.leaves.length) := by
  rw [jointAll, if_neg (by omega), if_neg (by omega)]

end Parts

/-- Two leaves of some parts are joined, if two leaves of one part are. -/
lemma exists_jointAll {whole : Joint}
    (hparts : ∀ p ∈ ps, ∀ {i j}, i ≠ j → i < p.leaves.length → j < p.leaves.length →
      ∃ k, p.joint i j = some k)
    (hne : i ≠ j) (hi : i < (leavesAll ps).length) (hj : j < (leavesAll ps).length) :
    ∃ k, jointAll whole ps i j = some k := by
  induction ps generalizing i j with
  | nil => exact absurd hi (by simp [leavesAll])
  | cons p ps ih =>
      obtain ⟨hp, hrest⟩ := List.forall_mem_cons.mp hparts
      rw [leavesAll, List.length_append] at hi hj
      by_cases hip : i < p.leaves.length <;> by_cases hjp : j < p.leaves.length
      · rw [jointAll_of_lt hip hjp]
        exact hp hne hip hjp
      · exact ⟨whole, jointAll_of_apart (by omega)⟩
      · exact ⟨whole, jointAll_of_apart (by omega)⟩
      · rw [jointAll_of_le (by omega) (by omega)]
        exact ih hrest (by omega) (by omega) (by omega)

/-- Two leaves are joined. -/
lemma exists_joint (hne : i ≠ j) (hi : i < t.leaves.length) (hj : j < t.leaves.length) :
    ∃ whole, t.joint i j = some whole := by
  induction t using ind generalizing i j with
  | group ident =>
      simp only [leaves, List.length_singleton] at hi hj
      omega
  | sequence ps ih => exact exists_jointAll ih hne hi hj
  | alternate ps ih => exact exists_jointAll ih hne hi hj

/-! ### Where a leaf is found again -/

/-- The number of an element among those that are kept: how many of those before it are. -/
def rank (keep : String → Bool) (l : List String) (i : Nat) : Nat := (l.take i).countP keep

/-- A kept element is found again under its rank. -/
lemma getElem?_filter_rank {l : List String} (ha : l[i]? = some a) (hkeep : keep a = true) :
    (l.filter keep)[rank keep l i]? = some a := by
  induction l generalizing i with
  | nil => simp at ha
  | cons b l ih =>
      cases i with
      | zero =>
          obtain rfl : b = a := by simpa using ha
          simp [rank, hkeep]
      | succ i =>
          have hrest : (l.filter keep)[rank keep l i]? = some a := ih (by simpa using ha)
          have hrank : rank keep (b :: l) (i + 1) = rank keep l i + if keep b then 1 else 0 := by
            rw [rank, rank, List.take_succ_cons, List.countP_cons]
          by_cases hb : keep b = true
          · rw [hrank, if_pos hb, List.filter_cons_of_pos hb, List.getElem?_cons_succ, hrest]
          · rw [hrank, if_neg hb, List.filter_cons_of_neg hb, Nat.add_zero, hrest]

lemma rank_lt {l : List String} (ha : l[i]? = some a) (hkeep : keep a = true) :
    rank keep l i < (l.filter keep).length :=
  (List.getElem?_eq_some_iff.mp (getElem?_filter_rank ha hkeep)).1

lemma rank_append_of_lt {l : List String} (h : i < l.length) (m : List String) :
    rank keep (l ++ m) i = rank keep l i := by
  rw [rank, rank, List.take_append_of_le_length (Nat.le_of_lt h)]

lemma rank_append_of_le {l : List String} (h : l.length ≤ i) (m : List String) :
    rank keep (l ++ m) i = (l.filter keep).length + rank keep m (i - l.length) := by
  rw [rank, rank, List.take_append, List.take_of_length_le h, List.countP_append,
    List.countP_eq_length_filter]

/-! ### What filtering keeps -/

/-- Collapsing keeps what joins two leaves. -/
lemma joint_collapse {wrap : List Particle → Particle} {whole : Joint}
    (hwrap : ∀ qs, (wrap qs).joint i j = jointAll whole qs i j)
    (h : collapse wrap ps = some kept) (hi : i < kept.leaves.length)
    (hj : j < kept.leaves.length) : kept.joint i j = jointAll whole ps i j := by
  match ps with
  | [] => cases h
  | [p] =>
      cases h
      exact (jointAll_of_lt hi hj).symm
  | p :: q :: ps =>
      cases h
      exact hwrap _

lemma rank_lt_of_filter (h : filter keep t = some kept) (hi : t.leaves[i]? = some a)
    (ha : keep a = true) : rank keep t.leaves i < kept.leaves.length := by
  rw [leaves_of_filter h]
  exact rank_lt hi ha

section Parts

variable {whole : Joint} {p q : Particle}

/-- Where nothing is kept of a part, a kept leaf comes after it. -/
lemma le_of_filter_eq_none {l : List String} (hnone : filter keep p = none)
    (hi : (p.leaves ++ l)[i]? = some a) (ha : keep a = true) : p.leaves.length ≤ i := by
  by_contra hlt
  rw [List.getElem?_append_left (by omega)] at hi
  have hrank : rank keep p.leaves i < (p.leaves.filter keep).length := rank_lt hi ha
  rw [filter_eq_none_iff.mp hnone, List.length_nil] at hrank
  omega

/-- A first part of which nothing is kept makes no difference to what joins two leaves. -/
lemma jointAll_of_filter_eq_none (hnone : filter keep p = none)
    (hi : (p.leaves ++ leavesAll ps)[i]? = some a) (hj : (p.leaves ++ leavesAll ps)[j]? = some b)
    (ha : keep a = true) (hb : keep b = true)
    (hothers : ∀ {i j}, (leavesAll ps)[i]? = some a → (leavesAll ps)[j]? = some b →
      jointAll whole (filterAll keep ps) (rank keep (leavesAll ps) i)
        (rank keep (leavesAll ps) j) = jointAll whole ps i j) :
    jointAll whole (filterAll keep ps) (rank keep (p.leaves ++ leavesAll ps) i)
      (rank keep (p.leaves ++ leavesAll ps) j) = jointAll whole (p :: ps) i j := by
  have hip : p.leaves.length ≤ i := le_of_filter_eq_none hnone hi ha
  have hjp : p.leaves.length ≤ j := le_of_filter_eq_none hnone hj hb
  rw [List.getElem?_append_right hip] at hi
  rw [List.getElem?_append_right hjp] at hj
  rw [rank_append_of_le hip, rank_append_of_le hjp, filter_eq_none_iff.mp hnone, List.length_nil,
    Nat.zero_add, Nat.zero_add, jointAll_of_le hip hjp]
  exact hothers hi hj

/-- A first part of which something is kept joins the leaves that it has, and stands apart from
those that it has not, as before. -/
lemma jointAll_of_filter_eq_some (hsome : filter keep p = some q)
    (hi : (p.leaves ++ leavesAll ps)[i]? = some a) (hj : (p.leaves ++ leavesAll ps)[j]? = some b)
    (ha : keep a = true) (hb : keep b = true)
    (hfirst : p.leaves[i]? = some a → p.leaves[j]? = some b →
      q.joint (rank keep p.leaves i) (rank keep p.leaves j) = p.joint i j)
    (hothers : ∀ {i j}, (leavesAll ps)[i]? = some a → (leavesAll ps)[j]? = some b →
      jointAll whole (filterAll keep ps) (rank keep (leavesAll ps) i)
        (rank keep (leavesAll ps) j) = jointAll whole ps i j) :
    jointAll whole (q :: filterAll keep ps) (rank keep (p.leaves ++ leavesAll ps) i)
      (rank keep (p.leaves ++ leavesAll ps) j) = jointAll whole (p :: ps) i j := by
  have hq : q.leaves.length = (p.leaves.filter keep).length := by rw [leaves_of_filter hsome]
  by_cases hip : i < p.leaves.length <;> by_cases hjp : j < p.leaves.length
  · rw [List.getElem?_append_left hip] at hi
    rw [List.getElem?_append_left hjp] at hj
    rw [rank_append_of_lt hip, rank_append_of_lt hjp, jointAll_of_lt hip hjp,
      jointAll_of_lt (rank_lt_of_filter hsome hi ha) (rank_lt_of_filter hsome hj hb)]
    exact hfirst hi hj
  · rw [List.getElem?_append_left hip] at hi
    have hri : rank keep p.leaves i < q.leaves.length := rank_lt_of_filter hsome hi ha
    rw [rank_append_of_lt hip, rank_append_of_le (by omega), jointAll_of_apart (by omega),
      jointAll_of_apart (by omega)]
  · rw [List.getElem?_append_left hjp] at hj
    have hrj : rank keep p.leaves j < q.leaves.length := rank_lt_of_filter hsome hj hb
    rw [rank_append_of_le (by omega), rank_append_of_lt hjp, jointAll_of_apart (by omega),
      jointAll_of_apart (by omega)]
  · rw [List.getElem?_append_right (by omega)] at hi hj
    rw [rank_append_of_le (by omega), rank_append_of_le (by omega), ← hq,
      jointAll_of_le (by omega) (by omega), jointAll_of_le (by omega) (by omega),
      Nat.add_sub_cancel_left, Nat.add_sub_cancel_left]
    exact hothers hi hj

/-- Filtering parts keeps what joins two of their leaves, if it does so in each part. -/
lemma jointAll_filterAll (ha : keep a = true) (hb : keep b = true)
    (hparts : ∀ p ∈ ps, ∀ {q i j}, filter keep p = some q → p.leaves[i]? = some a →
      p.leaves[j]? = some b → q.joint (rank keep p.leaves i) (rank keep p.leaves j) = p.joint i j)
    (hi : (leavesAll ps)[i]? = some a) (hj : (leavesAll ps)[j]? = some b) :
    jointAll whole (filterAll keep ps) (rank keep (leavesAll ps) i) (rank keep (leavesAll ps) j) =
      jointAll whole ps i j := by
  induction ps generalizing i j with
  | nil => exact absurd hi (by simp [leavesAll])
  | cons p ps ih =>
      obtain ⟨hp, hrest⟩ := List.forall_mem_cons.mp hparts
      rw [leavesAll] at hi hj ⊢
      rw [filterAll_cons]
      cases hleft : filter keep p with
      | none => exact jointAll_of_filter_eq_none hleft hi hj ha hb (ih hrest)
      | some q => exact jointAll_of_filter_eq_some hleft hi hj ha hb (hp hleft) (ih hrest)

end Parts

/-- **Filtering keeps what joins two leaves**, where both are kept. -/
theorem joint_filter (h : filter keep t = some kept) (hi : t.leaves[i]? = some a)
    (hj : t.leaves[j]? = some b) (ha : keep a = true) (hb : keep b = true) :
    kept.joint (rank keep t.leaves i) (rank keep t.leaves j) = t.joint i j := by
  induction t using ind generalizing kept i j with
  | group ident =>
      obtain ⟨rfl, rfl⟩ : i = 0 ∧ ident = a := by
        simpa [leaves, List.getElem?_singleton] using hi
      obtain ⟨rfl, -⟩ : j = 0 ∧ ident = b := by
        simpa [leaves, List.getElem?_singleton] using hj
      rw [filter, if_pos ha] at h
      cases h
      rfl
  | sequence ps ih =>
      rw [joint_collapse (fun _ => by rw [joint]) h (rank_lt_of_filter h hi ha)
        (rank_lt_of_filter h hj hb)]
      exact jointAll_filterAll ha hb ih hi hj
  | alternate ps ih =>
      rw [joint_collapse (fun _ => by rw [joint]) h (rank_lt_of_filter h hi ha)
        (rank_lt_of_filter h hj hb)]
      exact jointAll_filterAll ha hb ih hi hj

/-! ### Filtering by a set of groups -/

/-- **The leaves and the shape of what is left.**  Nothing is left of a particle just where none of
its leaves stays.  Otherwise the leaves that stay are left, in order and with repetitions, every
sequence and every choice has at least two parts, and any two leaves that stay are found again under
their ranks and are joined as they were, by a sequence or by a choice. -/
theorem filterGroups_keeps (t : Particle) (targets : IdentSet) (exclude : Bool) :
    (filterGroups targets exclude t = none ↔
      ∀ ident ∈ t.leaves, stays targets exclude ident = false) ∧
    ∀ kept, filterGroups targets exclude t = some kept →
      kept.leaves = t.leaves.filter (stays targets exclude) ∧ kept.Reduced ∧
      ∀ i j a b, i ≠ j → t.leaves[i]? = some a → t.leaves[j]? = some b →
        stays targets exclude a = true → stays targets exclude b = true →
        kept.leaves[rank (stays targets exclude) t.leaves i]? = some a ∧
        kept.leaves[rank (stays targets exclude) t.leaves j]? = some b ∧
        ∃ whole, t.joint i j = some whole ∧
          kept.joint (rank (stays targets exclude) t.leaves i)
            (rank (stays targets exclude) t.leaves j) = some whole := by
  rw [filterGroups_eq]
  constructor
  · rw [filter_eq_none_iff, List.filter_eq_nil_iff]
    simp only [Bool.not_eq_true]
  · intro kept hkept
    have hleaves : kept.leaves = t.leaves.filter (stays targets exclude) := leaves_of_filter hkept
    refine ⟨hleaves, reduced_of_filter hkept, fun i j a b hne hi hj ha hb => ?_⟩
    obtain ⟨whole, hwhole⟩ : ∃ whole, t.joint i j = some whole :=
      exists_joint hne (List.getElem?_eq_some_iff.mp hi).1 (List.getElem?_eq_some_iff.mp hj).1
    rw [hleaves, joint_filter hkept hi hj ha hb]
    exact ⟨getElem?_filter_rank hi ha, getElem?_filter_rank hj hb, whole, hwhole, hwhole⟩

/-- A particle in which the choices lose a branch each, so that one of them collapses, and in which
the sequence around the first group collapses too. -/
def withGaps : Particle := .sequence
  [.alternate [.sequence [.group "p", .group "gap"], .group "list"],
    .alternate [.group "gap", .group "p"]]

/-- Without the gaps, the sequence around the first group and the second choice collapse; the other
groups keep their order, and the first two are still branches of one choice.  Nothing is left of
notes, as there are none. -/
theorem filterGroups_keeps_withGaps :
    ∃ kept, filterGroups (.ofIdents ["gap"]) true withGaps = some kept ∧
      kept = .sequence [.alternate [.group "p", .group "list"], .group "p"] ∧
      kept.leaves = withGaps.leaves.filter (stays (.ofIdents ["gap"]) true) ∧
      withGaps.leaves[0]? = some "p" ∧ withGaps.leaves[2]? = some "list" ∧
      withGaps.leaves[4]? = some "p" ∧
      kept.leaves[rank (stays (.ofIdents ["gap"]) true) withGaps.leaves 4]? = some "p" ∧
      (∃ whole, withGaps.joint 0 2 = some whole ∧ whole = .alternate ∧
        kept.joint (rank (stays (.ofIdents ["gap"]) true) withGaps.leaves 0)
          (rank (stays (.ofIdents ["gap"]) true) withGaps.leaves 2) = some whole) ∧
      filterGroups (.ofIdents ["note"]) false withGaps = none := by
  obtain ⟨kept, hkept, heq⟩ : ∃ kept, filterGroups (.ofIdents ["gap"]) true withGaps = some kept ∧
      kept = .sequence [.alternate [.group "p", .group "list"], .group "p"] := ⟨_, rfl, by decide⟩
  have hfirst : withGaps.leaves[0]? = some "p" := by decide
  have hlist : withGaps.leaves[2]? = some "list" := by decide
  have hlast : withGaps.leaves[4]? = some "p" := by decide
  obtain ⟨hleaves, -, hjoint⟩ := (filterGroups_keeps withGaps (.ofIdents ["gap"]) true).2 kept hkept
  obtain ⟨-, -, whole, hwhole, hleft⟩ :=
    hjoint 0 2 "p" "list" (by decide) hfirst hlist (by decide) (by decide)
  obtain ⟨-, hagain, -⟩ := hjoint 0 4 "p" "p" (by decide) hfirst hlast (by decide) (by decide)
  have hchoice : withGaps.joint 0 2 = some .alternate := by decide
  have hnone := (filterGroups_keeps withGaps (.ofIdents ["note"]) false).1.mpr (by decide)
  exact ⟨kept, hkept, heq, hleaves, hfirst, hlist, hlast, hagain,
    ⟨whole, hwhole, Option.some.inj (hwhole.symm.trans hchoice), hleft⟩, hnone⟩

end EditorSchema.Particle
