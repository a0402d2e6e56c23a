/-
Part of a particle, written with other names and read again.

Filtering leaves no sequence and no choice of fewer than two parts, and renaming keeps the
shape, so what is left of a particle can be read again after it was written; reading forgets
some of the shape, but no leaf.  Replacing a name in the text comes to renaming the leaves of
that name.

* `Particle.leaves_normalForm`: a normal form has the leaves of the particle;
* `Particle.filter_eq_none_iff`: nothing is left of a particle if no leaf of it is;
* `Particle.replace_encode`: replacing a name in an expression is renaming leaves;
* `Writes`: an expression of some leaves, which is there if any leaf is;
* `Particle.writes_rename_filter`: what is left of a particle, renamed and written.
-/
import Mathlib.Tactic
import EditorSchema.Proofs.Content.Leaves
import EditorSchema.Proofs.Content.Names
import EditorSchema.Proofs.Content.RoundTrip

namespace EditorSchema

open Naming

/-! ### Replacing a name in a text -/

namespace Naming

variable {old new : List Char} {c : Char}

/-- The characters of an expression in which one name is replaced. -/
def substituted (old new l : List Char) : List Char :=
  ((pieces l).map (substitute old new)).flatten

lemma substituted_nil : substituted old new [] = [] := by
  rw [substituted, pieces]
  rfl

/-- What stands before a separator is cut without regard to what follows. -/
lemma pieces_append_cons (hc : isSeparator c = true) (l m : List Char) :
    pieces (l ++ c :: m) = pieces l ++ [c] :: pieces m := by
  have hstop : (!isSeparator c) = false := by simp [hc]
  fun_induction pieces l with
  | case1 =>
      rw [List.nil_append, List.nil_append, pieces, if_pos hc]
  | case2 d rest hd ih => rw [List.cons_append, pieces, if_pos hd, ih, List.cons_append]
  | case3 d rest hd ih =>
      rw [List.cons_append, pieces, if_neg hd, Text.takeWhile_append_cons hstop,
        Text.dropWhile_append_cons hstop, ih, List.cons_append]

lemma substituted_append_cons (hc : isSeparator c = true) (l m : List Char) :
    substituted old new (l ++ c :: m) = substituted old new l ++ c :: substituted old new m := by
  simp [substituted, pieces_append_cons hc, substitute_separator hc]

lemma substituted_cons (hc : isSeparator c = true) (m : List Char) :
    substituted old new (c :: m) = c :: substituted old new m := by
  simpa [substituted_nil] using substituted_append_cons hc [] m

/-- In joined texts a name is replaced text by text. -/
lemma substituted_intercalate (hc : isSeparator c = true) (ls : List (List Char)) :
    substituted old new ([c].intercalate ls) = [c].intercalate (ls.map (substituted old new)) := by
  induction ls with
  | nil => exact substituted_nil
  | cons l ls ih =>
      cases ls with
      | nil => simp
      | cons k ls =>
          rw [List.intercalate_cons_cons, List.map_cons, List.map_cons,
            List.intercalate_cons_cons, ← List.map_cons, ← ih, List.append_assoc,
            List.singleton_append, substituted_append_cons hc, List.append_assoc,
            List.singleton_append]

/-- A name is replaced as a whole or not at all. -/
lemma substituted_of_isName {name : String} (h : IsName name) :
    substituted old new name.toList = if name.toList = old then new else name.toList := by
  obtain ⟨c, rest, hname⟩ : ∃ c rest, name.toList = c :: rest :=
    List.exists_cons_of_ne_nil (by simpa using h.1)
  have hall : ∀ d ∈ c :: rest, isSeparator d = false := hname ▸ h.2
  have hc : isSeparator c = false := hall c List.mem_cons_self
  have hrest : ∀ d ∈ rest, (!isSeparator d) = true := fun d hd => by
    simp [hall d (List.mem_cons_of_mem _ hd)]
  have hpieces : pieces (c :: rest) = [c :: rest] := by
    rw [pieces, if_neg (by simp [hc]), List.takeWhile_eq_self_iff.mpr hrest,
      List.dropWhile_eq_nil_iff.mpr hrest, pieces]
  rw [substituted, hname, hpieces]
  simp [substitute, hc]

end Naming

/-! ### Shape and leaves -/

namespace Particle

variable {t kept : Particle} {keep : String → Bool} {f g : String → String}

lemma rename_rename (f g : String → String) (t : Particle) :
    (t.rename f).rename g = t.rename (g ∘ f) := by
  have parts (ps : List Particle) (ih : ∀ p ∈ ps, (p.rename f).rename g = p.rename (g ∘ f)) :
      renameAll g (renameAll f ps) = renameAll (g ∘ f) ps := by
    rw [renameAll_eq, renameAll_eq, renameAll_eq, List.map_map]
    exact List.map_congr_left ih
  induction t using ind with
  | group ident => rfl
  | sequence ps ih => rw [rename, rename, rename, parts ps ih]
  | alternate ps ih => rw [rename, rename, rename, parts ps ih]

/-- A name is replaced in the expressions of parts, which separators hold apart, by being replaced
in each of them. -/
lemma substituted_intercalate_encodeAll {old new : String} {c : Char} (hc : isSeparator c = true)
    {ps : List Particle} (h : ∀ n ∈ leavesAll ps, IsName n)
    (hparts : ∀ p ∈ ps, (∀ n ∈ p.leaves, IsName n) →
      substituted old.toList new.toList p.encode.toList =
        (p.rename fun n => if n = old then new else n).encode.toList) :
    substituted old.toList new.toList ([c].intercalate ((encodeAll ps).map String.toList)) =
      [c].intercalate ((encodeAll (renameAll (fun n => if n = old then new else n) ps)).map
        String.toList) := by
  rw [leavesAll_eq] at h
  rw [substituted_intercalate hc, encodeAll_eq, encodeAll_eq, renameAll_eq]
  simp only [List.map_map]
  refine congrArg _ (List.map_congr_left fun p hp => hparts p hp fun n hn => ?_)
  exact h n (List.mem_flatMap.mpr ⟨p, hp, hn⟩)

lemma substituted_encode {old new : String} (h : ∀ n ∈ t.leaves, IsName n) :
    substituted old.toList new.toList t.encode.toList =
      (t.rename fun n => if n = old then new else n).encode.toList := by
  induction t using ind with
  | group ident =>
      rw [encode, rename, encode, substituted_of_isName (h ident (by simp [leaves])),
        apply_ite String.toList]
      simp only [String.toList_inj]
  | sequence ps ih =>
      have hspace : " ".toList = [' '] := rfl
      rw [encode, rename, encode, String.toList_intercalate, String.toList_intercalate, hspace]
      exact substituted_intercalate_encodeAll (by decide) h ih
  | alternate ps ih =>
      have hbar : "|".toList = ['|'] := rfl
      have hopening : "(".toList = ['('] := rfl
      have hclosing : ")".toList = [')'] := rfl
      rw [encode, rename, encode]
      simp only [String.toList_append, String.toList_intercalate, hbar, hopening, hclosing,
        List.singleton_append]
      rw [substituted_append_cons (by decide), substituted_cons (by decide), substituted_nil,
        substituted_intercalate_encodeAll (by decide) h ih]

/-- **Replacing a name in the expression of a particle** is renaming its leaves of that name. -/
theorem replace_encode {old new : String} (h : ∀ n ∈ t.leaves, IsName n) :
    Naming.replace t.encode old new =
      (t.rename fun n => if n = old then new else n).encode := by
  rw [replace_eq]
  exact (congrArg String.ofList (substituted_encode h)).trans String.ofList_toList

lemma items_leaves (t : Particle) : leavesAll t.items = t.leaves := by
  cases t with
  | group ident => rfl
  | sequence ps => rfl
  | alternate ps => simp [items, leavesAll]

lemma leaves_ofItems (ps : List Particle) : (ofItems ps).leaves = leavesAll ps := by
  match ps with
  | [] => rfl
  | [p] => simp [ofItems, leavesAll]
  | p :: q :: ps => rfl

lemma leaves_ofBranches (ps : List Particle) : (ofBranches ps).leaves = leavesAll ps := by
  rw [ofBranches.eq_def]
  split
  · simp [leaves, leavesAll]
  · rfl

/-- **Reading forgets no leaf**: a normal form has the leaves of the particle. -/
theorem leaves_normalForm (t : Particle) : t.normalForm.leaves = t.leaves := by
  have parts (ps : List Particle) (ih : ∀ p ∈ ps, p.normalForm.leaves = p.leaves) :
      leavesAll (normalForms ps) = leavesAll ps := by
    rw [leavesAll_eq, leavesAll_eq, normalForms_eq, List.flatMap_map]
    exact List.flatMap_congr ih
  induction t using ind with
  | group ident => rfl
  | sequence ps ih =>
      have hitems : leavesAll ((normalForms ps).flatMap items) = leavesAll (normalForms ps) := by
        rw [leavesAll_eq, leavesAll_eq, List.flatMap_assoc]
        refine List.flatMap_congr fun p _ => ?_
        rw [← leavesAll_eq, items_leaves]
      rw [normalForm, leaves_ofItems, hitems, parts ps ih, leaves]
  | alternate ps ih => rw [normalForm, leaves_ofBranches, parts ps ih, leaves]

lemma filled_group (ident : String) : (group ident).Filled :=
  throughout_group.mpr ⟨nofun, nofun⟩

lemma filled_sequence {ps : List Particle} (hne : ps ≠ []) (h : ∀ p ∈ ps, p.Filled) :
    (sequence ps).Filled :=
  throughout_sequence.mpr ⟨⟨fun heq => hne (sequence.inj heq), nofun⟩, h⟩

lemma filled_alternate {ps : List Particle} (hne : ps ≠ []) (h : ∀ p ∈ ps, p.Filled) :
    (alternate ps).Filled :=
  throughout_alternate.mpr ⟨⟨nofun, fun heq => hne (alternate.inj heq)⟩, h⟩

lemma reduced_of_collapse {wrap : List Particle → Particle} {ps : List Particle}
    (hwrap : 2 ≤ ps.length → (∀ p ∈ ps, p.Reduced) → (wrap ps).Reduced)
    (hps : ∀ p ∈ ps, p.Reduced) (h : collapse wrap ps = some kept) : kept.Reduced := by
  match ps with
  | [] => cases h
  | [p] => exact Option.some.inj h ▸ hps p List.mem_cons_self
  | p :: q :: ps => exact Option.some.inj h ▸ hwrap (by simp) hps

/-- What is left of a particle has no sequence and no choice of fewer than two parts. -/
lemma reduced_of_filter (h : filter keep t = some kept) : kept.Reduced := by
  have parts (ps : List Particle)
      (ih : ∀ p ∈ ps, ∀ {kept : Particle}, filter keep p = some kept → kept.Reduced) :
      ∀ q ∈ filterAll keep ps, q.Reduced := by
    intro q hq
    obtain ⟨p, hp, hfilter⟩ := mem_filterAll.mp hq
    exact ih p hp hfilter
  induction t using ind generalizing kept with
  | group ident =>
      rw [filter] at h
      split at h
      · cases h
        exact throughout_group.mpr trivial
      · cases h
  | sequence ps ih =>
      refine reduced_of_collapse (fun htwo hps => ?_) (parts ps ih) h
      exact throughout_sequence.mpr ⟨htwo, hps⟩
  | alternate ps ih =>
      refine reduced_of_collapse (fun htwo hps => ?_) (parts ps ih) h
      exact throughout_alternate.mpr ⟨htwo, hps⟩

lemma filled_of_filter (h : filter keep t = some kept) : kept.Filled :=
  filled_of_reduced (reduced_of_filter h)

lemma filled_rename (f : String → String) (h : t.Filled) : (t.rename f).Filled := by
  induction t using ind with
  | group ident => exact filled_group _
  | sequence ps ih =>
      obtain ⟨⟨hne, -⟩, hps⟩ := throughout_sequence.mp h
      rw [rename, renameAll_eq]
      refine filled_sequence (fun hnil => hne (by simpa using hnil)) fun q hq => ?_
      obtain ⟨p, hp, rfl⟩ := List.mem_map.mp hq
      exact ih p hp (hps p hp)
  | alternate ps ih =>
      obtain ⟨⟨-, hne⟩, hps⟩ := throughout_alternate.mp h
      rw [rename, renameAll_eq]
      refine filled_alternate (fun hnil => hne (by simpa using hnil)) fun q hq => ?_
      obtain ⟨p, hp, rfl⟩ := List.mem_map.mp hq
      exact ih p hp (hps p hp)

/-- Where every sequence and every choice has a part, there is a leaf. -/
lemma leaves_ne_nil (h : t.Filled) : t.leaves ≠ [] := by
  have parts (ps : List Particle) (hne : ps ≠ []) (hps : ∀ p ∈ ps, p.leaves ≠ []) :
      leavesAll ps ≠ [] := by
    cases ps with
    | nil => exact absurd rfl hne
    | cons p ps => exact List.append_ne_nil_of_left_ne_nil (hps p List.mem_cons_self) _
  induction t using ind with
  | group ident => exact List.cons_ne_nil _ _
  | sequence ps ih =>
      obtain ⟨⟨hne, -⟩, hps⟩ := throughout_sequence.mp h
      exact parts ps (fun hnil => hne (hnil ▸ rfl)) fun p hp => ih p hp (hps p hp)
  | alternate ps ih =>
      obtain ⟨⟨-, hne⟩, hps⟩ := throughout_alternate.mp h
      exact parts ps (fun hnil => hne (hnil ▸ rfl)) fun p hp => ih p hp (hps p hp)

/-- **Nothing is left of a particle** if no leaf of it is. -/
theorem filter_eq_none_iff : filter keep t = none ↔ t.leaves.filter keep = [] := by
  rw [← leavesLeft_filter]
  cases h : filter keep t with
  | none => simp [leavesLeft]
  | some kept => simpa [leavesLeft] using leaves_ne_nil (filled_of_filter h)

lemma rename_eq_self (h : ∀ n ∈ t.leaves, f n = n) : t.rename f = t := by
  have parts (ps : List Particle) (hps : ∀ n ∈ leavesAll ps, f n = n)
      (ih : ∀ p ∈ ps, (∀ n ∈ p.leaves, f n = n) → p.rename f = p) : renameAll f ps = ps := by
    rw [leavesAll_eq] at hps
    rw [renameAll_eq]
    refine (List.map_congr_left fun p hp => ih p hp fun n hn => ?_).trans (List.map_id ps)
    exact hps n (List.mem_flatMap.mpr ⟨p, hp, hn⟩)
  induction t using ind with
  | group ident => rw [rename, h ident (by simp [leaves])]
  | sequence ps ih => rw [rename, parts ps h ih]
  | alternate ps ih => rw [rename, parts ps h ih]

end Particle

/-! ### Expressions of leaves -/

/-- An expression is not there if it has no leaf to name, and otherwise it is read as a
particle with its leaves. -/
structure Writes (content : Option String) (leaves : List String) : Prop where
  absent : content = none ↔ leaves = []
  reads : ∀ text, content = some text → ∃ p, Particle.parse text = .ok p ∧ p.leaves = leaves

/-- An expression can be read, and it has a leaf. -/
def Holds (content : Option String) (leaf : String) : Prop :=
  ∃ text p, content = some text ∧ Particle.parse text = .ok p ∧ leaf ∈ p.leaves

lemma Writes.holds_iff {content : Option String} {leaves : List String} {leaf : String}
    (h : Writes content leaves) : Holds content leaf ↔ leaf ∈ leaves := by
  constructor
  · rintro ⟨text, p, htext, hp, hleaf⟩
    obtain ⟨q, hq, hleaves⟩ := h.reads text htext
    obtain rfl : p = q := Except.ok.inj (hp.symm.trans hq)
    exact hleaves ▸ hleaf
  · intro hleaf
    cases hcontent : content with
    | none => exact absurd (h.absent.mp hcontent) (List.ne_nil_of_mem hleaf)
    | some text =>
        obtain ⟨p, hp, hleaves⟩ := h.reads text hcontent
        exact ⟨text, p, rfl, hp, hleaves ▸ hleaf⟩

/-- A name can stand for a group. -/
lemma Naming.IsName.isIdent {name : String} (h : IsName name) : Expression.IsIdent name := by
  refine ⟨h.1, fun c hc => ?_⟩
  have hseparator := h.2 c hc
  simp only [isSeparator, Bool.or_eq_false_iff] at hseparator
  simp [Expression.isNameChar, hseparator]

/-- **What is left of a particle, renamed and written**, is an expression of the leaves that
are left, each under its new name. -/
theorem Particle.writes_rename_filter {t : Particle} {keep : String → Bool} {f : String → String}
    (hnames : ∀ n ∈ t.leaves, keep n = true → IsName (f n)) :
    Writes ((filter keep t).map fun kept => (kept.rename f).encode)
      ((t.leaves.filter keep).map f) := by
  constructor
  · rw [Option.map_eq_none_iff, filter_eq_none_iff, List.map_eq_nil_iff]
  · intro text htext
    obtain ⟨kept, hkept, rfl⟩ := Option.map_eq_some_iff.mp htext
    have hleaves : (kept.rename f).leaves = (t.leaves.filter keep).map f := by
      rw [leaves_rename, leaves_of_filter hkept]
    have hidents : ∀ n ∈ (kept.rename f).leaves, Expression.IsIdent n := by
      intro n hn
      rw [hleaves, List.mem_map] at hn
      obtain ⟨leaf, hleaf, rfl⟩ := hn
      obtain ⟨hmem, hkeep⟩ := List.mem_filter.mp hleaf
      exact (hnames leaf hmem hkeep).isIdent
    have hfilled : (kept.rename f).Filled := filled_rename f (filled_of_filter hkept)
    refine ⟨_, parse_encode_eq_normalForm hidents hfilled, ?_⟩
    rw [leaves_normalForm, hleaves]

end EditorSchema
