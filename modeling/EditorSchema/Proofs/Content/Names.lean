/-
The names in an expression: what writing, joining and replacing do to them.

An expression is put together from names with separators between them, and the names are
found again by cutting it at its separators.  Nothing is lost on the way: joining texts joins
their names, a particle has the names of its leaves, and replacing one name by another
replaces it in the list of names.

* `Text.runs_intercalate`: the runs of joined texts are those of the texts;
* `Text.words_unwords`: words a space apart are found again;
* `Naming.names_encode`: the names of the expression of a particle are its leaves;
* `Naming.pieces_replace`, `Naming.names_replace`: replacing a name in an expression replaces
  it among its pieces and among its names.
-/
import Mathlib.Data.List.TakeWhile
import Mathlib.Tactic
import EditorSchema.Content.Expression
import EditorSchema.Content.Naming

namespace EditorSchema

/-! ### Runs -/

namespace Text

variable {p : Char → Bool}

/-- A run that is taken ends before a separator at the latest. -/
lemma takeWhile_append_cons {c : Char} (hc : p c = false) (l m : List Char) :
    (l ++ c :: m).takeWhile p = l.takeWhile p := by
  rw [List.takeWhile_append, List.takeWhile_cons_of_neg (by simp [hc]), List.append_nil]
  split
  · next hlen => exact ((List.takeWhile_sublist p).eq_of_length hlen).symm
  · rfl

/-- A run that is passed over ends before a separator at the latest. -/
lemma dropWhile_append_cons {c : Char} (hc : p c = false) (l m : List Char) :
    (l ++ c :: m).dropWhile p = l.dropWhile p ++ c :: m := by
  rw [List.dropWhile_append, List.dropWhile_cons_of_neg (by simp [hc])]
  split
  · next hnil => rw [List.isEmpty_iff.mp hnil, List.nil_append]
  · rfl

lemma runs_nil : runs p [] = [] := by rw [runs]

/-- A character that belongs to no run is passed over. -/
lemma runs_cons_of_neg {c : Char} (hc : p c = false) (l : List Char) :
    runs p (c :: l) = runs p l := by
  rw [runs]
  simp [hc]

/-- A text without separators is its only run. -/
lemma runs_of_all {w : List Char} (hne : w ≠ []) (hall : ∀ c ∈ w, p c = true) :
    runs p w = [w] := by
  cases w with
  | nil => exact absurd rfl hne
  | cons c w =>
      have hw : ∀ d ∈ w, p d = true := fun d hd => hall d (List.mem_cons_of_mem _ hd)
      rw [runs, if_pos (hall c List.mem_cons_self), List.takeWhile_eq_self_iff.mpr hw,
        List.dropWhile_eq_nil_iff.mpr hw, runs_nil]

/-- What stands before a separator is cut without regard to what follows. -/
lemma runs_append_cons {c : Char} (hc : p c = false) (l m : List Char) :
    runs p (l ++ c :: m) = runs p l ++ runs p m := by
  fun_induction runs p l with
  | case1 => rw [List.nil_append, runs_cons_of_neg hc, List.nil_append]
  | case2 d rest hd ih =>
      rw [List.cons_append, runs, if_pos hd, takeWhile_append_cons hc, dropWhile_append_cons hc, ih,
        List.cons_append]
  | case3 d rest hd ih =>
      rw [List.cons_append, runs, if_neg hd, ih]

/-- Separators divide a text. -/
lemma runs_append_append {s : List Char} (hne : s ≠ []) (hs : ∀ c ∈ s, p c = false)
    (l m : List Char) : runs p (l ++ s ++ m) = runs p l ++ runs p m := by
  induction s generalizing l with
  | nil => exact absurd rfl hne
  | cons c s ih =>
      have hc := hs c List.mem_cons_self
      rw [List.append_assoc, List.cons_append, runs_append_cons hc]
      cases s with
      | nil => rw [List.nil_append]
      | cons d s =>
          have h := ih (by simp) (fun e he => hs e (List.mem_cons_of_mem _ he)) []
          rw [List.nil_append, runs_nil, List.nil_append] at h
          rw [h]

/-- The runs of texts that are joined by separators are those of the texts. -/
theorem runs_intercalate {s : List Char} (hne : s ≠ []) (hs : ∀ c ∈ s, p c = false)
    (ls : List (List Char)) : runs p (s.intercalate ls) = ls.flatMap (runs p) := by
  induction ls with
  | nil => simpa using runs_nil
  | cons l ls ih =>
      cases ls with
      | nil => simp
      | cons m ls =>
          rw [List.intercalate_cons_cons, runs_append_append hne hs, ih, ← List.flatMap_cons]

/-! ### Words -/

/-- A text without blanks. -/
def IsSolid (s : String) : Prop := ∀ c ∈ s.toList, isBlank c = false

-- The instance is given since one that goes through all characters may be found instead.
instance (s : String) : Decidable (IsSolid s) :=
  List.decidableBAll (fun c => isBlank c = false) s.toList

/-- A text that can be a word: it is not empty and holds no blank. -/
def IsWord (w : String) : Prop := w ≠ "" ∧ IsSolid w

instance (w : String) : Decidable (IsWord w) := inferInstanceAs (Decidable (w ≠ "" ∧ IsSolid w))

lemma IsWord.append {a b : String} (ha : IsWord a) (hb : IsSolid b) : IsWord (a ++ b) := by
  refine ⟨by simp [ha.1], fun c hc => ?_⟩
  rw [String.toList_append, List.mem_append] at hc
  exact hc.elim (ha.2 c) (hb c)

/-- Words a space apart are found again. -/
theorem words_unwords {ws : List String} (h : ∀ w ∈ ws, IsWord w) :
    words (" ".intercalate ws) = ws := by
  have hspace : ∀ c ∈ " ".toList, (!isBlank c) = false := by
    have hlist : " ".toList = [' '] := rfl
    rw [hlist, List.forall_mem_singleton]
    rfl
  rw [words, String.toList_intercalate, runs_intercalate (by decide) hspace,
    List.flatMap_map, List.map_flatMap]
  conv_rhs => rw [← List.flatMap_singleton' ws]
  refine List.flatMap_congr fun w hw => ?_
  have hw' : ∀ c ∈ w.toList, (!isBlank c) = true := fun c hc => by simp [(h w hw).2 c hc]
  rw [runs_of_all (by simpa using (h w hw).1) hw', List.map_singleton, String.ofList_toList]

end Text

/-! ### Names -/

namespace Naming

/-- The names of an expression, in order and with repetitions. -/
def names (expression : String) : List String :=
  (Text.runs (fun c => !isSeparator c) expression.toList).map String.ofList

/-- A text without separators. -/
def IsWhole (s : String) : Prop := ∀ c ∈ s.toList, isSeparator c = false

-- The instance is given since one that goes through all characters may be found instead.
instance (s : String) : Decidable (IsWhole s) :=
  List.decidableBAll (fun c => isSeparator c = false) s.toList

/-- A text that can be a name: it is not empty and holds no separator. -/
def IsName (name : String) : Prop := name ≠ "" ∧ IsWhole name

instance (name : String) : Decidable (IsName name) :=
  inferInstanceAs (Decidable (name ≠ "" ∧ IsWhole name))

/-- A text that consists of separators. -/
def IsGap (s : String) : Prop := s ≠ "" ∧ ∀ c ∈ s.toList, isSeparator c = true

instance (s : String) : Decidable (IsGap s) :=
  have : Decidable (∀ c ∈ s.toList, isSeparator c = true) :=
    List.decidableBAll (fun c => isSeparator c = true) s.toList
  inferInstanceAs (Decidable (s ≠ "" ∧ ∀ c ∈ s.toList, isSeparator c = true))

lemma IsGap.toList_ne {s : String} (h : IsGap s) : s.toList ≠ [] := by simpa using h.1

lemma IsGap.neg {s : String} (h : IsGap s) : ∀ c ∈ s.toList, (!isSeparator c) = false :=
  fun c hc => by simp [h.2 c hc]

/-- A blank is a separator. -/
lemma IsWhole.isSolid {s : String} (h : IsWhole s) : Text.IsSolid s := by
  intro c hc
  have := h c hc
  simp only [isSeparator, Bool.or_eq_false_iff] at this
  exact this.2

/-- A name can be a word. -/
lemma IsName.isWord {name : String} (h : IsName name) : Text.IsWord name := ⟨h.1, h.2.isSolid⟩

lemma IsName.append {a b : String} (ha : IsName a) (hb : IsWhole b) : IsName (a ++ b) := by
  refine ⟨by simp [ha.1], fun c hc => ?_⟩
  rw [String.toList_append, List.mem_append] at hc
  exact hc.elim (ha.2 c) (hb c)

/-- An expression mentions the names that it has. -/
lemma mentions_iff {expression name : String} :
    mentions expression name = true ↔ name ∈ names expression := by
  simp only [mentions, names, List.any_eq_true, beq_iff_eq, List.mem_map]
  constructor
  · rintro ⟨piece, hp, rfl⟩
    exact ⟨_, hp, String.ofList_toList⟩
  · rintro ⟨piece, hp, rfl⟩
    exact ⟨_, hp, String.toList_ofList.symm⟩

lemma names_empty : names "" = [] := by
  rw [names, String.toList_empty, Text.runs_nil, List.map_nil]

/-- A name is the only name of itself. -/
lemma names_of_isName {name : String} (h : IsName name) : names name = [name] := by
  have hall : ∀ c ∈ name.toList, (!isSeparator c) = true := fun c hc => by simp [h.2 c hc]
  rw [names, Text.runs_of_all (by simpa using h.1) hall, List.map_singleton, String.ofList_toList]

/-- Separators divide an expression. -/
lemma names_append_append {gap : String} (h : IsGap gap) (a b : String) :
    names (a ++ gap ++ b) = names a ++ names b := by
  simp only [names, String.toList_append, Text.runs_append_append h.toList_ne h.neg,
    List.map_append]

lemma names_gap_append {gap : String} (h : IsGap gap) (b : String) :
    names (gap ++ b) = names b := by
  have := names_append_append h "" b
  rwa [String.empty_append, names_empty, List.nil_append] at this

lemma names_append_gap {gap : String} (h : IsGap gap) (a : String) :
    names (a ++ gap) = names a := by
  have := names_append_append h a ""
  rwa [String.append_empty, names_empty, List.append_nil] at this

/-- The names of expressions that are joined by separators are those of the expressions. -/
theorem names_intercalate {gap : String} (h : IsGap gap) (ls : List String) :
    names (gap.intercalate ls) = ls.flatMap names := by
  rw [names, String.toList_intercalate, Text.runs_intercalate h.toList_ne h.neg,
    List.flatMap_map, List.map_flatMap]
  rfl

/-- The names of names that are joined by separators. -/
lemma names_intercalate_of_isName {gap : String} (h : IsGap gap) {ns : List String}
    (hns : ∀ n ∈ ns, IsName n) : names (gap.intercalate ns) = ns := by
  rw [names_intercalate h]
  conv_rhs => rw [← List.flatMap_singleton' ns]
  exact List.flatMap_congr fun n hn => names_of_isName (hns n hn)

/-! ### Names of a particle -/

/-- **The names of the expression of a particle are its leaves**, in order and with
repetitions. -/
theorem names_encode {t : Particle} (h : ∀ n ∈ t.leaves, IsName n) :
    names t.encode = t.leaves := by
  have parts (gap : String) (hgap : IsGap gap) (ps : List Particle)
      (hps : ∀ n ∈ Particle.leavesAll ps, IsName n)
      (ih : ∀ p ∈ ps, (∀ n ∈ p.leaves, IsName n) → names p.encode = p.leaves) :
      names (gap.intercalate (Particle.encodeAll ps)) = Particle.leavesAll ps := by
    rw [Particle.leavesAll_eq] at hps ⊢
    rw [Particle.encodeAll_eq, names_intercalate hgap, List.flatMap_map]
    refine List.flatMap_congr fun p hp => ih p hp fun n hn => ?_
    exact hps n (List.mem_flatMap.mpr ⟨p, hp, hn⟩)
  induction t using Particle.ind with
  | group ident =>
      rw [Particle.encode, Particle.leaves]
      exact names_of_isName (h ident (by simp [Particle.leaves]))
  | sequence ps ih =>
      rw [Particle.encode, Particle.leaves]
      exact parts " " (by decide) ps (by simpa [Particle.leaves] using h) ih
  | alternate ps ih =>
      rw [Particle.encode, Particle.leaves, names_append_gap (by decide),
        names_gap_append (by decide)]
      exact parts "|" (by decide) ps (by simpa [Particle.leaves] using h) ih

/-! ### Replacing a name -/

/-- What a piece of an expression becomes when one name is replaced. -/
def substitute (old new piece : List Char) : List Char :=
  if piece == old && piece.any (fun c => !isSeparator c) then new else piece

lemma replace_eq (expression old new : String) :
    replace expression old new = String.ofList
      ((pieces expression.toList).map (substitute old.toList new.toList)).flatten := rfl

lemma substitute_separator {c : Char} (hc : isSeparator c = true) (old new : List Char) :
    substitute old new [c] = [c] := by
  simp [substitute, hc]

/-- A separator at the beginning stays where it is. -/
lemma head?_substituted {l : List Char} (h : ∀ c ∈ l.head?, isSeparator c = true)
    (old new : List Char) :
    ((pieces l).map (substitute old new)).flatten.head? = l.head? := by
  cases l with
  | nil => simp [pieces]
  | cons c l =>
      have hc : isSeparator c = true := h c rfl
      rw [pieces, if_pos hc, List.map_cons, substitute_separator hc]
      rfl

/-- A name is a piece of its own where a separator follows. -/
lemma pieces_append_of_head {w l : List Char} (hne : w ≠ [])
    (hall : ∀ c ∈ w, isSeparator c = false) (hl : ∀ c ∈ l.head?, isSeparator c = true) :
    pieces (w ++ l) = w :: pieces l := by
  obtain ⟨c, w, rfl⟩ := List.exists_cons_of_ne_nil hne
  have hw : ∀ d ∈ w, (!isSeparator d) = true := fun d hd => by
    simp [hall d (List.mem_cons_of_mem _ hd)]
  have htake : l.takeWhile (fun d => !isSeparator d) = [] := by
    cases l with
    | nil => rfl
    | cons d l => simp [hl d rfl]
  have hdrop : l.dropWhile (fun d => !isSeparator d) = l := by
    cases l with
    | nil => rfl
    | cons d l => simp [hl d rfl]
  rw [List.cons_append, pieces, if_neg (by simp [hall c List.mem_cons_self]),
    List.takeWhile_append_of_pos hw, List.dropWhile_append_of_pos hw, htake, hdrop,
    List.append_nil]

/-- The names of a text are its pieces that are no separators. -/
lemma runs_eq_filter_pieces (l : List Char) : Text.runs (fun c => !isSeparator c) l =
    (pieces l).filter fun piece => piece.any fun c => !isSeparator c := by
  fun_induction pieces l with
  | case1 => rw [Text.runs_nil, List.filter_nil]
  | case2 c rest hc ih =>
      rw [Text.runs_cons_of_neg (by simp [hc]), List.filter_cons_of_neg (by simp [hc]), ih]
  | case3 c rest hc ih =>
      rw [Text.runs, if_pos (by simpa using hc), List.filter_cons_of_pos (by simp [hc]), ih]

/-- **The pieces of an expression after a replacement** are its pieces, each replaced. -/
lemma pieces_substituted {old new : List Char} (hne : new ≠ [])
    (hnew : ∀ c ∈ new, isSeparator c = false) (l : List Char) :
    pieces ((pieces l).map (substitute old new)).flatten =
      (pieces l).map (substitute old new) := by
  fun_induction pieces l with
  | case1 => rw [List.map_nil, List.flatten_nil, pieces]
  | case2 c rest hc ih =>
      rw [List.map_cons, substitute_separator hc, List.flatten_cons, List.singleton_append,
        pieces, if_pos hc, ih]
  | case3 c rest hc ih =>
      have hrest : ∀ d ∈ (rest.dropWhile fun d => !isSeparator d).head?,
          isSeparator d = true := by
        intro d hd
        have := List.head?_dropWhile_not (fun d => !isSeparator d) rest
        rw [Option.mem_def.mp hd] at this
        simpa using this
      set w := c :: rest.takeWhile fun d => !isSeparator d with hw
      have hall : ∀ d ∈ w, isSeparator d = false := by
        intro d hd
        rcases List.mem_cons.mp hd with rfl | hd
        · simpa using hc
        · simpa using List.all_eq_true.mp List.all_takeWhile d hd
      have hsub : substitute old new w = if w = old then new else w := by
        simp [substitute, hw, hc]
      rw [List.map_cons, List.flatten_cons, hsub, pieces_append_of_head ?_ ?_ ?_, ih]
      · split
        · exact hne
        · exact List.cons_ne_nil _ _
      · split
        · exact hnew
        · exact hall
      · intro d hd
        rw [head?_substituted hrest] at hd
        exact hrest d hd

/-- The runs of an expression after a replacement are its runs, each replaced. -/
lemma runs_substituted {old new : List Char} (hne : new ≠ [])
    (hnew : ∀ c ∈ new, isSeparator c = false) (l : List Char) :
    Text.runs (fun c => !isSeparator c) ((pieces l).map (substitute old new)).flatten =
      (Text.runs (fun c => !isSeparator c) l).map fun w => if w = old then new else w := by
  have hany : new.any (fun c => !isSeparator c) = true := by
    obtain ⟨c, new, rfl⟩ := List.exists_cons_of_ne_nil hne
    simp [hnew c List.mem_cons_self]
  rw [runs_eq_filter_pieces, pieces_substituted hne hnew, List.filter_map, runs_eq_filter_pieces]
  have hsame (piece : List Char) : (substitute old new piece).any (fun c => !isSeparator c) =
      piece.any fun c => !isSeparator c := by
    rw [substitute]
    split
    · next h => rw [hany, (Bool.and_eq_true_iff.mp h).2]
    · rfl
  simp only [Function.comp_def, hsame]
  refine List.map_congr_left fun w hw => ?_
  simp [substitute, (List.mem_filter.mp hw).2]

/-- **Replacing a name in an expression** keeps its pieces, separators and names, but for the
name that is replaced. -/
theorem pieces_replace {new : String} (hnew : IsName new) (expression old : String) :
    pieces (replace expression old new).toList =
      (pieces expression.toList).map (substitute old.toList new.toList) := by
  rw [replace_eq, String.toList_ofList, pieces_substituted (by simpa using hnew.1) hnew.2]

/-- **Replacing a name in an expression replaces it among the names**, and nothing else. -/
theorem names_replace {new : String} (hnew : IsName new) (expression old : String) :
    names (replace expression old new) =
      (names expression).map fun n => if n = old then new else n := by
  rw [names, replace_eq, String.toList_ofList, runs_substituted (by simpa using hnew.1) hnew.2,
    names, List.map_map, List.map_map]
  refine List.map_congr_left fun w _ => ?_
  by_cases h : w = old.toList
  · simp [h]
  · have : String.ofList w ≠ old := fun he => h (by rw [← he, String.toList_ofList])
    simp [h, this]

end Naming

end EditorSchema
