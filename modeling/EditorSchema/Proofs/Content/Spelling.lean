/-
What a text spells: the tokens of an expression, told without cutting.

A parenthesis and a bar stand for themselves, a blank for nothing, and a name is a run of other
characters that goes on as long as it can.  These rules leave a text no choice, and cutting finds
what they say.  So a text is cut apart wherever no name goes on, and blanks count for nothing
except that they end a name.

* `Expression.Spells`: the rules;
* `Expression.spells_iff`: cutting finds what a text spells;
* `Expression.Apart`: no name goes on from one text into another;
* `Expression.tokens_append`: texts that are apart are cut one after the other;
* `Expression.tokens_respaced`: the amount and the kind of blanks make no difference.
-/
import Mathlib.Tactic
import EditorSchema.Proofs.Content.Tokens

namespace EditorSchema.Expression

/-! ### The rules -/

/-- A text spells some tokens. -/
inductive Spells : List Char → List Token → Prop where
  | nil : Spells [] []
  | blank {c l ts} (hc : Text.isBlank c = true) : Spells l ts → Spells (c :: l) ts
  | opening {l ts} : Spells l ts → Spells ('(' :: l) (.opening :: ts)
  | closing {l ts} : Spells l ts → Spells (')' :: l) (.closing :: ts)
  | bar {l ts} : Spells l ts → Spells ('|' :: l) (.bar :: ts)
  /-- A name has a character, and no other character of a name comes after it. -/
  | name {w l ts} (hne : w ≠ []) (hall : ∀ c ∈ w, isNameChar c = true)
      (hend : ∀ c ∈ l.head?, isNameChar c = false) :
      Spells l ts → Spells (w ++ l) (.name (String.ofList w) :: ts)

variable {c : Char} {l m w w' : List Char} {ts : List Token}

/-- What belongs to no name is a blank or a token by itself. -/
lemma eq_of_isNameChar_eq_false (hc : isNameChar c = false) :
    c = '(' ∨ c = ')' ∨ c = '|' ∨ Text.isBlank c = true := by
  simp only [isNameChar, Bool.not_eq_false', Bool.or_eq_true, beq_iff_eq] at hc
  tauto

/-- A name is cut off where it ends. -/
lemma tokens_name (hne : w ≠ []) (hall : ∀ c ∈ w, isNameChar c = true)
    (hend : ∀ c ∈ l.head?, isNameChar c = false) :
    tokens (w ++ l) = .name (String.ofList w) :: tokens l := by
  cases l with
  | nil => rw [List.append_nil, tokens_of_all hne hall, tokens_nil]
  | cons d l => rw [tokens_append_cons (hend d rfl), tokens_of_all hne hall, List.singleton_append]

/-- **Cutting finds what a text spells**, and a text spells nothing else. -/
theorem spells_iff : Spells l ts ↔ tokens l = ts := by
  constructor
  · intro h
    induction h with
    | nil => exact tokens_nil
    | blank hc _ ih => rw [tokens_blank hc, ih]
    | opening _ ih => rw [tokens_opening, ih]
    | closing _ ih => rw [tokens_closing, ih]
    | bar _ ih => rw [tokens_bar, ih]
    | name hne hall hend _ ih => rw [tokens_name hne hall hend, ih]
  · rintro rfl
    fun_induction tokens l with
    | case1 => exact .nil
    | case2 rest ih => exact .opening ih
    | case3 rest ih => exact .closing ih
    | case4 rest ih => exact .bar ih
    | case5 d rest _ _ _ hd ih =>
        have hall : ∀ e ∈ d :: rest.takeWhile isNameChar, isNameChar e = true :=
          List.forall_mem_cons.mpr ⟨hd, fun e he => List.all_eq_true.mp List.all_takeWhile e he⟩
        have hend : ∀ e ∈ (rest.dropWhile isNameChar).head?, isNameChar e = false := by
          intro e he
          have h := List.head?_dropWhile_not isNameChar rest
          rw [Option.mem_def.mp he] at h
          exact h
        have hsplit : d :: rest =
            (d :: rest.takeWhile isNameChar) ++ rest.dropWhile isNameChar := by
          rw [List.cons_append, List.takeWhile_append_dropWhile]
        rw [hsplit]
        exact .name (List.cons_ne_nil _ _) hall hend ih
    | case6 d rest hopening hclosing hbar hd ih =>
        have hblank : Text.isBlank d = true := by
          rcases eq_of_isNameChar_eq_false (by simpa using hd) with h | h | h | h
          · exact absurd h hopening
          · exact absurd h hclosing
          · exact absurd h hbar
          · exact h
        exact .blank hblank ih

/-! ### Blanks -/

/-- No name goes on from one text into another. -/
def Apart (l m : List Char) : Prop :=
  (∀ c ∈ l.getLast?, isNameChar c = false) ∨ ∀ c ∈ m.head?, isNameChar c = false

/-- A character that belongs to no name is cut off. -/
lemma tokens_cons (hc : isNameChar c = false) (m : List Char) :
    tokens (c :: m) = tokens [c] ++ tokens m := by
  rcases eq_of_isNameChar_eq_false hc with rfl | rfl | rfl | hblank
  · rw [tokens_opening, tokens_opening, tokens_nil]; rfl
  · rw [tokens_closing, tokens_closing, tokens_nil]; rfl
  · rw [tokens_bar, tokens_bar, tokens_nil]; rfl
  · rw [tokens_blank hblank, tokens_blank hblank, tokens_nil]; rfl

/-- **Texts that are apart** are cut one after the other. -/
theorem tokens_append (h : Apart l m) : tokens (l ++ m) = tokens l ++ tokens m := by
  rcases h with hl | hm
  · rcases List.eq_nil_or_concat l with rfl | ⟨l, c, rfl⟩
    · rw [List.nil_append, tokens_nil, List.nil_append]
    · have hc : isNameChar c = false := hl c (by simp)
      rw [List.concat_eq_append, List.append_assoc, List.singleton_append, tokens_append_cons hc,
        tokens_append_cons hc, tokens_cons hc, List.append_assoc]
  · cases m with
    | nil => rw [List.append_nil, tokens_nil, List.append_nil]
    | cons c m => exact tokens_append_cons (hm c rfl) l m

lemma tokens_of_blank (hw : ∀ c ∈ w, Text.isBlank c = true) : tokens w = [] := by
  induction w with
  | nil => exact tokens_nil
  | cons c w ih =>
      rw [tokens_blank (hw c List.mem_cons_self), ih fun d hd => hw d (List.mem_cons_of_mem _ hd)]

/-- Blanks between two texts are passed over, if there are any or if the texts are apart without
them. -/
lemma tokens_spaced (hw : ∀ c ∈ w, Text.isBlank c = true) (h : w ≠ [] ∨ Apart l m) :
    tokens (l ++ w ++ m) = tokens l ++ tokens m := by
  cases w with
  | nil => rw [List.append_nil, tokens_append (h.resolve_left fun hne => hne rfl)]
  | cons c w =>
      have hend : ∀ d ∈ (c :: w).getLast?, isNameChar d = false := fun d hd =>
        isNameChar_of_isBlank (hw d (List.mem_of_getLast? hd))
      have hbegin : ∀ d ∈ ((c :: w) ++ m).head?, isNameChar d = false := fun d hd => by
        obtain rfl : c = d := by simpa using hd
        exact isNameChar_of_isBlank (hw c List.mem_cons_self)
      rw [List.append_assoc, tokens_append (.inr hbegin), tokens_append (.inl hend),
        tokens_of_blank hw, List.nil_append]

/-- **The amount and the kind of blanks make no difference**: blanks may be put for others, and
where no name would go on they may be left out. -/
theorem tokens_respaced (hw : ∀ c ∈ w, Text.isBlank c = true)
    (hw' : ∀ c ∈ w', Text.isBlank c = true) (h : w ≠ [] ∧ w' ≠ [] ∨ Apart l m) :
    tokens (l ++ w ++ m) = tokens (l ++ w' ++ m) := by
  rw [tokens_spaced hw (h.imp_left And.left), tokens_spaced hw' (h.imp_left And.right)]

end EditorSchema.Expression
