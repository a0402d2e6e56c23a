/-
The tokens of an expression.

A text is cut into tokens from left to right, and what stands before a character that belongs
to no name is cut without regard to what follows.  So the tokens of the expression of a
particle can be told from the particle itself.

* `Expression.IsIdent`: what can stand for a group in an expression;
* `Expression.tokens_append_cons`: texts are cut apart at every other character;
* `Particle.tokens_encode`: the tokens of the expression of a particle;
* `Expression.isIdent_of_mem_tokens`: every name among the tokens of a text is an ident.
-/
import Mathlib.Tactic
import EditorSchema.Proofs.Content.Names

namespace EditorSchema

namespace Expression

variable {c : Char} {w l m : List Char}

/-- A text that can stand for a group in an expression: it is not empty, and it holds neither
blanks nor parentheses nor bars. -/
def IsIdent (s : String) : Prop := s ≠ "" ∧ ∀ c ∈ s.toList, isNameChar c = true

instance (s : String) : Decidable (IsIdent s) :=
  have : Decidable (∀ c ∈ s.toList, isNameChar c = true) :=
    List.decidableBAll (fun c => isNameChar c = true) s.toList
  inferInstanceAs (Decidable (s ≠ "" ∧ ∀ c ∈ s.toList, isNameChar c = true))

/-! ### Cutting a text -/

lemma tokens_nil : tokens [] = [] := by rw [tokens]

lemma tokens_opening (l : List Char) : tokens ('(' :: l) = .opening :: tokens l := by
  rw [tokens]

lemma tokens_closing (l : List Char) : tokens (')' :: l) = .closing :: tokens l := by
  rw [tokens]

lemma tokens_bar (l : List Char) : tokens ('|' :: l) = .bar :: tokens l := by
  rw [tokens]

lemma isNameChar_of_isBlank (hc : Text.isBlank c = true) : isNameChar c = false := by
  rw [isNameChar, hc, Bool.or_true, Bool.not_true]

/-- A blank is no token. -/
lemma tokens_blank (hc : Text.isBlank c = true) (l : List Char) : tokens (c :: l) = tokens l := by
  have hname : isNameChar c = false := isNameChar_of_isBlank hc
  rw [tokens]
  · rw [if_neg (by simp [hname])]
  all_goals rintro rfl; exact absurd hc (by decide)

/-- A character of a name is none of those that are tokens by themselves. -/
lemma ne_of_isNameChar (hc : isNameChar c = true) : c ≠ '(' ∧ c ≠ ')' ∧ c ≠ '|' := by
  refine ⟨?_, ?_, ?_⟩ <;> rintro rfl <;> exact absurd hc (by decide)

/-- A name goes on as long as its characters do. -/
lemma tokens_cons_of_isNameChar (hc : isNameChar c = true) (l : List Char) :
    tokens (c :: l) = .name (String.ofList (c :: l.takeWhile isNameChar)) ::
      tokens (l.dropWhile isNameChar) := by
  obtain ⟨hopening, hclosing, hbar⟩ := ne_of_isNameChar hc
  rw [tokens]
  · rw [if_pos hc]
  · exact fun h => hopening h
  · exact fun h => hclosing h
  · exact fun h => hbar h

/-- A text of characters of a name is a name. -/
lemma tokens_of_all (hne : w ≠ []) (hall : ∀ c ∈ w, isNameChar c = true) :
    tokens w = [.name (String.ofList w)] := by
  cases w with
  | nil => exact absurd rfl hne
  | cons c w =>
      have hw : ∀ d ∈ w, isNameChar d = true := fun d hd => hall d (List.mem_cons_of_mem _ hd)
      have htake : w.takeWhile isNameChar = w := List.takeWhile_eq_self_iff.mpr hw
      have hdrop : w.dropWhile isNameChar = [] := List.dropWhile_eq_nil_iff.mpr hw
      rw [tokens_cons_of_isNameChar (hall c List.mem_cons_self), htake, hdrop, tokens_nil]

/-- **What stands before a character that belongs to no name** is cut without regard to what
follows. -/
theorem tokens_append_cons (hc : isNameChar c = false) (l m : List Char) :
    tokens (l ++ c :: m) = tokens l ++ tokens (c :: m) := by
  fun_induction tokens l with
  | case1 => rfl
  | case2 rest ih => rw [List.cons_append, tokens_opening, ih, List.cons_append]
  | case3 rest ih => rw [List.cons_append, tokens_closing, ih, List.cons_append]
  | case4 rest ih => rw [List.cons_append, tokens_bar, ih, List.cons_append]
  | case5 d rest _ _ _ hd ih =>
      rw [List.cons_append, tokens_cons_of_isNameChar hd, Text.takeWhile_append_cons hc,
        Text.dropWhile_append_cons hc, ih, List.cons_append]
  | case6 d rest hopening hclosing hbar hd ih =>
      rw [List.cons_append, tokens, if_neg hd, ih]
      · exact hopening
      · exact hclosing
      · exact hbar

/-- The tokens of texts that are joined by a character are those of the texts, with what the
character itself is between them. -/
lemma tokens_intercalate (hc : isNameChar c = false) (between : List Token)
    (hbetween : ∀ m, tokens (c :: m) = between ++ tokens m) (ls : List (List Char)) :
    tokens ([c].intercalate ls) = between.intercalate (ls.map tokens) := by
  induction ls with
  | nil => exact tokens_nil
  | cons l ls ih =>
      cases ls with
      | nil => simp
      | cons k ls =>
          rw [List.intercalate_cons_cons, List.map_cons, List.map_cons,
            List.intercalate_cons_cons, ← List.map_cons, ← ih, List.append_assoc,
            List.singleton_append, tokens_append_cons hc, hbetween, List.append_assoc]

/-- Joined by nothing, lists are put one after the other. -/
lemma nil_intercalate (ls : List (List Token)) : [].intercalate ls = ls.flatten := by
  induction ls with
  | nil => rfl
  | cons l ls ih =>
      cases ls with
      | nil => rw [List.intercalate_singleton, List.flatten_singleton]
      | cons k ls =>
          rw [List.intercalate_cons_cons, ih, List.append_nil]
          rfl

/-- Every name among the tokens of a text is an ident. -/
theorem isIdent_of_mem_tokens {ident : String} (h : Token.name ident ∈ tokens l) :
    IsIdent ident := by
  fun_induction tokens l with
  | case1 => simp at h
  | case2 rest ih => exact ih (by simpa using h)
  | case3 rest ih => exact ih (by simpa using h)
  | case4 rest ih => exact ih (by simpa using h)
  | case5 d rest _ _ _ hd ih =>
      rcases List.mem_cons.mp h with heq | hrest
      · obtain rfl := Token.name.inj heq
        refine ⟨by simp, fun e he => ?_⟩
        rw [String.toList_ofList] at he
        rcases List.mem_cons.mp he with rfl | he
        · exact hd
        · exact List.all_eq_true.mp List.all_takeWhile e he
      · exact ih hrest
  | case6 d rest _ _ _ _ ih => exact ih h

end Expression

/-! ### The tokens of a particle -/

namespace Particle

open Expression

mutual

/-- The tokens of the expression of a particle. -/
def tokens : Particle → List Token
  | .group ident => [.name ident]
  | .sequence parts => (tokensAll parts).flatten
  | .alternate branches => .opening :: ([Token.bar].intercalate (tokensAll branches) ++ [.closing])

/-- The tokens of the expressions of particles, one by one. -/
def tokensAll : List Particle → List (List Token)
  | [] => []
  | p :: ps => tokens p :: tokensAll ps

end

lemma tokensAll_eq (ps : List Particle) : tokensAll ps = ps.map tokens := by
  induction ps with
  | nil => rfl
  | cons p ps ih => rw [tokensAll, ih, List.map_cons]

/-- **The tokens of the expression of a particle** are those that the particle tells. -/
theorem tokens_encode {t : Particle} (h : ∀ ident ∈ t.leaves, IsIdent ident) :
    Expression.tokens t.encode.toList = t.tokens := by
  have parts (ps : List Particle) (hps : ∀ ident ∈ leavesAll ps, IsIdent ident)
      (ih : ∀ p ∈ ps, (∀ ident ∈ p.leaves, IsIdent ident) →
        Expression.tokens p.encode.toList = p.tokens) :
      ((encodeAll ps).map String.toList).map Expression.tokens = tokensAll ps := by
    rw [leavesAll_eq] at hps
    rw [encodeAll_eq, tokensAll_eq, List.map_map, List.map_map]
    refine List.map_congr_left fun p hp => ih p hp fun ident hident => ?_
    exact hps ident (List.mem_flatMap.mpr ⟨p, hp, hident⟩)
  induction t using ind with
  | group ident =>
      obtain ⟨hne, hall⟩ : IsIdent ident := h ident (by simp [leaves])
      rw [encode, tokens, tokens_of_all (by simpa using hne) hall, String.ofList_toList]
  | sequence ps ih =>
      have hspace : " ".toList = [' '] := rfl
      rw [leaves] at h
      rw [encode, tokens, String.toList_intercalate, hspace,
        tokens_intercalate (by decide) [] (tokens_blank (by decide)), parts ps h ih,
        nil_intercalate]
  | alternate bs ih =>
      have hbar : "|".toList = ['|'] := rfl
      have hopening : "(".toList = ['('] := rfl
      have hclosing : ")".toList = [')'] := rfl
      rw [leaves] at h
      rw [encode, tokens, String.toList_append, String.toList_append, String.toList_intercalate,
        hbar, hopening, hclosing, List.append_assoc, List.singleton_append, tokens_opening,
        tokens_append_cons (by decide), tokens_closing, tokens_nil,
        tokens_intercalate (by decide) [.bar] tokens_bar, parts bs h ih]

end Particle

end EditorSchema
