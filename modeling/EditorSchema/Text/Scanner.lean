/-
Scanners: readers that take a value off the front of a text.

A scanner leaves a rest that is no longer than the text; one that is `Strict` leaves a
shorter one, so it can be repeated until it fails.  Scanners are composed by `do`, by
choice and by repetition, and a reader of a format is such a composition.  All that a
scanner tells of a text that it cannot read is that it cannot.

* `Scanner.Strict`: what takes at least a character off;
* `Scanner.many`: repetition of a strict scanner;
* `Scanner.readAll`: reading a text from its beginning to its end.
-/

namespace EditorSchema

/-- A reader of the front of a text. -/
structure Scanner (α : Type) where
  /-- The value read and the rest of the text. -/
  run : List Char → Option (α × List Char)
  /-- Nothing is added to the text. -/
  rest_le : ∀ {s a r}, run s = some (a, r) → r.length ≤ s.length

namespace Scanner

/-- A scanner that takes at least one character. -/
class Strict {α : Type} (p : Scanner α) : Prop where
  rest_lt : ∀ {s a r}, p.run s = some (a, r) → r.length < s.length

variable {α β : Type}

/-! ### Composition -/

/-- Read nothing. -/
protected def pure (a : α) : Scanner α where
  run s := some (a, s)
  rest_le h := by cases h; exact Nat.le_refl _

/-- Read with `p`, then go on as its value says. -/
protected def bind (p : Scanner α) (f : α → Scanner β) : Scanner β where
  run s := (p.run s).bind fun (a, r) => (f a).run r
  rest_le h := by
    obtain ⟨⟨a, r⟩, hp, hf⟩ := Option.bind_eq_some_iff.1 h
    exact Nat.le_trans ((f a).rest_le hf) (p.rest_le hp)

instance : Monad Scanner where
  pure := Scanner.pure
  bind := Scanner.bind

/-- No text can be read. -/
def fail : Scanner α where
  run _ := none
  rest_le h := nomatch h

/-- Read with `p`, or with `q` what `p` cannot read. -/
protected def orElse (p : Scanner α) (q : Unit → Scanner α) : Scanner α where
  run s := (p.run s).or ((q ()).run s)
  rest_le h := by
    rcases Option.or_eq_some_iff.1 h with h | ⟨_, h⟩
    · exact p.rest_le h
    · exact (q ()).rest_le h

instance : OrElse (Scanner α) := ⟨Scanner.orElse⟩

/-- Read with `p` where it can read, and nothing elsewhere. -/
def optional (p : Scanner α) : Scanner (Option α) :=
  (some <$> p) <|> Scanner.pure none

/-- Read nothing, where a condition holds. -/
def require (condition : Bool) : Scanner Unit :=
  if condition then Scanner.pure () else fail

/-- Read nothing, where a value is there, and give it. -/
def given : Option α → Scanner α
  | some a => Scanner.pure a
  | none => fail

/-- Read nothing, where `p` cannot read. -/
def absent (p : Scanner α) : Scanner Unit where
  run s := if (p.run s).isSome then none else some ((), s)
  rest_le {s a r} h := by
    split at h
    · cases h
    · cases h; exact Nat.le_refl _

instance strict_bind (p : Scanner α) (f : α → Scanner β) [hs : Strict p] : Strict (p >>= f) where
  rest_lt h := by
    obtain ⟨⟨a, r⟩, hp, hf⟩ := Option.bind_eq_some_iff.1 h
    exact Nat.lt_of_le_of_lt ((f a).rest_le hf) (hs.rest_lt hp)

instance strict_map (p : Scanner α) (f : α → β) [hs : Strict p] : Strict (f <$> p) :=
  strict_bind p fun a => Scanner.pure (f a)

instance strict_orElse (p q : Scanner α) [hp : Strict p] [hq : Strict q] :
    Strict (p <|> q) where
  rest_lt h := by
    rcases Option.or_eq_some_iff.1 h with h | ⟨_, h⟩
    · exact hp.rest_lt h
    · exact hq.rest_lt h

instance strict_fail : Strict (fail : Scanner α) where
  rest_lt h := nomatch h

/-! ### Characters and runs -/

/-- The next character, where it satisfies `p`. -/
def satisfy (p : Char → Bool) : Scanner Char where
  run
    | [] => none
    | c :: rest => if p c then some (c, rest) else none
  rest_le {s a r} h := by
    cases s with
    | nil => cases h
    | cons c rest =>
      simp only [Option.ite_none_right_eq_some, Option.some.injEq, Prod.mk.injEq] at h
      obtain ⟨_, _, rfl⟩ := h
      exact Nat.le_succ _

instance strict_satisfy (p : Char → Bool) : Strict (satisfy p) where
  rest_lt {s a r} h := by
    cases s with
    | nil => cases h
    | cons c rest =>
      simp only [satisfy, Option.ite_none_right_eq_some, Option.some.injEq, Prod.mk.injEq] at h
      obtain ⟨_, _, rfl⟩ := h
      exact Nat.lt_succ_self _

/-- The character `c`. -/
def char (c : Char) : Scanner Unit := do
  let _ ← satisfy (· == c)

instance strict_char (c : Char) : Strict (char c) :=
  strict_bind (satisfy (· == c)) _

/-- The longest run of characters that satisfy `p`, which may be empty. -/
def takeWhile (p : Char → Bool) : Scanner (List Char) where
  run s := some (s.takeWhile p, s.dropWhile p)
  rest_le h := by cases h; exact (List.dropWhile_sublist p).length_le

/-- The longest run of characters that satisfy `p`, of at least one. -/
def takeSome (p : Char → Bool) : Scanner (List Char) := do
  let first ← satisfy p
  let others ← takeWhile p
  return first :: others

instance strict_takeSome (p : Char → Bool) : Strict (takeSome p) := strict_bind _ _

/-- What follows a mark at the front of a text. -/
def dropMark : List Char → List Char → Option (List Char)
  | [], s => some s
  | _ :: _, [] => none
  | m :: mark, c :: s => if m = c then dropMark mark s else none

/-- What follows a mark is shorter than the text by the mark. -/
theorem dropMark_length {mark s r : List Char} (h : dropMark mark s = some r) :
    r.length + mark.length = s.length := by
  induction mark generalizing s with
  | nil => cases h; rfl
  | cons m mark ih =>
    cases s with
    | nil => cases h
    | cons c s =>
      rw [dropMark] at h
      split at h
      · rw [List.length_cons, List.length_cons, ← ih h, Nat.add_assoc]
      · cases h

/-- The characters of a mark, one after the other. -/
def mark (m : String) : Scanner Unit where
  run s := (dropMark m.toList s).map ((), ·)
  rest_le h := by
    obtain ⟨r, hr, he⟩ := Option.map_eq_some_iff.1 h
    cases he
    exact Nat.le.intro (dropMark_length hr)

/-- What stands before the first occurrence of a mark, and what follows it. -/
def splitMark (m : List Char) : List Char → Option (List Char × List Char)
  | [] => (dropMark m []).map ([], ·)
  | c :: s =>
    match dropMark m (c :: s) with
    | some rest => some ([], rest)
    | none => (splitMark m s).map fun (before, rest) => (c :: before, rest)

/-- What follows the first occurrence of a mark is no longer than the text. -/
theorem splitMark_length {m s before rest : List Char}
    (h : splitMark m s = some (before, rest)) : rest.length ≤ s.length := by
  induction s generalizing before with
  | nil =>
    obtain ⟨r, hr, he⟩ := Option.map_eq_some_iff.1 h
    cases he
    exact Nat.le.intro (dropMark_length hr)
  | cons c s ih =>
    rw [splitMark] at h
    split at h
    · next hr => cases h; exact Nat.le.intro (dropMark_length hr)
    · obtain ⟨⟨b, r⟩, hs, he⟩ := Option.map_eq_some_iff.1 h
      cases he
      exact Nat.le_succ_of_le (ih hs)

/-- The characters before the first occurrence of a mark, which is taken too. -/
def takeUntil (m : String) : Scanner (List Char) where
  run := splitMark m.toList
  rest_le := splitMark_length

/-- Read nothing, where no character is left. -/
def finish : Scanner Unit where
  run
    | [] => some ((), [])
    | _ :: _ => none
  rest_le {s a r} h := by
    cases s with
    | nil => cases h; exact Nat.le_refl _
    | cons => cases h

/-! ### Repetition -/

/-- The values of `p` read one after the other, as long as it can read. -/
def collect (p : Scanner α) [hs : Strict p] (s : List Char) : List α × List Char :=
  match h : p.run s with
  | none => ([], s)
  | some (a, r) =>
    have : r.length < s.length := hs.rest_lt h
    let (as, rest) := collect p r
    (a :: as, rest)
termination_by s.length

/-- What is left after reading values is no longer than the text. -/
theorem collect_rest_le (p : Scanner α) [Strict p] (s : List Char) :
    (collect p s).2.length ≤ s.length := by
  fun_induction collect p s with
  | case1 s _ => exact Nat.le_refl _
  | case2 s a r _ hlt as rest hc ih =>
    rw [hc] at ih
    exact Nat.le_trans ih (Nat.le_of_lt hlt)

/-- The values of `p` read one after the other, as long as it can read. -/
def many (p : Scanner α) [Strict p] : Scanner (List α) where
  run s := some (collect p s)
  rest_le {s a r} h := by
    have := collect_rest_le p s
    rw [Option.some.inj h] at this
    exact this

/-- Read a text from its beginning to its end. -/
def readAll (p : Scanner α) (text : String) : Option α :=
  (p.run text.toList).bind fun (a, rest) => if rest.isEmpty then some a else none

end Scanner

end EditorSchema
