/-
Blanks: the characters that separate words, and a text seen as its words.

A character is blank when it has the property `White_Space` of the Unicode standard, which
holds of twenty-five characters.

* `isBlank_of_isWhitespace`: the blanks of plain text are among them;
* `not_isBlank_of_mem_words`: a word holds no blank.
-/

namespace EditorSchema.Text

/-- The characters with the property `White_Space`. -/
def isBlank (c : Char) : Bool :=
  let n := c.toNat
  (0x09 ≤ n && n ≤ 0x0D) || n == 0x20 || n == 0x85 || n == 0xA0 || n == 0x1680 ||
    (0x2000 ≤ n && n ≤ 0x200A) || n == 0x2028 || n == 0x2029 || n == 0x202F ||
    n == 0x205F || n == 0x3000

/-- The blanks of plain text are blank. -/
theorem isBlank_of_isWhitespace {c : Char} (h : c.isWhitespace = true) : isBlank c = true := by
  simp only [Char.isWhitespace, Bool.or_eq_true, decide_eq_true_eq] at h
  rcases h with ((rfl | rfl) | rfl) | rfl <;> rfl

/-- The longest runs of characters that satisfy `p`, in order. -/
def runs (p : Char → Bool) : List Char → List (List Char)
  | [] => []
  | c :: rest =>
    if p c then (c :: rest.takeWhile p) :: runs p (rest.dropWhile p) else runs p rest
termination_by s => s.length
decreasing_by
  · exact Nat.lt_succ_of_le (List.dropWhile_sublist p).length_le
  · exact Nat.lt_succ_self _

/-- The words of a text: its longest runs of characters that are not blank. -/
def words (s : String) : List String :=
  (runs (fun c => !isBlank c) s.toList).map String.ofList

/-- A text with its words a single space apart and nothing around them. -/
def squeeze (s : String) : String := " ".intercalate (words s)

/-- A run is not empty and holds only characters that satisfy `p`. -/
theorem mem_runs {p : Char → Bool} {s w : List Char} (h : w ∈ runs p s) :
    w ≠ [] ∧ ∀ c ∈ w, p c = true := by
  fun_induction runs p s with
  | case1 => simp at h
  | case2 c rest hc ih =>
    rcases List.mem_cons.1 h with rfl | h
    · refine ⟨by simp, fun d hd => ?_⟩
      rcases List.mem_cons.1 hd with rfl | hd
      · exact hc
      · exact List.all_eq_true.1 List.all_takeWhile d hd
    · exact ih h
  | case3 c rest _ ih => exact ih h

/-- A word holds no blank. -/
theorem not_isBlank_of_mem_words {s w : String} (h : w ∈ words s) :
    ∀ c ∈ w.toList, isBlank c = false := by
  obtain ⟨r, hr, rfl⟩ := List.mem_map.1 h
  intro c hc
  rw [String.toList_ofList] at hc
  simpa using (mem_runs hr).2 c hc

end EditorSchema.Text
