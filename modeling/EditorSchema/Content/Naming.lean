/-
The names in a content expression, and replacing one of them.

In the expressions of a schema the characters `(`, `)`, `|`, `?`, `*` and `+` and the blanks
separate names; a name is a longest run of other characters.  A name is replaced as a
whole: one that only begins with the sought name is another name.

* `Naming.pieces_flatten`: the pieces of a text, names and separators, make up the text.
-/
import EditorSchema.Text.Blank

namespace EditorSchema.Naming

/-- Whether a character separates the names of an expression. -/
def isSeparator (c : Char) : Bool :=
  c == '(' || c == ')' || c == '|' || c == '?' || c == '*' || c == '+' || Text.isBlank c

/-- A text cut into its names, each a longest run, and its separators, each by itself. -/
def pieces : List Char → List (List Char)
  | [] => []
  | c :: rest =>
    if isSeparator c then [c] :: pieces rest
    else
      (c :: rest.takeWhile (fun d => !isSeparator d)) ::
        pieces (rest.dropWhile (fun d => !isSeparator d))
termination_by s => s.length
decreasing_by
  · exact Nat.lt_succ_self _
  · exact Nat.lt_succ_of_le (List.dropWhile_sublist _).length_le

/-- The pieces of a text make it up again. -/
theorem pieces_flatten (s : List Char) : (pieces s).flatten = s := by
  fun_induction pieces s with
  | case1 => rfl
  | case2 c rest _ ih => simp [ih]
  | case3 c rest _ ih => simp [ih]

/-- Whether an expression holds a name. -/
def mentions (expression name : String) : Bool :=
  (Text.runs (fun c => !isSeparator c) expression.toList).any fun piece => piece == name.toList

/-- An expression with one name replaced by another wherever it stands as a whole. -/
def replace (expression old new : String) : String :=
  String.ofList <| ((pieces expression.toList).map fun piece =>
    if piece == old.toList && piece.any (fun c => !isSeparator c) then new.toList
    else piece).flatten

end EditorSchema.Naming
