/-
Values as JSON.

* `Value.toJson`: a value as a text of many lines;
* `Value.toCompactJson`: a value as a text without white space.
-/
import EditorSchema.Data.Value

namespace EditorSchema.Value

/-! ### Text in quotes -/

/-- The digits of a number below sixteen. -/
def hexDigit (n : Nat) : Char := Nat.digitChar n

/-- A character between quotes.  Quotes, backslashes and control characters are escaped, all
others stand for themselves. -/
def escape (c : Char) : List Char :=
  match c with
  | '"' => ['\\', '"']
  | '\\' => ['\\', '\\']
  | '\n' => ['\\', 'n']
  | '\r' => ['\\', 'r']
  | '\t' => ['\\', 't']
  | '\x08' => ['\\', 'b']
  | '\x0c' => ['\\', 'f']
  | c =>
    if c.toNat < 0x20 then
      ['\\', 'u', '0', '0', hexDigit (c.toNat / 16), hexDigit (c.toNat % 16)]
    else [c]

/-- A text in quotes. -/
def quote (s : String) : String := "\"" ++ String.ofList (s.toList.flatMap escape) ++ "\""

/-! ### Values as text -/

/-- The characters around an object; a brace is the text that it stands for. -/
def braces : String × String := ("\x7b", "\x7d")

mutual

/-- A value without white space. -/
def toCompactJson : Value → String
  | .null => "null"
  | .flag b => if b then "true" else "false"
  | .text s => quote s
  | .list items => "[" ++ ",".intercalate (compactItems items) ++ "]"
  | .object entries => braces.1 ++ ",".intercalate (compactEntries entries) ++ braces.2

/-- The items of a list without white space. -/
def compactItems : List Value → List String
  | [] => []
  | v :: vs => toCompactJson v :: compactItems vs

/-- The entries of an object without white space. -/
def compactEntries : List (String × Value) → List String
  | [] => []
  | (key, v) :: rest => (quote key ++ ":" ++ toCompactJson v) :: compactEntries rest

end

/-- The beginning of a line at a depth. -/
def indentation (depth : Nat) : String := "\n" ++ String.ofList (List.replicate (2 * depth) ' ')

/-- Lines between brackets, each a step deeper than the brackets; brackets without lines stand
together. -/
def block (depth : Nat) (brackets : String × String) : List String → String
  | [] => brackets.1 ++ brackets.2
  | lines =>
    brackets.1 ++ indentation (depth + 1) ++
      ("," ++ indentation (depth + 1)).intercalate lines ++ indentation depth ++ brackets.2

mutual

/-- A value at a depth, each item and each entry on a line of its own. -/
def render (depth : Nat) : Value → String
  | .null => "null"
  | .flag b => if b then "true" else "false"
  | .text s => quote s
  | .list items => block depth ("[", "]") (renderItems (depth + 1) items)
  | .object entries => block depth braces (renderEntries (depth + 1) entries)

/-- The items of a list at a depth. -/
def renderItems (depth : Nat) : List Value → List String
  | [] => []
  | v :: vs => render depth v :: renderItems depth vs

/-- The entries of an object at a depth. -/
def renderEntries (depth : Nat) : List (String × Value) → List String
  | [] => []
  | (key, v) :: rest => (quote key ++ ": " ++ render depth v) :: renderEntries depth rest

end

/-- A value as a text of many lines, without a line end after the last one. -/
def toJson (v : Value) : String := render 0 v

end EditorSchema.Value
