/-
The tokens of JSON.

A text in quotes may write characters by numbers of sixteen bits, two of which together
stand for a character beyond the first plane.  One that stands alone is no character, and a
text with such a number is no text, though it may stand where nothing depends on it.

* `Token.ofText?`: the tokens of a text.
-/
import EditorSchema.Text.Scanner

namespace EditorSchema.Json

open Scanner

/-- A token. -/
inductive Token where
  | openList
  | closeList
  | openTable
  | closeTable
  | comma
  | colon
  /-- A text in quotes, unless it holds a number that is no character. -/
  | text (s : Option String)
  /-- A number, a truth value or nothing. -/
  | literal
deriving DecidableEq, Repr

/-- The white space between tokens. -/
def isSpace (c : Char) : Bool := c == ' ' || c == '\n' || c == '\t' || c == '\r'

/-! ### Texts -/

/-- A part of a text in quotes: a character, or a number of sixteen bits. -/
inductive Unit16 where
  | char (c : Char)
  | number (n : Nat)
deriving DecidableEq, Repr

/-- The value of a digit in base sixteen. -/
def hexValue? (c : Char) : Option Nat :=
  if c.isDigit then some (c.toNat - '0'.toNat)
  else if 'a' ≤ c && c ≤ 'f' then some (c.toNat - 'a'.toNat + 10)
  else if 'A' ≤ c && c ≤ 'F' then some (c.toNat - 'A'.toNat + 10)
  else none

/-- A digit in base sixteen. -/
def hexDigit : Scanner Nat := do
  given (hexValue? (← satisfy fun c => (hexValue? c).isSome))

/-- The character of a letter after a backslash. -/
def escaped? (c : Char) : Option Char :=
  match c with
  | '"' => some '"'
  | '\\' => some '\\'
  | '/' => some '/'
  | 'b' => some '\x08'
  | 'f' => some '\x0c'
  | 'n' => some '\n'
  | 'r' => some '\r'
  | 't' => some '\t'
  | _ => none

/-- A part of a text after a backslash. -/
def escape : Scanner Unit16 := do
  char '\\'
  let letter ← satisfy fun _ => true
  if letter == 'u' then
    let a ← hexDigit
    let b ← hexDigit
    let c ← hexDigit
    let d ← hexDigit
    return .number (((a * 16 + b) * 16 + c) * 16 + d)
  else return .char (← given (escaped? letter))

instance : Strict escape := strict_bind _ _

/-- A part of a text. -/
def unit16 : Scanner Unit16 :=
  escape <|> (.char <$> satisfy fun c => 0x20 ≤ c.toNat && c != '"' && c != '\\')

instance : Strict unit16 := strict_orElse _ _

/-- The characters that the parts of a text make. -/
def joinUnits : List Unit16 → Option (List Char)
  | [] => some []
  | .char c :: rest => (joinUnits rest).map (c :: ·)
  | .number n :: rest =>
    if 0xD800 ≤ n && n < 0xDC00 then
      match rest with
      | .number m :: rest =>
        if 0xDC00 ≤ m && m < 0xE000 then
          let c := Char.ofNat (0x10000 + (n - 0xD800) * 0x400 + (m - 0xDC00))
          (joinUnits rest).map (c :: ·)
        else none
      | _ => none
    else if 0xDC00 ≤ n && n < 0xE000 then none
    else (joinUnits rest).map (Char.ofNat n :: ·)

/-- A text in quotes. -/
def textToken : Scanner Token := do
  char '"'
  let units ← many unit16
  char '"'
  return .text ((joinUnits units).map String.ofList)

/-! ### Other tokens -/

/-- At least one digit. -/
def digits : Scanner Unit := do
  let _ ← takeSome Char.isDigit

/-- A number: no zero leads other digits, and digits stand on both sides of a point. -/
def number : Scanner Token := do
  let first ← satisfy fun c => c == '-' || c.isDigit
  let leading ← if first == '-' then satisfy Char.isDigit else Scanner.pure first
  if leading == '0' then absent (satisfy Char.isDigit)
  else
    let _ ← takeWhile Char.isDigit
  let _ ← optional (do char '.'; digits)
  let _ ← optional (do
    let _ ← satisfy fun c => c == 'e' || c == 'E'
    let _ ← optional (satisfy fun c => c == '+' || c == '-')
    digits)
  return .literal

/-- A word for a truth value or for nothing. -/
def word : Scanner Token := do
  let first ← satisfy Char.isAlpha
  let rest ← takeWhile Char.isAlpha
  let letters := String.ofList (first :: rest)
  require (letters == "true" || letters == "false" || letters == "null")
  return .literal

/-- A bracket, a brace, a comma or a colon. -/
def punctuation : Scanner Token := do
  let c ← satisfy fun _ => true
  given (match c with
    | '[' => some .openList
    | ']' => some .closeList
    | '\x7b' => some .openTable
    | '\x7d' => some .closeTable
    | ',' => some .comma
    | ':' => some .colon
    | _ => none)

instance : Strict textToken := strict_bind _ _

instance : Strict number := strict_bind _ _

instance : Strict word := strict_bind _ _

instance : Strict punctuation := strict_bind _ _

/-- A token and the white space after it. -/
def Token.scan : Scanner Token := do
  let token ← textToken <|> number <|> word <|> punctuation
  let _ ← takeWhile isSpace
  return token

instance : Strict Token.scan := strict_bind _ _

/-- The tokens of a text. -/
def Token.ofText? (text : String) : Option (List Token) :=
  Scanner.readAll (do
    let _ ← takeWhile isSpace
    many Token.scan) text

end EditorSchema.Json
