/-
Markup in pieces: the tags, texts, comments and instructions of a document as they follow
each other.

References to characters are resolved here, line ends become line feeds, and white space in
the values of attributes becomes spaces.  Only the five references that every document knows
have names, since documents with a document type are not read.

* `Piece.scan`: the first piece of a text;
* `Piece.ofText?`: all pieces of a document.
-/
import EditorSchema.Text.Scanner
import EditorSchema.Xml.Name

namespace EditorSchema.Xml

open Scanner

/-- A piece of a document. -/
inductive Piece where
  /-- A tag that opens an element, and in case closes it too. -/
  | opening (name : WrittenName) (attributes : List (WrittenName × String)) (closed : Bool)
  | closing (name : WrittenName)
  /-- Character data that is more than white space or is marked as such. -/
  | characters (text : String)
  /-- White space by itself. -/
  | spaces (text : String)
  | comment (text : String)
  | instruction (target text : String)
deriving DecidableEq, Repr

/-! ### References and values -/

/-- The value of a digit in a base of at most sixteen. -/
def digitValue (c : Char) : Nat :=
  if c.isDigit then c.toNat - '0'.toNat
  else if c.isUpper then c.toNat - 'A'.toNat + 10
  else c.toNat - 'a'.toNat + 10

/-- The number that digits write in a base. -/
def numeral (base : Nat) (digits : List Char) : Nat :=
  digits.foldl (fun n c => n * base + digitValue c) 0

/-- Whether a character is a digit in base sixteen. -/
def isHexDigit (c : Char) : Bool :=
  c.isDigit || ('a' ≤ c && c ≤ 'f') || ('A' ≤ c && c ≤ 'F')

/-- The character of a number of at most 32 bits: the replacement character where there is
none, and nothing where a document may not hold it. -/
def referred? (n : Nat) : Option Char :=
  if n < Nat.pow 2 32 then
    let c := if n.isValidChar then Char.ofNat n else '\uFFFD'
    if isAllowed c then some c else none
  else none

/-- The character of a named reference. -/
def named? : List Char → Option Char
  | ['q', 'u', 'o', 't'] => some '"'
  | ['a', 'm', 'p'] => some '&'
  | ['a', 'p', 'o', 's'] => some '\''
  | ['l', 't'] => some '<'
  | ['g', 't'] => some '>'
  | _ => none

/-- The digits of a numbered reference, as the number that they write. -/
def number : Scanner Nat :=
  (do char 'x'; return numeral 16 (← takeSome isHexDigit)) <|>
  (do return numeral 10 (← takeSome Char.isDigit))

/-- A reference to a character. -/
def reference : Scanner Char := do
  char '&'
  let c ← (do char '#'; given (referred? (← number))) <|>
    (do given (named? (← takeSome isNameChar)))
  char ';'
  return c

instance : Strict reference := strict_bind _ _

/-- A line end, as a line feed. -/
def lineEnd : Scanner Char := do
  char '\r'
  let _ ← optional (char '\n')
  return '\n'

instance : Strict lineEnd := strict_bind _ _

/-- A line end, or another character that begins no reference. -/
def plain : Scanner Char := lineEnd <|> satisfy (· != '&')

instance : Strict plain := strict_orElse _ _

/-- Characters with their references resolved, where `f` is done to all others. -/
def resolve (f : Char → Char) (raw : List Char) : Option String :=
  ((many (reference <|> (f <$> plain))).run raw).bind fun (cs, rest) =>
    if rest.isEmpty then some (String.ofList cs) else none

/-- White space in the value of an attribute is a space. -/
def flatten (c : Char) : Char := if isSpace c then ' ' else c

/-! ### Tags -/

/-- A name with or without a prefix. -/
def writtenName : Scanner WrittenName := do
  given (WrittenName.ofChars? (← takeSome isNameChar))

/-- A name and a value in quotes, as written. -/
def assignment : Scanner (WrittenName × List Char) := do
  let name ← writtenName
  let _ ← takeWhile isSpace
  char '='
  let _ ← takeWhile isSpace
  let quote ← satisfy fun c => c == '"' || c == '\''
  let raw ← takeWhile fun c => c != quote && c != '<'
  char quote
  require (raw.all isAllowed)
  return (name, raw)

/-- An attribute of a tag, which white space sets apart from what stands before. -/
def tagAttribute : Scanner (WrittenName × String) := do
  let _ ← takeSome isSpace
  let (name, raw) ← assignment
  return (name, ← given (resolve flatten raw))

instance : Strict tagAttribute := strict_bind _ _

/-- A tag that opens an element. -/
def openingTag : Scanner Piece := do
  char '<'
  let name ← writtenName
  let attributes ← many tagAttribute
  let _ ← takeWhile isSpace
  let closed ← optional (char '/')
  char '>'
  return .opening name attributes closed.isSome

/-- A tag that closes an element. -/
def closingTag : Scanner Piece := do
  char '<'
  char '/'
  let name ← writtenName
  let _ ← takeWhile isSpace
  char '>'
  return .closing name

/-! ### Text, comments and instructions -/

/-- Whether a mark stands somewhere among characters. -/
def holdsMark (m : String) (s : List Char) : Bool := (splitMark m.toList s).isSome

/-- Character data up to the next tag. -/
def characterData : Scanner Piece := do
  let raw ← takeSome (· != '<')
  require (raw.all isAllowed && !holdsMark "]]>" raw)
  let text ← given (resolve id raw)
  return if raw.all isSpace then .spaces text else .characters text

/-- Character data that is marked off from markup. -/
def markedData : Scanner Piece := do
  char '<'
  mark "![CDATA["
  let raw ← takeUntil "]]>"
  require (raw.all isAllowed)
  return .characters (String.ofList raw)

/-- A comment, which neither holds nor ends in two hyphens of its own. -/
def commentPiece : Scanner Piece := do
  char '<'
  mark "!--"
  let raw ← takeUntil "-->"
  require (raw.all isAllowed && !holdsMark "--" raw && raw.getLast? != some '-')
  return .comment (String.ofList raw)

/-- An instruction to another program.  One that reads as the declaration of a document is
out of place. -/
def instructionPiece : Scanner Piece := do
  char '<'
  char '?'
  absent (mark "xml ")
  let first ← satisfy isNameStart
  let others ← takeWhile isNameChar
  let _ ← takeWhile isSpace
  let raw ← takeUntil "?>"
  require (raw.all isAllowed)
  return .instruction (String.ofList (first :: others)) (String.ofList raw)

/-! ### Documents -/

/-- The first piece of a text. -/
def Piece.scan : Scanner Piece :=
  commentPiece <|> markedData <|> instructionPiece <|> closingTag <|> openingTag <|>
    characterData

instance : Strict Piece.scan :=
  have : Strict commentPiece := strict_bind _ _
  have : Strict markedData := strict_bind _ _
  have : Strict instructionPiece := strict_bind _ _
  have : Strict closingTag := strict_bind _ _
  have : Strict openingTag := strict_bind _ _
  have : Strict characterData := strict_bind _ _
  inferInstanceAs (Strict (_ <|> _ <|> _ <|> _ <|> _ <|> _))

/-- White space, where more of a declaration follows. -/
def declarationGap : Scanner Unit :=
  (do let _ ← takeSome isSpace) <|> (absent (absent (mark "?>")))

/-- An item of a declaration whose name begins with a word. -/
def declarationItem (word : String) : Scanner Unit := do
  absent (absent (mark word))
  let _ ← assignment

/-- The declaration that a document may begin with. -/
def declaration : Scanner Unit := do
  mark "<?xml "
  let _ ← takeWhile isSpace
  declarationItem "version"
  declarationGap
  let _ ← optional (do declarationItem "encoding"; declarationGap)
  let _ ← optional (declarationItem "standalone")
  let _ ← takeWhile isSpace
  mark "?>"

/-- The pieces of a document.  A mark of the byte order before it is skipped. -/
def Piece.ofText? (text : String) : Option (List Piece) :=
  Scanner.readAll (do
    let _ ← optional (char '\uFEFF')
    let _ ← optional declaration
    many Piece.scan) text

end EditorSchema.Xml
