/-
Values as YAML.

Lists and objects are written as blocks, each item and each entry on a line of its own, and
by brackets only where they are empty.  A text is written plainly where it reads back as
that text, in single quotes where it would be taken for something else, in double quotes
where it holds what has to be escaped, and line by line where it has several lines.  A key
that is long or has several lines stands after a question mark.

* `Style.choose`: how a text is written;
* `document`: an object as a text.
-/
import EditorSchema.Data.Value
import EditorSchema.Yaml.Character
import EditorSchema.Yaml.Resembling

namespace EditorSchema.Yaml

/-! ### How a text is written -/

/-- How a text is written. -/
inductive Style where
  | plain
  | singleQuoted
  | doubleQuoted
  /-- Line by line, as it is. -/
  | literal
deriving DecidableEq, Repr

/-- The characters that a plain text does not begin with. -/
def firstIndicators : List Char :=
  ['#', ',', '[', ']', '\x7b', '\x7d', '&', '*', '!', '|', '>', '\'', '"', '%', '@', '\x60']

/-- Whether characters begin with a mark of a document. -/
def beginsDocumentMark : List Char → Bool
  | '-' :: '-' :: '-' :: _ => true
  | '.' :: '.' :: '.' :: _ => true
  | _ => false

/-- Whether the first character is taken for a mark. -/
def firstMarks : List Char → Bool
  | [] => false
  | c :: rest =>
    firstIndicators.contains c || ((c == '?' || c == ':' || c == '-') && isGap rest.head?)

/-- Whether a character after the first is taken for a mark, where `before` stands before it. -/
def laterMarks (before : Char) : List Char → Bool
  | [] => false
  | c :: rest =>
    (c == ':' && isGap rest.head?) || (c == '#' && isGap (some before)) || laterMarks c rest

/-- Whether some part of a text is taken for a mark. -/
def holdsMark (s : List Char) : Bool :=
  beginsDocumentMark s || firstMarks s ||
    match s with
    | [] => false
    | c :: rest => laterMarks c rest

/-- Whether two neighbours satisfy `p`. -/
def anyNeighbours (p : Char → Char → Bool) : List Char → Bool
  | c :: d :: rest => p c d || anyNeighbours p (d :: rest)
  | _ => false

/-- Whether a space or a line end stands at either end of a text. -/
def looseEnds (s : List Char) : Bool :=
  let loose (c : Option Char) : Bool :=
    match c with
    | some c => c == ' ' || isBreak c
    | none => false
  loose s.head? || loose s.getLast?

/-- Whether a text has to be escaped to be read back: a character may not be written as it
is, or a space before a line end would be lost. -/
def needsEscapes (s : List Char) : Bool :=
  s.any (fun c => !isPrintable c) || anyNeighbours (fun c d => c == ' ' && isBreak d) s

/-- Whether a text may be written plainly. -/
def allowsPlain (s : List Char) : Bool :=
  !(looseEnds s || s.any isBreak || needsEscapes s || holdsMark s)

/-- Whether a text may be written in single quotes: no space after a line end would be lost. -/
def allowsSingle (s : List Char) : Bool :=
  !(needsEscapes s || anyNeighbours (fun c d => isBreak c && d == ' ') s)

/-- Whether a text may be written line by line. -/
def allowsLiteral (s : List Char) : Bool := !(needsEscapes s || s.getLast? == some ' ')

/-- How a text is written. -/
def Style.choose (s : String) : Style :=
  let cs := s.toList
  if cs.contains '\n' then if allowsLiteral cs then .literal else .doubleQuoted
  else if allowsPlain cs && !resemblesData s then .plain
  else if allowsSingle cs then .singleQuoted
  else .doubleQuoted

/-! ### Texts -/

/-- Spaces at the beginning of a line. -/
def pad (n : Nat) : List Char := List.replicate n ' '

/-- Characters with spaces at the beginning of each line but the first that is not empty. -/
def spread (n : Nat) : List Char → List Char
  | [] => []
  | c :: rest =>
    match rest with
    | d :: _ =>
      if isBreak c && !isBreak d then c :: (pad n ++ spread n rest) else c :: spread n rest
    | [] => [c]

/-- The digits of a number in base sixteen, as many as asked for. -/
def hexDigits (n : Nat) : Nat → List Char
  | 0 => []
  | width + 1 => hexDigits (n / 16) width ++ [(Nat.digitChar (n % 16)).toUpper]

/-- A character in double quotes. -/
def escape (c : Char) : List Char :=
  match c with
  | '\x00' => ['\\', '0']
  | '\x07' => ['\\', 'a']
  | '\x08' => ['\\', 'b']
  | '\x09' => ['\\', 't']
  | '\x0a' => ['\\', 'n']
  | '\x0b' => ['\\', 'v']
  | '\x0c' => ['\\', 'f']
  | '\x0d' => ['\\', 'r']
  | '\x1b' => ['\\', 'e']
  | '"' => ['\\', '"']
  | '\\' => ['\\', '\\']
  | '\x85' => ['\\', 'N']
  | '\u2028' => ['\\', 'L']
  | '\u2029' => ['\\', 'P']
  | c =>
    if isPrintable c then [c]
    else
      let n := c.toNat
      if n ≤ 0xFF then ['\\', 'x'] ++ hexDigits n 2
      else if n ≤ 0xFFFF then ['\\', 'u'] ++ hexDigits n 4
      else ['\\', 'U'] ++ hexDigits n 8

/-- The head of a text that is written line by line: whether its first line begins with
spaces of its own, and whether there are fewer or more line ends after it than one. -/
def literalHead (s : List Char) : List Char :=
  let loose := match s.head? with
    | some c => c == ' ' || isBreak c
    | none => false
  let ending := match s.reverse with
    | [] => ['-']
    | [c] => if isBreak c then ['+'] else ['-']
    | c :: d :: _ => if !isBreak c then ['-'] else if isBreak d then ['+'] else []
  ['|'] ++ (if loose then ['2'] else []) ++ ending

/-- A text in its style, its further lines `n` spaces from the left. -/
def writeText (n : Nat) (s : String) : List Char :=
  let cs := s.toList
  match Style.choose s with
  | .plain => cs
  | .singleQuoted =>
    let doubled := cs.flatMap fun c => if c == '\'' then ['\'', '\''] else [c]
    let lines := spread n (['\''] ++ doubled)
    (if cs.getLast?.any isBreak then lines ++ pad n else lines) ++ ['\'']
  | .doubleQuoted => ['"'] ++ cs.flatMap escape ++ ['"']
  | .literal => spread n (literalHead cs ++ ['\n'] ++ cs)

/-! ### Blocks -/

/-- A line, ended where it does not end by itself. -/
def endLine (s : List Char) : List Char := if s.getLast?.any isBreak then s else s ++ ['\n']

/-- Whether a key may stand before a colon on one line. -/
def isSimpleKey (key : String) : Bool := !key.toList.any isBreak && key.utf8ByteSize ≤ 128

/-- Lines that begin `n` spaces from the left, the first one where it stands. -/
def lines (n : Nat) (l : List (List Char)) : List Char := (pad n).intercalate l

mutual

/-- A value after a key that begins `n` spaces from the left. -/
def afterKey (n : Nat) : Value → List Char
  | .list (v :: vs) => ['\n'] ++ pad n ++ lines n (items n (v :: vs))
  | .object (e :: es) => ['\n'] ++ pad (n + 2) ++ lines (n + 2) (entries (n + 2) (e :: es))
  | .list [] => [' ', '[', ']']
  | .object [] => [' ', '\x7b', '\x7d']
  | .null => " null".toList
  | .flag b => if b then " true".toList else " false".toList
  | .text s => ' ' :: writeText (n + 2) s

/-- A value after a mark that stands `n` spaces from the left. -/
def afterMark (n : Nat) : Value → List Char
  | .list (v :: vs) => ' ' :: lines (n + 2) (items (n + 2) (v :: vs))
  | .object (e :: es) => ' ' :: lines (n + 2) (entries (n + 2) (e :: es))
  | .list [] => [' ', '[', ']']
  | .object [] => [' ', '\x7b', '\x7d']
  | .null => " null".toList
  | .flag b => if b then " true".toList else " false".toList
  | .text s => ' ' :: writeText (n + 2) s

/-- The lines of the items of a list. -/
def items (n : Nat) : List Value → List (List Char)
  | [] => []
  | v :: vs => endLine ('-' :: afterMark n v) :: items n vs

/-- The lines of the entries of an object. -/
def entries (n : Nat) : List (String × Value) → List (List Char)
  | [] => []
  | (key, v) :: rest =>
    let line :=
      if isSimpleKey key then endLine (writeText (n + 2) key ++ [':'] ++ afterKey n v)
      else
        endLine (['?', ' '] ++ writeText (n + 2) key) ++ pad n ++ endLine (':' :: afterMark n v)
    line :: entries n rest

end

/-- An object as a document. -/
def document (l : List (String × Value)) : String := String.ofList (lines 0 (entries 0 l))

end EditorSchema.Yaml
