/-
The tokens of YAML: marks, names and scalars.

Besides what a text shows, there are tokens for the beginnings and the ends of blocks, which
follow from where lines begin, and for keys, which are known as such by a colon after them.

* `Token`: what a text is made of;
* `name`, `tag`, `directive`: the tokens that begin with `&`, `*`, `!` and `%`.
-/
import EditorSchema.Text.Scanner
import EditorSchema.Yaml.Scalar

namespace EditorSchema.Yaml

open Scanner

/-- A token. -/
inductive Token where
  /-- The version that a document is written in. -/
  | version (major minor : Nat)
  /-- A handle for tags. -/
  | tagHandle (handle : String)
  | documentStart
  | documentEnd
  | blockSequence
  | blockMapping
  | blockEnd
  | openSequence
  | closeSequence
  | openMapping
  | closeMapping
  | comma
  /-- The mark of an item in a block. -/
  | item
  /-- What follows is a key. -/
  | key
  /-- What follows is the value of a key. -/
  | value
  | alias (name : String)
  | anchor (name : String)
  /-- A tag by its handle, which is empty where the tag is written in full. -/
  | tag (handle : String)
  | scalar (plain : Bool) (text : String)
deriving DecidableEq, Repr

/-- What follows is white space, a line end or the end of the text. -/
def gap : Scanner Unit := absent (satisfy fun c => !isGap (some c))

/-! ### Anchors -/

/-- A name for a node, after its mark. -/
def name : Scanner String := do
  let word ← takeSome isWordChar
  absent (satisfy fun c =>
    !(isGap (some c) || ['?', ':', ',', ']', '\x7d', '%', '@', '\x60'].contains c))
  return String.ofList word

/-! ### Tags -/

/-- A byte that is written by its number. -/
def byte : Scanner Nat := do
  char '%'
  let high ← given (hexValue? (← satisfy fun c => (hexValue? c).isSome))
  let low ← given (hexValue? (← satisfy fun c => (hexValue? c).isSome))
  return high * 16 + low

/-- A byte of a character after the first one. -/
def laterByte : Scanner Unit := do
  let n ← byte
  require (0x80 ≤ n && n < 0xC0)

/-- A character that is written by its bytes. -/
def bytes : Scanner Unit := do
  let n ← byte
  if n < 0x80 then Scanner.pure ()
  else if 0xC0 ≤ n && n < 0xE0 then laterByte
  else if 0xE0 ≤ n && n < 0xF0 then do laterByte; laterByte
  else if 0xF0 ≤ n && n < 0xF8 then do laterByte; laterByte; laterByte
  else fail

instance : Strict byte := strict_bind _ _

instance : Strict bytes := strict_bind _ _

/-- The marks that a tag may hold. -/
def tagMarks : List Char :=
  [';', '/', '?', ':', '@', '&', '=', '+', '$', '.', '!', '~', '*', '\'', '(', ')']

/-- A character of a tag. -/
def tagChar (further : List Char) : Scanner Unit :=
  bytes <|> (do
    let _ ← satisfy fun c => isWordChar c || tagMarks.contains c || further.contains c)

instance (further : List Char) : Strict (tagChar further) := strict_orElse _ _

/-- The characters of a tag: how many there are. -/
def tagChars (further : List Char) : Scanner Nat := List.length <$> many (tagChar further)

/-- A tag after its mark, in its full form. -/
def fullTag : Scanner Token := do
  char '<'
  let n ← tagChars [',', '[', ']']
  require (n != 0)
  char '>'
  return .tag ""

/-- A tag after its mark, with or without a handle of its own. -/
def shortTag : Scanner Token := do
  let word ← takeWhile isWordChar
  match ← optional (char '!') with
  | some () =>
    let n ← tagChars []
    require (n != 0)
    return .tag (String.ofList (['!'] ++ word ++ ['!']))
  | none =>
    let n ← tagChars []
    return .tag (if word.isEmpty && n == 0 then "" else "!")

/-- A tag after its mark. -/
def tag (brackets : Bool) : Scanner Token := do
  let token ← fullTag <|> shortTag
  absent (satisfy fun c => !(isGap (some c) || (brackets && c == ',')))
  return token

/-! ### Directives -/

/-- A part of a version. -/
def versionNumber : Scanner Nat := do
  let digits ← takeSome Char.isDigit
  require (digits.length ≤ 9)
  return (digits.foldl (fun n c => n * 10 + (c.toNat - '0'.toNat)) 0)

/-- The version that a document is written in. -/
def version : Scanner Token := do
  let major ← versionNumber
  char '.'
  return .version major (← versionNumber)

/-- A handle for tags, with the beginning of the tags that it stands for. -/
def tagHandle : Scanner Token := do
  char '!'
  let word ← takeWhile isWordChar
  let closed ← optional (char '!')
  require (closed.isSome || word.isEmpty)
  let _ ← takeSome isBlank
  let n ← tagChars [',', '[', ']']
  require (n != 0)
  gap
  return .tagHandle (String.ofList (['!'] ++ word ++ if closed.isSome then ['!'] else []))

/-- A directive after its mark. -/
def directive : Scanner Token := do
  let word ← takeSome isWordChar
  gap
  let _ ← takeWhile isBlank
  match String.ofList word with
  | "YAML" => version
  | "TAG" => tagHandle
  | _ => fail

end EditorSchema.Yaml
