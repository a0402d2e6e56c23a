/-
The layout of YAML: which tokens a text has.

Lines that begin farther to the right than those before them open a block; lines that begin
farther to the left close it.  Whatever may be a key is remembered until a colon comes or
the line ends, so that the token for a key can be put before it.

* `Layout`: what is known at some place in a text;
* `Token.ofText?`: the tokens of a text.
-/
import EditorSchema.Yaml.Token

namespace EditorSchema.Yaml

/-- What may turn out to be a key. -/
structure PossibleKey where
  /-- Whether nothing but a key may stand there. -/
  required : Bool
  /-- The number of tokens before it. -/
  before : Nat
  place : Place

/-- What is known at some place in a text. -/
structure Layout where
  place : Place
  /-- The text from there on. -/
  rest : List Char
  /-- The tokens so far, the last one first. -/
  tokens : List Token := []
  /-- The column of the innermost block. -/
  indent : Int := -1
  /-- The columns of the blocks around it. -/
  outer : List Int := []
  /-- Whether a key may stand here. -/
  keyAllowed : Bool := true
  /-- What may turn out to be a key inside the innermost brackets. -/
  possible : Option PossibleKey := none
  /-- The same for each pair of brackets around them. -/
  around : List (Option PossibleKey) := []

namespace Layout

/-- Whether brackets are open. -/
def inBrackets (l : Layout) : Bool := !l.around.isEmpty

/-- A token. -/
def emit (l : Layout) (t : Token) : Layout := { l with tokens := t :: l.tokens }

/-- Pass some characters of a line. -/
def skip (l : Layout) (n : Nat) : Layout :=
  { l with place := l.place.skip n, rest := l.rest.drop n }

/-- Go on at another place. -/
def moveTo (l : Layout) (place : Place) (rest : List Char) : Layout := { l with place, rest }

/-- Read within a line. -/
def take {α : Type} (p : Scanner α) (l : Layout) : Option (α × Layout) := do
  let (a, rest) ← p.run l.rest
  return (a, l.moveTo (l.place.skip (l.rest.length - rest.length)) rest)

/-! ### Keys -/

/-- Give up what may turn out to be a key, unless it has to. -/
def dropKey (l : Layout) : Option Layout :=
  if l.possible.any (·.required) then none else some { l with possible := none }

/-- What follows may turn out to be a key, where a key may stand. -/
def saveKey (l : Layout) : Option Layout :=
  if l.keyAllowed then do
    let l ← l.dropKey
    let required := !l.inBrackets && l.indent == l.place.column
    return { l with possible := some ⟨required, l.tokens.length, l.place⟩ }
  else some l

/-- What may still turn out to be a key: it is on the same line and not too far away. -/
def live? (place : Place) : Option PossibleKey → Option (Option PossibleKey)
  | none => some none
  | some k =>
    if k.place.line < place.line || k.place.index + 1024 < place.index then
      if k.required then none else some none
    else some (some k)

/-- Give up all that cannot turn out to be a key any more. -/
def dropStale (l : Layout) : Option Layout := do
  return { l with
    possible := ← live? l.place l.possible
    around := ← l.around.mapM (live? l.place) }

/-! ### Blocks -/

/-- Open a block at a column that is farther to the right, by a token that stands before the
last `later` tokens. -/
def openBlock (l : Layout) (column later : Nat) (t : Token) : Layout :=
  if l.inBrackets || column ≤ l.indent then l
  else { l with
    tokens := l.tokens.take later ++ t :: l.tokens.drop later
    outer := l.indent :: l.outer
    indent := column }

/-- Close the blocks to the right of a column. -/
def closeWhile (column : Int) : Int → List Int → List Token → Int × List Int × List Token
  | indent, [], tokens => (indent, [], tokens)
  | indent, next :: outer, tokens =>
    if column < indent then closeWhile column next outer (.blockEnd :: tokens)
    else (indent, next :: outer, tokens)

/-- Close the blocks to the right of a column. -/
def closeBlocks (l : Layout) (column : Int) : Layout :=
  if l.inBrackets then l
  else
    let (indent, outer, tokens) := closeWhile column l.indent l.outer l.tokens
    { l with indent, outer, tokens }

/-! ### Between tokens -/

/-- Pass white space, comments and line ends; tabs only where they do not stand for an
indentation. -/
def passGap (brackets keyAllowed comment : Bool) (p : Place) :
    List Char → Bool × Place × List Char
  | [] => (keyAllowed, p, [])
  | c :: rest =>
    if isPair c rest then passGap brackets keyAllowed false (p.skip 1) rest
    else if isBreak c then passGap brackets (keyAllowed || !brackets) false p.newLine rest
    else if comment || c == ' ' || (c == '\t' && (brackets || !keyAllowed)) then
      passGap brackets keyAllowed comment (p.skip 1) rest
    else if c == '#' then passGap brackets keyAllowed true (p.skip 1) rest
    else (keyAllowed, p, c :: rest)

/-- Go to the next token. -/
def toNext (l : Layout) : Option Layout := do
  let (keyAllowed, place, rest) := passGap l.inBrackets l.keyAllowed false l.place l.rest
  let l ← dropStale { l with keyAllowed, place, rest }
  return l.closeBlocks l.place.column

/-! ### Tokens -/

/-- The end of all blocks and of what may turn out to be a key. -/
def closeAll (l : Layout) : Option Layout := do
  let l ← (l.closeBlocks (-1)).dropKey
  return { l with keyAllowed := false }

/-- A directive, which takes a line. -/
def directive (l : Layout) : Option Layout := do
  let l ← l.closeAll
  let (token, l) ← (l.skip 1).take Yaml.directive
  let (place, rest) ← restOfLine l.place l.rest
  let (place, rest) := overLineEnd place rest
  return (l.moveTo place rest).emit token

/-- A mark of a document. -/
def documentMark (l : Layout) (t : Token) : Option Layout := do
  return ((← l.closeAll).skip 3).emit t

/-- An opening bracket. -/
def openBracket (l : Layout) (t : Token) : Option Layout := do
  let l ← l.saveKey
  return { (l.skip 1).emit t with
    possible := none, around := l.possible :: l.around, keyAllowed := true }

/-- A closing bracket. -/
def closeBracket (l : Layout) (t : Token) : Option Layout := do
  let l ← l.dropKey
  return { (l.skip 1).emit t with
    possible := l.around.head?.getD l.possible, around := l.around.tail, keyAllowed := false }

/-- A comma. -/
def comma (l : Layout) : Option Layout := do
  let l ← l.dropKey
  return { (l.skip 1).emit .comma with keyAllowed := true }

/-- The mark of an item. -/
def item (l : Layout) : Option Layout := do
  if !l.inBrackets && !l.keyAllowed then none
  else
    let l ← (l.openBlock l.place.column 0 .blockSequence).dropKey
    return { (l.skip 1).emit .item with keyAllowed := true }

/-- The mark of a key. -/
def key (l : Layout) : Option Layout := do
  if !l.inBrackets && !l.keyAllowed then none
  else
    let l ← (l.openBlock l.place.column 0 .blockMapping).dropKey
    return { (l.skip 1).emit .key with keyAllowed := !l.inBrackets }

/-- The mark of a value: what may turn out to be a key is one. -/
def value (l : Layout) : Option Layout :=
  match l.possible with
  | some k =>
    let later := l.tokens.length - k.before
    let l := { l with tokens := l.tokens.take later ++ Token.key :: l.tokens.drop later }
    let l := l.openBlock k.place.column (later + 1) .blockMapping
    some { (l.skip 1).emit .value with possible := none, keyAllowed := false }
  | none =>
    if !l.inBrackets && !l.keyAllowed then none
    else
      let l := l.openBlock l.place.column 0 .blockMapping
      some { (l.skip 1).emit .value with keyAllowed := !l.inBrackets }

/-- A token that may begin a key and that a scanner reads after its mark. -/
def marked (l : Layout) (p : Scanner Token) : Option Layout := do
  let (token, l) ← ((← l.saveKey).skip 1).take p
  return { l.emit token with keyAllowed := false }

/-- A text in a block. -/
def block (l : Layout) (literal : Bool) : Option Layout := do
  let l := (← l.dropKey).skip 1
  let (text, place, rest) ← blockText literal l.indent l.place l.rest
  return { (l.moveTo place rest).emit (.scalar false text) with keyAllowed := true }

/-- A text in quotes. -/
def quoted (l : Layout) (quote : Char) : Option Layout := do
  let l := (← l.saveKey).skip 1
  let (text, place, rest) ← Yaml.quoted quote l.place {} l.rest
  return { (l.moveTo place rest).emit (.scalar false text) with keyAllowed := false }

/-- A plain text. -/
def plain (l : Layout) : Option Layout := do
  let l ← l.saveKey
  let (text, place, rest, broken) ← Yaml.plain l.inBrackets (l.indent + 1) l.place {} l.rest
  return { (l.moveTo place rest).emit (.scalar true text) with keyAllowed := broken }

/-- The characters that no plain text begins with. -/
def marks : List Char :=
  ['-', '?', ':', ',', '[', ']', '\x7b', '\x7d', '#', '&', '*', '!', '|', '>', '\'', '"', '%',
   '@', '\x60']

/-- Whether a plain text begins here. -/
def beginsPlain (brackets : Bool) (c : Char) (next : Option Char) : Bool :=
  !(isGap (some c) || marks.contains c) || (c == '-' && !next.any isBlank) ||
    (!brackets && (c == '?' || c == ':') && !isGap next)

/-- The next token, where the text has not ended. -/
def token (l : Layout) : Option Layout :=
  match l.rest with
  | [] => none
  | c :: after =>
    let next := after.head?
    let brackets := l.inBrackets
    let first := l.place.column == 0
    if first && c == '%' then l.directive
    else if first && Yaml.documentMark l.rest then
      l.documentMark (if c == '-' then .documentStart else .documentEnd)
    else if c == '[' then l.openBracket .openSequence
    else if c == '\x7b' then l.openBracket .openMapping
    else if c == ']' then l.closeBracket .closeSequence
    else if c == '\x7d' then l.closeBracket .closeMapping
    else if c == ',' then l.comma
    else if c == '-' && isGap next then l.item
    else if c == '?' && (brackets || isGap next) then l.key
    else if c == ':' && (brackets || isGap next) then l.value
    else if c == '*' then l.marked (.alias <$> name)
    else if c == '&' then l.marked (.anchor <$> name)
    else if c == '!' then l.marked (tag brackets)
    else if c == '|' && !brackets then l.block true
    else if c == '>' && !brackets then l.block false
    else if c == '\'' || c == '"' then l.quoted c
    else if beginsPlain brackets c next then l.plain
    else none

/-- The tokens from here to the end of the text.  Each takes at least one character, so there
are no more of them than the number `most` of characters. -/
def tokensFrom (most : Nat) (l : Layout) : Option (List Token) := do
  let l ← l.toNext
  if l.rest.isEmpty then return (← l.closeAll).tokens.reverse
  else
    match most with
    | 0 => none
    | most + 1 => tokensFrom most (← l.token)

end Layout

/-- The mark that may stand at the beginning of a text. -/
def byteOrderMark : Char := '\ufeff'

/-- The layout at the beginning of a text: one mark there does not count, and a second one
takes a column. -/
def Layout.start : List Char → Layout
  | a :: b :: rest =>
    if a == byteOrderMark && b == byteOrderMark then { place := ⟨0, 1, 1⟩, rest }
    else if a == byteOrderMark then { place := ⟨0, 0, 0⟩, rest := b :: rest }
    else { place := ⟨0, 0, 0⟩, rest := a :: b :: rest }
  | [a] => { place := ⟨0, 0, 0⟩, rest := if a == byteOrderMark then [] else [a] }
  | [] => { place := ⟨0, 0, 0⟩, rest := [] }

/-- The tokens of a text. -/
def Token.ofText? (text : String) : Option (List Token) :=
  let cs := text.toList
  if cs.all isAllowed then (Layout.start cs).tokensFrom cs.length else none

end EditorSchema.Yaml
