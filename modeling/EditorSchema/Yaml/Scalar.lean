/-
The scalars of YAML: texts without quotes, in quotes, and in blocks.

A scalar may go over several lines.  In a flow of text, a single line end is a space, further
ones stand for themselves, and white space around them is dropped.  In a block, lines stand
as they are, or are folded where neither of two lines begins with white space.

* `plain`, `quoted`, `blockText`: the scalar at the front of a text, with the rest.
-/
import EditorSchema.Yaml.Character

namespace EditorSchema.Yaml

/-- A place in a text. -/
structure Place where
  line : Nat
  column : Nat
  /-- The number of characters before it. -/
  index : Nat
deriving DecidableEq, Repr

namespace Place

/-- The place after some characters of a line. -/
def skip (p : Place) (n : Nat) : Place := ⟨p.line, p.column + n, p.index + n⟩

/-- The place after a character that ends a line. -/
def newLine (p : Place) : Place := ⟨p.line + 1, 0, p.index + 1⟩

end Place

/-- Whether the mark that begins or ends a document stands at the front of a text. -/
def documentMark : List Char → Bool
  | '-' :: '-' :: '-' :: rest => isGap rest.head?
  | '.' :: '.' :: '.' :: rest => isGap rest.head?
  | _ => false

/-- The line end that a character stands for. -/
def lineEnd (c : Char) : Char := if c == '\u2028' || c == '\u2029' then c else '\n'

/-- Whether two characters end a line together. -/
def isPair (c : Char) (rest : List Char) : Bool := c == '\r' && rest.head? == some '\n'

/-! ### Flows of text -/

/-- A flow of text so far. -/
structure Flow where
  /-- Its characters, the last one first. -/
  out : List Char := []
  /-- The white space after them on their line, the last one first. -/
  blanks : List Char := []
  /-- Whether their line has ended. -/
  broken : Bool := false
  /-- The end of their line, unless it does not count. -/
  first : Option Char := none
  /-- The line ends after that, the last one first. -/
  later : List Char := []

namespace Flow

/-- Whether something stands between the characters and what follows. -/
def inGap (f : Flow) : Bool := f.broken || !f.blanks.isEmpty

/-- White space within a line. -/
def blank (f : Flow) (c : Char) : Flow :=
  if f.broken then f else { f with blanks := c :: f.blanks }

/-- A line end. -/
def lineBreak (f : Flow) (c : Char) : Flow :=
  if f.broken then { f with later := lineEnd c :: f.later }
  else { f with blanks := [], broken := true, first := some (lineEnd c) }

/-- What stands between two runs of characters, the last one first. -/
def between (f : Flow) : List Char :=
  if !f.broken then f.blanks
  else
    match f.first with
    | some '\n' => if f.later.isEmpty then [' '] else f.later
    | some c => f.later ++ [c]
    | none => f.later

/-- The flow with what stands between as part of it. -/
def close (f : Flow) : Flow := { out := f.between ++ f.out }

/-- A character. -/
def push (f : Flow) (c : Char) : Flow := { f with out := c :: f.out }

/-- The text of a flow. -/
def text (f : Flow) : String := String.ofList f.out.reverse

end Flow

/-! ### Quotes -/

/-- The value of a digit in base sixteen. -/
def hexValue? (c : Char) : Option Nat :=
  if c.isDigit then some (c.toNat - '0'.toNat)
  else if 'a' ≤ c && c ≤ 'f' then some (c.toNat - 'a'.toNat + 10)
  else if 'A' ≤ c && c ≤ 'F' then some (c.toNat - 'A'.toNat + 10)
  else none

/-- The character whose number digits write in base sixteen. -/
def numbered? (digits : List Char) : Option Char := do
  let n ← digits.foldlM (fun n c => do return n * 16 + (← hexValue? c)) 0
  if n.isValidChar then some (Char.ofNat n) else none

/-- The character of a letter after a backslash. -/
def escaped? (c : Char) : Option Char :=
  match c with
  | '0' => some '\x00'
  | 'a' => some '\x07'
  | 'b' => some '\x08'
  | 't' => some '\t'
  | '\t' => some '\t'
  | 'n' => some '\n'
  | 'v' => some '\x0b'
  | 'f' => some '\x0c'
  | 'r' => some '\r'
  | 'e' => some '\x1b'
  | ' ' => some ' '
  | '"' => some '"'
  | '/' => some '/'
  | '\\' => some '\\'
  | 'N' => some '\x85'
  | '_' => some '\xa0'
  | 'L' => some '\u2028'
  | 'P' => some '\u2029'
  | _ => none

/-- The number of digits that follow a letter after a backslash. -/
def digitsAfter (c : Char) : Nat :=
  match c with
  | 'x' => 2
  | 'u' => 4
  | 'U' => 8
  | _ => 0

/-- A text in quotes after its first quote, with the place and the text after its last one. -/
def quoted (quote : Char) (p : Place) (f : Flow) : List Char → Option (String × Place × List Char)
  | [] => none
  | c :: rest =>
    if isPair c rest then quoted quote (p.skip 1) f rest
    else if isBreak c then quoted quote p.newLine (f.lineBreak c) rest
    else if isBlank c then quoted quote (p.skip 1) (f.blank c) rest
    else if p.column == 0 && documentMark (c :: rest) then none
    else
      let f := f.close
      if c == quote then
        if quote == '\'' && rest.head? == some quote then
          quoted quote (p.skip 2) (f.push quote) (rest.drop 1)
        else some (f.text, p.skip 1, rest)
      else if c == '\\' && quote == '"' then
        match rest with
        | [] => none
        | e :: after =>
          if isBreak e then
            let skipped := if isPair e after then 1 else 0
            quoted quote (p.skip (1 + skipped)).newLine { f with broken := true }
              (after.drop skipped)
          else
            match escaped? e, digitsAfter e with
            | some d, _ => quoted quote (p.skip 2) (f.push d) after
            | none, 0 => none
            | none, n =>
              if after.length < n then none
              else
                match numbered? (after.take n) with
                | some d => quoted quote (p.skip (2 + n)) (f.push d) (after.drop n)
                | none => none
      else quoted quote (p.skip 1) (f.push c) rest
termination_by s => s.length
decreasing_by
  all_goals
    simp only [List.length_cons, List.length_drop]
    omega

/-! ### Plain texts -/

/-- The marks of lists and tables in brackets. -/
def isFlowMark (c : Char) : Bool :=
  c == ',' || c == '[' || c == ']' || c == '\x7b' || c == '\x7d'

/-- A plain text in its context, with the place and the text after it, and whether lines
ended before that.  Lines that begin at a column below `indent` are not part of it, unless
it stands in brackets. -/
def plain (brackets : Bool) (indent : Int) (p : Place) (f : Flow) :
    List Char → Option (String × Place × List Char × Bool)
  | [] => some (f.text, p, [], f.broken)
  | c :: rest =>
    if isPair c rest then plain brackets indent (p.skip 1) f rest
    else if isBreak c then plain brackets indent p.newLine (f.lineBreak c) rest
    else if isBlank c then
      if f.broken && (p.column : Int) < indent && c == '\t' then none
      else plain brackets indent (p.skip 1) (f.blank c) rest
    else if f.inGap && ((!brackets && (p.column : Int) < indent) ||
        (p.column == 0 && documentMark (c :: rest)) || c == '#') then
      some (f.text, p, c :: rest, f.broken)
    else if brackets && c == ':' && rest.head?.any (fun d => isFlowMark d || d == '?') then none
    else if (c == ':' && isGap rest.head?) || (brackets && isFlowMark c) then
      some (f.text, p, c :: rest, f.broken)
    else plain brackets indent (p.skip 1) (f.close.push c) rest

/-! ### Blocks -/

/-- Which line ends a block keeps at its end. -/
inductive Chomping where
  | strip
  | clip
  | keep
deriving DecidableEq, Repr

/-- The line ends before the first line of a block, the last one first, with the greatest
column before a character and the place and the text after them.  Spaces are skipped up to
the column `indent`, or all where it is zero; other white space may not stand for them. -/
def blockStart (indent : Nat) (p : Place) (deepest : Nat) (ends : List Char) :
    List Char → Option (List Char × Nat × Place × List Char)
  | [] => some (ends, max deepest p.column, p, [])
  | c :: rest =>
    let outside := indent == 0 || p.column < indent
    if outside && c == ' ' then blockStart indent (p.skip 1) deepest ends rest
    else if outside && c == '\t' then none
    else if isPair c rest then blockStart indent (p.skip 1) (max deepest p.column) ends rest
    else if isBreak c then
      blockStart indent p.newLine (max deepest p.column) (lineEnd c :: ends) rest
    else some (ends, max deepest p.column, p, c :: rest)

/-- A block so far. -/
structure Block where
  /-- Its characters, the last one first. -/
  out : List Char := []
  /-- The end of its last line. -/
  ending : List Char := []
  /-- The line ends after that, the last one first. -/
  later : List Char := []
  /-- Whether its last line began with white space. -/
  loose : Bool := false

/-- The block with what stands before a line that begins with `c`. -/
def Block.beginLine (literal : Bool) (b : Block) (c : Char) : Block :=
  let folded := !literal && b.ending == ['\n'] && !b.loose && !isBlank c
  let joint := if folded then (if b.later.isEmpty then [' '] else []) else b.ending
  { out := b.later ++ joint ++ b.out, loose := isBlank c }

/-- The lines of a block that begin at the column `indent`, with the place and the text after
them. -/
def blockLines (literal : Bool) (indent : Nat) (inLine : Bool) (p : Place) (b : Block) :
    List Char → Option (Block × Place × List Char)
  | [] => some (b, p, [])
  | c :: rest =>
    if isPair c rest && (inLine || indent ≤ p.column) then
      blockLines literal indent inLine (p.skip 1) b rest
    else if inLine then
      if isBreak c then
        blockLines literal indent false p.newLine { b with ending := [lineEnd c] } rest
      else blockLines literal indent true (p.skip 1) { b with out := c :: b.out } rest
    else if p.column < indent && c == ' ' then
      blockLines literal indent false (p.skip 1) b rest
    else if p.column < indent && c == '\t' then none
    else if isPair c rest then blockLines literal indent false (p.skip 1) b rest
    else if isBreak c then
      blockLines literal indent false p.newLine { b with later := lineEnd c :: b.later } rest
    else if p.column == indent then
      let b := b.beginLine literal c
      blockLines literal indent true (p.skip 1) { b with out := c :: b.out } rest
    else some (b, p, c :: rest)

/-- The signs after the mark of a block: which line ends it keeps and how deep it stands. -/
def blockSigns : List Char → Option (Chomping × Nat × List Char)
  | '+' :: rest => depth .keep rest
  | '-' :: rest => depth .strip rest
  | c :: rest =>
    if c.isDigit then
      if c == '0' then none
      else
        let n := c.toNat - '0'.toNat
        match rest with
        | '+' :: rest => some (.keep, n, rest)
        | '-' :: rest => some (.strip, n, rest)
        | rest => some (.clip, n, rest)
    else some (.clip, 0, c :: rest)
  | [] => some (.clip, 0, [])
where
  /-- A depth after the sign for the line ends. -/
  depth (chomping : Chomping) : List Char → Option (Chomping × Nat × List Char)
    | c :: rest =>
      if c.isDigit then if c == '0' then none else some (chomping, c.toNat - '0'.toNat, rest)
      else some (chomping, 0, c :: rest)
    | [] => some (chomping, 0, [])

/-- What follows on a line that holds nothing more than white space and a comment: the place
and the text from its end on. -/
def restOfLine (p : Place) (s : List Char) : Option (Place × List Char) :=
  let blanks := s.takeWhile isBlank
  let s := s.dropWhile isBlank
  let comment := if s.head? == some '#' then s.takeWhile (fun c => !isBreak c) else []
  let s := s.drop comment.length
  if isLineEnd s.head? then some (p.skip (blanks.length + comment.length), s) else none

/-- The place and the text after a line end, where one is. -/
def overLineEnd (p : Place) : List Char → Place × List Char
  | c :: rest =>
    if isPair c rest then ((p.skip 1).newLine, rest.drop 1)
    else if isBreak c then (p.newLine, rest)
    else (p, c :: rest)
  | [] => (p, [])

/-- A text in a block after its mark, with the place and the text after it.  Its lines stand
deeper than `outer`. -/
def blockText (literal : Bool) (outer : Int) (p : Place) (s : List Char) :
    Option (String × Place × List Char) := do
  let (chomping, depth, afterSigns) ← blockSigns s
  let p := p.skip (s.length - afterSigns.length)
  let (p, s) ← restOfLine p afterSigns
  let (p, s) := overLineEnd p s
  let stated := if depth == 0 then 0 else (max outer 0).toNat + depth
  let (ends, deepest, p, s) ← blockStart stated p 0 [] s
  let indent := if stated == 0 then max (max deepest (outer + 1).toNat) 1 else stated
  let (b, p, s) ← blockLines literal indent false p { later := ends } s
  let out := if chomping == .strip then b.out else b.ending ++ b.out
  let out := if chomping == .keep then b.later ++ out else out
  return (String.ofList out.reverse, p, s)

end EditorSchema.Yaml
