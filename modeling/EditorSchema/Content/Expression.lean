/-
Content expressions: particles as text.

An expression writes a sequence as its parts with spaces between them, a choice as its
branches in parentheses with bars between them, and a group as its ident, as in
`head (p|list) note`.  Reading is the other way about.  It goes through the tokens of the
text from left to right and keeps what is open: the groups whose closing parenthesis is
still to come, each with its finished branches and the items of its present branch.

* `Particle.encode`, `Particle.parse`: writing and reading;
* `Expression.Fault`: the three ways in which a text is no expression.

A choice in parentheses of a single branch is read as a choice of one branch, so that the
parentheses survive another writing.
-/
import EditorSchema.Text.Blank
import EditorSchema.Content.Particle

namespace EditorSchema

/-! ### Writing -/

namespace Particle

mutual

/-- The expression of a particle. -/
def encode : Particle → String
  | .group ident => ident
  | .sequence parts => " ".intercalate (encodeAll parts)
  | .alternate branches => "(" ++ "|".intercalate (encodeAll branches) ++ ")"

/-- The expressions of a list of particles. -/
def encodeAll : List Particle → List String
  | [] => []
  | p :: ps => encode p :: encodeAll ps

end

/-- The particles of a list are written one by one. -/
theorem encodeAll_eq (ps : List Particle) : encodeAll ps = ps.map encode := by
  induction ps with
  | nil => rfl
  | cons p ps ih => simp [encodeAll, ih]

end Particle

namespace Expression

/-! ### Tokens -/

/-- A token of an expression. -/
inductive Token where
  | opening
  | closing
  | bar
  /-- A longest run of other characters that are not blank. -/
  | name (ident : String)
deriving DecidableEq, Repr

/-- Whether a character belongs to a name. -/
def isNameChar (c : Char) : Bool :=
  !(c == '(' || c == ')' || c == '|' || Text.isBlank c)

/-- The tokens of a text. -/
def tokens : List Char → List Token
  | [] => []
  | '(' :: rest => .opening :: tokens rest
  | ')' :: rest => .closing :: tokens rest
  | '|' :: rest => .bar :: tokens rest
  | c :: rest =>
    if isNameChar c then
      .name (String.ofList (c :: rest.takeWhile isNameChar)) ::
        tokens (rest.dropWhile isNameChar)
    else tokens rest
termination_by s => s.length
decreasing_by
  all_goals simp only [List.length_cons]
  all_goals try exact Nat.lt_succ_self _
  exact Nat.lt_succ_of_le (List.dropWhile_sublist isNameChar).length_le

/-! ### Reading -/

/-- Why a text is no expression. -/
inductive Fault where
  /-- A branch or the whole text has no item. -/
  | noItem
  /-- The text ends inside a group. -/
  | unclosed
  /-- A parenthesis closes no group of the text. -/
  | surplusClosing (text : String)
deriving DecidableEq, Repr

/-- What is wrong, in words. -/
def Fault.message : Fault → String
  | .noItem => "Empty content expression"
  | .unclosed => "Unclosed '(' in content expression"
  | .surplusClosing text => "Unexpected ')' in content expression '" ++ text ++ "'"

/-- An open group: its finished branches and the items of its present branch. -/
structure Open where
  branches : List Particle
  items : List Particle
deriving DecidableEq, Repr

namespace Open

/-- The group that has just been opened. -/
def start : Open := ⟨[], []⟩

/-- The group with one more item in its present branch. -/
def push (g : Open) (item : Particle) : Open := ⟨g.branches, g.items ++ [item]⟩

/-- The present branch: its only item, or the sequence of its items. -/
def branch (g : Open) : Except Fault Particle :=
  match g.items with
  | [] => .error .noItem
  | [item] => .ok item
  | items => .ok (.sequence items)

/-- The group after a bar: its present branch is finished and the next one begins. -/
def next (g : Open) : Except Fault Open := do
  return ⟨g.branches ++ [← g.branch], []⟩

/-- The particle of the finished group: its only branch, or the choice of its branches. -/
def finish (g : Open) : Except Fault Particle := do
  let last ← g.branch
  match g.branches with
  | [] => return last
  | branches => return .alternate (branches ++ [last])

end Open

/-- A finished group as an item of the group around it.  Parentheses around what is no
choice make a choice of one branch. -/
def parenthesised : Particle → Particle
  | .alternate branches => .alternate branches
  | p => .alternate [p]

/-- Read tokens, where `g` is the innermost open group and `outer` are those around it from
the inside out.  The text is what a fault reports. -/
def read (text : String) : List Token → Open → List Open → Except Fault Particle
  | [], g, [] => g.finish
  | [], g, _ :: _ => g.finish >>= fun _ => .error .unclosed
  | .name ident :: rest, g, outer => read text rest (g.push (.group ident)) outer
  | .opening :: rest, g, outer => read text rest .start (g :: outer)
  | .bar :: rest, g, outer => g.next >>= fun g => read text rest g outer
  | .closing :: _, g, [] => g.finish >>= fun _ => .error (.surplusClosing text)
  | .closing :: rest, g, h :: outer =>
    g.finish >>= fun p => read text rest (h.push (parenthesised p)) outer

end Expression

/-- The particle that an expression writes. -/
def Particle.parse (text : String) : Except Expression.Fault Particle :=
  Expression.read text (Expression.tokens text.toList) .start []

end EditorSchema
