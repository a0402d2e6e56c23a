/-
The characters of markup: what may stand in a document, and what makes up its names.

A name in a document may have a prefix, which ends at its only colon and stands for a
namespace.

* `isNameChar_of_isNameStart`: a name goes on with what it may begin with.
-/

namespace EditorSchema.Xml

/-- The white space of markup. -/
def isSpace (c : Char) : Bool := c == ' ' || c == '\t' || c == '\n' || c == '\r'

/-- Whether a character may stand in a document. -/
def isAllowed (c : Char) : Bool :=
  if c.toNat < 0x20 then isSpace c else c.toNat != 0xFFFE && c.toNat != 0xFFFF

/-- The ranges of characters that a name may begin with. -/
def nameStartRanges : List (Nat × Nat) :=
  [(0x3A, 0x3A), (0x41, 0x5A), (0x5F, 0x5F), (0x61, 0x7A), (0xC0, 0xD6), (0xD8, 0xF6),
   (0xF8, 0x2FF), (0x370, 0x37D), (0x37F, 0x1FFF), (0x200C, 0x200D), (0x2070, 0x218F),
   (0x2C00, 0x2FEF), (0x3001, 0xD7FF), (0xF900, 0xFDCF), (0xFDF0, 0xFFFD),
   (0x10000, 0xEFFFF)]

/-- The ranges of characters that a name may only go on with. -/
def nameRestRanges : List (Nat × Nat) :=
  [(0x2D, 0x2E), (0x30, 0x39), (0xB7, 0xB7), (0x300, 0x36F), (0x203F, 0x2040)]

/-- Whether a character is in one of several ranges. -/
def inRanges (ranges : List (Nat × Nat)) (c : Char) : Bool :=
  ranges.any fun (low, high) => low ≤ c.toNat && c.toNat ≤ high

/-- Whether a name may begin with a character. -/
def isNameStart (c : Char) : Bool := inRanges nameStartRanges c

/-- Whether a character may stand in a name. -/
def isNameChar (c : Char) : Bool := isNameStart c || inRanges nameRestRanges c

/-- What a name may begin with may also stand within it. -/
theorem isNameChar_of_isNameStart {c : Char} (h : isNameStart c = true) :
    isNameChar c = true := by simp [isNameChar, h]

/-- A name as it stands in a document. -/
structure WrittenName where
  /-- What stands before the colon, empty where there is none. -/
  space : String
  name : String
deriving DecidableEq, Repr

/-- Whether characters begin as a name without a colon does. -/
def beginsName : List Char → Bool
  | [] => false
  | c :: _ => isNameStart c && c != ':'

/-- The written name that characters make, if they make one: each part begins as a name
does, and the part before the colon may be empty. -/
def WrittenName.ofChars? (s : List Char) : Option WrittenName :=
  let before := s.takeWhile (· != ':')
  match s.dropWhile (· != ':') with
  | [] => if beginsName s then some ⟨"", String.ofList s⟩ else none
  | _ :: after =>
    if (before.isEmpty || beginsName before) && beginsName after && !after.contains ':' then
      some ⟨String.ofList before, String.ofList after⟩
    else none

end EditorSchema.Xml
