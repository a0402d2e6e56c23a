/-
Classifications: which elements become what in an editor.

* `Classification.entries`: the classified idents with their categories, in the order in
  which they are elaborated;
* `Classification.repetition?`: the first ident that is classified a second time.
-/
import EditorSchema.Dictionary

namespace EditorSchema

/-- What an element becomes in an editor. -/
inductive Category where
  /-- A block that holds other blocks. -/
  | hard
  /-- A block that holds text. -/
  | soft
  /-- Both a block and a span of text. -/
  | inter
  /-- A note that is anchored in text. -/
  | aside
  /-- A span without content of its own. -/
  | inline
  /-- A formatting of characters. -/
  | mark
deriving DecidableEq, Repr

/-- The word for a category. -/
def Category.word : Category → String
  | .hard => "hard"
  | .soft => "soft"
  | .inter => "inter"
  | .aside => "asides"
  | .inline => "inlines"
  | .mark => "marks"

/-- The categories, in the order of elaboration. -/
def Category.all : List Category := [.hard, .soft, .inter, .aside, .inline, .mark]

/-- The idents of the elements of each category. -/
structure Classification where
  hard : List String := []
  soft : List String := []
  inlines : List String := []
  asides : List String := []
  inter : List String := []
  marks : List String := []
  /-- Elements that are left out; nothing depends on them. -/
  excluded : List String := []
deriving DecidableEq, Repr, Inhabited

namespace Classification

/-- The idents of a category. -/
def idents (c : Classification) : Category → List String
  | .hard => c.hard
  | .soft => c.soft
  | .inter => c.inter
  | .aside => c.asides
  | .inline => c.inlines
  | .mark => c.marks

/-- The classified idents with their categories, in the order of elaboration. -/
def entries (c : Classification) : List (Category × String) :=
  Category.all.flatMap fun category => (c.idents category).map (category, ·)

/-- The classified idents, in the order of elaboration. -/
def seeds (c : Classification) : List String := c.entries.map Prod.snd

/-- The first entry whose ident has been classified before, and the category before. -/
def firstRepetition : List (Category × String) → List (Category × String) →
    Option (String × Category × Category)
  | _, [] => none
  | before, (category, ident) :: rest =>
    match before.find? (·.2 == ident) with
    | some (previous, _) => some (ident, previous, category)
    | none => firstRepetition ((category, ident) :: before) rest

/-- The first ident that is classified a second time, with both categories. -/
def repetition? (c : Classification) : Option (String × Category × Category) :=
  firstRepetition [] c.entries

end Classification

/-- What is added to the records of elements by their idents. -/
structure Decoration where
  icons : Dictionary String := .empty
  defaultNodes : Dictionary (List String) := .empty
deriving DecidableEq, Repr, Inhabited

/-- How specs are read and attributes are shown. -/
structure Settings where
  /-- The preferred language of texts. -/
  language : String := "en"
  /-- The attributes that editors do not show. -/
  hidden : List String := ["xml:id", "n"]
deriving DecidableEq, Repr, Inhabited

end EditorSchema
