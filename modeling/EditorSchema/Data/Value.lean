/-
Values: structured data as it is written, with the entries of its objects in order.
-/

namespace EditorSchema

/-- Structured data. -/
inductive Value where
  | null
  | flag (b : Bool)
  | text (s : String)
  | list (items : List Value)
  | object (entries : List (String × Value))
deriving Repr, Inhabited

namespace Value

/-- The text of an optional text. -/
def ofText? : Option String → Value
  | some s => .text s
  | none => .null

/-- A list of texts. -/
def ofTexts (l : List String) : Value := .list (l.map .text)

end Value

end EditorSchema
