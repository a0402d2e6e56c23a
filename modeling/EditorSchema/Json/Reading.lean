/-
Data from JSON.

Tokens are read from left to right.  What is kept is the lists and tables that are open,
each with what it holds so far, and what may come next.

* `Document.ofJson?`: the data of a text.
-/
import EditorSchema.Data.Datum
import EditorSchema.Json.Token

namespace EditorSchema.Json

/-- An open list or table with what it holds so far, the last first. -/
inductive Open where
  | list (items : List Datum)
  /-- A table whose next value belongs to a key. -/
  | table (entries : List (Datum × Datum)) (key : Datum)

/-- What may come next. -/
inductive Next where
  /-- A value. -/
  | value
  /-- A value or the end of the list that has just been opened. -/
  | firstItem
  /-- A key of the table that holds some entries. -/
  | key (entries : List (Datum × Datum))
  /-- A key or the end of the table that has just been opened. -/
  | firstKey
  /-- A colon after a key of the table that holds some entries. -/
  | colon (entries : List (Datum × Datum)) (key : Datum)
  /-- What follows a value. -/
  | after (value : Datum)

/-- The datum of a text in quotes. -/
def ofText : Option String → Datum
  | some s => .text s
  | none => .other

/-- Read tokens, where `next` may come and `outer` are the open lists and tables from the
inside out. -/
def read : List Token → Next → List Open → Option Datum
  | [], .after v, [] => some v
  | [], _, _ => none
  | .openList :: ts, .value, outer => read ts .firstItem outer
  | .openList :: ts, .firstItem, outer => read ts .firstItem (.list [] :: outer)
  | .openTable :: ts, .value, outer => read ts .firstKey outer
  | .openTable :: ts, .firstItem, outer => read ts .firstKey (.list [] :: outer)
  | .text s :: ts, .value, outer => read ts (.after (ofText s)) outer
  | .text s :: ts, .firstItem, outer => read ts (.after (ofText s)) (.list [] :: outer)
  | .literal :: ts, .value, outer => read ts (.after .other) outer
  | .literal :: ts, .firstItem, outer => read ts (.after .other) (.list [] :: outer)
  | .closeList :: ts, .firstItem, outer => read ts (.after (.list [])) outer
  | .text s :: ts, .firstKey, outer => read ts (.colon [] (ofText s)) outer
  | .closeTable :: ts, .firstKey, outer => read ts (.after (.table [])) outer
  | .text s :: ts, .key entries, outer => read ts (.colon entries (ofText s)) outer
  | .colon :: ts, .colon entries key, outer => read ts .value (.table entries key :: outer)
  | .comma :: ts, .after v, .list items :: outer => read ts .value (.list (v :: items) :: outer)
  | .comma :: ts, .after v, .table entries key :: outer =>
    read ts (.key ((key, v) :: entries)) outer
  | .closeList :: ts, .after v, .list items :: outer =>
    read ts (.after (.list (v :: items).reverse)) outer
  | .closeTable :: ts, .after v, .table entries key :: outer =>
    read ts (.after (.table ((key, v) :: entries).reverse)) outer
  | _ :: _, _, _ => none

end EditorSchema.Json

namespace EditorSchema

/-- The data of a text in JSON. -/
def Document.ofJson? (text : String) : Option Document := do
  let tokens ← Json.Token.ofText? text
  return ⟨← Json.read tokens .value [], [], true⟩

end EditorSchema
