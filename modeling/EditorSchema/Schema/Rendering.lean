/-
Schemas as structured data, for editors to read.

What is absent is left out, but for the type and the values of an attribute, which are
always mentioned.

* `Schema.entries`: a schema as data;
* `Schema.toJson`, `Schema.toYaml`: a schema as text.
-/
import EditorSchema.Json.Text
import EditorSchema.Schema.Basic
import EditorSchema.Yaml.Text

namespace EditorSchema

/-- An entry that is left out where there is nothing to say. -/
def entryOf? (key : String) : Option Value → List (String × Value)
  | some v => [(key, v)]
  | none => []

/-- An entry that is left out where it does not hold. -/
def entryIf (key : String) (condition : Bool) : List (String × Value) :=
  if condition then [(key, .flag true)] else []

/-- A value of an attribute as data. -/
def ValueItem.toValue (v : ValueItem) : Value :=
  .object [("ident", .text v.ident), ("desc", .ofText? v.description)]

/-- The definition of an attribute as data. -/
def AttributeDef.toValue (d : AttributeDef) : Value :=
  .object <|
    [("ident", .text d.ident)] ++
    entryOf? "description" (d.description.map .text) ++
    [("dataType", .ofText? d.dataType)] ++
    entryOf? "minOccurs" (d.minOccurs.map .text) ++
    entryOf? "maxOccurs" (d.maxOccurs.map .text) ++
    [("valList", match d.values with
        | some values => .list (values.map ValueItem.toValue)
        | none => .null),
     ("valListType", .ofText? (d.valuesKind.map ValueListKind.word))] ++
    entryOf? "usage" (d.usage.map fun u => .text u.word) ++
    entryOf? "mode" (d.mode.map fun m => .text m.word) ++
    entryIf "hidden" d.hidden

/-- A record as data. -/
def Record.toValue (r : Record) : Value :=
  .object <|
    [("name", .text r.name), ("pmType", .text r.form.word), ("fcType", .text r.origin.word)] ++
    entryOf? "content" (r.content.map .text) ++
    entryOf? "markContent" (r.markContent.map .text) ++
    entryOf? "inlineContent" (r.inlineContent.map .text) ++
    entryOf? "allContent" (r.allContent.map .text) ++
    entryOf? "group" (r.group.map .text) ++
    entryOf? "desc" (r.description.map .text) ++
    entryOf? "icon" (r.icon.map .text) ++
    entryOf? "defaultNodes" (r.defaultNodes.map .ofTexts) ++
    entryIf "atom" r.atom ++
    entryIf "inline" r.inline ++
    entryIf "isolating" r.isolating ++
    entryOf? "selectable" (r.selectable.map .flag) ++
    [("validAttrs", .ofTexts r.validAttributes),
     ("requiredAttrs", .ofTexts r.requiredAttributes),
     ("synth", .flag r.synthetic)]

/-- A dictionary as data. -/
def Dictionary.toValue {α : Type} (d : Dictionary α) (f : α → Value) : Value :=
  .object (d.entries.map fun (key, a) => (key, f a))

namespace Schema

/-- The parts of a schema as data. -/
def entries (s : Schema) : List (String × Value) :=
  [("elements", .list (s.records.map Record.toValue)),
   ("attrs", s.attributes.toValue AttributeDef.toValue),
   ("elementGroups", s.elementGroups.toValue .ofTexts),
   ("modules", s.modules.toValue .ofTexts)]

/-- A schema as data. -/
def toValue (s : Schema) : Value := .object s.entries

/-- A schema as JSON. -/
def toJson (s : Schema) : String := s.toValue.toJson

/-- A schema as YAML. -/
def toYaml (s : Schema) : String := Yaml.document s.entries

end Schema

end EditorSchema
