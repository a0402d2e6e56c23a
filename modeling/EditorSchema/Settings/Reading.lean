/-
Settings from files: classifications, decorations, and how specs are read.

The extension of a path tells the format of its file.

* `Document.ofFile`: the data of a file;
* `Classification.ofFile`, `Settings.ofFile`: what a file sets, where what it leaves out stays
  as it is by default;
* `Decoration.iconsOfFile`, `Decoration.nodesOfFile`: the tables of a decoration.
-/
import EditorSchema.Files.Basic
import EditorSchema.Json.Reading
import EditorSchema.Schema.Basic
import EditorSchema.Yaml.Reading

namespace EditorSchema

/-! ### Documents -/

/-- The format of the file at a path. -/
def DataFormat.ofPath (path : String) : DataFormat :=
  match Path.extension? path with
  | some "yaml" => .yaml
  | some "yml" => .yaml
  | _ => .json

/-- The data of a text in a format. -/
def Document.ofText? : DataFormat → String → Option Document
  | .json, text => Document.ofJson? text
  | .yaml, text => Document.ofYaml? text

/-- The data of a file as `read` takes it. -/
def Document.ofFile {α : Type} (files : Files) (path : String) (read : Document → Option α) :
    Except SchemaFault α :=
  match files.read path with
  | .error fault => .error (.file fault)
  | .ok text =>
    let format := DataFormat.ofPath path
    match (Document.ofText? format text).bind read with
    | some a => .ok a
    | none => .error (.unreadableData path format)

/-! ### Classifications -/

/-- The keys of a classification. -/
def Classification.keys : List String :=
  ["hard", "soft", "inlines", "asides", "inter", "marks", "exclude"]

/-- A document as a classification. -/
def Classification.ofDocument? (d : Document) : Option Classification := do
  let fields ← d.fields? keys d.root
  let idents (key : String) := Document.fieldOr d.texts? [] key fields
  return {
    hard := ← idents "hard", soft := ← idents "soft", inlines := ← idents "inlines"
    asides := ← idents "asides", inter := ← idents "inter", marks := ← idents "marks"
    excluded := ← idents "exclude" }

/-- The classification in a file, which classifies no ident twice. -/
def Classification.ofFile (files : Files) (path : String) : Except SchemaFault Classification := do
  let c ← Document.ofFile files path ofDocument?
  Schema.validate c
  return c

/-! ### Other settings -/

/-- A datum as the language of texts. -/
def Settings.language? (d : Document) (datum : Datum) : Option String := do
  let fields ← d.fields? ["language"] datum
  Document.fieldOr d.text? ({} : Settings).language "language" fields

/-- A document as settings. -/
def Settings.ofDocument? (d : Document) : Option Settings := do
  let fields ← d.fields? ["loader", "hidden_attrs"] d.root
  return {
    language := ← Document.fieldOr (language? d) ({} : Settings).language "loader" fields
    hidden := ← Document.fieldOr d.texts? ({} : Settings).hidden "hidden_attrs" fields }

/-- The settings in a file. -/
def Settings.ofFile (files : Files) (path : String) : Except SchemaFault Settings :=
  Document.ofFile files path ofDocument?

/-- The icons in a file. -/
def Decoration.iconsOfFile (files : Files) (path : String) :
    Except SchemaFault (Dictionary String) :=
  Document.ofFile files path fun d => d.dictionary? d.text? d.root

/-- The default nodes in a file. -/
def Decoration.nodesOfFile (files : Files) (path : String) :
    Except SchemaFault (Dictionary (List String)) :=
  Document.ofFile files path fun d => d.dictionary? d.texts? d.root

end EditorSchema
