/-
Commands: how a request is answered.

What is asked for is found by reading files and nothing else; it is shown, or it is saved in
a file, which may fail in turn.

* `Request.answer`: what a request asks for;
* `Request.perform`: the same on a disk, with the disk afterwards.
-/
import EditorSchema.Command.Request
import EditorSchema.Command.Trouble
import EditorSchema.Files.Disk
import EditorSchema.Schema.Rendering
import EditorSchema.Settings.Reading

namespace EditorSchema

/-- What a request asks for. -/
inductive Answer where
  /-- A text to show. -/
  | shown (text : String)
  /-- A text to save in a file. -/
  | saved (path text : String)
deriving DecidableEq, Repr, Inhabited

/-- The name and the version of the program. -/
def programVersion : String := "teic 0.1.0"

/-- The extension of the files of specs. -/
def specExtension : String := "xml"

/-- A schema in a format. -/
def Schema.render (s : Schema) : DataFormat → String
  | .json => s.toJson
  | .yaml => s.toYaml

/-- A result, or the trouble of what was being done. -/
def Trouble.during {α : Type} (doing : Option String) :
    Except SchemaFault α → Except Trouble α
  | .ok a => .ok a
  | .error fault => .error { doing, cause := .schema fault }

/-- A result that may be missing at a path that may be missing. -/
def readGiven {α : Type} (read : String → Except Trouble α) (default : α) :
    Option String → Except Trouble α
  | some path => read path
  | none => .ok default

namespace CompileRequest

/-- The schema that is asked for.  The settings are read first, then the classification, the
icons and the default nodes, and last the specs. -/
def schema (r : CompileRequest) (files : Files) : Except Trouble Schema := do
  let settings ← readGiven (fun path =>
    Trouble.during (some ("reading config " ++ path)) (Settings.ofFile files path)) {} r.settings
  let classification ← Trouble.during (some ("reading classification " ++ r.classification))
    (Classification.ofFile files r.classification)
  let icons ← readGiven (fun path =>
    Trouble.during none (Decoration.iconsOfFile files path)) .empty r.icons
  let defaultNodes ← readGiven (fun path =>
    Trouble.during none (Decoration.nodesOfFile files path)) .empty r.defaultNodes
  let source := Source.ofFolder files r.specs specExtension
  Trouble.during none
    (Schema.compile settings source classification { icons, defaultNodes }).2

/-- The schema that is asked for as a text, for a file or to show. -/
def answer (r : CompileRequest) (files : Files) : Except Trouble Answer := do
  let text := (← r.schema files).render r.format
  match r.output with
  | some path => return .saved path text
  | none => return .shown (text ++ "\n")

end CompileRequest

/-- The table of an ident and all that it depends on, from the files of a folder. -/
def Table.ofFolder (files : Files) (folder ident : String) : Except SpecFault Table :=
  (Corpus.loadExpanded ({} : Settings).language (.ofFolder files folder specExtension) [ident]).2

/-- The content of a spec as data. -/
def Spec.summaryValue (ident : String) (s : Spec) : Value :=
  .object [
    ("content", .text ((s.content?.map Content.encode).getD "")),
    ("ident", .text ident),
    ("kind", .text s.kindName)]

/-- The content of a spec in a folder, in words. -/
def contentAnswer (files : Files) (folder ident : String) : Except Trouble Answer := do
  let table ← Trouble.during none ((Table.ofFolder files folder ident).mapError .spec)
  match table.get? ident with
  | none => throw { cause := .undefined ident }
  | some spec => return .shown ((spec.summaryValue ident).toCompactJson ++ "\n")

namespace Request

/-- What a request asks for. -/
def answer (files : Files) : Request → Except Trouble Answer
  | .version => .ok (.shown (programVersion ++ "\n"))
  | .compile r => r.answer files
  | .content folder ident => contentAnswer files folder ident

/-- The trouble of a file that cannot be written. -/
def unwritable (path : String) (fault : FileFault) : Trouble :=
  { doing := some ("writing " ++ path), cause := .file fault }

/-- What a request shows on a disk, and the disk afterwards. -/
def perform (r : Request) (d : Disk) : Except Trouble (String × Disk) := do
  match ← r.answer d.files with
  | .shown text => return (text, d)
  | .saved path text =>
    match d.write path text with
    | .ok d => return ("", d)
    | .error fault => throw (unwritable path fault)

end Request

end EditorSchema
