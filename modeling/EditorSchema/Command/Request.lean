/-
Requests: what the words of a command line ask for.

A command is named by the first word that is not an option.  An option has a name after two
dashes or a letter after one; letters may stand together.  Its value is the next word, unless
the value is attached to it.  After a divider of two dashes all words are taken as they are.
No option comes twice, and none is empty that is a path.

* `Request.ofWords?`: the request of the words of a command line.
-/
import EditorSchema.Schema.Fault

namespace EditorSchema

/-- What is wanted for a schema. -/
structure CompileRequest where
  /-- The folder of the specs. -/
  specs : String
  /-- The file of the classification. -/
  classification : String
  icons : Option String := none
  defaultNodes : Option String := none
  settings : Option String := none
  /-- The file for the schema, where it is not to be shown. -/
  output : Option String := none
  format : DataFormat := .json
deriving DecidableEq, Repr

/-- What the program is asked for. -/
inductive Request where
  /-- Its own version. -/
  | version
  /-- The schema of a classification. -/
  | compile (c : CompileRequest)
  /-- The content of a spec in a folder. -/
  | content (folder ident : String)
deriving DecidableEq, Repr

/-! ### Words -/

/-- A word of a command line, by its form. -/
inductive CommandWord where
  | plain (text : String)
  /-- A name after two dashes, perhaps with a value after an equals sign. -/
  | named (name : String) (value : Option String)
  /-- Letters after a dash. -/
  | lettered (letters : List Char)
  /-- Two dashes. -/
  | divider
deriving DecidableEq, Repr

/-- The form of a word. -/
def CommandWord.ofText (text : String) : CommandWord :=
  match text.toList with
  | ['-', '-'] => .divider
  | '-' :: '-' :: rest =>
    let name := String.ofList (rest.takeWhile (· != '='))
    match rest.dropWhile (· != '=') with
    | _ :: value => .named name (some (String.ofList value))
    | [] => .named name none
  | '-' :: letter :: letters => .lettered (letter :: letters)
  | _ => .plain text

/-! ### Options -/

/-- An option after the name of a command. -/
inductive CommandOption where
  | verbose
  | specs
  | classification
  | icons
  | defaultNodes
  | settings
  | output
  | format
deriving DecidableEq, Repr

namespace CommandOption

/-- The name of an option. -/
def name : CommandOption → String
  | .verbose => "verbose"
  | .specs => "specs"
  | .classification => "classification"
  | .icons => "icons"
  | .defaultNodes => "default-nodes"
  | .settings => "config"
  | .output => "output"
  | .format => "format"

/-- The letter of an option. -/
def letter? : CommandOption → Option Char
  | .verbose => some 'v'
  | .specs => some 's'
  | .classification => some 'C'
  | .icons => none
  | .defaultNodes => none
  | .settings => some 'c'
  | .output => some 'o'
  | .format => some 'f'

/-- Whether an option has a value. -/
def hasValue (o : CommandOption) : Bool := o != .verbose

/-- The options of the command for schemas. -/
def ofCompile : List CommandOption :=
  [.verbose, .specs, .classification, .icons, .defaultNodes, .settings, .output, .format]

/-- The options of the command for contents. -/
def ofContent : List CommandOption := [.verbose, .specs]

end CommandOption

/-- Options with their values, and other words. -/
structure CommandLine where
  options : List (CommandOption × String) := []
  words : List String := []
deriving DecidableEq, Repr

namespace CommandLine

/-- The value of an option. -/
def value? (l : CommandLine) (o : CommandOption) : Option String := l.options.lookup o

/-- A further option. -/
def put (l : CommandLine) (o : CommandOption) (value : String) : Option CommandLine :=
  if (l.value? o).isSome then none else some { l with options := l.options ++ [(o, value)] }

/-- Options by their letters.  The last one may still need its value. -/
def putLetters (known : List CommandOption) (l : CommandLine) :
    List Char → Option (CommandLine × Option CommandOption)
  | [] => some (l, none)
  | c :: rest => do
    let o ← known.find? (·.letter? == some c)
    if !o.hasValue then putLetters known (← l.put o "") rest
    else
      match rest with
      | [] => return (l, some o)
      | '=' :: value => return (← l.put o (String.ofList value), none)
      | value => return (← l.put o (String.ofList value), none)

/-- Read words.  The first one is the value of the option that still needs one, if there is
such an option. -/
def read (known : List CommandOption) (open? : Option CommandOption) (l : CommandLine) :
    List String → Option CommandLine
  | [] => if open?.isSome then none else some l
  | text :: rest =>
    match open?, CommandWord.ofText text with
    | some o, .plain value => do read known none (← l.put o value) rest
    | some _, _ => none
    | none, .plain word => read known none { l with words := l.words ++ [word] } rest
    | none, .divider => some { l with words := l.words ++ rest }
    | none, .lettered letters => do
      let (l, open?) ← l.putLetters known letters
      read known open? l rest
    | none, .named name value => do
      let o ← known.find? (·.name == name)
      match o.hasValue, value with
      | true, some value => read known none (← l.put o value) rest
      | true, none => read known (some o) l rest
      | false, none => read known none (← l.put o "") rest
      | false, some _ => none

/-- A path that has to be there. -/
def path? (l : CommandLine) (o : CommandOption) : Option String :=
  (l.value? o).filter fun path => !path.isEmpty

/-- A path that may be missing. -/
def pathOrNone? (l : CommandLine) (o : CommandOption) : Option (Option String) :=
  match l.value? o with
  | none => some none
  | some path => if path.isEmpty then none else some (some path)

/-- The format of a schema. -/
def format? (l : CommandLine) : Option DataFormat :=
  match l.value? .format with
  | none => some .json
  | some "json" => some .json
  | some "yaml" => some .yaml
  | some _ => none

end CommandLine

/-! ### Requests -/

namespace Request

/-- The request for a schema. -/
def compile? (words : List String) : Option Request := do
  let l ← CommandLine.read CommandOption.ofCompile none {} words
  if !l.words.isEmpty then none
  else
    return .compile {
      specs := ← l.path? .specs
      classification := ← l.path? .classification
      icons := ← l.pathOrNone? .icons
      defaultNodes := ← l.pathOrNone? .defaultNodes
      settings := ← l.pathOrNone? .settings
      output := ← l.pathOrNone? .output
      format := ← l.format? }

/-- The request for a content. -/
def content? (words : List String) : Option Request := do
  let l ← CommandLine.read CommandOption.ofContent none {} words
  match l.words with
  | [ident] => return .content (← l.path? .specs) ident
  | _ => none

/-- Letters before the name of a command: whether the letter of the version is among them, or
else whether more is to be told is said by now. -/
def firstLetters (verbose : Bool) : List Char → Option (Option Bool)
  | [] => some (some verbose)
  | 'V' :: _ => some none
  | 'v' :: rest => if verbose then none else firstLetters true rest
  | _ => none

/-- The request of the words of a command line. -/
def ofWords? (verbose : Bool) : List String → Option Request
  | [] => none
  | text :: rest =>
    match CommandWord.ofText text with
    | .plain "compile" => compile? rest
    | .plain "content" => content? rest
    | .named "version" none => some .version
    | .named "verbose" none => if verbose then none else ofWords? true rest
    | .lettered letters =>
      match firstLetters verbose letters with
      | some (some verbose) => ofWords? verbose rest
      | some none => some .version
      | none => none
    | _ => none

end Request

end EditorSchema
