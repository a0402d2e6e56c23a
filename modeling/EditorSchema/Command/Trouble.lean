/-
Troubles: why a request ends without what it asks for, and how that is said.

A trouble is told by a message, which may say what was being done, and by its causes, each
on lines of its own further to the right, with numbers where there are several.

* `Trouble.report`: the words for a trouble.
-/
import EditorSchema.Schema.Fault

namespace EditorSchema

/-- What goes wrong with a request. -/
inductive TroubleCause where
  | schema (fault : SchemaFault)
  /-- A text does not define the ident that it was read for. -/
  | undefined (ident : String)
  | file (fault : FileFault)
deriving DecidableEq, Repr

/-- Why a request ends without what it asks for. -/
structure Trouble where
  /-- What was being done. -/
  doing : Option String := none
  cause : TroubleCause
deriving DecidableEq, Repr

namespace Trouble

/-- The file that keeps a schema from being there. -/
def fileFault? : SchemaFault → Option FileFault
  | .file fault => some fault
  | .spec (.unreadable fault) => some fault
  | _ => none

/-- The message of a cause and those of its own causes. -/
def causeMessages : TroubleCause → List String
  | .schema fault => fault.message :: ((fileFault? fault).map FileFault.message).toList
  | .undefined ident => ["'" ++ ident ++ "' is not defined in its spec file"]
  | .file fault => [fault.message]

/-- The messages of a trouble, the outermost first. -/
def messages (t : Trouble) : List String := t.doing.toList ++ causeMessages t.cause

/-- A message whose later lines begin with some spaces. -/
def indented (spaces message : String) : String :=
  ("\n" ++ spaces).intercalate (message.splitOn "\n")

/-- A number of a cause. -/
def numbered (n : Nat) : String :=
  let digits := toString n
  String.ofList (List.replicate (5 - digits.length) ' ') ++ digits ++ ": "

/-- The lines of causes. -/
def causeLines : List String → String
  | [cause] => "    " ++ indented "    " cause
  | causes =>
    "\n".intercalate (causes.zipIdx.map fun (cause, n) => numbered n ++ indented "       " cause)

/-- The text for messages, the outermost first. -/
def reportOf : List String → String
  | [] => ""
  | [message] => "Error: " ++ message ++ "\n"
  | message :: causes => "Error: " ++ message ++ "\n\nCaused by:\n" ++ causeLines causes ++ "\n"

/-- What is told of a trouble. -/
def report (t : Trouble) : String := reportOf t.messages

/-- The path that has still to be read, where this is the trouble. -/
def unread? (t : Trouble) : Option String :=
  match t.cause with
  | .schema fault =>
    match fileFault? fault with
    | some (.unread path) => some path
    | _ => none
  | _ => none

end Trouble

end EditorSchema
