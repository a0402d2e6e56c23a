/-
What can go wrong between an ident and its loaded spec, and how it is said.

* `SpecFault.message`: the words for each fault.
-/
import EditorSchema.Content.Expression

namespace EditorSchema

/-! ### Files -/

/-- Why a file cannot be read or written. -/
inductive FileFault where
  /-- There is no such file or folder. -/
  | missing
  /-- A folder stands where a file is wanted. -/
  | isFolder
  /-- A file stands where a folder is wanted. -/
  | notFolder
  /-- A part of the path or the whole path is longer than a path may be. -/
  | longName
  /-- The path holds the character that ends a path. -/
  | endingInName
  /-- The content is no text in UTF-8. -/
  | notText
  /-- Another refusal, in the words of the system. -/
  | refused (reason : String)
  /-- The file has still to be read. -/
  | unread (path : String)
deriving DecidableEq, Repr

/-- What is wrong with a file, in words. -/
def FileFault.message : FileFault → String
  | .missing => "No such file or directory (os error 2)"
  | .isFolder => "Is a directory (os error 21)"
  | .notFolder => "Not a directory (os error 20)"
  | .longName => "File name too long (os error 36)"
  | .endingInName => "file name contained an unexpected NUL byte"
  | .notText => "stream did not contain valid UTF-8"
  | .refused reason => reason
  | .unread path => "'" ++ path ++ "' has not been read"

/-! ### Texts -/

/-- Why a well-formed text describes no spec. -/
inductive Flaw where
  | expression (fault : Expression.Fault)
  /-- An element that needs an ident has none. -/
  | missingIdent (element : String)
  | unknownClassType (type ident : String)
  | unknownUsage (word : String)
  | unknownMode (word : String)
  | unknownValueListKind (word : String)
deriving DecidableEq, Repr

/-- What is wrong with a description, in words. -/
def Flaw.message : Flaw → String
  | .expression fault => fault.message
  | .missingIdent element => "<" ++ element ++ "> without an ident"
  | .unknownClassType type ident =>
    "Unknown classSpec type '" ++ type ++ "' on '" ++ ident ++ "'"
  | .unknownUsage word => "Unknown attribute usage '" ++ word ++ "'"
  | .unknownMode word => "Unknown attribute mode '" ++ word ++ "'"
  | .unknownValueListKind word => "Unknown valList type '" ++ word ++ "'"

/-! ### Specs -/

/-- Why a spec and what it needs cannot be loaded. -/
inductive SpecFault where
  /-- No text for an ident at the place where it was sought. -/
  | notFound (ident place : String)
  /-- The text for an ident is not well-formed. -/
  | malformed (ident : String)
  | invalid (flaw : Flaw)
  /-- A class already has the spec that wants to be its member among its own classes. -/
  | circularMembership (member group : String)
  /-- The content of each macro of a chain refers to the next one, and that of the last one to
  a macro of the chain. -/
  | circularReference (chain : List String) (repeated : String)
  | unreadable (fault : FileFault)
deriving DecidableEq, Repr

/-- What is wrong with a spec, in words. -/
def SpecFault.message : SpecFault → String
  | .notFound ident place => "Spec '" ++ ident ++ "' not found at " ++ place
  | .malformed ident => "Malformed XML in spec '" ++ ident ++ "'"
  | .invalid flaw => "Invalid spec format: " ++ flaw.message
  | .circularMembership member group =>
    "Circular dependency detected: " ++ member ++ " is a member of " ++ group ++
      ", which already reaches " ++ member
  | .circularReference chain repeated =>
    "Circular dependency detected: " ++ " -> ".intercalate chain ++ " -> " ++ repeated
  | .unreadable fault => "IO error: " ++ fault.message

end EditorSchema
