/-
Files: texts by their paths.

* `Files.ofKnown`: files that are read one after the other;
* `Path.join`, `Path.extension?`: paths and names within them;
* `Source.ofFolder`: the source whose texts are the files of a folder.
-/
import EditorSchema.Source

namespace EditorSchema

/-- Files that can be read. -/
structure Files where
  /-- The text of a file. -/
  read : String → Except FileFault String
  /-- The texts of all files. -/
  texts : List String
  /-- What is read is one of the texts. -/
  mem_texts : ∀ {path text}, read path = .ok text → text ∈ texts

/-- The files that have been read, with what came of it; all others have still to be read. -/
def Files.ofKnown (known : Dictionary (Except FileFault String)) : Files where
  read path := (known.get? path).getD (.error (.unread path))
  texts := known.values.filterMap Except.toOption
  mem_texts {path text} h := by
    cases hk : known.get? path with
    | none => rw [hk] at h; cases h
    | some r =>
      rw [hk] at h
      refine List.mem_filterMap.2 ⟨r, ?_, by rw [show r = .ok text from h]; rfl⟩
      exact List.mem_map.2 ⟨(path, r), Dictionary.get?_eq_some_iff.1 hk, rfl⟩

namespace Path

/-- A path in a folder: an absolute one stays as it is. -/
def join (folder path : String) : String :=
  if path.toList.head? == some '/' then path
  else
    match folder.toList.getLast? with
    | none => path
    | some c => if c == '/' then folder ++ path else folder ++ "/" ++ path

/-- The last name of a path. -/
def lastName (path : String) : String :=
  String.ofList (path.toList.reverse.takeWhile (· != '/')).reverse

/-- What follows the last dot of the last name, unless nothing stands before that dot. -/
def extension? (path : String) : Option String :=
  let backwards := (lastName path).toList.reverse
  let after := backwards.takeWhile (· != '.')
  match backwards.dropWhile (· != '.') with
  | _ :: _ :: _ => if lastName path == ".." then none else some (String.ofList after.reverse)
  | _ => none

end Path

namespace Source

/-- The path of the file for an ident. -/
def pathIn (folder extension ident : String) : String :=
  Path.join folder (ident ++ "." ++ extension)

/-- The text for an ident from the file of that name. -/
def readIn (files : Files) (folder extension ident : String) : Except SpecFault String :=
  match files.read (pathIn folder extension ident) with
  | .ok text => .ok text
  | .error .missing => .error (.notFound ident (pathIn folder extension ident))
  | .error fault => .error (.unreadable fault)

/-- The files of a folder that have an extension, by the rest of their names. -/
def ofFolder (files : Files) (folder extension : String) : Source where
  read := readIn files folder extension
  texts := files.texts
  mem_texts {ident text} h := by
    rw [readIn] at h
    split at h
    · next hr => cases h; exact files.mem_texts hr
    · cases h
    · cases h

end Source

end EditorSchema
