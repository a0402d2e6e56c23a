/-
A disk: files and folders as they are at one moment.

A path is followed name by name from the working folder, which is the outermost one.  A name
after another one needs a folder before it, a single dot is the folder itself, and two dots
are the folder around it.

* `Disk.read`, `Disk.write`: the text of a file and the disk with another text;
* `Disk.files`: what can be read.
-/
import EditorSchema.Files.Basic

namespace EditorSchema

/-- Files and folders by their names from the outermost folder on, with slashes between. -/
structure Disk where
  /-- The bytes of each file. -/
  contents : Dictionary ByteArray := .empty
  /-- All folders but the outermost one. -/
  folders : IdentSet := .empty

namespace Disk

/-- The path of some names. -/
def pathOf (names : List String) : String := "/".intercalate names

/-- The names of a path. -/
def namesOf (path : String) : List String :=
  ((path.splitOn "/").filter fun name => !name.isEmpty)

/-- Whether a folder has these names. -/
def isFolder (d : Disk) (names : List String) : Bool :=
  names.isEmpty || d.folders.contains (pathOf names)

/-- Whether a file has these names. -/
def isFile (d : Disk) (names : List String) : Bool := d.contents.contains (pathOf names)

/-- The greatest number of bytes of a name. -/
def longestName : Nat := 255

/-- The greatest number of bytes of a path. -/
def longestPath : Nat := 4095

/-- A path that can be followed is not empty, not too long, and holds no character that ends a
path.  Nothing exists outside of the outermost folder. -/
def check (path : String) : Except FileFault Unit :=
  if path.toList.contains '\x00' then .error .endingInName
  else if path.isEmpty then .error .missing
  else if path.utf8ByteSize > longestPath then .error .longName
  else if path.toList.head? == some '/' then .error .missing
  else .ok ()

/-- Follow names from a folder.  The last one need not exist where it may be `new`. -/
def follow (d : Disk) (new : Bool) (here : List String) :
    List String → Except FileFault (List String)
  | [] => .ok here
  | name :: rest =>
    if d.isFile here then .error .notFolder
    else if name == "." then follow d new here rest
    else if name == ".." then
      if here.isEmpty then .error .missing else follow d new here.dropLast rest
    else if name.utf8ByteSize > longestName then .error .longName
    else
      let there := here ++ [name]
      if d.isFolder there || d.isFile there then follow d new there rest
      else if new && rest.isEmpty then .ok there
      else .error .missing

/-- Whether a path ends in a slash, so that it is the path of a folder. -/
def endsInSlash (path : String) : Bool := path.toList.getLast? == some '/'

/-- The bytes of a file. -/
def readBytes (d : Disk) (path : String) : Except FileFault ByteArray := do
  check path
  let names ← d.follow false [] (namesOf path)
  match d.contents.get? (pathOf names) with
  | some bytes => if endsInSlash path then throw .notFolder else return bytes
  | none => throw .isFolder

/-- The text of a file. -/
def read (d : Disk) (path : String) : Except FileFault String := do
  match String.fromUTF8? (← d.readBytes path) with
  | some text => return text
  | none => throw .notText

/-- The disk where a file holds another text.  A new file needs a folder to stand in. -/
def write (d : Disk) (path text : String) : Except FileFault Disk := do
  check path
  let names ← d.follow true [] (namesOf path)
  if endsInSlash path || d.isFolder names then throw .isFolder
  else return { d with contents := d.contents.insert (pathOf names) text.toUTF8 }

/-- The texts of all files. -/
def texts (d : Disk) : List String := d.contents.values.filterMap String.fromUTF8?

/-- What is read is what some file holds. -/
theorem mem_values_of_readBytes {d : Disk} {path : String} {bytes : ByteArray}
    (h : d.readBytes path = .ok bytes) : bytes ∈ d.contents.values := by
  simp only [readBytes, bind, Except.bind] at h
  split at h
  · cases h
  · split at h
    · cases h
    · split at h
      · next hb =>
        split at h
        · cases h
        · cases h
          exact List.mem_map.2 ⟨_, Dictionary.get?_eq_some_iff.1 hb, rfl⟩
      · cases h

/-- What is read is one of the texts. -/
theorem mem_texts {d : Disk} {path text : String} (h : d.read path = .ok text) :
    text ∈ d.texts := by
  simp only [read, bind, Except.bind] at h
  split at h
  · cases h
  · next hb =>
    split at h
    · next ht =>
      cases h
      exact List.mem_filterMap.2 ⟨_, mem_values_of_readBytes hb, ht⟩
    · cases h

/-- The files of a disk. -/
def files (d : Disk) : Files where
  read := d.read
  texts := d.texts
  mem_texts := mem_texts

end Disk

end EditorSchema
