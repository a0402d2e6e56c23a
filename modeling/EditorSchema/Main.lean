/-
The program: it reads the files that a request needs, and shows or saves the answer.
-/
import EditorSchema.Command.Basic

namespace EditorSchema

/-- Why the system refuses a file. -/
def FileFault.ofSystem : IO.Error → FileFault
  | .noFileOrDirectory _ _ _ => .missing
  | .inappropriateType (some _) code details => ofCode code details
  | .inappropriateType none code details => ofCode code details
  | .invalidArgument _ code details => ofCode code details
  | fault => .refused (toString fault)
where
  /-- Why, by the number of the refusal. -/
  ofCode (code : UInt32) (details : String) : FileFault :=
    match code with
    | 20 => .notFolder
    | 21 => .isFolder
    | 36 => .longName
    | _ => .refused details

/-- The text of a file, or why there is none. -/
def readText (path : String) : BaseIO (Except FileFault String) := do
  if path.toList.contains '\x00' then return .error .endingInName
  else
    match ← (IO.FS.readBinFile path).toBaseIO with
    | .ok bytes =>
      match String.fromUTF8? bytes with
      | some text => return .ok text
      | none => return .error .notText
    | .error fault => return .error (.ofSystem fault)

/-- The paths of the files of a folder that have an extension. -/
def listFolder (folder extension : String) : BaseIO (List String) := do
  let listing : IO (List String) := do
    let place ← IO.FS.realPath (if folder.isEmpty then "." else folder)
    let entries ← place.readDir
    return entries.toList.map fun entry => Path.join folder entry.fileName
  match ← listing.toBaseIO with
  | .ok paths => return paths.filter fun path => Path.extension? path == some extension
  | .error _ => return []

/-- Read files that have not been read yet. -/
def readFurther (known : Dictionary (Except FileFault String)) (paths : List String) :
    BaseIO (Dictionary (Except FileFault String)) :=
  paths.foldlM (fun known path => do
    if known.contains path then return known
    else return known.insert path (← readText path)) known

/-- Answer a request, and read on as long as a file is missing that has not been read. -/
partial def settle (r : Request) (known : Dictionary (Except FileFault String)) :
    BaseIO (Except Trouble Answer) := do
  let result := r.answer (.ofKnown known)
  match result with
  | .ok _ => return result
  | .error trouble =>
    match trouble.unread? with
    | some path => settle r (← readFurther known [path])
    | none => return result

/-- The files that a request is likely to need. -/
def likelyFiles : Request → BaseIO (List String)
  | .version => return []
  | .compile r => listFolder r.specs specExtension
  | .content _ _ => return []

/-- Say what is wrong. -/
def complain (text : String) : IO Unit := do
  (← IO.getStderr).putStr text

/-- What the program may be asked for. -/
def usage : String :=
  "Usage: teic compile --specs FOLDER --classification FILE [--icons FILE]\n" ++
  "           [--default-nodes FILE] [--config FILE] [--output FILE] [--format json|yaml]\n" ++
  "       teic content --specs FOLDER IDENT\n" ++
  "       teic --version\n"

/-- Answer a request: zero where it is done. -/
def fulfil (r : Request) : IO UInt32 := do
  match ← settle r (← readFurther .empty (← likelyFiles r)) with
  | .ok (.shown text) =>
    IO.print text
    return 0
  | .ok (.saved path text) =>
    try
      IO.FS.writeFile path text
      return 0
    catch fault =>
      complain (Request.unwritable path (.ofSystem fault)).report
      return 1
  | .error trouble =>
    complain trouble.report
    return 1

end EditorSchema

/-- Answer the request of the words of the command line. -/
def main (words : List String) : IO UInt32 := do
  match EditorSchema.Request.ofWords? false words with
  | some r => EditorSchema.fulfil r
  | none =>
    EditorSchema.complain EditorSchema.usage
    return 2
