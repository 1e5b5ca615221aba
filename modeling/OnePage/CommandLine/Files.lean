import OnePage.CommandLine.Path

/-!
# Files and directories

A tree of directories and files, seen from the directory in which a program runs, with the failures
that reading, writing and making directories may have.
-/

namespace OnePage

/-- Why a file or directory cannot be used. -/
inductive FileError where
  | notFound
  | alreadyExists
  | notDirectory
  | isDirectory
  /-- A name or a path has too many bytes. -/
  | nameTooLong
  /-- Any other reason, with its number. -/
  | other (reason : String) (code : Nat)
  deriving DecidableEq

namespace FileError

/-- The words for a reason and its number. -/
def description : FileError → String × Nat
  | notFound => ("No such file or directory", 2)
  | alreadyExists => ("File exists", 17)
  | notDirectory => ("Not a directory", 20)
  | isDirectory => ("Is a directory", 21)
  | nameTooLong => ("File name too long", 36)
  | other reason code => (reason, code)

/-- The text that reports an error. -/
def message (e : FileError) : String :=
  e.description.1 ++ " (os error " ++ toString e.description.2 ++ ")"

end FileError

/-- What a name in a directory stands for. -/
inductive FileItem where
  | file (content : ByteArray)
  | directory
  /-- A device that is empty and swallows what is written to it. -/
  | sink

/-- Files and directories by the names that lead to them from the root. -/
structure Files where
  /-- The directory in which a program runs. It is there, and so are those above it. -/
  here : List String := []
  items : List (List String × FileItem) := []

namespace Files

/-- What some names lead to. -/
def item? (files : Files) (names : List String) : Option FileItem :=
  if names.isPrefixOf files.here then some .directory else files.items.lookup names

/-- Let some names lead to an item, whatever they led to before. -/
def put (files : Files) (names : List String) (item : FileItem) : Files :=
  { files with items := (names, item) :: files.items.filter (·.1 ≠ names) }

/-- The directory that the parts of a path are looked up from: the root, if the path starts with a
slash. -/
def start (files : Files) : List String → List String
  | "" :: _ => []
  | _ => files.here

/-- The most bytes that a name may have. -/
def nameLimit : Nat := 255

/-- The most bytes that a path may have. -/
def pathLimit : Nat := 4095

/-- Refuse a path that is empty or too long. -/
def checkPath (path : String) : Except FileError Unit :=
  if path.isEmpty then .error .notFound
  else if pathLimit < path.utf8ByteSize then .error .nameTooLong
  else .ok ()

/-- What a name stands for in a directory, if the name is not too long to be looked up. -/
def find (files : Files) (directory : List String) (name : String) :
    Except FileError (Option FileItem) :=
  if nameLimit < name.utf8ByteSize then .error .nameTooLong
  else .ok (files.item? (directory ++ [name]))

/-- Go from a directory into the one that a part of a path names. -/
def enter (files : Files) (directory : List String) (part : String) :
    Except FileError (List String) :=
  if part = "" ∨ part = "." then .ok directory
  else if part = ".." then .ok directory.dropLast
  else do
    match ← files.find directory part with
    | none => throw .notFound
    | some .directory => return directory ++ [part]
    | some _ => throw .notDirectory

/-- Whether a part of a path names the directory it is in, or the one above. -/
def isDots (part : String) : Bool := part = "" || part = "." || part = ".."

/-- The directory that all parts of a path but the last lead to, with the last part. -/
def reach (files : Files) (path : List String) : Except FileError (List String × String) :=
  match path.reverse with
  | [] => .error .notFound
  | last :: above => do
    let directory ← above.reverse.foldlM files.enter (files.start path)
    return (directory, last)

/-- The content of a file. -/
def read (files : Files) (path : String) : Except FileError ByteArray := do
  checkPath path
  let (directory, last) ← files.reach (Path.parts path)
  if isDots last then throw .isDirectory
  match ← files.find directory last with
  | none => throw .notFound
  | some .directory => throw .isDirectory
  | some .sink => return .empty
  | some (.file content) => return content

/-- The parts of a path, without the empty ones at its end. -/
def withoutSlash (path : String) : List String :=
  ((Path.parts path).reverse.dropWhile (· = "")).reverse

/-- Write a file, which is made unless it is there. -/
def write (files : Files) (path : String) (content : ByteArray) : Except FileError Files := do
  checkPath path
  match withoutSlash path with
  | [] => throw .isDirectory
  | parts =>
    let (directory, last) ← files.reach parts
    if isDots last ∨ parts ≠ Path.parts path then throw .isDirectory
    match ← files.find directory last with
    | some .directory => throw .isDirectory
    | some .sink => return files
    | _ => return files.put (directory ++ [last]) (.file content)

/-- Make one directory. -/
def makeDirectory (files : Files) (path : String) : Except FileError Files := do
  checkPath path
  match withoutSlash path with
  | [] => throw .alreadyExists
  | parts =>
    let (directory, last) ← files.reach parts
    if isDots last then throw .alreadyExists
    match ← files.find directory last with
    | some _ => throw .alreadyExists
    | none => return files.put (directory ++ [last]) .directory

/-- Put a file where a path leads, with the directories it needs, whatever was there before. -/
def store (files : Files) (path : String) (content : ByteArray) : Files :=
  let names := files.here ++ (Path.parts path).filter (!isDots ·)
  let above := (List.range names.length).map names.take
  (above.foldl (fun files directory ↦ files.put directory .directory) files).put names
    (.file content)

/-- Files by their paths from a directory. -/
def ofList (here : List String) (contents : List (String × ByteArray)) : Files :=
  contents.foldl (fun files (path, content) ↦ files.store path content) { here }

end Files

end OnePage
