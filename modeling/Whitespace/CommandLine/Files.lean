/-!
A tree of files, as a command finds it. The directories are the working directory with all above
it, and those in which there is a file. Names and paths have a greatest length, counted in bytes of
UTF-8.
-/
namespace Whitespace

inductive FileError where
  | notFound | busy | notDirectory | isDirectory | invalidArgument | nameTooLong | nulInName | notText
  | other (text : String)
  deriving DecidableEq, Repr

def FileError.message : FileError → String
  | .notFound => "No such file or directory (os error 2)"
  | .busy => "Device or resource busy (os error 16)"
  | .notDirectory => "Not a directory (os error 20)"
  | .isDirectory => "Is a directory (os error 21)"
  | .invalidArgument => "Invalid argument (os error 22)"
  | .nameTooLong => "File name too long (os error 36)"
  | .nulInName => "file name contained an unexpected NUL byte"
  | .notText => "stream did not contain valid UTF-8"
  | .other text => text

/-- Names from the root down. -/
abbrev Location := List String

def Location.text (location : Location) : String := "/" ++ "/".intercalate location

structure FileTree where
  /-- The working directory. -/
  home : Location
  files : List (Location × List UInt8)
  deriving DecidableEq, Repr

inductive Node where
  | file (bytes : List UInt8)
  | directory
  deriving DecidableEq, Repr

namespace FileTree

/-- Files in a working directory and below, with their names from there down. -/
def ofFiles (home : Location) (files : List (List String × List UInt8)) : FileTree :=
  ⟨home, files.map fun (names, bytes) => (home ++ names, bytes)⟩

def node? (t : FileTree) (location : Location) : Option Node :=
  match t.files.lookup location with
  | some bytes => some (.file bytes)
  | none =>
    if location.isPrefixOf t.home || t.files.any (fun (name, _) => location.isPrefixOf name) then
      some .directory
    else none

/-- The files in the working directory and below, with their names from there down. -/
def inside (t : FileTree) : List (List String × List UInt8) :=
  t.files.filterMap fun (location, bytes) => (t.home.isPrefixOf? location).map (·, bytes)

/-- The longest name. -/
def maxName : Nat := 255

/-- The shortest path that is too long. -/
def pathLimit : Nat := 4096

/-- What has this name in a directory. -/
def find (t : FileTree) (here : Location) (name : String) : Except FileError (Option Node) :=
  if maxName < name.utf8ByteSize then .error .nameTooLong else .ok (t.node? (here ++ [name]))

/-- Goes from one directory to another. Above the root there is only the root. -/
def enter (t : FileTree) (here : Location) (part : String) : Except FileError Location := do
  if part == "." then return here
  else if part == ".." then return here.dropLast
  else
    match ← t.find here part with
    | some .directory => return here ++ [part]
    | some (.file _) => .error .notDirectory
    | none => .error .notFound

/-- What stands between the slashes of a path. -/
def pieces (path : String) : List String := (path.toList.splitOn '/').map String.ofList

/-- The parts of a path that lead somewhere. -/
def parts (path : String) : List String := (pieces path).filter (· != "")

def isAbsolute (path : String) : Bool := path.toList.head? == some '/'

def endsInSlash (path : String) : Bool := path.toList.getLast? == some '/'

def hasNul (path : String) : Bool := path.toList.contains '\x00'

def isTooLong (path : String) : Bool := pathLimit ≤ path.utf8ByteSize

/-- The end of a path: a directory without a name of its own, or a name in a directory. -/
inductive Leaf where
  | directory
  | entry (here : Location) (name : String)
  deriving DecidableEq, Repr

/-- Follows all parts of a path but the last. -/
def resolve (t : FileTree) (path : String) : Except FileError Leaf := do
  if isTooLong path then .error .nameTooLong
  else
    let start := if isAbsolute path then [] else t.home
    let here ← (parts path).dropLast.foldlM t.enter start
    match (parts path).getLast? with
    | none | some "." | some ".." => return .directory
    | some name => return .entry here name

def read (t : FileTree) (path : String) : Except FileError (List UInt8) := do
  if hasNul path then .error .nulInName
  else
    match ← t.resolve path with
    | .directory => .error .isDirectory
    | .entry here name =>
      match ← t.find here name with
      | some (.file bytes) => if endsInSlash path then .error .notDirectory else return bytes
      | some .directory => .error .isDirectory
      | none => .error .notFound

def set (t : FileTree) (location : Location) (bytes : List UInt8) : FileTree :=
  { t with files := (location, bytes) :: t.files.filter fun (name, _) => name != location }

/-- Makes a file, or gives it new contents. -/
def write (t : FileTree) (path : String) (bytes : List UInt8) : Except FileError FileTree := do
  if hasNul path then .error .nulInName
  else
    match ← t.resolve path with
    | .directory => .error .isDirectory
    | .entry here name =>
      if endsInSlash path then .error .isDirectory
      else if (← t.find here name) == some .directory then .error .isDirectory
      else return t.set (here ++ [name]) bytes

/-- The path from the root to a new file beside the one that a path leads to. -/
def staged (t : FileTree) (path : String) : String :=
  let idle (piece : String) : Bool := piece == "" || piece == "."
  let (start, pieces) :=
    if isAbsolute path then ("", (pieces path).drop 1) else (t.home.text, pieces path)
  let directory := ((pieces.reverse.dropWhile idle).drop 1).dropWhile idle
  start ++ "/" ++ "/".intercalate (".tmp000000" :: directory).reverse

/-- Whether a file with a name not yet in use can be made beside the one that a path leads to. -/
def stage (t : FileTree) (path : String) : Except FileError Unit := do
  if hasNul (t.staged path) then .error .nulInName
  else
    let _ ← t.resolve (t.staged path)

/-- Makes a new file beside its place, and then moves it there. -/
def replace (t : FileTree) (path : String) (bytes : List UInt8) : Except FileError FileTree := do
  t.stage path
  if hasNul path then .error .invalidArgument
  else
    match ← t.resolve path with
    | .directory => .error .busy
    | .entry here name =>
      let target ← t.find here name
      if endsInSlash path then .error .notDirectory
      else if target == some .directory then .error .isDirectory
      else return t.set (here ++ [name]) bytes

end FileTree

end Whitespace
