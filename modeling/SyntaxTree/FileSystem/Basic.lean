import SyntaxTree.Fault.Basic

/-!
# Files

`Files` is what the program asks of the files around it: make a file empty, read
a file as text, write a text into a file that was made. The program is written
against it and runs on any such files.

`FileSystem` is a store of regular files, directories and devices. Paths are
walked name by name, and each name but the last has to be a directory. A device
takes bytes or refuses them, and keeps none of those that it takes. What it gives
when it is read is its own: it may give no bytes at all, or so many that no memory
holds them.
-/

namespace SyntaxTree

/-- What the program asks of the files around it. -/
structure Files (m : Type → Type) where
  /-- Empty the file at a path, or make a new empty file there. -/
  create : String → m (Except FileError Unit)
  readText : String → m (Except FileError String)
  /-- Write a text into the empty file at a path. -/
  fill : String → String → m (Except FileError Unit)

inductive Entry where
  | file (content : ByteArray)
  | directory
  /-- `reading` is all that the device gives up to its end, or why that cannot be had. Bytes without
  end use up the memory that they are read into. -/
  | device (takesBytes : Bool) (reading : Except FileError ByteArray)

/-- The bytes that are read from an entry. -/
def Entry.read : Entry → Except FileError ByteArray
  | file content => .ok content
  | directory => .error .isADirectory
  | device _ reading => reading

/-- The names from the root to an entry. -/
abbrev Location := List String

structure FileSystem where
  /-- The entries below the root; of two at one location the first counts. -/
  entries : List (Location × Entry)
  /-- Where relative paths start. -/
  workingDirectory : Location

namespace FileSystem

/-- The root is always a directory. -/
def entry? (fs : FileSystem) (location : Location) : Option Entry :=
  if location.isEmpty then some .directory else fs.entries.lookup location

def put (fs : FileSystem) (location : Location) (entry : Entry) : FileSystem :=
  { fs with entries := (location, entry) :: fs.entries.filter fun old => old.1 != location }

def longestName : Nat := 255

def longestPath : Nat := 4095

/-- The names in a path. Adjacent and trailing slashes give empty names. -/
def names (path : String) : List String :=
  (path.toList.splitOn '/').map String.ofList

/-- Where a name leads from a directory. An empty name and a dot stay there. -/
def step (here : Location) (name : String) : Except FileError Location :=
  if name = "" ∨ name = "." then .ok here
  else if name = ".." then .ok here.dropLast
  else if longestName < name.utf8ByteSize then .error .invalidFilename
  else .ok (here ++ [name])

/-- Follow names from a location. Each step leaves a directory, so the location
reached need not exist, but the one before it does. -/
def walk (fs : FileSystem) (here : Location) : List String → Except FileError Location
  | [] => .ok here
  | name :: rest =>
    match fs.entry? here with
    | none => .error .notFound
    | some (.file _) | some (.device ..) => .error .notADirectory
    | some .directory =>
      match step here name with
      | .error reason => .error reason
      | .ok there => fs.walk there rest

/-- Where the names of a path start. -/
def origin (fs : FileSystem) (path : String) : Location :=
  if path.startsWith "/" then [] else fs.workingDirectory

/-- What is wrong with a path whatever the files are. -/
def refusal? (path : String) : Option FileError :=
  if path.contains '\x00' then some .invalidInput
  else if path.isEmpty then some .notFound
  else if longestPath < path.utf8ByteSize then some .invalidFilename
  else none

/-- The location that a path names, whether or not an entry is there. -/
def locate (fs : FileSystem) (path : String) : Except FileError Location :=
  match refusal? path with
  | some reason => .error reason
  | none => fs.walk (fs.origin path) (names path)

/-- The location where a path lets a file be made. A path that ends in a slash
or a dot names a directory. -/
def locateNew (fs : FileSystem) (path : String) : Except FileError Location :=
  match refusal? path with
  | some reason => .error reason
  | none => do
    let trimmed := (names path).reverse.dropWhile (· = "")
    match trimmed with
    | [] => .error .isADirectory
    | last :: before =>
      let parent ← fs.walk (fs.origin path) (before.reverse ++ ["."])
      if trimmed.length < (names path).length ∨ last = "." ∨ last = ".." then
        .error .isADirectory
      else fs.walk parent [last]

def create (fs : FileSystem) (path : String) : Except FileError FileSystem := do
  let location ← fs.locateNew path
  match fs.entry? location with
  | some .directory => .error .isADirectory
  | some (.device ..) => .ok fs
  | some (.file _) | none => .ok (fs.put location (.file .empty))

def readText (fs : FileSystem) (path : String) : Except FileError String := do
  let location ← fs.locate path
  match fs.entry? location with
  | none => .error .notFound
  | some entry =>
    let content ← entry.read
    match String.fromUTF8? content with
    | some text => .ok text
    | none => .error .invalidData

def fill (fs : FileSystem) (path : String) (content : ByteArray) : Except FileError FileSystem := do
  let location ← fs.locateNew path
  match fs.entry? location with
  | none => .error .notFound
  | some .directory => .error .isADirectory
  | some (.device takesBytes _) => if takesBytes then .ok fs else .error .storageFull
  | some (.file _) => .ok (fs.put location (.file content))

/-- A change that may be refused, and then leaves everything as it was. -/
def change (f : FileSystem → Except FileError FileSystem) :
    StateM FileSystem (Except FileError Unit) := fun fs =>
  match f fs with
  | .ok next => (.ok (), next)
  | .error reason => (.error reason, fs)

/-- The files of a store. -/
def files : Files (StateM FileSystem) where
  create path := change fun fs => fs.create path
  readText path := fun fs => (fs.readText path, fs)
  fill path text := change fun fs => fs.fill path text.toUTF8

end FileSystem

end SyntaxTree
