import SyntaxTree.FileSystem.Basic

/-!
# Stores to start from

A fresh store has an empty working directory, the usual devices and the usual
directories below the root. Files and directories are added to it with every
directory above them. What cannot be added is left out.
-/

namespace SyntaxTree.FileSystem

/-- The directories below the root. -/
def usualDirectories : List String := ["dev", "etc", "home", "proc", "root", "tmp", "usr", "var"]

/-- An empty working directory, and two devices. One takes all bytes and gives none. The other takes
none and gives null characters without end, so that reading it uses up the memory. -/
def fresh : FileSystem where
  entries := usualDirectories.map (fun name => ([name], .directory)) ++
    [(["dev", "null"], .device true (.ok .empty)), (["dev", "full"], .device false (.error .other)),
      (["tmp", "work"], .directory)]
  workingDirectory := ["tmp", "work"]

/-- The names in a path that lead from one directory to another. -/
def moves (path : String) : List String :=
  (names path).filter fun name => name ≠ "" ∧ name ≠ "."

/-- Make the directories that names lead through, in order, up to a name that
cannot be one. A name may lead back up, but only out of a directory. -/
def makeDirectories (fs : FileSystem) (here : Location) : List String → FileSystem
  | [] => fs
  | name :: rest =>
    match step here name with
    | .error _ => fs
    | .ok there =>
      match fs.entry? there with
      | some .directory => fs.makeDirectories there rest
      | some (.file _) | some (.device ..) => fs
      | none => (fs.put there .directory).makeDirectories there rest

/-- Whether a path ends in a dot, with or without slashes after it. -/
def endsInDot (path : String) : Bool :=
  ((names path).filter (· ≠ "")).getLast? = some "."

/-- Add a directory and all above it. A path that ends in a dot names a directory
that has to be there, so only those above it are added. -/
def addDirectory (fs : FileSystem) (path : String) : FileSystem :=
  match refusal? path with
  | some _ => fs
  | none =>
    fs.makeDirectories (fs.origin path)
      (if endsInDot path then (moves path).dropLast else moves path)

/-- Add a file and all directories above it. Bytes for a device go to the device. -/
def addFile (fs : FileSystem) (path : String) (content : ByteArray) : FileSystem :=
  match refusal? path with
  | some _ => fs
  | none =>
    let above := fs.makeDirectories (fs.origin path) (moves path).dropLast
    match above.create path with
    | .error _ => above
    | .ok emptied =>
      match emptied.fill path content with
      | .error _ => emptied
      | .ok filled => filled

/-- The text of a regular file. -/
def text? (fs : FileSystem) (path : String) : Option String :=
  match fs.locate path with
  | .error _ => none
  | .ok location =>
    match fs.entry? location with
    | some (.file content) => String.fromUTF8? content
    | _ => none

end SyntaxTree.FileSystem
