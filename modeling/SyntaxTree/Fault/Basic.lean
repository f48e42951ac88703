import SyntaxTree.Fault.Syntax
import SyntaxTree.Program.Shape

/-!
# Faults

Everything that can go wrong on the way from a source file to a tree file. A
fault names the source or the path that it is about, and a fault in a source
also points at the bytes.
-/

namespace SyntaxTree

/-- Why a file cannot be read or written. -/
inductive FileError where
  | notFound
  | isADirectory
  | notADirectory
  /-- The bytes are not UTF-8 text. -/
  | invalidData
  /-- The path or one of its names is too long. -/
  | invalidFilename
  /-- The path holds a null character. -/
  | invalidInput
  | storageFull
  /-- Any other reason, such as memory that is used up. -/
  | other
  deriving DecidableEq, Repr

inductive Fault where
  | rejected (source : String) (error : SyntaxError)
  | malformed (source : String) (error : ShapeError)
  | unreadable (path : String) (reason : FileError)
  | unwritable (path : String) (reason : FileError)
  deriving DecidableEq, Repr

namespace Fault

/-- A remark on a stretch of the source. -/
structure Label where
  offset : Nat
  length : Nat
  text : String
  deriving DecidableEq, Repr

/-- The source was refused by the grammar. -/
def isSyntax : Fault → Bool
  | rejected _ _ => true
  | _ => false

def message : Fault → String
  | rejected _ error => "Parse error: " ++ error.message
  | malformed _ error => "Parse error: malformed " ++ error.flaw.description
  | unreadable path _ => "I/O error: cannot read '" ++ path ++ "'"
  | unwritable path _ => "I/O error: cannot write '" ++ path ++ "'"

def code : Fault → String
  | rejected _ _ => "astgen::parse::syntax"
  | malformed _ _ => "astgen::parse::malformed"
  | unreadable _ _ => "astgen::io::read"
  | unwritable _ _ => "astgen::io::write"

def help : Fault → Option String
  | rejected _ error => some error.help
  | malformed _ _ =>
    some "the grammar accepted input the tree builder cannot shape; this is a bug"
  | unreadable _ _ | unwritable _ _ => none

def labels : Fault → List Label
  | rejected _ error => [⟨error.offset, 0, "syntax error here"⟩]
  | malformed _ error => [⟨error.start, error.length, "while building this"⟩]
  | unreadable _ _ | unwritable _ _ => []

end Fault

end SyntaxTree
