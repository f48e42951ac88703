import SyntaxTree.Command.Request
import SyntaxTree.Generate

/-!
# A run of the command

A run ends in one of five ways, and the ending decides the exit status and what
is printed. The tree always goes to the same file in the working directory.
-/

namespace SyntaxTree

inductive Ending where
  | refused (reason : Refusal)
  | help
  | version
  | generated
  /-- The fault, and how many sources were rejected in the run. -/
  | failed (fault : Fault) (errors : Nat)
  deriving DecidableEq, Repr

namespace Ending

def helpText : String :=
  "\n".intercalate
    ["Parse a Java-like source file and write its abstract syntax tree to AST.txt.",
      "",
      "Usage: astgen <FILE>",
      "",
      "Arguments:",
      "  <FILE>  The path to the source file to parse",
      "",
      "Options:",
      "  -h, --help     Print help",
      "  -V, --version  Print version",
      ""]

def status : Ending → UInt32
  | refused _ => 2
  | help | version | generated => 0
  | failed _ _ => 1

/-- The text on standard output. -/
def printed : Ending → String
  | refused _ => ""
  | help => helpText
  | version => "astgen 0.1.0\n"
  | generated => "Parsing succesful\nAST generated\n"
  | failed _ _ => "Unsuccessful\n"

/-- How many syntax errors there were, which only a rejected source makes worth a line. -/
def countLine? : Ending → Option String
  | failed fault errors =>
    if fault.isSyntax then
      some (toString errors ++ " syntax error" ++ (if errors = 1 then "" else "s"))
    else none
  | _ => none

/-- The lines on standard error. -/
def complaints : Ending → List String
  | refused .missingFile => ["error: the required argument <FILE> was not provided"]
  | refused .unknownArgument => ["error: unexpected argument found"]
  | refused .emptyFile => ["error: a value is required for <FILE> but none was supplied"]
  | refused .tooManyValues => ["error: unexpected value found; no more were expected"]
  | failed fault errors =>
    (failed fault errors).countLine?.toList ++ fault.message :: fault.help.toList
  | help | version | generated => []

end Ending

/-- The file that receives the tree. -/
def outputFile : String := "AST.txt"

variable {m : Type → Type} [Monad m]

/-- Run the command with its arguments. -/
def run (files : Files m) (arguments : List String) : m Ending := do
  match Request.ofArguments arguments with
  | .refused reason => return .refused reason
  | .help => return .help
  | .version => return .version
  | .file path =>
    match ← generate files path outputFile .fresh with
    | (.ok (), _) => return .generated
    | (.error fault, tally) => return .failed fault tally.errors

end SyntaxTree
