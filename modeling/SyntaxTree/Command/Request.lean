/-!
# Requests on the command line

The command takes one file, or one of the options for help and for the version.
Arguments are taken in order, and the first problem or option decides. A file
name that is empty is noticed late: only when an option is reached or at the end.
-/

namespace SyntaxTree

/-- Why arguments are refused. -/
inductive Refusal where
  | missingFile
  | unknownArgument
  | emptyFile
  | tooManyValues
  deriving DecidableEq, Repr

inductive Request where
  | file (path : String)
  | help
  | version
  | refused (reason : Refusal)
  deriving DecidableEq, Repr

namespace Request

/-- The end of the arguments. -/
def conclude : Option String → Request
  | none => refused .missingFile
  | some "" => refused .emptyFile
  | some path => file path

/-- An option that is met behind the file name known so far. -/
def option (known : Option String) (request : Request) : Request :=
  if known = some "" then refused .emptyFile else request

/-- Arguments behind `--`, which are file names whatever they look like. -/
def ofFileNames : Option String → List String → Request
  | known, [] => conclude known
  | none, path :: rest => ofFileNames (some path) rest
  | some _, _ :: _ => refused .unknownArgument

/-- An argument behind two dashes, which may carry a value. -/
def ofLongName (known : Option String) (name : List Char) : Request :=
  let carriesValue := name.contains '='
  match String.ofList (name.takeWhile (· ≠ '=')) with
  | "help" => if carriesValue then refused .tooManyValues else option known help
  | "version" => if carriesValue then refused .tooManyValues else option known version
  | _ => refused .unknownArgument

/-- The first letter behind a single dash. -/
def ofLetter (known : Option String) : Char → Request
  | 'h' => option known help
  | 'V' => option known version
  | _ => refused .unknownArgument

def ofArgumentsFrom (known : Option String) : List String → Request
  | [] => conclude known
  | argument :: rest =>
    match argument.toList with
    | ['-', '-'] => ofFileNames known rest
    | '-' :: '-' :: name => ofLongName known name
    | '-' :: letter :: _ => ofLetter known letter
    | _ =>
      match known with
      | none => ofArgumentsFrom (some argument) rest
      | some _ => refused .unknownArgument

/-- The request that the arguments of the command make. -/
def ofArguments (arguments : List String) : Request := ofArgumentsFrom none arguments

end Request

end SyntaxTree
