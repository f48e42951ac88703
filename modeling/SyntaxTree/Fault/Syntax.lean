import SyntaxTree.Grammar.Frontier
import SyntaxTree.Text.Blank
import SyntaxTree.Text.Bytes
import SyntaxTree.Text.Ordered

/-!
# Syntax errors

A syntax error says where a source stopped making sense, what could have stood
there, and what was found. It is made from the frontier of the failed match:
the rules that were expected at the furthest offset are described in words, and
rules of one description are listed once.
-/

namespace SyntaxTree

/-- The words for what a rule expects. -/
def Rule.description : Rule → String
  | program | classDecl => "class declaration"
  | kwClass => "'class'"
  | kwMain => "'main'"
  | kwIf => "'if'"
  | kwElse => "'else'"
  | kwFor => "'for'"
  | kwNew => "'new'"
  | methodDecl => "method declaration"
  | modifier | access => "access modifier"
  | qualifier => "'static' or 'final'"
  | returnType | voidType => "return type"
  | dataType => "data type"
  | parameter => "parameter"
  | arrayMarker => "'[]'"
  | block => "block"
  | ifElseStmt | ifStmt => "if statement"
  | forStmt => "for loop"
  | forEmpty | forInit | forCond | forUpdate
  | forInitCond | forInitUpdate | forCondUpdate | forInitCondUpdate => "for header"
  | forInitClause => "loop initializer"
  | forUpdateClause => "loop update"
  | declarationStmt | varDecl | declarator => "declaration"
  | initializationStmt => "initialization"
  | expressionStmt => "statement"
  | arrayDecl => "array declaration"
  | dims | dim => "array dimension"
  | arrayInit | arrayInitializer | initList => "array initializer"
  | newExpr => "'new' expression"
  | assignment => "assignment"
  | assignOp => "assignment operator"
  | logicalOr | logicalAnd | equality | relational | additive | multiplicative => "expression"
  | orOp | andOp | eqOp | relOp | addOp | mulOp => "operator"
  | incDec | prefixIncDec | postfixIncDec => "increment or decrement"
  | incDecOp => "'++' or '--'"
  | place => "variable"
  | index => "index"
  | ident => "identifier"
  | keyword => "keyword"
  | number => "number"
  | string => "string literal"
  | endOfInput => "end of input"
  | whitespace | comment | identChar | statement | forHeader | primary => "input"

structure SyntaxError where
  /-- The byte offset of the first thing that did not fit. -/
  offset : Nat
  /-- What could have stood there, in order and each once. -/
  expected : List String
  /-- The word that stands there, unless the source is blank from there on. -/
  found : Option String
  deriving DecidableEq, Repr

namespace SyntaxError

def ofFrontier (text : List Char) (frontier : Frontier) : SyntaxError where
  offset := frontier.offset
  expected := Text.ordered (frontier.expected.map Rule.description)
  found := (Text.firstWord? (Text.dropBytes frontier.offset text)).map String.ofList

/-- Every name followed by a comma and a blank, then the last one behind `or`. -/
def listed (last : String) : List String → String
  | [] => "or " ++ last
  | name :: rest => name ++ ", " ++ listed last rest

/-- Names as prose joins them: `a`, `a or b`, `a, b, or c`. -/
def oneOf : List String → String
  | [] => ""
  | [only] => only
  | [first, second] => first ++ " or " ++ second
  | first :: second :: third :: rest =>
    let names := first :: second :: third :: rest
    listed (names.getLast (by simp [names])) names.dropLast

def message (e : SyntaxError) : String :=
  match e.expected, e.found with
  | [], some word => "unexpected '" ++ word ++ "'"
  | [], none => "unexpected end of input"
  | names, _ => "expected " ++ oneOf names

def help (e : SyntaxError) : String :=
  match e.found with
  | none => "the input ended early; check for a missing '\x7d' or ';'"
  | some word =>
    if e.expected.isEmpty then "statements end with ';' and blocks are wrapped in '\x7b \x7d'"
    else "found '" ++ word ++ "' instead"

end SyntaxError

end SyntaxTree
