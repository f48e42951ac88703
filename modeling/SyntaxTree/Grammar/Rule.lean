/-!
# The rules of the language

One constructor per rule of the grammar. A rule is known to the outside by its
`name`, which appears in messages about phrases and in listings of a match.

`Rule.kind` says what a match of the rule leaves behind: a plain rule gives a
phrase with the phrases inside it, a lexical rule one phrase without an inside,
and a silent rule nothing of its own.
-/

namespace SyntaxTree

inductive Rule where
  | whitespace | comment | identChar
  | keyword | kwClass | kwMain | kwIf | kwElse | kwFor | kwNew
  | access | qualifier | dataType | voidType
  | ident | number | string
  | program | classDecl | methodDecl | modifier | returnType | parameter | arrayMarker
  | block | statement | ifElseStmt | ifStmt
  | declarationStmt | initializationStmt | expressionStmt
  | forStmt | forHeader
  | forEmpty | forInit | forCond | forUpdate
  | forInitCond | forInitUpdate | forCondUpdate | forInitCondUpdate
  | forInitClause | forUpdateClause
  | varDecl | declarator | arrayDecl | dims | dim
  | arrayInit | arrayInitializer | initList | newExpr
  | assignment | assignOp
  | logicalOr | logicalAnd | equality | relational | additive | multiplicative
  | orOp | andOp | eqOp | relOp | addOp | mulOp
  | primary | incDec | prefixIncDec | postfixIncDec | incDecOp
  | place | index
  | endOfInput
  deriving DecidableEq, Repr

namespace Rule

/-- What a match of a rule leaves behind. -/
inductive Kind where
  | plain
  | lexical
  | silent
  deriving DecidableEq, Repr

def kind : Rule → Kind
  | whitespace | comment | identChar | statement | forHeader | primary => .silent
  | keyword | kwClass | kwMain | kwIf | kwElse | kwFor | kwNew
  | access | qualifier | dataType | voidType | ident | number | string
  | assignOp | orOp | andOp | eqOp | relOp | addOp | mulOp | incDecOp => .lexical
  | _ => .plain

/-- The fixed words that carry no part of a program: a phrase's significant
parts are the phrases inside it without these. -/
def isFixedWord : Rule → Bool
  | kwClass | kwMain | kwIf | kwElse | kwFor | kwNew => true
  | _ => false

def name : Rule → String
  | whitespace => "WHITESPACE"
  | comment => "COMMENT"
  | identChar => "ident_char"
  | keyword => "keyword"
  | kwClass => "kw_class"
  | kwMain => "kw_main"
  | kwIf => "kw_if"
  | kwElse => "kw_else"
  | kwFor => "kw_for"
  | kwNew => "kw_new"
  | access => "access"
  | qualifier => "qualifier"
  | dataType => "data_type"
  | voidType => "void_type"
  | ident => "ident"
  | number => "number"
  | string => "string"
  | program => "program"
  | classDecl => "class_decl"
  | methodDecl => "method_decl"
  | modifier => "modifier"
  | returnType => "return_type"
  | parameter => "parameter"
  | arrayMarker => "array_marker"
  | block => "block"
  | statement => "statement"
  | ifElseStmt => "if_else_stmt"
  | ifStmt => "if_stmt"
  | declarationStmt => "declaration_stmt"
  | initializationStmt => "initialization_stmt"
  | expressionStmt => "expression_stmt"
  | forStmt => "for_stmt"
  | forHeader => "for_header"
  | forEmpty => "for_empty"
  | forInit => "for_init"
  | forCond => "for_cond"
  | forUpdate => "for_update"
  | forInitCond => "for_init_cond"
  | forInitUpdate => "for_init_update"
  | forCondUpdate => "for_cond_update"
  | forInitCondUpdate => "for_init_cond_update"
  | forInitClause => "for_init_clause"
  | forUpdateClause => "for_update_clause"
  | varDecl => "var_decl"
  | declarator => "declarator"
  | arrayDecl => "array_decl"
  | dims => "dims"
  | dim => "dim"
  | arrayInit => "array_init"
  | arrayInitializer => "array_initializer"
  | initList => "init_list"
  | newExpr => "new_expr"
  | assignment => "assignment"
  | assignOp => "assign_op"
  | logicalOr => "logical_or"
  | logicalAnd => "logical_and"
  | equality => "equality"
  | relational => "relational"
  | additive => "additive"
  | multiplicative => "multiplicative"
  | orOp => "or_op"
  | andOp => "and_op"
  | eqOp => "eq_op"
  | relOp => "rel_op"
  | addOp => "add_op"
  | mulOp => "mul_op"
  | primary => "primary"
  | incDec => "inc_dec"
  | prefixIncDec => "prefix_inc_dec"
  | postfixIncDec => "postfix_inc_dec"
  | incDecOp => "inc_dec_op"
  | place => "place"
  | index => "index"
  | endOfInput => "EOI"

/-- Every rule, in the order of the grammar. -/
def all : List Rule :=
  [whitespace, comment, identChar,
    keyword, kwClass, kwMain, kwIf, kwElse, kwFor, kwNew,
    access, qualifier, dataType, voidType, ident, number, string,
    program, classDecl, methodDecl, modifier, returnType, parameter, arrayMarker,
    block, statement, ifElseStmt, ifStmt,
    declarationStmt, initializationStmt, expressionStmt,
    forStmt, forHeader, forEmpty, forInit, forCond, forUpdate,
    forInitCond, forInitUpdate, forCondUpdate, forInitCondUpdate,
    forInitClause, forUpdateClause,
    varDecl, declarator, arrayDecl, dims, dim,
    arrayInit, arrayInitializer, initList, newExpr, assignment, assignOp,
    logicalOr, logicalAnd, equality, relational, additive, multiplicative,
    orOp, andOp, eqOp, relOp, addOp, mulOp,
    primary, incDec, prefixIncDec, postfixIncDec, incDecOp, place, index, endOfInput]

theorem mem_all (rule : Rule) : rule ∈ all := by
  cases rule <;> decide

def ofName? (name : String) : Option Rule :=
  all.find? fun rule => rule.name == name

/-- A rule is found again under its own name, so no two rules share one. -/
theorem ofName?_name (rule : Rule) : ofName? rule.name = some rule := by
  cases rule <;> decide

end Rule

end SyntaxTree
