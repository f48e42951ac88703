import SyntaxTree.Grammar.Pattern

/-!
# The grammar

`Rule.body` gives every rule its pattern. The language is a single class with a
single `main` method. Statements, the eight shapes of a loop header and the
levels of the expression ladder each have a rule of their own.

Two points are easy to miss. An operator looks at the character behind it, so
that no operator is read as the front of a longer one. And an array declaration
reads its type once, before it tells whether the name or the dimensions follow;
this shows in what a failed match reports.
-/

namespace SyntaxTree

namespace Pattern

/-- A character that continues an identifier or a keyword. -/
def wordChar : Pattern := call .identChar

/-- One of some words, where the word ends. -/
def wholeWord (words : List String) : Pattern :=
  joined [oneOf (words.map word), absent wordChar]

/-- One level of the expression ladder: operands with operators between them. -/
def level (operand operator : Rule) : Pattern :=
  spaced [call operand, spacedMany (spaced [call operator, call operand])]

/-- A loop header around the clauses between its parentheses. -/
def header (clauses : List Pattern) : Pattern :=
  spaced (word "(" :: clauses ++ [word ")"])

/-- Items with commas between them. -/
def commaSeparated (item : Rule) : List Pattern :=
  [call item, spacedMany (spaced [word ",", call item])]

end Pattern

namespace Rule

open Pattern

def body : Rule → Pattern
  | whitespace => oneOf [word " ", word "\t", word "\r", word "\n"]
  | comment => choice
      (joined [word "//", many (joined [absent (word "\n"), char .any])])
      (joined [word "/*", many (joined [absent (word "*/"), char .any]), word "*/"])
  | identChar => choice (char .alphanumeric) (word "_")
  | keyword => wholeWord ["class", "public", "private", "static", "final", "void", "int", "char",
      "double", "String", "if", "else", "new", "for", "print", "main"]
  | kwClass => wholeWord ["class"]
  | kwMain => wholeWord ["main"]
  | kwIf => wholeWord ["if"]
  | kwElse => wholeWord ["else"]
  | kwFor => wholeWord ["for"]
  | kwNew => wholeWord ["new"]
  | access => wholeWord ["public", "private"]
  | qualifier => wholeWord ["static", "final"]
  | dataType => wholeWord ["int", "char", "double", "String"]
  | voidType => wholeWord ["void"]
  | ident => joined [absent (call keyword), choice (char .letter) (word "_"), many wordChar]
  | number => joined [char .digit, many (char .digit),
      optional (joined [word ".", char .digit, many (char .digit)])]
  | string => joined [word "\"",
      many (choice (joined [word "\\", char .any])
        (joined [absent (choice (word "\"") (word "\n")), char .any])),
      word "\""]
  | program => joined [skipped, call classDecl, skipped, call endOfInput]
  | classDecl => spaced [optional (call modifier), call kwClass, call ident,
      word "\x7b", call methodDecl, word "\x7d"]
  | methodDecl => spaced [call modifier, call returnType, call kwMain,
      word "(", call parameter, word ")", call block]
  | modifier => spaced [call access, optional (call qualifier)]
  | returnType => choice (call voidType) (call dataType)
  | parameter => spaced [call dataType, optional (call arrayMarker), call ident]
  | arrayMarker => spaced [word "[", word "]"]
  | block => spaced [word "\x7b", spacedMany (call statement), word "\x7d"]
  | statement => oneOf [call ifElseStmt, call ifStmt, call forStmt,
      call declarationStmt, call initializationStmt, call expressionStmt]
  | ifElseStmt => spaced [call kwIf, word "(", call logicalOr, word ")", call block,
      call kwElse, call block]
  | ifStmt => spaced [call kwIf, word "(", call logicalOr, word ")", call block]
  | declarationStmt => spaced [choice (call arrayDecl) (call varDecl), word ";"]
  | initializationStmt => spaced [choice (call arrayInit) (call assignment), word ";"]
  | expressionStmt => spaced [call incDec, word ";"]
  | forStmt => spaced [call kwFor, call forHeader, call block]
  | forHeader => oneOf [call forInitCondUpdate, call forInitCond, call forInitUpdate,
      call forCondUpdate, call forInit, call forCond, call forUpdate, call forEmpty]
  | forEmpty => header [word ";", word ";"]
  | forInit => header [call forInitClause, word ";", word ";"]
  | forCond => header [word ";", call logicalOr, word ";"]
  | forUpdate => header [word ";", word ";", call forUpdateClause]
  | forInitCond => header [call forInitClause, word ";", call logicalOr, word ";"]
  | forInitUpdate => header [call forInitClause, word ";", word ";", call forUpdateClause]
  | forCondUpdate => header [word ";", call logicalOr, word ";", call forUpdateClause]
  | forInitCondUpdate => header [call forInitClause, word ";", call logicalOr, word ";",
      call forUpdateClause]
  | forInitClause => choice (call varDecl) (call assignment)
  | forUpdateClause => choice (call assignment) (call incDec)
  | varDecl => spaced (call dataType :: commaSeparated declarator)
  | declarator => spaced [call ident,
      optional (spaced [word "=", absent (word "="), call logicalOr])]
  | arrayDecl => spaced [call dataType,
      choice (spaced [call ident, call dims]) (spaced [call dims, call ident])]
  | dims => spacedSome (call dim)
  | dim => spaced [word "[", optional (choice (call number) (call ident)), word "]"]
  | arrayInit => spaced [call arrayDecl, word "=", call arrayInitializer]
  | arrayInitializer => choice (call initList) (call newExpr)
  | initList => spaced (word "\x7b" :: commaSeparated logicalOr ++ [word "\x7d"])
  | newExpr => spaced [call kwNew, call dataType, call dims]
  | assignment => spaced [call place, call assignOp, call logicalOr]
  | assignOp => oneOf [word "+=", word "-=", word "*=", word "/=", word "%=", word "&=", word "^=",
      word "|=", joined [word "=", absent (word "=")]]
  | logicalOr => level logicalAnd orOp
  | logicalAnd => level equality andOp
  | equality => level relational eqOp
  | relational => level additive relOp
  | additive => level multiplicative addOp
  | multiplicative => level primary mulOp
  | orOp => word "||"
  | andOp => word "&&"
  | eqOp => oneOf [word "==", word "!="]
  | relOp => oneOf [word ">=", word "<=", joined [word ">", absent (word ">")],
      joined [word "<", absent (word "<")]]
  | addOp => joined [oneOf [word "+", word "-"], absent (oneOf [word "=", word "+", word "-"])]
  | mulOp => joined [oneOf [word "*", word "/", word "%"], absent (word "=")]
  | primary => oneOf [call incDec, call newExpr, call number, call string, call place,
      spaced [word "(", call logicalOr, word ")"]]
  | incDec => choice (call prefixIncDec) (call postfixIncDec)
  | prefixIncDec => spaced [call incDecOp, call place]
  | postfixIncDec => spaced [call place, call incDecOp]
  | incDecOp => oneOf [word "++", word "--"]
  | place => spaced [call ident, spacedMany (call index)]
  | index => spaced [word "[", call logicalOr, word "]"]
  | endOfInput => absent (char .any)

end Rule

end SyntaxTree
