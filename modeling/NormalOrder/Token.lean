import NormalOrder.Term

/-!
# Tokens

The words of the concrete syntax, each with the text it was read from and the place where that
text begins. Blank space between terms is itself a token, since it marks application.
-/

namespace NormalOrder

/-- The kinds of tokens. -/
inductive TokenKind where
  /-- A backslash or λ. -/
  | lambda
  /-- A lower-case letter with subscript digits. -/
  | var
  /-- A run of blanks and tabs. -/
  | space
  /-- A full stop. -/
  | dot
  /-- An opening parenthesis. -/
  | lparen
  /-- A closing parenthesis. -/
  | rparen
  /-- The name of a value of the environment. -/
  | metavar
  /-- The arrow of a binding. -/
  | arrow
  /-- The end of the input. -/
  | eof
deriving DecidableEq

namespace TokenKind

/-- The tag of a kind. -/
def tag : TokenKind → String
  | lambda => "LAMBDA"
  | var => "VAR"
  | space => "SPACE"
  | dot => "DOT"
  | lparen => "LPAREN"
  | rparen => "RPAREN"
  | metavar => "META"
  | arrow => "ARROW"
  | eof => "EOF"

/-- All kinds. -/
def all : List TokenKind := [lambda, var, space, dot, lparen, rparen, metavar, arrow, eof]

/-- The kind with a given tag. -/
def ofTag? (s : String) : Option TokenKind := all.find? fun k => k.tag == s

/-- A kind as error messages name it. -/
def describe : TokenKind → String
  | lambda => "lambda"
  | var => "variable"
  | space => "space"
  | dot => "'.'"
  | lparen => "'('"
  | rparen => "')'"
  | metavar => "metavariable"
  | arrow => "'<-'"
  | eof => "end of input"

end TokenKind

/-- A token: its kind, the text it stands for, and where that text begins. -/
structure Token where
  kind : TokenKind
  lexeme : String
  location : Location
deriving DecidableEq

namespace Token

/-- Whether two tokens are the same word, wherever they stand. -/
def same (s t : Token) : Bool := s.kind == t.kind && s.lexeme == t.lexeme

/-- A token as shown to a reader. -/
def shown (t : Token) : String :=
  "Token(" ++ t.kind.tag ++ ", '" ++ t.lexeme ++ "', " ++ toString t.location.line ++ ":"
    ++ toString t.location.col ++ ")"

end Token

end NormalOrder
