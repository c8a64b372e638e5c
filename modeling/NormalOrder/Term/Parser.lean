import NormalOrder.Token.Lexer

/-!
# Reading terms

Terms are read from their tokens in one pass, token by token. What has been read is kept as a
stack of `Frame`s, the terms that are still open around the place reached, and a `Mode`, which
says what is being read there:

- a binding, `NAME <- …`, may stand at the very beginning, after `(` and after `<-`;
- an abstraction reaches as far as it can, and may stand last in an application;
- an application is a row of variables, metavariables and terms in parentheses with space
  between them, and groups to the left.

Space has no meaning after `(`, `.` and `<-`, before `)` and `<-`, and at both ends; after `λ` and
before `.` it is not allowed. A name in binding position is kept back (`Mode.named`) until the
next token shows whether it is being bound.
-/

namespace NormalOrder

/-- A term that has been begun, with a hole for the part that is being read. -/
inductive Frame (κ : Type) where
  /-- An abstraction whose body is open. -/
  | body (param : String)
  /-- An application whose last argument, an abstraction, is open. -/
  | operand (function : Term κ)
  /-- A binding whose value is open. -/
  | value (name : String)
  /-- Parentheses, which are the operand of `function` if there is one. -/
  | parens (function : Option (Term κ))

/-- What is being read at the place reached. -/
inductive Mode (κ : Type) where
  /-- The beginning of a term; `binding` tells whether it may be a binding. -/
  | start (binding : Bool)
  /-- The parameter of an abstraction. -/
  | param
  /-- The full stop after a parameter. -/
  | stop (param : String)
  /-- A name that is the value of a binding or a term of its own, and the space after it. -/
  | named (name : String) (location : Location) (spaced : Bool)
  /-- The rest of an application that so far is `term`; `spaced` if space follows it. -/
  | row (term : Term κ) (spaced : Bool)

/-- What would have been right at a token that is not. -/
inductive Expected where
  | term
  | token (kind : TokenKind)
deriving DecidableEq

/-- Why tokens make no term. -/
inductive ReadError where
  /-- The tokens break off without one for the end of the input. -/
  | brokenOff
  /-- A token that cannot stand where it does. -/
  | misplaced (expected : Expected) (found : Token)
deriving DecidableEq

/-- What a token does to a reader. -/
inductive Move (κ : Type) where
  | goOn (mode : Mode κ) (stack : List (Frame κ))
  | done (term : Term κ)
  | refuse (expected : Expected)

namespace Term

variable {κ : Type}

/-- Closes the frames that end where `t` ends, out to the nearest parenthesis: the closed term,
and the parenthesis with the frames around it, if there is one. -/
def close : List (Frame κ) → Term κ → Term κ × Option (Option (Term κ) × List (Frame κ))
  | [], t => (t, none)
  | .body p :: stack, t => close stack (lam p t)
  | .operand f :: stack, t => close stack (app f t)
  | .value n :: stack, t => close stack (bind n t)
  | .parens f :: stack, t => (t, some (f, stack))

/-- The token that has to end the innermost open parenthesis or the input. -/
def closer : List (Frame κ) → TokenKind
  | [] => .eof
  | .parens _ :: _ => .rparen
  | _ :: stack => closer stack

/-- `f` applied to `a`, or `a` alone. -/
def applied : Option (Term κ) → Term κ → Term κ
  | none, a => a
  | some f, a => app f a

/-- Reads a token after the row `t`. -/
def readRow (stack : List (Frame κ)) (t : Term κ) (spaced : Bool) (tok : Token) : Move κ :=
  match tok.kind, spaced with
  | .space, _ => .goOn (.row t true) stack
  | .var, true => .goOn (.row (app t (var tok.lexeme)) false) stack
  | .metavar, true => .goOn (.row (app t (metavar tok.lexeme (some tok.location))) false) stack
  | .lparen, true => .goOn (.start true) (.parens (some t) :: stack)
  | .lambda, true => .goOn .param (.operand t :: stack)
  | .rparen, _ =>
    match close stack t with
    | (t', some (f, stack')) => .goOn (.row (applied f (group t')) false) stack'
    | (_, none) => .refuse (.token .eof)
  | .eof, _ =>
    match close stack t with
    | (t', none) => .done t'
    | (_, some _) => .refuse (.token .rparen)
  | _, _ => .refuse (.token (closer stack))

/-- Reads a token at the beginning of a term. -/
def readStart (stack : List (Frame κ)) (binding : Bool) (tok : Token) : Move κ :=
  match tok.kind with
  | .space => .goOn (.start binding) stack
  | .lambda => .goOn .param stack
  | .lparen => .goOn (.start true) (.parens none :: stack)
  | .var => .goOn (.row (var tok.lexeme) false) stack
  | .metavar =>
    if binding then .goOn (.named tok.lexeme tok.location false) stack
    else .goOn (.row (metavar tok.lexeme (some tok.location)) false) stack
  | _ => .refuse .term

/-- Reads a token. -/
def read (stack : List (Frame κ)) : Mode κ → Token → Move κ
  | .start binding, tok => readStart stack binding tok
  | .param, tok =>
    if tok.kind = .var then .goOn (.stop tok.lexeme) stack else .refuse (.token .var)
  | .stop p, tok =>
    if tok.kind = .dot then .goOn (.start false) (.body p :: stack) else .refuse (.token .dot)
  | .named n l spaced, tok =>
    match tok.kind with
    | .space => .goOn (.named n l true) stack
    | .arrow => .goOn (.start true) (.value n :: stack)
    | _ => readRow stack (metavar n (some l)) spaced tok
  | .row t spaced, tok => readRow stack t spaced tok

/-- Reads tokens up to the one that ends the term or cannot stand where it does. -/
def readAll : Mode κ → List (Frame κ) → List Token → Except ReadError (Term κ)
  | _, _, [] => .error .brokenOff
  | mode, stack, tok :: rest =>
    match read stack mode tok with
    | .goOn mode' stack' => readAll mode' stack' rest
    | .done t => .ok t
    | .refuse expected => .error (.misplaced expected tok)

/-- The term that a list of tokens stands for. Tokens after one for the end of the input are not
looked at. -/
def ofTokens (toks : List Token) : Except ReadError (Term κ) := readAll (.start true) [] toks

end Term

/-- Why a text makes no term. -/
inductive SourceError where
  | lexical (e : Unreadable)
  | grammar (e : ReadError)
deriving DecidableEq

/-- The term that a text stands for. -/
def Term.parse {κ : Type} (source : String) : Except SourceError (Term κ) :=
  match (Token.scan Token.origin source.toList).outcome with
  | .error e => .error (.lexical e)
  | .ok toks =>
    match Term.ofTokens toks with
    | .error e => .error (.grammar e)
    | .ok t => .ok t

end NormalOrder
