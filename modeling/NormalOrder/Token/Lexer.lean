import NormalOrder.Token

/-!
# Reading tokens

`scan` cuts a text into tokens, each the longest that the text at hand allows, and keeps count of
lines and columns. A line feed begins a new line; a carriage return is skipped and takes no
column. `lexeme?` reads one token off the front of a text and loses nothing
(`append_of_lexeme?`), which is why `scan` ends.
-/

namespace NormalOrder

/-- Why no token can be read at a character. -/
structure Unreadable where
  /-- The character. -/
  char : Char
  /-- Where it stands. -/
  location : Location
deriving DecidableEq

/-- What scanning a text gives: its tokens or the first unreadable character, and the place that
was reached. -/
structure Scan where
  outcome : Except Unreadable (List Token)
  stop : Location

namespace Token

/-- Digits that can follow the letter of a variable. -/
def isSubscript (c : Char) : Bool := 0x2080 ≤ c.toNat && c.toNat ≤ 0x2089

/-- Blanks and tabs. -/
def isSpace (c : Char) : Bool := c == ' ' || c == '\t'

/-- Characters that a variable begins with. -/
def startsVar (c : Char) : Bool := 'a' ≤ c && c ≤ 'z'

/-- Characters that a metavariable begins with. -/
def startsMetavar (c : Char) : Bool := c == '$' || ('A' ≤ c && c ≤ 'Z')

/-- Characters that can follow in a metavariable. -/
def continuesMetavar (c : Char) : Bool := c == '_' || c.isAlphanum

/-- The kind of a token that is one character long in every text. -/
def single? (c : Char) : Option TokenKind :=
  if c = '(' then some .lparen
  else if c = ')' then some .rparen
  else if c = '.' then some .dot
  else if c = '\\' || c = 'λ' then some .lambda
  else none

/-- Reads the token that begins with `c` and goes on in `rest`: its kind, its further characters,
and the text after it. -/
def lexeme? (c : Char) (rest : List Char) : Option (TokenKind × List Char × List Char) :=
  match single? c with
  | some k => some (k, [], rest)
  | none =>
    if isSpace c then some (.space, rest.takeWhile isSpace, rest.dropWhile isSpace)
    else if c = '<' then
      match rest with
      | '-' :: rest' => some (.arrow, ['-'], rest')
      | _ => none
    else if startsVar c then
      some (.var, rest.takeWhile isSubscript, rest.dropWhile isSubscript)
    else if startsMetavar c then
      some (.metavar, rest.takeWhile continuesMetavar, rest.dropWhile continuesMetavar)
    else none

/-- The further characters of a token and the text after it make up what followed its first
character. -/
theorem append_of_lexeme? {c : Char} {rest more rest' : List Char} {k : TokenKind}
    (h : lexeme? c rest = some (k, more, rest')) : more ++ rest' = rest := by
  unfold lexeme? at h
  split at h
  · cases h; rfl
  · split at h
    · cases h; exact List.takeWhile_append_dropWhile
    · split at h
      · split at h
        · cases h; rfl
        · cases h
      · split at h
        · cases h; exact List.takeWhile_append_dropWhile
        · split at h
          · cases h; exact List.takeWhile_append_dropWhile
          · cases h

theorem length_of_lexeme? {c : Char} {rest more rest' : List Char} {k : TokenKind}
    (h : lexeme? c rest = some (k, more, rest')) : rest'.length ≤ rest.length := by
  have := congrArg List.length (append_of_lexeme? h)
  simp only [List.length_append] at this
  omega

/-- The place where every text begins. -/
def origin : Location := ⟨1, 1⟩

/-- Puts a token before those of a scan. -/
def consScan (t : Token) (s : Scan) : Scan := { s with outcome := s.outcome.map (t :: ·) }

/-- The tokens of a text that begins at `here`, ending with one for the end of the input. -/
def scan (here : Location) : List Char → Scan
  | [] => ⟨.ok [⟨.eof, "", here⟩], here⟩
  | c :: rest =>
    if c = '\n' then scan ⟨here.line + 1, 1⟩ rest
    else if c = '\r' then scan here rest
    else match _h : lexeme? c rest with
      | none => ⟨.error ⟨c, here⟩, here⟩
      | some (kind, more, rest') =>
        consScan ⟨kind, String.ofList (c :: more), here⟩
          (scan { here with col := here.col + (more.length + 1) } rest')
termination_by cs => cs.length
decreasing_by
  · simp
  · simp
  · have := length_of_lexeme? _h
    simp only [List.length_cons]
    omega

end Token

end NormalOrder
