/-!
# Faults of templates

What is wrong with a template that is not written as one, or with the layout that it asks of a
snippet. `Fault.text` is how a fault is put into words.
-/

namespace NormalOrder.Template

/-- The opening brace. -/
def openBrace : Char := '\x7b'

/-- The closing brace. -/
def closeBrace : Char := '\x7d'

/-- What is wrong with a template or a layout. -/
inductive Fault where
  /-- A brace opens no placeholder. -/
  | loneOpenBrace
  /-- A brace closes no placeholder. -/
  | loneCloseBrace
  /-- A placeholder does not end. -/
  | unclosed
  /-- The name of a placeholder has an opening brace in it. -/
  | braceInName
  /-- A template ends where a placeholder should name its conversion. -/
  | noConversion
  /-- A placeholder goes on after its conversion with something else than a layout. -/
  | unendedConversion
  /-- A placeholder does not end after its name. -/
  | unclosedLayout
  /-- A layout that has placeholders stands inside a layout that has placeholders. -/
  | tooDeep
  /-- A placeholder takes the next snippet after another was given a number. -/
  | automaticAfterNumbers
  /-- A placeholder is given a number after another took the next snippet. -/
  | numberAfterAutomatic
  /-- A number is too large. -/
  | tooManyDigits
  /-- A step of a name is empty. -/
  | emptyStep
  /-- A bracket in a name is not closed. -/
  | unclosedBracket
  /-- Something follows a bracket in a name that begins no step. -/
  | afterBracket
  /-- A conversion that there is not. -/
  | unknownConversion (c : Char)
  /-- Digits are to be grouped in two ways. -/
  | twoSeparators
  /-- A precision has no digits. -/
  | noPrecision
  /-- A layout has something left after all its parts. -/
  | invalidLayout (layout : String)
  /-- Digits are to be grouped in what is shown in the form `form`. -/
  | separated (separator form : Char)
  /-- A text is to be shown in a form for numbers, or in one that there is not. -/
  | unknownForm (c : Char)
  /-- A text is to have a sign. -/
  | signed
  /-- A text is to have a space for a sign. -/
  | spaced
  /-- A text is to lose the sign of a negative zero. -/
  | negativeZero
  /-- A text is to be shown in an alternate form. -/
  | alternate
  /-- A text is to be padded after its sign. -/
  | paddedAfterSign
deriving DecidableEq

/-- A character as a fault names it: as it is if it lies after the space and before `limit`, and by its
hexadecimal code otherwise. -/
def namedBelow (limit : Nat) (c : Char) : String :=
  if 32 < c.toNat && c.toNat < limit then String.singleton c
  else "\\x" ++ String.ofList (Nat.toDigits 16 c.toNat)

/-- What a fault says of itself. -/
def Fault.text : Fault → String
  | loneOpenBrace => "Single '\x7b' encountered in format string"
  | loneCloseBrace => "Single '\x7d' encountered in format string"
  | unclosed => "expected '\x7d' before end of string"
  | braceInName => "unexpected '\x7b' in field name"
  | noConversion => "end of string while looking for conversion specifier"
  | unendedConversion => "expected ':' after conversion specifier"
  | unclosedLayout => "unmatched '\x7b' in format spec"
  | tooDeep => "Max string recursion exceeded"
  | automaticAfterNumbers =>
    "cannot switch from manual field specification to automatic field numbering"
  | numberAfterAutomatic =>
    "cannot switch from automatic field numbering to manual field specification"
  | tooManyDigits => "Too many decimal digits in format string"
  | emptyStep => "Empty attribute in format string"
  | unclosedBracket => "Missing ']' in format string"
  | afterBracket => "Only '.' or '[' may follow ']' in format field specifier"
  | unknownConversion c => "Unknown conversion specifier " ++ namedBelow 127 c
  | twoSeparators => "Cannot specify both ',' and '_'."
  | noPrecision => "Format specifier missing precision"
  | invalidLayout s => "Invalid format specifier '" ++ s ++ "' for object of type 'str'"
  | separated s c => "Cannot specify '" ++ String.singleton s ++ "' with '" ++ namedBelow 128 c ++ "'."
  | unknownForm c => "Unknown format code '" ++ namedBelow 128 c ++ "' for object of type 'str'"
  | signed => "Sign not allowed in string format specifier"
  | spaced => "Space not allowed in string format specifier"
  | negativeZero => "Negative zero coercion (z) not allowed in string format specifier"
  | alternate => "Alternate form (#) not allowed in string format specifier"
  | paddedAfterSign => "'=' alignment not allowed in string format specifier"

end NormalOrder.Template
