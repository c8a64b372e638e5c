import NormalOrder.Diagnostic.Template.Fault
import NormalOrder.Text.Quoted

/-!
# Defects

A defect is a failure that the interpreter itself does not explain: a list that is shorter than
was relied on, a text that cannot be read, or any failure that is signalled from outside. A report
of one shows its class and its text (`Defect.kind`, `Defect.text`).
-/

namespace NormalOrder

/-- A failure without an explanation in the language's own terms. -/
inductive Defect where
  /-- A list has no element at a place that was looked up. -/
  | outOfRange
  /-- The newest result is asked for and there is none. -/
  | noResult
  /-- A message has a placeholder, counted from zero, for which no snippet was given. -/
  | noSnippet (index : Nat)
  /-- A name is looked up that has no value. -/
  | noValue (name : String)
  /-- A character is read as a decimal digit. -/
  | notDigit (c : Char)
  /-- A message is no template. -/
  | badTemplate (fault : Template.Fault)
  /-- A placeholder of a message means a character that its snippet does not have. -/
  | noCharacter
  /-- A placeholder of a message means a character of its snippet by a name. -/
  | keyOfText
  /-- A placeholder of a message means an attribute of its snippet that there is not. -/
  | noAttribute (name : String)
  /-- A count is held against a budget whose number was left out. -/
  | blankBudget
  /-- The path of a file holds a null character. -/
  | nullInPath
  /-- A failure of the class `kind`, signalled from outside with the text `text`. -/
  | foreign (kind text : String)
deriving DecidableEq

namespace Defect

/-- The class of a defect. -/
def kind : Defect → String
  | outOfRange | noResult | noSnippet _ | noCharacter => "IndexError"
  | noValue _ => "KeyError"
  | notDigit _ | badTemplate _ | nullInPath => "ValueError"
  | keyOfText | blankBudget => "TypeError"
  | noAttribute _ => "AttributeError"
  | foreign k _ => k

/-- What a defect says of itself. -/
def text : Defect → String
  | outOfRange => "list index out of range"
  | noResult => "pop from empty list"
  | noSnippet i =>
    "Replacement index " ++ toString i ++ " out of range for positional args tuple"
  | noValue x => Text.quoted x
  | notDigit c => "invalid literal for int() with base 10: " ++ Text.quoted (String.singleton c)
  | badTemplate f => f.text
  | noCharacter => "string index out of range"
  | keyOfText => "string indices must be integers, not 'str'"
  | noAttribute x => "'str' object has no attribute '" ++ x ++ "'"
  | blankBudget => "'>' not supported between instances of 'int' and 'list'"
  | nullInPath => "embedded null byte"
  | foreign _ s => s

end Defect

end NormalOrder
