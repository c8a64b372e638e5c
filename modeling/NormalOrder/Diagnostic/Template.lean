import NormalOrder.Diagnostic.Message
import NormalOrder.Diagnostic.Template.Name

/-!
# Message templates

A template is a text with placeholders between braces, which snippets are put in for. A placeholder
has a name, which leads to what is shown in its place, and it may have a conversion after an
exclamation mark and a layout after a colon: `name!conversion:layout`. A layout may have placeholders
in its turn, whose layouts have none. A doubled brace is a brace.

Placeholders are filled from left to right, and the first that cannot be filled is the defect of the
whole. A message shows its snippets in bold; so a template is filled with the snippets as they are,
and with the snippets between the escape sequences of the terminal (`fill`).
-/

namespace NormalOrder.Template

/-- A placeholder. -/
structure Slot where
  name : List Char
  conversion : Option Char
  layout : List Char

/-- A part of a template. -/
inductive Part where
  | char (c : Char)
  | slot (s : Slot)

/-- Where a reader of a template is: in plain text, after a brace that may be doubled, or inside a
placeholder. There it is in the name, whose brackets may hold anything; at the conversion, or behind
it; or in the layout, where `depth` more braces were opened than closed. -/
inductive Position where
  | text
  | opened
  | closed
  | name (name : List Char)
  | brackets (name : List Char)
  | conversion (name : List Char)
  | converted (name : List Char) (conversion : Char)
  | layout (name : List Char) (conversion : Option Char) (layout : List Char) (depth : Nat)

/-- The fault of a template that ends at a position. -/
def Position.ending : Position → Option Fault
  | .text => none
  | .opened => some .loneOpenBrace
  | .closed => some .loneCloseBrace
  | .name _ | .brackets _ => some .unclosed
  | .conversion _ => some .noConversion
  | .converted .. | .layout .. => some .unclosedLayout

/-- What comes of the next character of a template: the reader goes on from a position, or it has a part
and is in plain text, or the template is at fault. -/
inductive Move where
  | goOn (position : Position)
  | part (p : Part)
  | stop (fault : Fault)

/-- What comes of a character after the beginning of a name. -/
def readName (name : List Char) (c : Char) : Move :=
  if c = openBrace then .stop .braceInName
  else if c = closeBrace then .part (.slot ⟨name, none, []⟩)
  else if c = ':' then .goOn (.layout name none [] 0)
  else if c = '!' then .goOn (.conversion name)
  else if c = '[' then .goOn (.brackets (name ++ [c]))
  else .goOn (.name (name ++ [c]))

/-- What comes of a character at a position. -/
def Position.read : Position → Char → Move
  | .text, c =>
    if c = openBrace then .goOn .opened
    else if c = closeBrace then .goOn .closed
    else .part (.char c)
  | .opened, c => if c = openBrace then .part (.char c) else readName [] c
  | .closed, c => if c = closeBrace then .part (.char c) else .stop .loneCloseBrace
  | .name x, c => readName x c
  | .brackets x, c => .goOn (if c = ']' then .name (x ++ [c]) else .brackets (x ++ [c]))
  | .conversion x, c => .goOn (.converted x c)
  | .converted x k, c =>
    if c = closeBrace then .part (.slot ⟨x, some k, []⟩)
    else if c = ':' then .goOn (.layout x (some k) [] 0)
    else .stop .unendedConversion
  | .layout x k cs depth, c =>
    if c = openBrace then .goOn (.layout x k (cs ++ [c]) (depth + 1))
    else if c = closeBrace then
      match depth with
      | 0 => .part (.slot ⟨x, k, cs⟩)
      | depth + 1 => .goOn (.layout x k (cs ++ [c]) depth)
    else .goOn (.layout x k (cs ++ [c]) depth)

/-- The parts of the characters of a template from a position on, and the fault at which reading them
ended, if any. -/
def partsFrom : Position → List Char → List Part × Option Fault
  | position, [] => ([], position.ending)
  | position, c :: rest =>
    match position.read c with
    | .goOn position' => partsFrom position' rest
    | .part p =>
      let (ps, fault) := partsFrom .text rest
      (p :: ps, fault)
    | .stop fault => ([], some fault)

/-! ## Placeholders -/

/-- What is shown after a conversion; the null character asks for none. -/
def Shown.convert (s : Shown) : Option Char → Except Defect Shown
  | none | some '\x00' => .ok s
  | some 's' => s.plain.map .ofText
  | some 'r' => s.quoted.map .ofText
  | some 'a' => s.quoted.map fun cs => .ofText (Text.escapedFrom 0x80 cs)
  | some c => .error (.badTemplate (.unknownConversion c))

variable (attributes : Attributes) (snippets : List (List Char))

/-- What stands in a placeholder. A layout with placeholders is filled by `fillLayout`. -/
def Slot.fill (fillLayout : Numbering → List Char → Except Defect (List Char × Numbering))
    (numbering : Numbering) (s : Slot) : Except Defect (List Char × Numbering) := do
  let (shown, numbering) ← lookUp attributes snippets numbering s.name
  let converted ← shown.convert s.conversion
  let (layout, numbering) ←
    if s.layout.contains openBrace then fillLayout numbering s.layout else .ok (s.layout, numbering)
  return (← converted.inLayout layout, numbering)

/-- The text of parts whose placeholders are filled, from left to right. -/
def fillParts (fillSlot : Numbering → Slot → Except Defect (List Char × Numbering)) :
    Numbering → List Part → Except Defect (List Char × Numbering)
  | numbering, [] => .ok ([], numbering)
  | numbering, .char c :: rest => do
    let (cs, numbering) ← fillParts fillSlot numbering rest
    return (c :: cs, numbering)
  | numbering, .slot s :: rest => do
    let (shown, numbering) ← fillSlot numbering s
    let (cs, numbering) ← fillParts fillSlot numbering rest
    return (shown ++ cs, numbering)

/-- The text of a template, where layouts have placeholders to the given depth. A placeholder that
cannot be filled comes before a fault, wherever the fault stands after it. -/
def fillFrom : (depth : Nat) → Numbering → List Char → Except Defect (List Char × Numbering)
  | 0, _, _ => .error (.badTemplate .tooDeep)
  | depth + 1, numbering, cs => do
    let (parts, fault) := partsFrom .text cs
    let filled ← fillParts (Slot.fill attributes snippets (fillFrom depth)) numbering parts
    match fault with
    | some f => .error (.badTemplate f)
    | none => return filled

/-- The text that a template gives with its snippets. -/
def fillText (template : String) (snippets : List String) : Except Defect String :=
  (fillFrom attributes (snippets.map String.toList) 2 .unset template.toList).map fun filled =>
    String.ofList filled.1

end NormalOrder.Template

namespace NormalOrder

/-! ## Messages -/

/-- How templates are filled: in which style, and where the attributes of a text lead. -/
structure Wording where
  style : Style := .plain
  attributes : Template.Attributes := .none

/-- The message that a template gives with its snippets. In its style the snippets are set off while
they are put in, which a layout may have no place for; then there is no message. In the other style they
are left as they are if they cannot be set off. -/
def Template.fill (w : Wording) (template : String) (snippets : List String) :
    Except Defect Message :=
  let styled := fillText w.attributes template (snippets.map (Style.bold .terminal none))
  match w.style, styled, fillText w.attributes template snippets with
  | .terminal, .error d, _ => .error d
  | _, _, .error d => .error d
  | _, _, .ok s => .ok [.styled s (styled.toOption.getD s)]

end NormalOrder
