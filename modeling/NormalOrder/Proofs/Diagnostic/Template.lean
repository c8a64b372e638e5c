import NormalOrder.Diagnostic.Template

/-!
# Texts as templates

A text can be written as a template if each of its braces is doubled: then it is shown as it is,
whatever snippets are at hand and however they are set off (`fill_doubled`). A text without braces is
such a template already (`fill_of_plain`). Both rest on how a template is read: a doubled brace and any
other character are a part of the template each (`partsFrom_doubled`), and parts that are characters
are filled with themselves (`fillParts_chars`).
-/

namespace NormalOrder.Template

variable {template : String} {cs : List Char}

/-! ## Texts without braces -/

/-- A text without braces. -/
def Plain (cs : List Char) : Prop := openBrace ∉ cs ∧ closeBrace ∉ cs

instance (cs : List Char) : Decidable (Plain cs) := inferInstanceAs (Decidable (_ ∧ _))

/-- A text that begins with a character is plain if the character is no brace and the rest is
plain. -/
theorem plain_cons {c : Char} : Plain (c :: cs) ↔ (c ≠ openBrace ∧ c ≠ closeBrace) ∧ Plain cs := by
  simp only [Plain, List.mem_cons, not_or, Ne, @eq_comm _ c]
  exact and_and_and_comm

/-- Two texts, one after the other, are plain if both are. -/
theorem plain_append {ds : List Char} : Plain (cs ++ ds) ↔ Plain cs ∧ Plain ds := by
  simp only [Plain, List.mem_append, not_or]
  exact and_and_and_comm

/-! ## Doubled braces -/

/-- A character as it is written in a template. -/
def doubledChar (c : Char) : List Char := if c = openBrace ∨ c = closeBrace then [c, c] else [c]

/-- A text as it is written in a template: each brace is doubled. -/
def doubled (cs : List Char) : List Char := cs.flatMap doubledChar

/-- A text without braces is written as it is. -/
theorem doubled_of_plain (h : Plain cs) : doubled cs = cs := by
  induction cs with
  | nil => rfl
  | cons c cs ih =>
    obtain ⟨⟨hopen, hclose⟩, hcs⟩ := plain_cons.1 h
    rw [doubled, List.flatMap_cons, doubledChar, if_neg (not_or.2 ⟨hopen, hclose⟩)]
    exact congrArg (c :: ·) (ih hcs)

/-- The characters of a text are the parts of the template that it is written as. -/
theorem partsFrom_doubled (cs : List Char) :
    partsFrom .text (doubled cs) = (cs.map .char, none) := by
  induction cs with
  | nil => rfl
  | cons c cs ih =>
    rw [doubled] at ih ⊢
    rw [List.flatMap_cons, doubledChar, List.map_cons]
    -- an opening brace opens, a closing one closes, and the second of the two makes it a character
    by_cases hopen : c = openBrace
    · rw [if_pos (.inl hopen), List.cons_append, List.singleton_append]
      simp only [partsFrom, Position.read, if_pos hopen, ih]
    · by_cases hclose : c = closeBrace
      · rw [if_pos (.inr hclose), List.cons_append, List.singleton_append]
        simp only [partsFrom, Position.read, if_neg hopen, if_pos hclose, ih]
      · rw [if_neg (not_or.2 ⟨hopen, hclose⟩), List.singleton_append]
        simp only [partsFrom, Position.read, if_neg hopen, if_neg hclose, ih]

/-- Parts that are characters are filled with themselves. -/
theorem fillParts_chars
    (fillSlot : Numbering → Slot → Except Defect (List Char × Numbering)) (numbering : Numbering)
    (cs : List Char) : fillParts fillSlot numbering (cs.map .char) = .ok (cs, numbering) := by
  induction cs with
  | nil => rfl
  | cons c cs ih =>
    rw [List.map_cons, fillParts, ih]
    rfl

/-- A text whose braces are doubled is filled with the text. -/
theorem fillText_doubled (attributes : Attributes) (text : String) (snippets : List String) :
    fillText attributes (String.ofList (doubled text.toList)) snippets = .ok text := by
  rw [fillText, String.toList_ofList, fillFrom, partsFrom_doubled]
  simp only [fillParts_chars]
  exact congrArg Except.ok String.ofList_toList

/-- A text whose braces are doubled is a template that is shown as the text, in every style. -/
theorem fill_doubled (w : Wording) (text : String) (snippets : List String) :
    ∃ message, fill w (String.ofList (doubled text.toList)) snippets = .ok message ∧
      ∀ style, message.render style = text := by
  refine ⟨[.styled text text], ?_, fun style => ?_⟩
  · rw [fill, fillText_doubled, fillText_doubled]
    cases w.style <;> rfl
  · cases style <;> simp [Message.render, Message.renderPiece]

/-- A text without braces is a template that is shown as it is, in every style. -/
theorem fill_of_plain (h : Plain template.toList) (w : Wording) (snippets : List String) :
    ∃ message, fill w template snippets = .ok message ∧ ∀ style, message.render style = template := by
  have hfill := fill_doubled w template snippets
  rwa [doubled_of_plain h, String.ofList_toList] at hfill

end NormalOrder.Template
