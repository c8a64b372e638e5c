import NormalOrder.Proofs.Term.Parser
import NormalOrder.Proofs.Token.Longest

/-!
# What a diagnostic points at

A diagnostic names the stretch that it points at by two positions in the text that it shows. `PointsAt` is
the same by characters: what comes before the stretch, the stretch, and what comes after it.

The place of a token or of a character is counted within its line and without carriage returns, but the
position is taken in the text that is shown. For a character that begins no token this text is its line, and
for a token it is the whole source (`Blames`). So the diagnostic points at what is blamed exactly if nothing
before it in the text that is shown is a line ending (`pointsAt_iff_of_parse`).
-/

namespace NormalOrder

variable {cs before culprit after : List Char} {source : String} {e : SourceError} {d : Diagnostic}

/-! ## Stretches -/

/-- The stretch between two positions of a text. -/
theorem Text.slice_append (before culprit after : List Char) :
    Text.slice (String.ofList (before ++ (culprit ++ after))) before.length
      (before.length + culprit.length) = String.ofList culprit := by
  have hstart : Text.place (before ++ (culprit ++ after)).length before.length = before.length := by
    rw [Text.place, if_neg (by omega), List.length_append]
    omega
  have hstop : Text.place (before ++ (culprit ++ after)).length (before.length + culprit.length)
      = before.length + culprit.length := by
    rw [Text.place, if_neg (by omega), List.length_append, List.length_append]
    omega
  rw [Text.slice, String.toList_ofList, hstart, hstop, ← List.append_assoc, ← List.length_append,
    List.take_left, List.drop_left]

namespace Diagnostic

/-- The diagnostic points at `culprit`, which stands in its text between `before` and `after`. -/
structure PointsAt (d : Diagnostic) (before culprit after : List Char) : Prop where
  subject : d.subject.toList = before ++ (culprit ++ after)
  start : d.start = before.length
  stop : d.stop = before.length + culprit.length

/-- The stretch that is pointed at. -/
theorem PointsAt.slice_eq (h : d.PointsAt before culprit after) :
    Text.slice d.subject d.start d.stop = String.ofList culprit := by
  rw [h.start, h.stop, ← String.ofList_toList (s := d.subject), h.subject]
  exact Text.slice_append before culprit after

/-- The excerpt shows the whole text. Below it the caret stands under the first character of the stretch that
is pointed at, and a tilde under each of its further ones. -/
theorem PointsAt.excerpt_plain (h : d.PointsAt before culprit after) (hne : culprit ≠ [])
    (colour : Colour) :
    d.excerpt .plain colour = "  " ++ d.subject ++ "\n" ++ "  " ++ Text.repeated before.length ' '
      ++ "^" ++ Text.repeated (culprit.length - 1) '~' := by
  have hpos := List.length_pos_iff.2 hne
  have hend : d.pointedEnd = before.length + culprit.length := by
    rw [pointedEnd, h.start, h.stop]
    omega
  have hsubject : d.subject = String.ofList (before ++ (culprit ++ after)) := by
    rw [← h.subject, String.ofList_toList]
  have hbefore : Text.before d.subject d.start = String.ofList before := by
    rw [Text.before, h.start, hsubject]
    have hslice := Text.slice_append [] before (culprit ++ after)
    simpa using hslice
  have hafter : Text.after d.subject d.pointedEnd = String.ofList after := by
    have hslice := Text.slice_append (before ++ culprit) after []
    rw [Text.after, hend, hsubject]
    simpa [Int.add_assoc] using hslice
  have hstretch : Text.slice d.subject d.start d.pointedEnd = String.ofList culprit := by
    rw [hend, ← h.stop, h.slice_eq]
  have htildes : d.pointedEnd - d.start - 1 = culprit.length - 1 := by
    rw [hend, h.start]
    omega
  rw [excerpt, hbefore, hafter, hstretch, htildes, h.start, hsubject, String.ofList_append,
    String.ofList_append]
  simp only [Style.bold, String.append_assoc]

end Diagnostic

/-! ## Errors of the source text -/

namespace SourceError

open Token

/-- The error is over `culprit`, which stands between `before` and `after` in what its diagnostic shows: for
a character that begins no token this is its line, and for a token the whole text. -/
inductive Blames (source : String) : SourceError → List Char → List Char → List Char → Prop
  | char {past rest : List Char} {u : Unreadable} (hsplit : source.toList = past ++ u.char :: rest)
    (hloc : u.location = placeAfter past) (hc : inLine u.char = true) :
    Blames source (.lexical u) (Text.lastLine past) [u.char] (rest.takeWhile (· != '\n'))
  | token {past : List Token} {found : Token} {before after : List Char} (expected : Expected)
    (h : Stands source.toList past found before after) :
    Blames source (.grammar (.misplaced expected found)) before found.lexeme.toList after

/-- The characters of a text in the last of its lines that take a column are all of them exactly if no
line ending is among them. -/
theorem countP_lastLine_eq_length_iff :
    (Text.lastLine cs).countP (· != '\r') = cs.length ↔ ∀ c ∈ cs, inLine c = true := by
  constructor
  · intro h
    have hle : (Text.lastLine cs).countP (· != '\r') ≤ (Text.lastLine cs).length :=
      List.countP_le_length
    have hself : Text.lastLine cs = cs :=
      (Text.lastLine_suffix cs).eq_of_length_le (h ▸ hle)
    have hfeed := Text.not_mem_lastLine cs
    rw [hself] at h hfeed
    intro c hc
    have hne : c ≠ '\n' := fun heq => hfeed (heq ▸ hc)
    exact Bool.and_eq_true_iff.2 ⟨bne_iff_ne.2 hne, List.countP_eq_length.1 h c hc⟩
  · intro h
    have hfeed : '\n' ∉ cs := fun hmem => by cases h _ hmem
    rw [Text.lastLine_eq_self hfeed]
    exact List.countP_eq_length.2 fun c hc => (Bool.and_eq_true_iff.1 (h c hc)).2

/-- What is blamed has a diagnostic, which shows it. Its position is counted off without the lines before
it and the carriage returns. -/
theorem Blames.exists_diagnostic (h : Blames source e before culprit after) (hne : culprit ≠ []) :
    ∃ d, Diagnostic.ofSourceError source e = .ok d ∧
      d.subject.toList = before ++ (culprit ++ after) ∧
      d.start = (Text.lastLine before).countP (· != '\r') ∧ d.stop = d.start + culprit.length := by
  cases h with
  | @char past rest u hsplit hloc hc =>
    have hline : (u.location.line - 1).toNat = past.count '\n' := by
      rw [hloc, placeAfter]
      dsimp only
      omega
    have hcol : u.location.col = (Text.lastLine past).countP (· != '\r') + 1 := by
      rw [hloc, placeAfter]
      dsimp only
      omega
    have hcut : (u.char :: rest).takeWhile (· != '\n') = u.char :: rest.takeWhile (· != '\n') :=
      List.takeWhile_cons_of_pos (Bool.and_eq_true_iff.1 hc).1
    rw [Diagnostic.ofSourceError, Diagnostic.ofUnreadable, hline, hsplit, Text.getElem?_segments, hcut]
    refine ⟨_, rfl, String.toList_ofList, ?_, ?_⟩
    · rw [Text.lastLine_eq_self (Text.not_mem_lastLine past)]
      show u.location.col - 1 = _
      omega
    · show (if u.location.col = -1 then _ else u.location.col) = u.location.col - 1 + 1
      rw [if_neg (by omega)]
      omega
  | @token past found before after expected h =>
    have hcol : found.location.col = (Text.lastLine before).countP (· != '\r') + 1 := by
      rw [h.location, placeAfter]
      dsimp only
      omega
    have hlen : max found.lexeme.length 1 = found.lexeme.toList.length := by
      have hpos := List.length_pos_iff.2 hne
      rw [← String.length_toList]
      omega
    refine ⟨_, rfl, h.split, ?_, ?_⟩
    · show found.location.col - 1 = _
      omega
    · rw [← hlen]
      exact if_neg (by omega)

/-- An error over something other than the end of the input blames what it is over, and this is not empty. -/
theorem exists_blames (h : (Term.parse source : Except SourceError Expr) = .error e)
    (heof : ∀ expected found, e = .grammar (.misplaced expected found) → found.kind ≠ .eof) :
    ∃ before culprit after, Blames source e before culprit after ∧ culprit ≠ [] := by
  rcases Grammar.error_of_parse h with ⟨u, rfl, hscan⟩ | ⟨toks, expected, found, rfl, hscan, hfound, -⟩
  · obtain ⟨past, rest, hsplit, hloc, hc, -⟩ := unread_of_scan [] hscan
    exact ⟨_, _, _, .char hsplit hloc hc, List.cons_ne_nil _ _⟩
  · obtain ⟨-, hspelled⟩ := tokens_of_scan hscan
    obtain ⟨past, future, rfl⟩ := List.append_of_mem hfound
    obtain ⟨before, after, hstands⟩ := exists_stands hscan
    refine ⟨_, _, _, .token expected hstands, fun hnil => heof expected found rfl ?_⟩
    have hempty := hspelled found hfound
    rw [hnil] at hempty
    exact eof_of_spelled_nil hempty

end SourceError

/-- A text that makes no term has a diagnostic, and unless this is over the end of the input it shows what is
blamed: for a character its line, for a token the whole text. The position is that of what is blamed exactly
if nothing before this is a line ending. Then what is blamed is what is pointed at. -/
theorem span_of_parse (h : (Term.parse source : Except SourceError Expr) = .error e)
    (heof : ∀ expected found, e = .grammar (.misplaced expected found) → found.kind ≠ .eof) :
    ∃ d before culprit after, Diagnostic.ofSourceError source e = .ok d ∧
      e.Blames source before culprit after ∧ d.subject.toList = before ++ (culprit ++ after) ∧
      d.start = (Text.lastLine before).countP (· != '\r') ∧ d.stop = d.start + culprit.length ∧
      (d.PointsAt before culprit after ↔ ∀ c ∈ before, Token.inLine c = true) ∧
      ((∀ c ∈ before, Token.inLine c = true) →
        Text.slice d.subject d.start d.stop = String.ofList culprit) := by
  obtain ⟨before, culprit, after, hblames, hne⟩ := SourceError.exists_blames h heof
  obtain ⟨d, hd, hsubject, hstart, hstop⟩ := hblames.exists_diagnostic hne
  have hpoints : d.PointsAt before culprit after ↔ ∀ c ∈ before, Token.inLine c = true := by
    rw [← SourceError.countP_lastLine_eq_length_iff]
    constructor
    · intro hat
      have := hat.start
      omega
    · intro hlen
      exact ⟨hsubject, by omega, by omega⟩
  exact ⟨d, before, culprit, after, hd, hblames, hsubject, hstart, hstop, hpoints,
    fun hline => (hpoints.2 hline).slice_eq⟩

/-- In the second line of a text a character that begins no token is pointed at. -/
theorem span_of_parse_plus :
    ∃ d, Diagnostic.ofSourceError "x\ny + z" (.lexical ⟨'+', ⟨2, 3⟩⟩) = .ok d ∧ d.subject = "y + z" ∧
      Text.slice d.subject d.start d.stop = "+" := by
  have hparse : (Term.parse "x\ny + z" : Except SourceError Expr)
      = .error (.lexical ⟨'+', ⟨2, 3⟩⟩) := by cbv
  obtain ⟨d, before, culprit, after, hd, hblames, -, -, -, -, hslice⟩ :=
    span_of_parse hparse fun _ _ herr => by cases herr
  cases hblames with
  | @char past rest _ hsplit hloc hc =>
    have hsource : ∀ c ∈ "x\ny + z".toList, c ≠ '\n' → Token.inLine c = true := by
      simp [Token.inLine]
    have hline : ∀ c ∈ Text.lastLine past, Token.inLine c = true := by
      intro c hmem
      refine hsource c ?_ fun hfeed => Text.not_mem_lastLine past (hfeed ▸ hmem)
      rw [hsplit]
      exact List.mem_append_left _ ((Text.lastLine_suffix past).subset hmem)
    refine ⟨d, hd, ?_, hslice hline⟩
    cases hd
    rfl

/-- A token in the second line is not pointed at, nor is a character after a carriage return. -/
theorem span_missed :
    (∃ d, (Term.parse "x\n)" : Except SourceError Expr)
          = .error (.grammar (.misplaced (.token .eof) ⟨.rparen, ")", ⟨2, 1⟩⟩)) ∧
        Diagnostic.ofSourceError "x\n)" (.grammar (.misplaced (.token .eof) ⟨.rparen, ")", ⟨2, 1⟩⟩))
          = .ok d ∧
        Text.slice d.subject d.start d.stop = "x") ∧
      ∃ d, (Term.parse "\r+" : Except SourceError Expr) = .error (.lexical ⟨'+', ⟨1, 1⟩⟩) ∧
        Diagnostic.ofSourceError "\r+" (.lexical ⟨'+', ⟨1, 1⟩⟩) = .ok d ∧
        Text.slice d.subject d.start d.stop = "\r" :=
  ⟨⟨_, by cbv, rfl, by cbv⟩, ⟨_, by cbv, rfl, by cbv⟩⟩

end NormalOrder
