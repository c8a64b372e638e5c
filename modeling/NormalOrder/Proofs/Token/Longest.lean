import Mathlib.Data.List.TakeWhile
import NormalOrder.Diagnostic
import NormalOrder.Proofs.Text.Lines
import NormalOrder.Proofs.Token.Lexer

/-!
# Longest tokens

Scanning cuts a text from left to right, and each token is the longest that the text at hand begins with
(`Longest`). `Cut` says so without the scanner: only line endings are left between the tokens, and the place
of a token is counted off from the text before it (`placeAfter`). A text is scanned exactly if it can be cut
in this way, and into the tokens that it is cut into (`scan_eq_ok_iff_cut`). If it cannot be, then no token
at all begins at the character that is blamed (`unread_of_scan`).

That nothing is lost, that no token could go on and where each of them stands is read off the cut
(`scan_loses_nothing`), and so is that the tokens come in the order of their places (`Cut.precedes`).
-/

namespace NormalOrder.Token

variable {c : Char} {cs before rest rest' more w : List Char} {k : TokenKind}
  {toks past future : List Token} {t : Token} {source : String}

/-! ## Places -/

/-- The place after a text, the origin if it is empty. Its line is counted by the line feeds, and its column
by the characters since the last of them, other than carriage returns. -/
def placeAfter (cs : List Char) : Location :=
  ⟨1 + cs.count '\n', 1 + (Text.lastLine cs).countP (· != '\r')⟩

/-- After a line feed comes the first column of the next line. -/
theorem placeAfter_feed (cs : List Char) :
    placeAfter (cs ++ ['\n']) = ⟨(placeAfter cs).line + 1, 1⟩ := by
  rw [placeAfter, Text.lastLine_feed, List.count_append]
  simp [placeAfter, Int.add_assoc]

/-- A carriage return takes no column. -/
theorem placeAfter_return (cs : List Char) : placeAfter (cs ++ ['\r']) = placeAfter cs := by
  rw [placeAfter, Text.lastLine_append cs (by decide), List.countP_append, List.count_append]
  simp [placeAfter]

/-- Every other character takes one. -/
theorem placeAfter_append (cs : List Char) (hw : ∀ d ∈ w, inLine d = true) :
    placeAfter (cs ++ w) = { placeAfter cs with col := (placeAfter cs).col + w.length } := by
  have hfeed : '\n' ∉ w := fun h => by cases hw _ h
  have hreturn : ∀ d ∈ w, (d != '\r') = true := fun d hd => (Bool.and_eq_true_iff.1 (hw d hd)).2
  rw [placeAfter, Text.lastLine_append cs hfeed, List.countP_append, List.countP_eq_length.2 hreturn,
    List.count_append, List.count_eq_zero.2 hfeed]
  simp [placeAfter, Int.add_assoc]

/-! ## The longest token -/

/-- `w` is the longest token that the text `w ++ rest` begins with, and its kind is `k`. -/
structure Longest (k : TokenKind) (w rest : List Char) : Prop where
  spelled : Spelled k w
  nonempty : w ≠ []
  longest {k' : TokenKind} {w' : List Char} (h : Spelled k' w') (hpre : w' <+: w ++ rest) :
    w'.length ≤ w.length

/-- A token with characters that go on with it is a token. -/
theorem spelled_append (h : Spelled k w) (hmore : ∀ d ∈ more, Continuing k d = true) :
    Spelled k (w ++ more) := by
  cases k with
  | lambda | dot | lparen | rparen | arrow | eof =>
    obtain rfl : more = [] := List.eq_nil_iff_forall_not_mem.2 fun d hd => by cases hmore d hd
    rwa [List.append_nil]
  | var | space | metavar =>
    obtain ⟨c, cs, rfl, hc, hcs⟩ := h
    exact ⟨c, cs ++ more, rfl, hc, List.forall_mem_append.2 ⟨hcs, hmore⟩⟩

/-- Where a text begins with a token, a token of this kind is read that is at least as long. -/
theorem exists_lexeme? (h : Spelled k (c :: more)) (rest : List Char) :
    ∃ ext rest', rest = ext ++ rest' ∧
      lexeme? c (more ++ rest) = some (k, more ++ ext, rest') := by
  have hstop : Avoids (Continuing k) (rest.dropWhile (Continuing k)) := by
    intro d hd
    have hnot := List.head?_dropWhile_not (Continuing k) rest
    rw [hd] at hnot
    exact hnot
  have hspelled : Spelled k (c :: (more ++ rest.takeWhile (Continuing k))) :=
    spelled_append h fun d hd => List.mem_takeWhile_imp hd
  have hlex := lexeme?_of_spelled hspelled hstop
  rw [List.append_assoc, List.takeWhile_append_dropWhile] at hlex
  exact ⟨_, _, List.takeWhile_append_dropWhile.symm, hlex⟩

/-- The token that is read is the longest. -/
theorem longest_of_lexeme? (h : lexeme? c rest = some (k, more, rest')) :
    Longest k (c :: more) rest' := by
  refine ⟨spelled_of_lexeme? h, List.cons_ne_nil _ _, fun {k' w'} hw' hpre => ?_⟩
  cases w' with
  | nil => exact Nat.zero_le _
  | cons c' more' =>
    obtain ⟨rest₁, hcons⟩ := hpre
    rw [List.cons_append, List.cons_append] at hcons
    obtain ⟨rfl, hrest₁⟩ := List.cons.inj hcons
    obtain ⟨ext, rest₂, -, hlex⟩ := exists_lexeme? hw' rest₁
    rw [hrest₁, append_of_lexeme? h, h] at hlex
    cases hlex
    simp only [List.length_cons, List.length_append]
    omega

/-- Where no token is read, none begins. -/
theorem eq_nil_of_lexeme?_eq_none (h : lexeme? c rest = none) (hw : Spelled k w)
    (hpre : w <+: c :: rest) : w = [] := by
  cases w with
  | nil => rfl
  | cons c' more =>
    obtain ⟨rest', hcons⟩ := hpre
    rw [List.cons_append] at hcons
    obtain ⟨rfl, hrest'⟩ := List.cons.inj hcons
    obtain ⟨ext, rest₁, -, hlex⟩ := exists_lexeme? hw rest'
    rw [hrest', h] at hlex
    cases hlex

/-- The character after the longest token does not go on with it. -/
theorem Longest.avoids (h : Longest k w rest) : Avoids (Continuing k) rest := by
  intro d hd
  by_contra hgo
  obtain ⟨rest', rfl⟩ := List.head?_eq_some_iff.1 hd
  have hspelled : Spelled k (w ++ [d]) := spelled_append h.spelled (by simpa using hgo)
  have hle := h.longest hspelled ⟨rest', by simp⟩
  rw [List.length_append, List.length_singleton] at hle
  omega

/-- The longest token is not one for the end of the input, which has no characters. -/
theorem Longest.ne_eof (h : Longest k w rest) : k ≠ .eof := by
  rintro rfl
  exact h.nonempty h.spelled

/-- The place after the longest token. -/
theorem Longest.placeAfter_eq (h : Longest k w rest) (before : List Char) :
    placeAfter (before ++ w) = { placeAfter before with col := (placeAfter before).col + w.length } :=
  placeAfter_append before (inLine_of_spelled h.spelled)

/-! ## Cuts -/

/-- The text after `before` is cut from left to right into tokens, each the longest at its place, with
nothing but line endings between them. -/
inductive Cut : List Char → List Char → List Token → Prop where
  | eof {before : List Char} : Cut before [] [⟨.eof, "", placeAfter before⟩]
  | lineEnd {before rest : List Char} {c : Char} {toks : List Token} (hc : inLine c = false)
    (h : Cut (before ++ [c]) rest toks) : Cut before (c :: rest) toks
  | token {before rest w : List Char} {k : TokenKind} {toks : List Token} (hw : Longest k w rest)
    (h : Cut (before ++ w) rest toks) :
    Cut before (w ++ rest) (⟨k, String.ofList w, placeAfter before⟩ :: toks)

/-- A character that ends a line is a line feed or a carriage return. -/
theorem inLine_eq_false_iff : inLine c = false ↔ c = '\n' ∨ c = '\r' := by
  rw [inLine, Bool.and_eq_false_iff, bne_eq_false_iff_eq, bne_eq_false_iff_eq]

/-- A text that is cut is scanned. -/
theorem Cut.scan_eq (h : Cut before cs toks) : (scan (placeAfter before) cs).outcome = .ok toks := by
  induction h with
  | eof => rw [scan]
  | lineEnd hc _ ih =>
    rcases inLine_eq_false_iff.1 hc with rfl | rfl
    · rw [placeAfter_feed] at ih
      rw [scan, if_pos rfl]
      exact ih
    · rw [placeAfter_return] at ih
      rw [scan, if_neg (by decide), if_pos rfl]
      exact ih
  | token hw _ ih =>
    rw [hw.placeAfter_eq] at ih
    rw [scan_spelled hw.spelled hw.ne_eof hw.avoids, consScan, ih]
    rfl

/-- A text that is scanned is cut. -/
theorem cut_of_scan (before : List Char) (h : (scan (placeAfter before) cs).outcome = .ok toks) :
    Cut before cs toks := by
  generalize hhere : placeAfter before = here at h
  fun_induction scan here cs generalizing before toks with
  | case1 here =>
    cases h
    rw [← hhere]
    exact .eof
  | case2 here rest ih => exact .lineEnd rfl (ih _ (by rw [placeAfter_feed, hhere]) h)
  | case3 here rest hn ih => exact .lineEnd rfl (ih _ (by rw [placeAfter_return, hhere]) h)
  | case4 => cases h
  | case5 here c rest hn hr kind more rest' hlex ih =>
    have hlongest := longest_of_lexeme? hlex
    have hplace := hlongest.placeAfter_eq before
    rw [hhere, List.length_cons] at hplace
    cases hs : (scan { here with col := here.col + (more.length + 1) } rest').outcome with
    | error e =>
      rw [consScan, hs] at h
      cases h
    | ok toks' =>
      rw [consScan, hs] at h
      cases h
      rw [← append_of_lexeme? hlex, ← List.cons_append, ← hhere]
      exact .token hlongest (ih _ hplace hs)

/-- A text is scanned into the tokens that it is cut into. -/
theorem scan_eq_ok_iff_cut (before : List Char) :
    (scan (placeAfter before) cs).outcome = .ok toks ↔ Cut before cs toks :=
  ⟨cut_of_scan before, Cut.scan_eq⟩

/-- Where a text is unreadable, no token begins. -/
theorem unread_of_scan (before : List Char) {e : Unreadable}
    (h : (scan (placeAfter before) cs).outcome = .error e) :
    ∃ done rest, cs = done ++ e.char :: rest ∧ e.location = placeAfter (before ++ done) ∧
      inLine e.char = true ∧ ∀ k w, Spelled k w → w <+: e.char :: rest → w = [] := by
  generalize hhere : placeAfter before = here at h
  fun_induction scan here cs generalizing before with
  | case1 => cases h
  | case2 here rest ih =>
    obtain ⟨done, rest', rfl, hloc, hread⟩ := ih (before ++ ['\n'])
      (by rw [placeAfter_feed, hhere]) h
    exact ⟨'\n' :: done, rest', rfl, by rw [hloc, List.append_assoc, List.singleton_append], hread⟩
  | case3 here rest hn ih =>
    obtain ⟨done, rest', rfl, hloc, hread⟩ := ih (before ++ ['\r'])
      (by rw [placeAfter_return, hhere]) h
    exact ⟨'\r' :: done, rest', rfl, by rw [hloc, List.append_assoc, List.singleton_append], hread⟩
  | case4 here c rest hn hr hlex =>
    cases h
    refine ⟨[], rest, rfl, by rw [List.append_nil, hhere], ?_,
      fun k w hw hpre => eq_nil_of_lexeme?_eq_none hlex hw hpre⟩
    simp [inLine, hn, hr]
  | case5 here c rest hn hr kind more rest' hlex ih =>
    have hplace := (longest_of_lexeme? hlex).placeAfter_eq before
    rw [hhere, List.length_cons] at hplace
    cases hs : (scan { here with col := here.col + (more.length + 1) } rest').outcome with
    | ok toks =>
      rw [consScan, hs] at h
      cases h
    | error e' =>
      rw [consScan, hs] at h
      cases h
      obtain ⟨done, rest₁, hrest, hloc, hread⟩ := ih _ hplace hs
      refine ⟨c :: more ++ done, rest₁, ?_, by rw [hloc, List.append_assoc], hread⟩
      rw [← append_of_lexeme? hlex, hrest, List.append_assoc, List.cons_append]

/-- A text that cannot be read has a line in which it shows the character that is at fault. -/
theorem exists_ofUnreadable {e : Unreadable} (h : (scan origin source.toList).outcome = .error e) :
    ∃ d, Diagnostic.ofUnreadable source e = .ok d ∧ d.cause = .lexical := by
  obtain ⟨done, rest, hsplit, hloc, -⟩ := unread_of_scan [] h
  have hline : (e.location.line - 1).toNat = done.count '\n' := by
    rw [hloc, List.nil_append, placeAfter]
    dsimp only
    omega
  rw [Diagnostic.ofUnreadable, hline, hsplit, Text.getElem?_segments]
  exact ⟨_, rfl, rfl⟩

/-! ## Tokens in their text -/

/-- The token `t` stands in a text after the tokens `past`, between `before` and `after`. What comes before
it is made up by those tokens and line endings, and what comes after it does not go on with it. -/
structure Stands (source : List Char) (past : List Token) (t : Token) (before after : List Char) :
    Prop where
  split : source = before ++ (t.lexeme.toList ++ after)
  past : lexemes past = before.filter inLine
  location : t.location = placeAfter before
  stops : Avoids (Continuing t.kind) after
  last (h : t.kind = .eof) : after = []

/-- Each token of a cut stands in the text. -/
theorem Cut.stands (h : Cut before cs (past ++ t :: future)) :
    ∃ done after, cs = done ++ (t.lexeme.toList ++ after) ∧ lexemes past = done.filter inLine ∧
      t.location = placeAfter (before ++ done) ∧ Avoids (Continuing t.kind) after ∧
      (t.kind = .eof → after = []) := by
  generalize htoks : past ++ t :: future = toks at h
  induction h generalizing past with
  | @eof before =>
    obtain ⟨rfl, ht⟩ : past = [] ∧ t = ⟨.eof, "", placeAfter before⟩ := by
      cases past with
      | nil => exact ⟨rfl, (List.cons.inj htoks).1⟩
      | cons => simp at htoks
    subst ht
    exact ⟨[], [], rfl, rfl, by rw [List.append_nil], nofun, fun _ => rfl⟩
  | @lineEnd before rest c toks hc _ ih =>
    obtain ⟨done, after, rfl, hpast, hloc, hstops⟩ := ih htoks
    refine ⟨c :: done, after, rfl, ?_, by rw [hloc, List.append_assoc, List.singleton_append], hstops⟩
    rw [hpast, List.filter_cons_of_neg (by rw [hc]; exact Bool.false_ne_true)]
  | @token before rest w k toks hw hrest ih =>
    cases past with
    | nil =>
      obtain ⟨rfl, -⟩ := List.cons.inj htoks
      exact ⟨[], rest, by rw [String.toList_ofList, List.nil_append], rfl, by rw [List.append_nil],
        hw.avoids, fun hk => absurd hk hw.ne_eof⟩
    | cons p past =>
      obtain ⟨rfl, hpast⟩ := List.cons.inj htoks
      obtain ⟨done, after, rfl, hlexemes, hloc, hstops⟩ := ih hpast
      refine ⟨w ++ done, after, by rw [List.append_assoc], ?_, by rw [hloc, List.append_assoc], hstops⟩
      rw [List.filter_append, List.filter_eq_self.2 (inLine_of_spelled hw.spelled), ← hlexemes, lexemes,
        List.flatMap_cons, String.toList_ofList, ← lexemes]

/-- Each token of a text stands in it. -/
theorem exists_stands (h : (scan origin source.toList).outcome = .ok (past ++ t :: future)) :
    ∃ before after, Stands source.toList past t before after := by
  obtain ⟨before, after, hsplit, hpast, hloc, hstops, hlast⟩ := Cut.stands (cut_of_scan [] h)
  exact ⟨before, after, hsplit, hpast, hloc, hstops, hlast⟩

/-- A place comes before another one: in an earlier line, or in the same line further left. -/
def Precedes (l l' : Location) : Prop := l.line < l'.line ∨ l.line = l'.line ∧ l.col < l'.col

/-- No place comes before itself. -/
theorem not_precedes_self (l : Location) : ¬ Precedes l l := by
  rw [Precedes]
  omega

/-- The tokens of a cut come in the order of their places, and none comes before the place where the cut
begins. -/
theorem Cut.precedes (h : Cut before cs toks) :
    (∀ t ∈ toks, ¬ Precedes t.location (placeAfter before)) ∧
      toks.Pairwise fun s t => Precedes s.location t.location := by
  induction h with
  | @eof before =>
    refine ⟨fun t ht => ?_, List.pairwise_singleton _ _⟩
    obtain rfl := List.mem_singleton.1 ht
    exact not_precedes_self _
  | @lineEnd before rest c toks hc _ ih =>
    refine ⟨fun t ht hlt => ih.1 t ht ?_, ih.2⟩
    rcases inLine_eq_false_iff.1 hc with rfl | rfl
    · rw [placeAfter_feed]
      rw [Precedes] at hlt ⊢
      dsimp only
      omega
    · rwa [placeAfter_return]
  | @token before rest w k toks hw _ ih =>
    -- A token has characters, so the next one begins further right or in a later line.
    have hpos := List.length_pos_iff.2 hw.nonempty
    have hlater : ∀ t ∈ toks, Precedes (placeAfter before) t.location := by
      intro t ht
      have hle := ih.1 t ht
      rw [hw.placeAfter_eq, Precedes] at hle
      rw [Precedes]
      dsimp only at hle
      omega
    refine ⟨List.forall_mem_cons.2 ⟨not_precedes_self _, fun t ht hlt => ?_⟩,
      List.pairwise_cons.2 ⟨hlater, ih.2⟩⟩
    have hgt := hlater t ht
    rw [Precedes] at hlt hgt
    omega

/-- Scanning loses nothing and takes every token as long as it can be. A text that is not scanned has a
diagnostic of the character that no token begins with. It is scanned exactly if it can be cut from left to
right into longest tokens and line endings, and these are its tokens. Then they make up the text apart from
the line endings; the last of them is for the end of the input and is the only one that is empty; each is
spelled as its kind is; and each stands where its line and its column say, before a character that does not
go on with it. -/
theorem scan_loses_nothing (source : String) :
    (∀ e, (scan origin source.toList).outcome = .error e →
      ∃ d, Diagnostic.ofUnreadable source e = .ok d ∧ d.cause = .lexical) ∧
    (∀ toks, (scan origin source.toList).outcome = .ok toks ↔ Cut [] source.toList toks) ∧
    ∀ toks, (scan origin source.toList).outcome = .ok toks →
      lexemes toks = source.toList.filter inLine ∧
      Ended toks ∧
      (∀ t ∈ toks, Spelled t.kind t.lexeme.toList ∧ (t.lexeme = "" ↔ t.kind = .eof)) ∧
      ∀ past t future, toks = past ++ t :: future →
        ∃ before after, Stands source.toList past t before after := by
  refine ⟨fun e he => exists_ofUnreadable he, fun toks => scan_eq_ok_iff_cut [], fun toks h => ?_⟩
  obtain ⟨hended, hspelled⟩ := tokens_of_scan h
  refine ⟨lexemes_of_scan h, hended, fun t ht => ⟨hspelled t ht, fun hnil => ?_, fun heof => ?_⟩, ?_⟩
  · have hempty := hspelled t ht
    rw [hnil] at hempty
    exact eof_of_spelled_nil hempty
  · have hempty := hspelled t ht
    rw [heof] at hempty
    exact String.toList_eq_nil_iff.1 hempty
  · rintro past t future rfl
    exact exists_stands h

/-- Between two line endings and a tab. The arrow stands in the fourth column of the second line, after a
name that is as long as it can be. -/
theorem scan_loses_nothing_arrow :
    ∃ (past future : List Token) (arrow : Token) (before after : List Char),
      arrow = ⟨.arrow, "<-", ⟨2, 4⟩⟩ ∧ lexemes past = "xK_ ".toList ∧
      (scan origin "x\r\nK_ <-\ty".toList).outcome = .ok (past ++ arrow :: future) ∧
      Cut [] "x\r\nK_ <-\ty".toList (past ++ arrow :: future) ∧
      Stands "x\r\nK_ <-\ty".toList past arrow before after := by
  let past : List Token := [⟨.var, "x", ⟨1, 1⟩⟩, ⟨.metavar, "K_", ⟨2, 1⟩⟩, ⟨.space, " ", ⟨2, 3⟩⟩]
  let arrow : Token := ⟨.arrow, "<-", ⟨2, 4⟩⟩
  let future : List Token := [⟨.space, "\t", ⟨2, 6⟩⟩, ⟨.var, "y", ⟨2, 7⟩⟩, ⟨.eof, "", ⟨2, 8⟩⟩]
  have hscan : (scan origin "x\r\nK_ <-\ty".toList).outcome = .ok (past ++ arrow :: future) := by
    decide +kernel
  obtain ⟨-, hcut, hread⟩ := scan_loses_nothing "x\r\nK_ <-\ty"
  obtain ⟨-, -, -, hstands⟩ := hread _ hscan
  obtain ⟨before, after, harrow⟩ := hstands past arrow future rfl
  exact ⟨past, future, arrow, before, after, rfl, rfl, hscan, (hcut _).1 hscan, harrow⟩

end NormalOrder.Token
