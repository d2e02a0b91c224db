import Snobol4.ParserProgress

/-!
# TokenStream — the tokens that the parser takes (`lexer.c`, `parser.c`)

The parser looks at a token before it takes it, so the tokens of a source are numbered.  A
lexer that has met no error is at one of them, and a lookahead brings it back there; one that
has met an error takes no more tokens, and the source is not accepted.
-/

namespace Snobol4

open Fueled SnobolLexer

/-- The lexer after `n` tokens, each looked at and taken. -/
def lexerAt (source : Bytes) : Nat → SnobolLexer
  | 0 => snobolLexerCreate source
  | n + 1 => (snobolLexerNext (snobolLexerPeek (lexerAt source n)).2).2

/-- A token of the source. -/
def tokenAt (source : Bytes) (n : Nat) : Token := (snobolLexerPeek (lexerAt source n)).1

/-! ## What a call leaves alone -/

/-- What is recorded of an error. -/
def SnobolLexer.report (lexer : SnobolLexer) : Bytes × Nat × Nat :=
  (lexer.errorMsg, lexer.errorLine, lexer.errorCol)

theorem skipWhitespaceFrom_report (text : Bytes) (lexer : SnobolLexer) :
    (skipWhitespaceFrom text lexer).report = lexer.report := by
  induction text generalizing lexer with
  | nil => rfl
  | cons c text ih =>
    rw [skipWhitespaceFrom]
    split
    · rw [ih]
      split <;> rfl
    · rfl

theorem scanUntil_report (close : UInt8) (token : Bytes → Token) (start : Nat) (text : Bytes)
    (lexer : SnobolLexer) : (scanUntil close token start text lexer).2.report = lexer.report := by
  induction text generalizing lexer with
  | nil => rfl
  | cons c text ih =>
    rw [scanUntil]
    split
    · rfl
    · exact ih lexer.bump

theorem scanIdentFrom_report (start : Nat) (text : Bytes) (lexer : SnobolLexer) :
    (scanIdentFrom start text lexer).2.report = lexer.report := by
  induction text generalizing lexer with
  | nil => rfl
  | cons c text ih =>
    rw [scanIdentFrom]
    split
    · exact ih lexer.bump
    · rfl

theorem scanDigits_report (text : Bytes) (lexer : SnobolLexer) (value : Int) (overflow : Bool) :
    (scanDigits text lexer value overflow).2.2.report = lexer.report := by
  induction text generalizing lexer value overflow with
  | nil => rfl
  | cons c text ih =>
    rw [scanDigits]
    split
    · exact ih lexer.bump _ _
    · rfl

theorem scanInteger_report {lexer : SnobolLexer} {negative : Bool}
    (h : (scanInteger lexer negative).2.hasError = false) :
    (scanInteger lexer negative).2.report = lexer.report := by
  have hdigits := scanDigits_report lexer.rest lexer 0 false
  unfold scanInteger at h ⊢
  rcases hscan : scanDigits lexer.rest lexer 0 false with ⟨value, _ | _, lexer'⟩ <;>
    rw [hscan] at h hdigits
  · exact hdigits
  · dsimp only at h ⊢
    split
    · exact hdigits
    · rename_i hnone
      rw [if_neg hnone] at h
      cases h

theorem scanToken_report {lexer : SnobolLexer} {c : UInt8} {next : Option UInt8}
    (h : (scanToken lexer c next).2.hasError = false) :
    (scanToken lexer c next).2.report = lexer.report := by
  unfold scanToken at h ⊢
  split
  · rfl
  · rename_i hlookup
    rw [hlookup] at h
    dsimp only at h
    split_ifs at h ⊢
    · rfl
    · exact scanUntil_report ..
    · exact scanUntil_report ..
    · exact scanIdentFrom_report ..
    · exact scanInteger_report h
    · exact scanInteger_report h
    · unfold setLexerError at h ⊢
      simp only [returning] at h ⊢
      split
      · rfl
      · rename_i hnone
        rw [if_neg hnone] at h
        cases h

/-- A call that meets no error reports none. -/
theorem snobolLexerNext_report {lexer : SnobolLexer}
    (h : (snobolLexerNext lexer).2.hasError = false) :
    (snobolLexerNext lexer).2.report = lexer.report := by
  unfold snobolLexerNext at h ⊢
  split_ifs at h ⊢
  · rfl
  · rfl
  · have hblank := skipWhitespaceFrom_report lexer.rest lexer
    dsimp only at h ⊢
    split
    · exact hblank
    · rename_i c rest hrest
      rw [hrest] at h
      dsimp only at h
      split_ifs at h ⊢
      · exact hblank
      · exact (scanToken_report h).trans hblank

/-- A call keeps the source. -/
theorem snobolLexerNext_keepsSource (lexer : SnobolLexer) :
    (snobolLexerNext lexer).2.source = lexer.source := by
  by_cases herror : lexer.hasError = true
  · rw [snobolLexerNext, if_pos herror]
  · by_cases hpeek : lexer.hasPeek = true
    · rw [snobolLexerNext, if_neg herror, if_pos hpeek]
    · rw [Bool.not_eq_true] at herror hpeek
      exact (snobolLexerNext_step herror hpeek).source

/-- Errors are sticky. -/
theorem snobolLexerNext_sticky {lexer : SnobolLexer} (h : lexer.hasError = true) :
    snobolLexerNext lexer = (.error, lexer) := if_pos h

/-! ## Looking and taking -/

/-- The lexer has looked at its next token. -/
theorem peek_again (lexer : SnobolLexer) :
    snobolLexerPeek (snobolLexerPeek lexer).2 =
      ((snobolLexerPeek lexer).1, (snobolLexerPeek lexer).2) := by
  by_cases hpeek : lexer.hasPeek = true
  · have heq : snobolLexerPeek lexer = (lexer.peekToken, lexer) := if_pos hpeek
    rw [heq, heq]
  · rw [show snobolLexerPeek lexer = (_, _) from if_neg hpeek]
    exact if_pos rfl

theorem peek_hasPeek (lexer : SnobolLexer) : (snobolLexerPeek lexer).2.hasPeek = true := by
  unfold snobolLexerPeek
  split
  · assumption
  · rfl

/-- Looking at a token that is an error records it. -/
theorem peek_error {lexer : SnobolLexer} (h : lexer.hasError = false)
    (herror : (snobolLexerPeek lexer).2.hasError = true) :
    (snobolLexerPeek lexer).2.peekToken = .error := by
  unfold snobolLexerPeek at herror ⊢
  by_cases hpeek : lexer.hasPeek = true
  · rw [if_pos hpeek, h] at herror
    cases herror
  · rw [if_neg hpeek] at herror ⊢
    rw [Bool.not_eq_true] at hpeek
    have hstep := snobolLexerNext_step h hpeek
    dsimp only at herror ⊢
    generalize (snobolLexerNext lexer).1 = tok at hstep ⊢
    generalize (snobolLexerNext lexer).2 = lexer' at hstep herror
    cases hstep with
    | real hs =>
      rw [hs.hasError, h] at herror
      cases herror
    | eof hs =>
      rw [hs.hasError, h] at herror
      cases herror
    | error => rfl

theorem peek_report {lexer : SnobolLexer} (h : (snobolLexerPeek lexer).2.hasError = false) :
    (snobolLexerPeek lexer).2.report = lexer.report := by
  unfold snobolLexerPeek at h ⊢
  split
  · rfl
  · rename_i hpeek
    rw [if_neg hpeek] at h
    exact snobolLexerNext_report h

theorem peek_keepsSource (lexer : SnobolLexer) :
    (snobolLexerPeek lexer).2.source = lexer.source := by
  unfold snobolLexerPeek
  split
  · rfl
  · exact snobolLexerNext_keepsSource lexer

/-- Taking a token that was looked at meets no error. -/
theorem take_peeked {lexer : SnobolLexer} (hpeek : lexer.hasPeek = true)
    (herror : lexer.hasError = false) :
    (snobolLexerNext lexer).2.hasError = false ∧ (snobolLexerNext lexer).2.report = lexer.report ∧
      (snobolLexerNext lexer).2.source = lexer.source := by
  rw [snobolLexerNext, herror, if_neg Bool.false_ne_true, if_pos hpeek]
  exact ⟨rfl, rfl, rfl⟩

/-- A lookahead that meets no error brings the lexer back. -/
theorem afterLookahead_eq {lexer : SnobolLexer} (hpeek : lexer.hasPeek = true)
    (herror : lexer.hasError = false) (h : lookaheadErrs lexer = false) :
    afterLookahead lexer = lexer := by
  obtain ⟨hnext, hreport, hsource⟩ := take_peeked hpeek herror
  have hreport' := (peek_report h).trans hreport
  have hsource' := (peek_keepsSource _).trans hsource
  have herror' : (snobolLexerPeek (snobolLexerNext lexer).2).2.hasError = lexer.hasError :=
    h.trans herror.symm
  unfold afterLookahead snobolLexerRestore
  generalize (snobolLexerPeek (snobolLexerNext lexer).2).2 = lexer' at *
  obtain ⟨_, _, _, _, _, _, _, _, _, _, _⟩ := lexer
  obtain ⟨_, _, _, _, _, _, _, _, _, _, _⟩ := lexer'
  simp only [SnobolLexer.report, Prod.mk.injEq] at hreport' hsource' herror'
  simp only [snobolLexerSave, hreport', hsource', herror']

/-! ## Where the parser stands -/

/-- No error is reported, and the names stand for registers. -/
structure Sane (s : Parsing) : Prop where
  unreported : s.parser.hasError = false
  names : ∀ entry ∈ s.parser.captureNames, entry.2 < maxVars

/-- The lexer has met an error, and the end of the source is not what it looks at. -/
structure Dead (s : Parsing) : Prop extends Sane s where
  error : s.lexer.hasError = true
  notEof : s.lexer.hasPeek = true → s.lexer.peekToken ≠ .eof

/-- The parser stands before a token, and the source has not ended. -/
structure Cursor (source : Bytes) (i : Nat) (s : Parsing) : Prop extends Sane s where
  error : s.lexer.hasError = false
  lexer : s.lexer = lexerAt source i ∨ s.lexer = (snobolLexerPeek (lexerAt source i)).2
  inside : ∀ k < i, tokenAt source k ≠ .eof

/-- The parser looks at the token before which it stands. -/
structure Seen (source : Bytes) (i : Nat) (tok : Token) (s : Parsing) : Prop where
  token : tokenAt source i = tok
  lexer : s.lexer = (snobolLexerPeek (lexerAt source i)).2

/-- The state after `peek`. -/
def peeked (s : Parsing) : Parsing := { s with lexer := (snobolLexerPeek s.lexer).2 }

/-- The state after `advance`. -/
def advanced (s : Parsing) : Parsing := { s with lexer := (snobolLexerNext s.lexer).2 }

section positions

variable {source : Bytes} {i : Nat} {s : Parsing} {tok : Token}

theorem Dead.peeked (h : Dead s) : Dead (peeked s) := by
  by_cases hpeek : s.lexer.hasPeek = true
  · have hlexer : snobolLexerPeek s.lexer = (s.lexer.peekToken, s.lexer) := if_pos hpeek
    rw [Snobol4.peeked, hlexer]
    exact h
  · have hlexer : snobolLexerPeek s.lexer =
        (.error, { s.lexer with peekToken := .error, hasPeek := true }) := by
      rw [snobolLexerPeek, if_neg hpeek, snobolLexerNext_sticky h.error]
    rw [Snobol4.peeked, hlexer]
    exact ⟨⟨h.unreported, h.names⟩, h.error, fun _ heof => by cases heof⟩

theorem Dead.advanced (h : Dead s) : Dead (advanced s) := by
  rw [Snobol4.advanced, snobolLexerNext_sticky h.error]
  exact h

/-- The token that a dead lexer looks at is not the end of the source. -/
theorem Dead.token_ne (h : Dead s) : (snobolLexerPeek s.lexer).1 ≠ .eof := by
  by_cases hpeek : s.lexer.hasPeek = true
  · have hlexer : snobolLexerPeek s.lexer = (s.lexer.peekToken, s.lexer) := if_pos hpeek
    rw [hlexer]
    exact h.notEof hpeek
  · rw [snobolLexerPeek, if_neg hpeek, snobolLexerNext_sticky h.error]
    exact fun heof => by cases heof

theorem Dead.ahead (h : Dead s) : Dead (ahead s) :=
  ⟨⟨h.unreported, h.names⟩, h.advanced.peeked.error, h.advanced.peeked.notEof⟩

theorem Dead.lookedAhead (h : Dead s) : Dead (lookedAhead s) :=
  ⟨⟨h.unreported, h.names⟩, h.advanced.peeked.error, h.notEof⟩

theorem Cursor.peek_eq (h : Cursor source i s) :
    snobolLexerPeek s.lexer = (tokenAt source i, (snobolLexerPeek (lexerAt source i)).2) := by
  rcases h.lexer with hlexer | hlexer
  · rw [hlexer]
    rfl
  · rw [hlexer]
    exact peek_again _

/-- Looking at a token meets an error, or the token is seen. -/
theorem Cursor.peeked (h : Cursor source i s) :
    Dead (peeked s) ∨ Cursor source i (peeked s) ∧ Seen source i (tokenAt source i) (peeked s) := by
  have hlexer : (Snobol4.peeked s).lexer = (snobolLexerPeek (lexerAt source i)).2 :=
    congrArg Prod.snd h.peek_eq
  have hsane : Sane (Snobol4.peeked s) := ⟨h.unreported, h.names⟩
  cases herror : (Snobol4.peeked s).lexer.hasError with
  | true =>
    refine .inl ⟨hsane, herror, fun _ heof => ?_⟩
    have htoken : (Snobol4.peeked s).lexer.peekToken = .error := peek_error h.error herror
    rw [htoken] at heof
    cases heof
  | false => exact .inr ⟨⟨hsane, herror, .inr hlexer, h.inside⟩, rfl, hlexer⟩

/-- Taking the token that is seen. -/
theorem Cursor.advanced (h : Cursor source i s) (hseen : Seen source i tok s)
    (htok : tok ≠ .eof) : Cursor source (i + 1) (advanced s) := by
  have hpeek : s.lexer.hasPeek = true := by
    rw [hseen.lexer]
    exact peek_hasPeek _
  refine ⟨⟨h.unreported, h.names⟩, (take_peeked hpeek h.error).1, .inl ?_, fun k hk => ?_⟩
  · rw [Snobol4.advanced, hseen.lexer]
    rfl
  · rcases Nat.lt_succ_iff_lt_or_eq.mp hk with hk | rfl
    · exact h.inside k hk
    · rw [hseen.token]
      exact htok

/-- A lookahead meets an error, or it sees the next token and comes back. -/
theorem Cursor.lookahead (h : Cursor source i s) (hseen : Seen source i tok s)
    (htok : tok ≠ .eof) :
    (Dead (ahead s) ∧ Dead (lookedAhead s)) ∨
      (Cursor source (i + 1) (ahead s) ∧ Seen source (i + 1) (aheadToken s) (ahead s)) ∧
        Cursor source i (lookedAhead s) ∧ Seen source i tok (lookedAhead s) := by
  have hpeek : s.lexer.hasPeek = true := by
    rw [hseen.lexer]
    exact peek_hasPeek _
  have htaken := h.advanced hseen htok
  have htoken : s.lexer.peekToken = tok := by
    have hagain := peek_again (lexerAt source i)
    rw [← hseen.lexer, show snobolLexerPeek s.lexer = (_, _) from if_pos hpeek] at hagain
    exact (congrArg Prod.fst hagain).trans hseen.token
  rcases htaken.peeked with hdead | ⟨hcursor, hnext⟩
  · -- the error stays recorded when the older token is put back
    refine .inl ⟨⟨⟨h.unreported, h.names⟩, hdead.error, hdead.notEof⟩, ?_⟩
    refine ⟨⟨h.unreported, h.names⟩, hdead.error, fun _ heof => htok ?_⟩
    exact htoken.symm.trans heof
  · have hback : afterLookahead s.lexer = s.lexer := afterLookahead_eq hpeek h.error hcursor.error
    have haheadToken : aheadToken s = tokenAt source (i + 1) := congrArg Prod.fst htaken.peek_eq
    refine .inr ⟨⟨⟨⟨h.unreported, h.names⟩, hcursor.error, hcursor.lexer, hcursor.inside⟩, ?_⟩, ?_⟩
    · exact ⟨haheadToken.symm, hnext.lexer⟩
    · rw [lookedAhead, hback]
      exact ⟨⟨⟨h.unreported, h.names⟩, h.error, h.lexer, h.inside⟩, hseen.token, hseen.lexer⟩

end positions

end Snobol4
