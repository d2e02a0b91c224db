import Snobol4.Lexer
import Mathlib.Order.Nat

/-!
# LexerProgress — what a token costs and what an error leaves behind

`remaining` counts the bytes not scanned yet plus a token waiting in the lookahead
buffer.  Peeking does not raise it and consuming a token lowers it, as long as
the lexer has met no error.  A lookahead that meets one leaves the lexer *stale*:
the error is recorded, but `restore` brought the old token back into the buffer.
-/

namespace Snobol4

/-- A token that stands for a piece of the source. -/
def Token.isReal : Token → Bool
  | .eof | .error => false
  | _ => true

namespace SnobolLexer

/-! ## Scanning moves forward -/

/-- `lexer'` is `lexer` after a scan that met no error: only the cursor, the line
count and the context moved on. -/
structure Scanned (lexer lexer' : SnobolLexer) : Prop where
  source : lexer'.source = lexer.source
  hasPeek : lexer'.hasPeek = lexer.hasPeek
  hasError : lexer'.hasError = lexer.hasError
  pos : lexer.pos ≤ lexer'.pos

theorem Scanned.refl (lexer : SnobolLexer) : Scanned lexer lexer := ⟨rfl, rfl, rfl, le_rfl⟩

theorem Scanned.trans {a b c : SnobolLexer} (h : Scanned a b) (h' : Scanned b c) : Scanned a c :=
  ⟨h'.source.trans h.source, h'.hasPeek.trans h.hasPeek, h'.hasError.trans h.hasError,
    h.pos.trans h'.pos⟩

theorem Scanned.bump (lexer : SnobolLexer) : Scanned lexer lexer.bump :=
  ⟨rfl, rfl, rfl, Nat.le_succ _⟩

end SnobolLexer

open SnobolLexer

theorem skipWhitespaceFrom_scanned (text : Bytes) (lexer : SnobolLexer) :
    Scanned lexer (skipWhitespaceFrom text lexer) := by
  induction text generalizing lexer with
  | nil => exact .refl lexer
  | cons c rest ih =>
      rw [skipWhitespaceFrom]
      split
      · refine Scanned.trans ?_ (ih _)
        split
        · exact ⟨rfl, rfl, rfl, Nat.le_succ _⟩
        · exact .bump lexer
      · exact .refl lexer

theorem scanUntil_scanned (close : UInt8) (token : Bytes → Token) (start : Nat) (text : Bytes)
    (lexer : SnobolLexer) :
    Scanned lexer (scanUntil close token start text lexer).2 ∧
      ∃ content, (scanUntil close token start text lexer).1 = token content := by
  induction text generalizing lexer with
  | nil => exact ⟨.refl lexer, _, rfl⟩
  | cons c rest ih =>
      rw [scanUntil]
      split
      · exact ⟨⟨rfl, rfl, rfl, Nat.le_succ _⟩, _, rfl⟩
      · obtain ⟨h, hc⟩ := ih lexer.bump
        exact ⟨(Scanned.bump lexer).trans h, hc⟩

theorem scanIdentFrom_scanned (start : Nat) (text : Bytes) (lexer : SnobolLexer) :
    Scanned lexer (scanIdentFrom start text lexer).2 ∧
      ∃ name, (scanIdentFrom start text lexer).1 = .ident name := by
  induction text generalizing lexer with
  | nil => exact ⟨.refl lexer, _, rfl⟩
  | cons c rest ih =>
      rw [scanIdentFrom]
      split
      · obtain ⟨h, hc⟩ := ih lexer.bump
        exact ⟨(Scanned.bump lexer).trans h, hc⟩
      · exact ⟨.refl lexer, _, rfl⟩

theorem scanDigits_scanned (text : Bytes) (lexer : SnobolLexer) (value : Int) (overflow : Bool) :
    Scanned lexer (scanDigits text lexer value overflow).2.2 := by
  induction text generalizing lexer value overflow with
  | nil => exact .refl lexer
  | cons c rest ih =>
      rw [scanDigits]
      split
      · exact (Scanned.bump lexer).trans (ih _ _ _)
      · exact .refl lexer

/-- A scan that starts on a character consumes it. -/
theorem scanIdentFrom_cons (start : Nat) (c : UInt8) (rest : Bytes) (lexer : SnobolLexer)
    (hc : isIdentStart c = true) :
    lexer.pos < (scanIdentFrom start (c :: rest) lexer).2.pos := by
  have hcont : isIdentContinue c = true := by simp [isIdentContinue, hc]
  rw [scanIdentFrom, if_pos hcont]
  exact Nat.lt_of_lt_of_le (Nat.lt_succ_self _) (scanIdentFrom_scanned start rest lexer.bump).1.pos

theorem scanDigits_cons (c : UInt8) (rest : Bytes) (lexer : SnobolLexer) (hc : isDigit c = true) :
    lexer.pos < (scanDigits (c :: rest) lexer 0 false).2.2.pos := by
  rw [scanDigits, if_pos hc]
  exact Nat.lt_of_lt_of_le (Nat.lt_succ_self _) (scanDigits_scanned rest lexer.bump _ _).pos

/-- What a scan of one token does to a lexer without an error: it moves forward
over a real token, or it stays at the end of the input, or it records an error
and says so. -/
inductive Step (lexer : SnobolLexer) : Token → SnobolLexer → Prop where
  | real {tok lexer'} : Scanned lexer lexer' → lexer.pos < lexer'.pos → lexer.rest ≠ [] →
      tok.isReal = true → Step lexer tok lexer'
  | eof {lexer'} : Scanned lexer lexer' → Step lexer .eof lexer'
  | error {lexer'} : lexer'.source = lexer.source → lexer'.hasPeek = lexer.hasPeek →
      lexer'.hasError = true → lexer.pos ≤ lexer'.pos → Step lexer .error lexer'

theorem Step.source {lexer lexer' : SnobolLexer} {tok : Token} (h : Step lexer tok lexer') :
    lexer'.source = lexer.source := by
  cases h with
  | real hs => exact hs.source
  | eof hs => exact hs.source
  | error hsrc => exact hsrc

theorem Step.after {start lexer lexer' : SnobolLexer} {tok : Token} (h : Step lexer tok lexer')
    (hs : Scanned start lexer) (hstart : start.rest ≠ []) : Step start tok lexer' := by
  cases h with
  | real hs' hpos _ htok => exact .real (hs.trans hs') (Nat.lt_of_le_of_lt hs.pos hpos) hstart htok
  | eof hs' => exact .eof (hs.trans hs')
  | error hsrc hpeek herr hpos =>
      exact .error (hsrc.trans hs.source) (hpeek.trans hs.hasPeek) herr (hs.pos.trans hpos)

theorem Step.returning {lexer lexer' : SnobolLexer} {tok : Token} (h : Step lexer tok lexer') :
    Step lexer (returning (tok, lexer')).1 (returning (tok, lexer')).2 := by
  cases h with
  | real hs hpos hrest htok => exact .real ⟨hs.source, hs.hasPeek, hs.hasError, hs.pos⟩ hpos hrest htok
  | eof hs => exact .eof ⟨hs.source, hs.hasPeek, hs.hasError, hs.pos⟩
  | error hsrc hpeek herr hpos => exact .error hsrc hpeek herr hpos

theorem singleCharTokens_isReal {c : UInt8} {tok : Token}
    (h : singleCharTokens.lookup c = some tok) : tok.isReal = true := by
  have hall : ∀ entry ∈ singleCharTokens, entry.2.isReal = true := by decide
  obtain ⟨before, after, hsplit, -⟩ := List.lookup_eq_some_iff.1 h
  exact hall (c, tok) (by simp [hsplit])

theorem rest_ne_nil_of_eq {lexer : SnobolLexer} {c : UInt8} {rest : Bytes}
    (h : lexer.rest = c :: rest) : lexer.rest ≠ [] := by
  rw [h]
  exact List.cons_ne_nil c rest

theorem rest_bump {lexer : SnobolLexer} {c : UInt8} {rest : Bytes} (h : lexer.rest = c :: rest) :
    lexer.bump.rest = rest := by
  have hd : lexer.source.drop (lexer.pos + 1) = (lexer.source.drop lexer.pos).tail := by
    rw [List.tail_drop]
  have hr : lexer.source.drop lexer.pos = c :: rest := h
  simpa [SnobolLexer.rest, SnobolLexer.bump, hr] using hd

/-- The integer scanner, started on a digit. -/
theorem scanInteger_step {start lexer : SnobolLexer} {c : UInt8} {rest : Bytes} (negative : Bool)
    (hs : Scanned start lexer) (hstart : start.rest ≠ []) (herr : lexer.hasError = false)
    (hrest : lexer.rest = c :: rest) (hc : isDigit c = true) :
    Step start (scanInteger lexer negative).1 (scanInteger lexer negative).2 := by
  have hscan := scanDigits_scanned lexer.rest lexer 0 false
  have hpos := scanDigits_cons c rest lexer hc
  rw [← hrest] at hpos
  unfold scanInteger
  rcases hd : scanDigits lexer.rest lexer 0 false with ⟨value, _ | _, lexer'⟩ <;>
    rw [hd] at hscan hpos
  · exact .real (hs.trans hscan) (Nat.lt_of_le_of_lt hs.pos hpos) hstart rfl
  · have herr' : lexer'.hasError = false := hscan.hasError.trans herr
    simp only [herr']
    exact .error (hscan.source.trans hs.source) (hscan.hasPeek.trans hs.hasPeek) rfl
      (hs.pos.trans hscan.pos)

theorem scanToken_step {lexer : SnobolLexer} {c : UInt8} {rest : Bytes}
    (herr : lexer.hasError = false) (hrest : lexer.rest = c :: rest) :
    Step lexer (scanToken lexer c rest.head?).1 (scanToken lexer c rest.head?).2 := by
  have hne := rest_ne_nil_of_eq hrest
  have hlt : lexer.pos < lexer.bump.pos := Nat.lt_succ_self _
  have hopen : ∀ (close : UInt8) (token : Bytes → Token), (∀ text, (token text).isReal = true) →
      Step lexer (scanUntil close token lexer.bump.pos lexer.bump.rest lexer.bump).1
        (scanUntil close token lexer.bump.pos lexer.bump.rest lexer.bump).2 := by
    intro close token hreal
    obtain ⟨hs, text, htok⟩ :=
      scanUntil_scanned close token lexer.bump.pos lexer.bump.rest lexer.bump
    exact .real ((Scanned.bump lexer).trans hs) (Nat.lt_of_lt_of_le hlt hs.pos) hne
      (by rw [htok]; exact hreal text)
  unfold scanToken
  split
  · rename_i tok htok
    exact Step.returning (.real (.bump lexer) hlt hne (singleCharTokens_isReal htok))
  · split_ifs with hbracket hkey hquote hident hdigit hminus
    · exact Step.returning (.real (.bump lexer) hlt hne rfl)
    · exact Step.returning (hopen _ _ fun _ => rfl)
    · exact Step.returning (hopen _ _ fun _ => rfl)
    · obtain ⟨hs, name, htok⟩ := scanIdentFrom_scanned lexer.pos lexer.rest lexer
      have hpos := scanIdentFrom_cons lexer.pos c rest lexer hident
      rw [← hrest] at hpos
      exact Step.returning (.real hs hpos hne (by rw [htok]; rfl))
    · exact Step.returning (scanInteger_step false (.refl lexer) hne herr hrest hdigit)
    · obtain ⟨d, tail, rfl⟩ : ∃ d tail, rest = d :: tail := by
        cases rest with
        | nil => simp at hminus
        | cons d tail => exact ⟨d, tail, rfl⟩
      exact Step.returning (scanInteger_step true (.bump lexer) hne herr (rest_bump hrest)
        (by simpa using hminus.2))
    · refine Step.returning (.error ?_ ?_ ?_ ?_) <;> simp [setLexerError, herr]

/-- One fresh token: the lexer without an error or a buffered token. -/
theorem snobolLexerNext_step {lexer : SnobolLexer} (herr : lexer.hasError = false)
    (hpeek : lexer.hasPeek = false) :
    Step lexer (snobolLexerNext lexer).1 (snobolLexerNext lexer).2 := by
  have hws : Scanned lexer (skipWhitespace lexer) := skipWhitespaceFrom_scanned lexer.rest lexer
  have hrest : (skipWhitespace lexer).rest ≠ [] → lexer.rest ≠ [] := by
    intro h hnil
    have hlen : lexer.source.length ≤ lexer.pos := by
      simpa [SnobolLexer.rest, List.drop_eq_nil_iff] using hnil
    exact h (by simpa [SnobolLexer.rest, List.drop_eq_nil_iff, hws.source] using hlen.trans hws.pos)
  simp only [snobolLexerNext, herr, hpeek, Bool.false_eq_true, if_false]
  split
  · exact .eof hws
  · rename_i c rest hcons
    split
    · exact .eof hws
    · have hne := rest_ne_nil_of_eq hcons
      exact (scanToken_step (hws.hasError.trans herr) hcons).after hws (hrest hne)

/-! ## The cost of a token -/

namespace SnobolLexer

/-- The bytes left, plus one for a real token in the lookahead buffer. -/
def remaining (lexer : SnobolLexer) : Nat :=
  (lexer.source.length - lexer.pos) +
    if lexer.hasPeek = true ∧ lexer.peekToken.isReal = true then 1 else 0

/-- The buffer and the error flag agree: an error has been peeked at, and a peeked
error is recorded. -/
structure Sound (lexer : SnobolLexer) : Prop where
  peeked : lexer.hasError = true → lexer.hasPeek = true ∧ lexer.peekToken = .error
  recorded : lexer.hasPeek = true → lexer.peekToken = .error → lexer.hasError = true

/-- The lookahead buffer of the lexer holds `tok`. -/
structure Holds (tok : Token) (lexer : SnobolLexer) : Prop where
  hasPeek : lexer.hasPeek = true
  peekToken : lexer.peekToken = tok

/-- The error is recorded, but the buffer holds an older token. -/
structure Stale (tok : Token) (lexer : SnobolLexer) : Prop extends Holds tok lexer where
  hasError : lexer.hasError = true
  isReal : tok.isReal = true

theorem rest_ne_nil {lexer : SnobolLexer} : lexer.rest ≠ [] ↔ lexer.pos < lexer.source.length := by
  simp [rest, List.drop_eq_nil_iff]

theorem Sound.hasError_of_holds {lexer : SnobolLexer} {tok : Token} (h : Sound lexer)
    (ht : Holds tok lexer) (hreal : tok.isReal = true) : lexer.hasError = false := by
  by_contra herr
  have hpeek := (h.peeked (by simpa using herr)).2
  rw [ht.peekToken] at hpeek
  rw [hpeek] at hreal
  exact absurd hreal (by decide)

theorem Sound.create (source : Bytes) : Sound (snobolLexerCreate source) :=
  ⟨fun h => absurd h (by simp [snobolLexerCreate]), fun h => absurd h (by simp [snobolLexerCreate])⟩

end SnobolLexer

/-- Peeking fills the buffer and does not raise what remains. -/
theorem snobolLexerPeek_sound {lexer : SnobolLexer} (h : Sound lexer) :
    Sound (snobolLexerPeek lexer).2 ∧ Holds (snobolLexerPeek lexer).1 (snobolLexerPeek lexer).2 ∧
      (snobolLexerPeek lexer).2.remaining ≤ lexer.remaining := by
  unfold snobolLexerPeek
  by_cases hp : lexer.hasPeek = true
  · rw [if_pos hp]
    exact ⟨h, ⟨hp, rfl⟩, le_rfl⟩
  · rw [if_neg hp]
    have hp' : lexer.hasPeek = false := by simpa using hp
    have herr : lexer.hasError = false := by
      by_contra herr
      exact hp (h.peeked (by simpa using herr)).1
    have hstep := snobolLexerNext_step herr hp'
    generalize snobolLexerNext lexer = scanned at hstep
    obtain ⟨tok, lexer'⟩ := scanned
    have hold : lexer.remaining = lexer.source.length - lexer.pos := by simp [remaining, hp']
    cases hstep with
    | real hs hpos hrest htok =>
        have hlt := rest_ne_nil.1 hrest
        refine ⟨⟨fun he => ?_, fun _ ht => ?_⟩, ⟨rfl, rfl⟩, ?_⟩
        · simp only at he hs
          rw [hs.hasError, herr] at he
          cases he
        · simp only at ht htok
          rw [ht] at htok
          exact absurd htok (by decide)
        · simp only at htok hpos hs
          rw [hold]
          simp only [remaining, htok, hs.source]
          split <;> omega
    | eof hs =>
        have hpos := hs.pos
        refine ⟨⟨fun he => ?_, fun _ ht => ?_⟩, ⟨rfl, rfl⟩, ?_⟩
        · simp only at he hs
          rw [hs.hasError, herr] at he
          cases he
        · cases ht
        · simp only at hs hpos
          rw [hold]
          simp only [remaining, Token.isReal, hs.source]
          simp only [Bool.false_eq_true, and_false, if_false]
          omega
    | error hsrc hpeek he hpos =>
        refine ⟨⟨fun _ => ⟨rfl, rfl⟩, fun _ _ => he⟩, ⟨rfl, rfl⟩, ?_⟩
        simp only at hsrc hpos
        rw [hold]
        simp only [remaining, Token.isReal, hsrc]
        simp only [Bool.false_eq_true, and_false, if_false]
        omega

/-- Consuming a buffered token lowers what remains by one. -/
theorem snobolLexerNext_sound {lexer : SnobolLexer} {tok : Token} (h : Sound lexer)
    (ht : Holds tok lexer) (hreal : tok.isReal = true) :
    Sound (snobolLexerNext lexer).2 ∧
      (snobolLexerNext lexer).2.remaining + 1 = lexer.remaining := by
  have herr := h.hasError_of_holds ht hreal
  simp only [snobolLexerNext, herr, ht.hasPeek, Bool.false_eq_true, if_false, if_true]
  refine ⟨⟨fun he => ?_, fun hp => ?_⟩, ?_⟩
  · cases he
  · cases hp
  · simp [remaining, ht.hasPeek, ht.peekToken, hreal]

/-! ## Lookahead -/

/-- The lexer after a lookahead: `save`, `advance`, `peek`, `restore`. -/
def afterLookahead (lexer : SnobolLexer) : SnobolLexer :=
  snobolLexerRestore (snobolLexerPeek (snobolLexerNext lexer).2).2 (snobolLexerSave lexer)

/-- The token after the buffered one is a lexical error. -/
def lookaheadErrs (lexer : SnobolLexer) : Bool :=
  (snobolLexerPeek (snobolLexerNext lexer).2).2.hasError

theorem snobolLexerPeek_source {lexer : SnobolLexer} (h : Sound lexer) :
    (snobolLexerPeek lexer).2.source = lexer.source := by
  unfold snobolLexerPeek
  by_cases hp : lexer.hasPeek = true
  · rw [if_pos hp]
  · rw [if_neg hp]
    have herr : lexer.hasError = false := by
      by_contra herr
      exact hp (h.peeked (by simpa using herr)).1
    exact (snobolLexerNext_step herr (by simpa using hp)).source

theorem snobolLexerNext_source {lexer : SnobolLexer} {tok : Token} (h : Sound lexer)
    (ht : Holds tok lexer) (hreal : tok.isReal = true) :
    (snobolLexerNext lexer).2.source = lexer.source := by
  simp [snobolLexerNext, h.hasError_of_holds ht hreal, ht.hasPeek]

/-- A lookahead at a token whose successor scans brings the lexer back. -/
theorem afterLookahead_sound {lexer : SnobolLexer} {tok : Token} (h : Sound lexer)
    (ht : Holds tok lexer) (hreal : tok.isReal = true) (herrs : lookaheadErrs lexer = false) :
    Sound (afterLookahead lexer) ∧ Holds tok (afterLookahead lexer) ∧
      (afterLookahead lexer).remaining = lexer.remaining := by
  have hnext := snobolLexerNext_sound h ht hreal
  have hsource : (afterLookahead lexer).source = lexer.source :=
    (snobolLexerPeek_source hnext.1).trans (snobolLexerNext_source h ht hreal)
  have herror : (afterLookahead lexer).hasError = false := herrs
  refine ⟨⟨fun he => ?_, fun _ hpeek => ?_⟩, ⟨ht.hasPeek, ht.peekToken⟩, ?_⟩
  · rw [herror] at he
    cases he
  · have htok : tok = .error := ht.peekToken.symm.trans hpeek
    rw [htok] at hreal
    exact absurd hreal (by decide)
  · simp only [remaining, hsource]
    rfl

/-- A lookahead at a token whose successor does not scan leaves the lexer stale. -/
theorem afterLookahead_stale {lexer : SnobolLexer} {tok : Token} (ht : Holds tok lexer)
    (hreal : tok.isReal = true) (herrs : lookaheadErrs lexer = true) :
    Stale tok (afterLookahead lexer) :=
  ⟨⟨ht.hasPeek, ht.peekToken⟩, herrs, hreal⟩

namespace SnobolLexer.Stale

variable {lexer : SnobolLexer} {tok : Token} (h : Stale tok lexer)

include h

/-- A stale lexer consumes nothing. -/
theorem next : snobolLexerNext lexer = (.error, lexer) := by
  simp [snobolLexerNext, h.hasError]

/-- A stale lexer replays its token. -/
theorem peek : snobolLexerPeek lexer = (tok, lexer) := by
  simp [snobolLexerPeek, h.hasPeek, h.peekToken]

end SnobolLexer.Stale

end Snobol4
