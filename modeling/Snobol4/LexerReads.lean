import Snobol4.LexerPosition

/-!
# LexerReads — every source whose first error is an unrecognised byte (`lexer.c`)

Where calls for tokens come to an unrecognised byte, the source is pieces up to that byte.
-/

namespace Snobol4

open SnobolLexer

/-! ## The scanners, backwards -/

/-- A text without its closing delimiter is read to the end. -/
theorem scanUntil_unclosed {close : UInt8} {text : Bytes} (hclose : close ∉ text)
    (token : Bytes → Token) (start : Nat) {lexer : SnobolLexer} (hrest : lexer.rest = text) :
    (scanUntil close token start text lexer).2.rest = [] := by
  induction text generalizing lexer with
  | nil => exact hrest
  | cons c text ih =>
    rw [List.mem_cons, not_or] at hclose
    rw [scanUntil, if_neg (Ne.symm hclose.1)]
    exact ih hclose.2 (rest_bump hrest)

/-- Overflow is sticky. -/
theorem scanDigits_overflow (text : Bytes) (lexer : SnobolLexer) (value : Int) :
    (scanDigits text lexer value true).2.1 = true := by
  induction text generalizing lexer value with
  | nil => rfl
  | cons c text ih =>
    rw [scanDigits]
    split
    · simp only [Bool.true_or]
      exact ih _ _
    · rfl

/-- A number that is read without overflow fits. -/
theorem scanDigits_fits {digits rest : Bytes} (hdigits : ∀ b ∈ digits, isDigit b = true)
    {value : Int} (hvalue : value ≤ int64Max) {lexer : SnobolLexer}
    (h : (scanDigits (digits ++ rest) lexer value false).2.1 = false) :
    decimalFrom value digits ≤ int64Max := by
  induction digits generalizing value lexer with
  | nil => exact hvalue
  | cons c digits ih =>
    rw [List.forall_mem_cons] at hdigits
    have hd := digit_nonneg hdigits.1
    rw [List.cons_append, scanDigits, if_pos hdigits.1] at h
    simp only [Bool.false_or] at h
    by_cases hbig : value > (int64Max - ((c.toNat : Int) - (ch '0').toNat)) / 10
    · rw [decide_eq_true hbig, scanDigits_overflow] at h
      cases h
    · rw [decide_eq_false hbig] at h
      rw [decimalFrom, List.foldl_cons, ← decimalFrom]
      exact ih hdigits.2 (by omega) h

theorem scanInteger_fits {digits rest : Bytes} (hdigits : ∀ b ∈ digits, isDigit b = true)
    {lexer : SnobolLexer} (hlexer : lexer.rest = digits ++ rest) {negative : Bool}
    (h : (scanInteger lexer negative).2.hasError = false) : decimalFrom 0 digits ≤ int64Max := by
  have hscan : (scanDigits (digits ++ rest) lexer 0 false).2.1 = false := by
    rw [scanInteger, hlexer] at h
    rcases hdigitsScan : scanDigits (digits ++ rest) lexer 0 false with ⟨value, _ | _, lexer'⟩
    · rfl
    · -- an overflow is an error
      rw [hdigitsScan] at h
      dsimp only at h
      split at h
      · rename_i herror
        rw [herror] at h
        cases h
      · cases h
  exact scanDigits_fits hdigits (by decide) hscan

/-! ## A call, backwards -/

/-- Some pieces, and then an unrecognised byte. -/
def ReadsOn (prev : TokenType) (text : Bytes) : Prop := ∃ pieces, Reads prev text pieces

theorem not_readsOn_nil (prev : TokenType) : ¬ ReadsOn prev [] := by
  rintro ⟨pieces, h⟩
  cases h

theorem skipWhitespace_readsOn {lexer : SnobolLexer}
    (h : ReadsOn (skipWhitespace lexer).prevType (skipWhitespace lexer).rest) :
    ReadsOn lexer.prevType lexer.rest := by
  unfold skipWhitespace at h
  generalize hrest : lexer.rest = text at h
  induction text generalizing lexer with
  | nil =>
    rw [skipWhitespaceFrom, hrest] at h
    exact h
  | cons c text ih =>
    by_cases hc : IsBlank c
    · rw [show skipWhitespaceFrom (c :: text) lexer = skipWhitespaceFrom text (passBlank lexer c)
        from if_pos hc] at h
      obtain ⟨pieces, hreads⟩ := ih (rest_passBlank hrest) h
      have hprev : (passBlank lexer c).prevType = lexer.prevType := by
        unfold passBlank
        split <;> rfl
      rw [hprev] at hreads
      exact ⟨_, .blank hc hreads⟩
    · rw [show skipWhitespaceFrom (c :: text) lexer = lexer from if_neg hc, hrest] at h
      exact h

/-- A quoted text is closed, or nothing is left. -/
theorem scanUntil_readsOn {lexer : SnobolLexer} {start close : UInt8} {text : Bytes}
    (hrest : lexer.rest = start :: text) {token : Bytes → Token} {type : TokenType}
    (htype : ∀ body, (token body).type = type)
    (h : ReadsOn (scanUntil close token lexer.bump.pos lexer.bump.rest lexer.bump).1.type
      (scanUntil close token lexer.bump.pos lexer.bump.rest lexer.bump).2.rest) :
    ∃ body rest, text = body ++ close :: rest ∧ close ∉ body ∧ ReadsOn type rest := by
  obtain ⟨-, content, htoken⟩ :=
    scanUntil_scanned close token lexer.bump.pos lexer.bump.rest lexer.bump
  rw [htoken, htype, rest_bump hrest] at h
  by_cases hclose : close ∈ text
  · obtain ⟨body, rest, rfl, hbody⟩ := List.eq_append_cons_of_mem hclose
    obtain ⟨content, hscan⟩ := scanUntil_opened hbody token rest lexer
    have hmove : (lexer.move (body.length + 2) (2 * body.length + 3)).rest = rest :=
      drop_of_rest_quoted hrest
    rw [hscan, hmove] at h
    exact ⟨body, rest, rfl, hbody, h⟩
  · rw [scanUntil_unclosed hclose token _ (rest_bump hrest)] at h
    exact absurd h (not_readsOn_nil _)

/-- The longest front of a text. -/
theorem exists_front (p : UInt8 → Bool) (text : Bytes) :
    ∃ front rest, text = front ++ rest ∧ (∀ b ∈ front, p b = true) ∧
      ∀ b ∈ rest.head?, p b = false := by
  refine ⟨text.takeWhile p, text.dropWhile p, List.takeWhile_append_dropWhile.symm, ?_, ?_⟩
  · exact List.all_eq_true.mp List.all_takeWhile
  · intro b hb
    have hnot := List.head?_dropWhile_not p text
    rw [Option.mem_def.mp hb] at hnot
    simpa using hnot

theorem scanToken_readsOn {lexer : SnobolLexer} {c : UInt8} {rest : Bytes}
    (hrest : lexer.rest = c :: rest)
    (herror : (scanToken lexer c rest.head?).2.hasError = false)
    (h : ReadsOn (scanToken lexer c rest.head?).2.prevType (scanToken lexer c rest.head?).2.rest) :
    ReadsOn lexer.prevType (c :: rest) := by
  unfold scanToken at herror h
  -- in the order of the tests of the switch
  cases hlookup : singleCharTokens.lookup c with
  | some tok =>
    rw [hlookup] at h
    obtain ⟨pieces, hreads⟩ := h
    have hreads' : Reads tok.type rest pieces := by rwa [← rest_bump hrest]
    exact ⟨_, .single hlookup hreads'⟩
  | none =>
    rw [hlookup] at h herror
    dsimp only at h herror
    split_ifs at h herror with hbracket hkey hquote hident hdigit hminus
    · -- a table key
      subst hbracket
      obtain ⟨pieces, hreads⟩ := h
      have hreads' : Reads .lbracket rest pieces := by rwa [← rest_bump hrest]
      rw [hkey.1]
      refine ⟨_, .key ?_ hreads'⟩
      rw [← bracketIsTableKey_eq hrest]
      exact hkey.2
    · -- a character class
      subst hbracket
      have hreads' : ReadsOn (scanCharclass lexer.bump).1.type
        (scanCharclass lexer.bump).2.rest := h
      have htype : ∀ body, (Token.charclass body).type = .charclass := fun _ => rfl
      rw [scanCharclass] at hreads'
      obtain ⟨body, rest, rfl, hbody, pieces, hreads⟩ := scanUntil_readsOn hrest htype hreads'
      refine ⟨_, .charclass (fun hident => ?_) hbody hreads⟩
      rw [← bracketIsTableKey_eq hrest]
      exact Bool.eq_false_iff.mpr fun htrue => hkey ⟨hident, htrue⟩
    · -- a literal
      subst hquote
      have hreads' : ReadsOn (scanLiteral lexer.bump).1.type (scanLiteral lexer.bump).2.rest := h
      have htype : ∀ body, (Token.lit body).type = .lit := fun _ => rfl
      rw [scanLiteral] at hreads'
      obtain ⟨body, rest, rfl, hbody, pieces, hreads⟩ := scanUntil_readsOn hrest htype hreads'
      exact ⟨_, .literal hbody hreads⟩
    · -- an identifier
      obtain ⟨body, rest, rfl, hbody, hstop⟩ := exists_front isIdentContinue rest
      have hall : ∀ b ∈ c :: body, isIdentContinue b = true := by
        rw [List.forall_mem_cons, isIdentContinue, hident, Bool.true_or]
        exact ⟨rfl, hbody⟩
      obtain ⟨name, hscan⟩ := scanIdentFrom_eq hall hstop lexer.pos lexer
      rw [scanIdent, hrest, ← List.cons_append, hscan] at h
      obtain ⟨pieces, hreads⟩ := h
      have hmove := drop_of_rest_cons hrest
      have hreads' : Reads .ident rest pieces := by rwa [← hmove]
      exact ⟨_, .ident hident hbody hstop hreads'⟩
    · -- a number
      obtain ⟨digits, rest, rfl, hdigits, hstop⟩ := exists_front isDigit rest
      have hall : ∀ b ∈ c :: digits, isDigit b = true :=
        List.forall_mem_cons.mpr ⟨hdigit, hdigits⟩
      have hfits := scanInteger_fits hall hrest herror
      obtain ⟨value, hscan⟩ := scanInteger_eq hall hstop hfits hrest false
      rw [hscan] at h
      obtain ⟨pieces, hreads⟩ := h
      have hmove := drop_of_rest_cons hrest
      have hreads' : Reads .integer rest pieces := by rwa [← hmove]
      exact ⟨_, .integer hdigit hdigits hstop hfits hreads'⟩
    · -- a number with a sign
      obtain ⟨rfl, hnext⟩ := hminus
      cases rest with
      | nil => cases hnext
      | cons d rest =>
        obtain ⟨digits, rest, rfl, hdigits, hstop⟩ := exists_front isDigit rest
        have hall : ∀ b ∈ d :: digits, isDigit b = true :=
          List.forall_mem_cons.mpr ⟨hnext, hdigits⟩
        have hfits := scanInteger_fits hall (rest_bump hrest) herror
        obtain ⟨value, hscan⟩ := scanInteger_eq hall hstop hfits (rest_bump hrest) true
        rw [hscan, move_bump] at h
        obtain ⟨pieces, hreads⟩ := h
        have hmove := @drop_of_rest_cons _ _ (d :: digits) _ hrest
        have hreads' : Reads .integer rest pieces := by rwa [← hmove]
        exact ⟨_, .negative hnext hdigits hstop hfits hreads'⟩
    · -- an unrecognised byte
      rw [returning, setLexerError] at herror
      split at herror
      · rename_i htrue
        exact absurd (htrue.symm.trans herror) (by decide)
      · cases herror

theorem snobolLexerNext_readsOn {lexer : SnobolLexer} (herror : lexer.hasError = false)
    (hpeek : lexer.hasPeek = false) (herror' : (snobolLexerNext lexer).2.hasError = false)
    (h : ReadsOn (snobolLexerNext lexer).2.prevType (snobolLexerNext lexer).2.rest) :
    ReadsOn lexer.prevType lexer.rest := by
  rw [snobolLexerNext, herror, if_neg Bool.false_ne_true, hpeek, if_neg Bool.false_ne_true]
    at herror' h
  refine skipWhitespace_readsOn ?_
  dsimp only at herror' h
  cases hrest : (skipWhitespace lexer).rest with
  | nil =>
    rw [hrest] at h
    dsimp only at h
    rwa [hrest] at h
  | cons c rest =>
    rw [hrest] at herror' h
    dsimp only at herror' h
    split_ifs at herror' h with hnul
    · rwa [hrest] at h
    · exact scanToken_readsOn hrest herror' h

/-! ## Any run -/

/-- The lexer after `n` calls for a token. -/
def lexerAfter (lexer : SnobolLexer) : Nat → SnobolLexer
  | 0 => lexer
  | n + 1 => lexerAfter (snobolLexerNext lexer).2 n

theorem lexerAfter_sticky {lexer : SnobolLexer} (h : lexer.hasError = true) (n : Nat) :
    (lexerAfter lexer n).hasError = true := by
  induction n with
  | zero => exact h
  | succ n ih => rwa [lexerAfter, show snobolLexerNext lexer = (.error, lexer) from if_pos h]

theorem lexerAfter_readsOn {lexer : SnobolLexer} {n : Nat}
    (herror : (lexerAfter lexer n).hasError = false) (hpeek : lexer.hasPeek = false)
    (h : ReadsOn (lexerAfter lexer n).prevType (lexerAfter lexer n).rest) :
    ReadsOn lexer.prevType lexer.rest := by
  induction n generalizing lexer with
  | zero => exact h
  | succ n ih =>
    have hnone : ∀ lexer', (lexerAfter lexer' n).hasError = false → lexer'.hasError = false := by
      intro lexer' hafter
      refine Bool.eq_false_iff.mpr fun htrue => ?_
      rw [lexerAfter_sticky htrue] at hafter
      cases hafter
    have herror' := hnone _ herror
    have herror₀ : lexer.hasError = false := by
      refine Bool.eq_false_iff.mpr fun htrue => ?_
      rw [show snobolLexerNext lexer = (.error, lexer) from if_pos htrue, htrue] at herror'
      cases herror'
    have hstep := snobolLexerNext_step herror₀ hpeek
    refine snobolLexerNext_readsOn herror₀ hpeek herror' (ih herror ?_ h)
    generalize (snobolLexerNext lexer).1 = tok at hstep
    generalize (snobolLexerNext lexer).2 = lexer' at hstep
    cases hstep with
    | real hs => exact hs.hasPeek.trans hpeek
    | eof hs => exact hs.hasPeek.trans hpeek
    | error _ hkeeps => exact hkeeps.trans hpeek

/-- Where calls for tokens come to an unrecognised byte without an error, the source is pieces up
to that byte. -/
theorem reads_of_unrecognised {source : Bytes} {n : Nat} {c : UInt8} {rest : Bytes}
    (herror : (lexerAfter (snobolLexerCreate source) n).hasError = false)
    (hrest : (skipWhitespace (lexerAfter (snobolLexerCreate source) n)).rest = c :: rest)
    (hc : Unrecognised c rest.head?) : ∃ pieces, Reads .eof source pieces := by
  refine lexerAfter_readsOn herror rfl (skipWhitespace_readsOn ?_)
  rw [hrest]
  exact ⟨[], .stop hc⟩

end Snobol4
