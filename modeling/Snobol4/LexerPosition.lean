import Snobol4.LexerProgress
import Mathlib.Tactic.Common
import Mathlib.Data.List.Basic
import Mathlib.Data.List.Induction

/-!
# LexerPosition — where an unrecognised byte is reported (`lexer.c`)

A source with an unrecognised byte is a sequence of pieces up to that byte: blanks, tokens
without quotes, and quoted texts (literals and character classes).  Between calls a lexer stands
between two pieces, and its line and column are those of the pieces behind it.  A quoted text
counts almost twice for the column, and its newlines do not count for the line.
-/

namespace Snobol4

/-! ## Pieces -/

/-- A piece of a source. -/
inductive LexPiece where
  | blank (c : UInt8)
  | plain (text : Bytes)
  | quoted (start close : UInt8) (body : Bytes)
  deriving Repr, DecidableEq

/-- The bytes of a piece. -/
def LexPiece.text : LexPiece → Bytes
  | .blank c => [c]
  | .plain text => text
  | .quoted start close body => start :: (body ++ [close])

/-- The bytes of pieces. -/
def piecesText (pieces : List LexPiece) : Bytes := pieces.flatMap LexPiece.text

/-- White space. -/
def IsBlank (c : UInt8) : Prop := c = ch ' ' ∨ c = ch '\t' ∨ c = ch '\n' ∨ c = ch '\r'

/-- No token starts with the byte. -/
structure Unrecognised (c : UInt8) (next : Option UInt8) : Prop where
  blank : ¬ IsBlank c
  nul : c ≠ 0
  single : singleCharTokens.lookup c = none
  bracket : c ≠ ch '['
  quote : c ≠ ch '\''
  ident : isIdentStart c = false
  digit : isDigit c = false
  sign : ¬ (c = ch '-' ∧ next.any isDigit = true)

/-- The number that digits write after those that wrote `value`. -/
def decimalFrom (value : Int) (digits : Bytes) : Int :=
  digits.foldl (fun value c => value * 10 + ((c.toNat : Int) - (ch '0').toNat)) value

/-- After a token of the given type the text is these pieces and then an unrecognised byte. -/
inductive Reads : TokenType → Bytes → List LexPiece → Prop where
  | stop {prev c rest} (h : Unrecognised c rest.head?) : Reads prev (c :: rest) []
  | blank {prev c rest pieces} (hc : IsBlank c) (h : Reads prev rest pieces) :
      Reads prev (c :: rest) (.blank c :: pieces)
  | single {prev c rest pieces tok} (hc : singleCharTokens.lookup c = some tok)
      (h : Reads tok.type rest pieces) : Reads prev (c :: rest) (.plain [c] :: pieces)
  | key {rest pieces} (hkey : bracketIsTableKey (snobolLexerCreate (ch '[' :: rest)) = true)
      (h : Reads .lbracket rest pieces) :
      Reads .ident (ch '[' :: rest) (.plain [ch '['] :: pieces)
  | charclass {prev body rest pieces}
      (hkey : prev = .ident →
        bracketIsTableKey (snobolLexerCreate (ch '[' :: (body ++ ch ']' :: rest))) = false)
      (hbody : ch ']' ∉ body) (h : Reads .charclass rest pieces) :
      Reads prev (ch '[' :: (body ++ ch ']' :: rest)) (.quoted (ch '[') (ch ']') body :: pieces)
  | literal {prev body rest pieces} (hbody : ch '\'' ∉ body) (h : Reads .lit rest pieces) :
      Reads prev (ch '\'' :: (body ++ ch '\'' :: rest))
        (.quoted (ch '\'') (ch '\'') body :: pieces)
  | ident {prev c body rest pieces} (hc : isIdentStart c = true)
      (hbody : ∀ b ∈ body, isIdentContinue b = true)
      (hrest : ∀ b ∈ rest.head?, isIdentContinue b = false) (h : Reads .ident rest pieces) :
      Reads prev (c :: (body ++ rest)) (.plain (c :: body) :: pieces)
  | integer {prev c digits rest pieces} (hc : isDigit c = true)
      (hdigits : ∀ b ∈ digits, isDigit b = true)
      (hrest : ∀ b ∈ rest.head?, isDigit b = false) (hfits : decimalFrom 0 (c :: digits) ≤ int64Max)
      (h : Reads .integer rest pieces) :
      Reads prev (c :: (digits ++ rest)) (.plain (c :: digits) :: pieces)
  | negative {prev c digits rest pieces} (hc : isDigit c = true)
      (hdigits : ∀ b ∈ digits, isDigit b = true)
      (hrest : ∀ b ∈ rest.head?, isDigit b = false) (hfits : decimalFrom 0 (c :: digits) ≤ int64Max)
      (h : Reads .integer rest pieces) :
      Reads prev (ch '-' :: c :: (digits ++ rest)) (.plain (ch '-' :: c :: digits) :: pieces)

/-! ## Positions -/

/-- The line and the column, both from 1, of what follows a text. -/
def textPosition (text : Bytes) : Nat × Nat :=
  (text.count (ch '\n') + 1, (text.reverse.takeWhile (· != ch '\n')).length + 1)

/-- Where the lexer is after a piece. -/
def LexPiece.advance (p : Nat × Nat) : LexPiece → Nat × Nat
  | .blank c => if c = ch '\n' then (p.1 + 1, 1) else (p.1, p.2 + 1)
  | .plain text => (p.1, p.2 + text.length)
  | .quoted _ _ body => (p.1, p.2 + (2 * body.length + 3))

/-- Where the lexer is after pieces. -/
def lexedPosition (pieces : List LexPiece) : Nat × Nat := pieces.foldl LexPiece.advance (1, 1)

/-- No quoted text has a newline, and each is on an earlier line than the end. -/
def QuotesBehind (pieces : List LexPiece) : Prop :=
  ∀ before start close body after, pieces = before ++ .quoted start close body :: after →
    ch '\n' ∉ body ∧ ch '\n' ∈ piecesText after

/-! ## What each scanner passes over -/

namespace SnobolLexer

/-- The cursor moves over bytes, and the column as it may. -/
def move (lexer : SnobolLexer) (bytes columns : Nat) : SnobolLexer :=
  { lexer with pos := lexer.pos + bytes, column := lexer.column + columns }

theorem move_bump (lexer : SnobolLexer) (n : Nat) :
    lexer.bump.move n n = lexer.move (n + 1) (n + 1) := by
  unfold move bump
  simp only [Nat.add_assoc, Nat.add_comm 1 n]

theorem drop_of_rest {lexer : SnobolLexer} {before after : Bytes}
    (h : lexer.rest = before ++ after) :
    lexer.source.drop (lexer.pos + before.length) = after := by
  rw [← List.drop_drop]
  unfold rest at h
  rw [h, List.drop_left]

end SnobolLexer

open SnobolLexer

theorem scanUntil_eq {close : UInt8} {body : Bytes} (hbody : close ∉ body)
    (token : Bytes → Token) (start : Nat) (rest : Bytes) (lexer : SnobolLexer) :
    ∃ content, scanUntil close token start (body ++ close :: rest) lexer =
      (token content,
        { lexer with
          pos := lexer.pos + body.length + 1
          column :=
            lexer.column + body.length + (lexer.pos + body.length + 1 - start) + 1 }) := by
  induction body generalizing lexer with
  | nil =>
    rw [List.nil_append, scanUntil, if_pos rfl]
    exact ⟨_, rfl⟩
  | cons b body ih =>
    rw [List.mem_cons, not_or] at hbody
    obtain ⟨content, hscan⟩ := ih hbody.2 lexer.bump
    rw [List.cons_append, scanUntil, if_neg (Ne.symm hbody.1), hscan]
    refine ⟨content, ?_⟩
    simp only [bump, List.length_cons]
    congr 2 <;> omega

/-- From the opening delimiter on, the column moves by the text and one delimiter twice, and
once more. -/
theorem scanUntil_opened {close : UInt8} {body : Bytes} (hbody : close ∉ body)
    (token : Bytes → Token) (rest : Bytes) (lexer : SnobolLexer) :
    ∃ content, scanUntil close token lexer.bump.pos (body ++ close :: rest) lexer.bump =
      (token content, lexer.move (body.length + 2) (2 * body.length + 3)) := by
  obtain ⟨content, hscan⟩ := scanUntil_eq hbody token lexer.bump.pos rest lexer.bump
  rw [hscan]
  refine ⟨content, ?_⟩
  simp only [bump, move]
  congr 2 <;> omega

theorem scanIdentFrom_eq {body rest : Bytes} (hbody : ∀ b ∈ body, isIdentContinue b = true)
    (hrest : ∀ b ∈ rest.head?, isIdentContinue b = false) (start : Nat) (lexer : SnobolLexer) :
    ∃ name, scanIdentFrom start (body ++ rest) lexer =
      (.ident name, lexer.move body.length body.length) := by
  induction body generalizing lexer with
  | nil =>
    cases rest with
    | nil => exact ⟨_, rfl⟩
    | cons b rest =>
      rw [List.nil_append, scanIdentFrom, hrest b rfl, if_neg Bool.false_ne_true]
      exact ⟨_, rfl⟩
  | cons b body ih =>
    rw [List.forall_mem_cons] at hbody
    obtain ⟨name, hscan⟩ := ih hbody.2 lexer.bump
    rw [List.cons_append, scanIdentFrom, if_pos hbody.1, hscan, move_bump, List.length_cons]
    exact ⟨name, rfl⟩

theorem digit_nonneg {c : UInt8} (hc : isDigit c = true) :
    0 ≤ (c.toNat : Int) - (ch '0').toNat := by
  rw [isDigit, Bool.and_eq_true, decide_eq_true_eq] at hc
  have hle : (ch '0').toNat ≤ c.toNat := UInt8.le_iff_toNat_le.mp hc.1
  omega

theorem le_decimalFrom {digits : Bytes} (hdigits : ∀ b ∈ digits, isDigit b = true) {value : Int}
    (hvalue : 0 ≤ value) : value ≤ decimalFrom value digits := by
  induction digits generalizing value with
  | nil => exact Int.le_refl value
  | cons c digits ih =>
    rw [List.forall_mem_cons] at hdigits
    have hd := digit_nonneg hdigits.1
    have hle := ih hdigits.2 (by omega : 0 ≤ value * 10 + ((c.toNat : Int) - (ch '0').toNat))
    rw [decimalFrom, List.foldl_cons, ← decimalFrom]
    omega

/-- Digits of a number that fits are read without overflow. -/
theorem scanDigits_eq {digits rest : Bytes} (hdigits : ∀ b ∈ digits, isDigit b = true)
    (hrest : ∀ b ∈ rest.head?, isDigit b = false) {value : Int} (hvalue : 0 ≤ value)
    (hfits : decimalFrom value digits ≤ int64Max) (lexer : SnobolLexer) :
    scanDigits (digits ++ rest) lexer value false =
      (decimalFrom value digits, false, lexer.move digits.length digits.length) := by
  induction digits generalizing value lexer with
  | nil =>
    cases rest with
    | nil => rfl
    | cons b rest =>
      rw [List.nil_append, scanDigits, hrest b rfl, if_neg Bool.false_ne_true]
      rfl
  | cons c digits ih =>
    rw [List.forall_mem_cons] at hdigits
    have hd := digit_nonneg hdigits.1
    rw [decimalFrom, List.foldl_cons, ← decimalFrom] at hfits ⊢
    have hvalue' : 0 ≤ value * 10 + ((c.toNat : Int) - (ch '0').toNat) := by omega
    have hle := le_decimalFrom hdigits.2 hvalue'
    have hsmall : ¬ value > (int64Max - ((c.toNat : Int) - (ch '0').toNat)) / 10 := by
      omega
    rw [List.cons_append, scanDigits, if_pos hdigits.1]
    simp only [Bool.false_or, decide_eq_false hsmall]
    rw [ih hdigits.2 hvalue' hfits, move_bump, List.length_cons]

theorem scanInteger_eq {digits rest : Bytes} (hdigits : ∀ b ∈ digits, isDigit b = true)
    (hrest : ∀ b ∈ rest.head?, isDigit b = false) (hfits : decimalFrom 0 digits ≤ int64Max)
    {lexer : SnobolLexer} (hlexer : lexer.rest = digits ++ rest) (negative : Bool) :
    ∃ value, scanInteger lexer negative =
      (.integer value, lexer.move digits.length digits.length) := by
  rw [scanInteger, hlexer, scanDigits_eq hdigits hrest (Int.le_refl 0) hfits]
  exact ⟨_, rfl⟩

/-! ## A call -/

theorem singleCharTokens_apart {c : UInt8} {tok : Token}
    (h : singleCharTokens.lookup c = some tok) :
    c ≠ 0 ∧ c ≠ ch '[' ∧ c ≠ ch '\'' ∧ c ≠ ch '-' ∧ isIdentStart c = false ∧
      isDigit c = false := by
  have hall : ∀ entry ∈ singleCharTokens,
      entry.1 ≠ 0 ∧ entry.1 ≠ ch '[' ∧ entry.1 ≠ ch '\'' ∧ entry.1 ≠ ch '-' ∧
        isIdentStart entry.1 = false ∧ isDigit entry.1 = false := by
    decide
  obtain ⟨before, after, hsplit, -⟩ := List.lookup_eq_some_iff.1 h
  exact hall (c, tok) (by simp [hsplit])

theorem isIdentStart_of_isDigit {c : UInt8} (hc : isDigit c = true) : isIdentStart c = false := by
  have hbounds : 48 ≤ c.toNat ∧ c.toNat ≤ 57 := by
    rw [isDigit, Bool.and_eq_true, decide_eq_true_eq, decide_eq_true_eq] at hc
    exact ⟨UInt8.le_iff_toNat_le.mp hc.1, UInt8.le_iff_toNat_le.mp hc.2⟩
  rw [isIdentStart, Bool.or_eq_false_iff, Bool.or_eq_false_iff, Bool.and_eq_false_iff,
    Bool.and_eq_false_iff, decide_eq_false_iff_not, decide_eq_false_iff_not,
    decide_eq_false_iff_not, decide_eq_false_iff_not, beq_eq_false_iff_ne]
  have ha : (ch 'a').toNat = 97 := rfl
  have hA : (ch 'A').toNat = 65 := rfl
  refine ⟨⟨.inl ?_, .inl ?_⟩, ?_⟩
  · rw [UInt8.le_iff_toNat_le]
    omega
  · rw [UInt8.le_iff_toNat_le]
    omega
  · rintro rfl
    have h_ : (ch '_').toNat = 95 := rfl
    omega

theorem IsBlank.apart {c : UInt8} (hc : IsBlank c) :
    singleCharTokens.lookup c = none ∧ c ≠ ch '[' ∧ c ≠ ch '\'' ∧ c ≠ ch '-' ∧
      isIdentStart c = false ∧ isDigit c = false := by
  rcases hc with rfl | rfl | rfl | rfl <;> decide

/-- A blank is a piece. -/
theorem Reads.of_blank {prev : TokenType} {c : UInt8} {rest : Bytes} {pieces : List LexPiece}
    (h : Reads prev (c :: rest) pieces) (hc : IsBlank c) :
    ∃ pieces', pieces = .blank c :: pieces' ∧ Reads prev rest pieces' := by
  obtain ⟨hsingle, hbracket, hquote, hminus, hident, hdigit⟩ := hc.apart
  cases h with
  | stop h => exact absurd hc h.blank
  | blank _ h => exact ⟨_, rfl, h⟩
  | single hc' =>
    rw [hsingle] at hc'
    cases hc'
  | key => exact absurd rfl hbracket
  | charclass => exact absurd rfl hbracket
  | literal => exact absurd rfl hquote
  | ident hc' =>
    rw [hident] at hc'
    cases hc'
  | integer hc' =>
    rw [hdigit] at hc'
    cases hc'
  | negative => exact absurd rfl hminus

/-- The lexer went over pieces, and others are left. -/
structure Passed (lexer : SnobolLexer) (done todo : List LexPiece) (lexer' : SnobolLexer) :
    Prop where
  reads : Reads lexer'.prevType lexer'.rest todo
  position :
    (lexer'.line, lexer'.column) = done.foldl LexPiece.advance (lexer.line, lexer.column)
  source : lexer'.source = lexer.source
  hasError : lexer'.hasError = lexer.hasError
  hasPeek : lexer'.hasPeek = lexer.hasPeek

theorem Passed.trans {a b c : SnobolLexer} {done done' todo todo' : List LexPiece}
    (h : Passed a done todo b) (h' : Passed b done' todo' c) :
    Passed a (done ++ done') todo' c where
  reads := h'.reads
  position := by rw [h'.position, h.position, List.foldl_append]
  source := h'.source.trans h.source
  hasError := h'.hasError.trans h.hasError
  hasPeek := h'.hasPeek.trans h.hasPeek

/-- The turn of `skip_whitespace` on a blank. -/
def passBlank (lexer : SnobolLexer) (c : UInt8) : SnobolLexer :=
  (if c = ch '\n' then { lexer with line := lexer.line + 1, column := 0 } else lexer).bump

theorem rest_passBlank {lexer : SnobolLexer} {c : UInt8} {rest : Bytes}
    (hrest : lexer.rest = c :: rest) : (passBlank lexer c).rest = rest := by
  rw [← rest_bump hrest]
  unfold passBlank
  split <;> rfl

theorem passBlank_passed {lexer : SnobolLexer} {c : UInt8} {rest : Bytes}
    {pieces : List LexPiece} (hrest : lexer.rest = c :: rest)
    (h : Reads lexer.prevType rest pieces) :
    Passed lexer [.blank c] pieces (passBlank lexer c) := by
  have hpassed := rest_passBlank hrest
  unfold passBlank at hpassed ⊢
  by_cases hc : c = ch '\n'
  · rw [if_pos hc] at hpassed ⊢
    refine ⟨?_, ?_, rfl, rfl, rfl⟩
    · rwa [hpassed]
    · rw [List.foldl_cons, List.foldl_nil, LexPiece.advance, if_pos hc]
      rfl
  · rw [if_neg hc] at hpassed ⊢
    refine ⟨?_, ?_, rfl, rfl, rfl⟩
    · rwa [hpassed]
    · rw [List.foldl_cons, List.foldl_nil, LexPiece.advance, if_neg hc]
      rfl

/-- White space is passed over, and what comes next is none. -/
theorem skipWhitespace_reads {lexer : SnobolLexer} {pieces : List LexPiece}
    (h : Reads lexer.prevType lexer.rest pieces) :
    ∃ blanks pieces', pieces = blanks ++ pieces' ∧
      Passed lexer blanks pieces' (skipWhitespace lexer) ∧
      ∀ c ∈ (skipWhitespace lexer).rest.head?, ¬ IsBlank c := by
  unfold skipWhitespace
  generalize hrest : lexer.rest = text at h
  induction text generalizing lexer pieces with
  | nil =>
    -- the unrecognised byte is still to come
    generalize lexer.prevType = prev at h
    cases h
  | cons c text ih =>
    by_cases hc : IsBlank c
    · obtain ⟨pieces', rfl, hreads⟩ := h.of_blank hc
      have hpass := passBlank_passed hrest hreads
      have hrest' := rest_passBlank hrest
      obtain ⟨blanks, todo, rfl, hpassed, hhead⟩ := ih hrest' (hrest' ▸ hpass.reads)
      rw [show skipWhitespaceFrom (c :: text) lexer = skipWhitespaceFrom text (passBlank lexer c)
        from if_pos hc]
      exact ⟨.blank c :: blanks, todo, rfl, hpass.trans hpassed, hhead⟩
    · rw [show skipWhitespaceFrom (c :: text) lexer = lexer from if_neg hc]
      refine ⟨[], pieces, rfl, ⟨hrest ▸ h, rfl, rfl, rfl, rfl⟩, ?_⟩
      rw [hrest]
      rintro _ ⟨⟩
      exact hc

theorem singleCharTokens_none {c : UInt8} (h : isIdentStart c = true ∨ isDigit c = true) :
    singleCharTokens.lookup c = none := by
  cases hlookup : singleCharTokens.lookup c with
  | none => rfl
  | some tok =>
    obtain ⟨-, -, -, -, hident, hdigit⟩ := singleCharTokens_apart hlookup
    rw [hident, hdigit] at h
    rcases h with h | h <;> cases h

theorem isIdentStart_apart {c : UInt8} (hc : isIdentStart c = true) :
    c ≠ 0 ∧ c ≠ ch '[' ∧ c ≠ ch '\'' := by
  refine ⟨?_, ?_, ?_⟩ <;>
  · rintro rfl
    revert hc
    decide

theorem isDigit_apart {c : UInt8} (hc : isDigit c = true) :
    c ≠ 0 ∧ c ≠ ch '[' ∧ c ≠ ch '\'' := by
  refine ⟨?_, ?_, ?_⟩ <;>
  · rintro rfl
    revert hc
    decide

theorem drop_of_rest_cons {lexer : SnobolLexer} {c : UInt8} {before after : Bytes}
    (h : lexer.rest = c :: (before ++ after)) :
    lexer.source.drop (lexer.pos + (before.length + 1)) = after :=
  @drop_of_rest _ (c :: before) _ h

theorem drop_of_rest_quoted {lexer : SnobolLexer} {start close : UInt8} {body after : Bytes}
    (h : lexer.rest = start :: (body ++ close :: after)) :
    lexer.source.drop (lexer.pos + (body.length + 2)) = after := by
  rw [List.append_cons] at h
  have hdrop := drop_of_rest_cons h
  rwa [List.length_append] at hdrop

theorem bracketIsTableKey_eq {lexer : SnobolLexer} {text : Bytes}
    (h : lexer.rest = ch '[' :: text) :
    bracketIsTableKey lexer = bracketIsTableKey (snobolLexerCreate (ch '[' :: text)) := by
  have hdrop : lexer.source.drop (lexer.pos + 1) = text := rest_bump h
  rw [bracketIsTableKey, bracketIsTableKey, hdrop]
  rfl

/-- A scanner that moves over one piece. -/
theorem Passed.move {lexer : SnobolLexer} {piece : LexPiece} {pieces : List LexPiece}
    {type : TokenType} {rest : Bytes} {bytes columns : Nat} (h : Reads type rest pieces)
    (hrest : lexer.source.drop (lexer.pos + bytes) = rest)
    (hpiece : piece.advance (lexer.line, lexer.column) = (lexer.line, lexer.column + columns)) :
    Passed lexer [piece] pieces { lexer.move bytes columns with prevType := type } :=
  ⟨by subst hrest; exact h, hpiece.symm, rfl, rfl, rfl⟩

/-- The switch, on an unrecognised byte or at a token. -/
theorem scanToken_reads {lexer : SnobolLexer} {c : UInt8} {rest : Bytes}
    {pieces : List LexPiece} (hrest : lexer.rest = c :: rest) (hblank : ¬ IsBlank c)
    (h : Reads lexer.prevType (c :: rest) pieces) :
    c ≠ 0 ∧
      ((pieces = [] ∧
          scanToken lexer c rest.head? = returning (.error, setLexerError lexer c)) ∨
        ∃ piece pieces' tok lexer', pieces = piece :: pieces' ∧
          scanToken lexer c rest.head? = returning (tok, lexer') ∧
          Passed lexer [piece] pieces' { lexer' with prevType := tok.type }) := by
  generalize hprev : lexer.prevType = prev at h
  unfold scanToken
  cases h with
  | stop h =>
    refine ⟨h.nul, .inl ⟨rfl, ?_⟩⟩
    rw [h.single]
    dsimp only
    rw [if_neg h.bracket, if_neg h.quote, h.ident, if_neg Bool.false_ne_true, h.digit,
      if_neg Bool.false_ne_true, if_neg h.sign]
  | blank hc => exact absurd hc hblank
  | single hc h =>
    obtain ⟨hnul, -⟩ := singleCharTokens_apart hc
    have hpassed : Passed lexer [.plain [c]] _ _ := .move h (rest_bump hrest) rfl
    exact ⟨hnul, .inr ⟨_, _, _, _, rfl, by rw [hc]; rfl, hpassed⟩⟩
  | key hkey h =>
    have hpassed : Passed lexer [.plain [ch '[']] _ _ := .move h (rest_bump hrest) rfl
    refine ⟨by decide, .inr ⟨_, _, .lbracket, _, rfl, ?_, hpassed⟩⟩
    rw [show singleCharTokens.lookup (ch '[') = none from rfl]
    dsimp only
    rw [if_pos rfl, bracketIsTableKey_eq hrest, if_pos ⟨hprev, hkey⟩]
    rfl
  | @charclass _ body rest pieces hkey hbody h =>
    have hkey' : ¬ (lexer.prevType = .ident ∧ bracketIsTableKey lexer = true) := by
      rintro ⟨hident, htrue⟩
      rw [bracketIsTableKey_eq hrest, hkey (hprev.symm.trans hident)] at htrue
      cases htrue
    obtain ⟨content, hscan⟩ := scanUntil_opened hbody .charclass rest lexer
    have hpassed : Passed lexer [.quoted (ch '[') (ch ']') body] _ _ :=
      .move h (drop_of_rest_quoted hrest) rfl
    refine ⟨by decide, .inr ⟨_, _, .charclass content, _, rfl, ?_, hpassed⟩⟩
    rw [show singleCharTokens.lookup (ch '[') = none from rfl]
    dsimp only
    rw [if_pos rfl, if_neg hkey', scanCharclass, rest_bump hrest, hscan]
  | @literal _ body rest pieces hbody h =>
    obtain ⟨content, hscan⟩ := scanUntil_opened hbody .lit rest lexer
    have hpassed : Passed lexer [.quoted (ch '\'') (ch '\'') body] _ _ :=
      .move h (drop_of_rest_quoted hrest) rfl
    refine ⟨by decide, .inr ⟨_, _, .lit content, _, rfl, ?_, hpassed⟩⟩
    rw [show singleCharTokens.lookup (ch '\'') = none from rfl]
    dsimp only
    rw [if_neg (by decide), if_pos rfl, scanLiteral, rest_bump hrest, hscan]
  | @ident _ _ body rest _ hc hbody hstop h =>
    obtain ⟨hnul, hbracket, hquote⟩ := isIdentStart_apart hc
    have hall : ∀ b ∈ c :: body, isIdentContinue b = true := by
      rw [List.forall_mem_cons, isIdentContinue, hc, Bool.true_or]
      exact ⟨rfl, hbody⟩
    obtain ⟨name, hscan⟩ := scanIdentFrom_eq hall hstop lexer.pos lexer
    have hpassed : Passed lexer [.plain (c :: body)] _ _ :=
      .move h (drop_of_rest_cons hrest) rfl
    refine ⟨hnul, .inr ⟨_, _, .ident name, _, rfl, ?_, hpassed⟩⟩
    rw [singleCharTokens_none (.inl hc)]
    dsimp only
    rw [if_neg hbracket, if_neg hquote, if_pos hc, scanIdent, hrest, ← List.cons_append, hscan]
    rfl
  | @integer _ _ digits rest _ hc hdigits hstop hfits h =>
    obtain ⟨hnul, hbracket, hquote⟩ := isDigit_apart hc
    obtain ⟨value, hscan⟩ :=
      scanInteger_eq (List.forall_mem_cons.mpr ⟨hc, hdigits⟩) hstop hfits hrest false
    have hpassed : Passed lexer [.plain (c :: digits)] _ _ :=
      .move h (drop_of_rest_cons hrest) rfl
    refine ⟨hnul, .inr ⟨_, _, .integer value, _, rfl, ?_, hpassed⟩⟩
    rw [singleCharTokens_none (.inr hc)]
    dsimp only
    rw [if_neg hbracket, if_neg hquote, isIdentStart_of_isDigit hc, if_neg Bool.false_ne_true,
      if_pos hc, hscan]
    rfl
  | @negative _ d digits rest _ hc hdigits hstop hfits h =>
    obtain ⟨value, hscan⟩ :=
      scanInteger_eq (List.forall_mem_cons.mpr ⟨hc, hdigits⟩) hstop hfits (rest_bump hrest) true
    have hpassed : Passed lexer [.plain (ch '-' :: d :: digits)] _ _ :=
      .move h (@drop_of_rest_cons _ _ (d :: digits) _ hrest) rfl
    refine ⟨by decide, .inr ⟨_, _, .integer value, _, rfl, ?_, hpassed⟩⟩
    rw [show singleCharTokens.lookup (ch '-') = none from rfl]
    dsimp only
    rw [if_neg (by decide), if_neg (by decide), if_neg (by decide), if_neg (by decide),
      if_pos ⟨rfl, hc⟩, hscan, move_bump]
    rfl

/-- A call for a token goes over blanks and a piece, or records the position of the unrecognised
byte. -/
theorem snobolLexerNext_reads {lexer : SnobolLexer} {pieces : List LexPiece}
    (h : Reads lexer.prevType lexer.rest pieces) (herror : lexer.hasError = false)
    (hpeek : lexer.hasPeek = false) :
    ((snobolLexerNext lexer).2.hasError = true ∧
        (snobolLexerNext lexer).2.source = lexer.source ∧
        ((snobolLexerNext lexer).2.errorLine, (snobolLexerNext lexer).2.errorCol) =
          pieces.foldl LexPiece.advance (lexer.line, lexer.column)) ∨
      ∃ done todo, pieces = done ++ todo ∧ done ≠ [] ∧
        Passed lexer done todo (snobolLexerNext lexer).2 ∧
        (snobolLexerNext lexer).1.type = (snobolLexerNext lexer).2.prevType := by
  obtain ⟨blanks, todo, rfl, hblanks, hhead⟩ := skipWhitespace_reads h
  rw [snobolLexerNext, herror, if_neg Bool.false_ne_true, hpeek, if_neg Bool.false_ne_true]
  dsimp only
  cases hrest : (skipWhitespace lexer).rest with
  | nil =>
    have hreads := hblanks.reads
    rw [hrest] at hreads
    generalize (skipWhitespace lexer).prevType = prev at hreads
    cases hreads
  | cons c rest =>
    have hblank : ¬ IsBlank c := hhead c (by rw [hrest]; rfl)
    obtain ⟨hnul, hscan⟩ := scanToken_reads hrest hblank (hrest ▸ hblanks.reads)
    dsimp only
    rw [if_neg hnul]
    rcases hscan with ⟨rfl, hscan⟩ | ⟨piece, todo, tok, lexer', rfl, hscan, hpassed⟩
    · left
      have herror' := hblanks.hasError.trans herror
      rw [hscan, returning, setLexerError, herror', if_neg Bool.false_ne_true, List.append_nil]
      exact ⟨rfl, hblanks.source, hblanks.position⟩
    · right
      rw [hscan]
      exact ⟨blanks ++ [piece], todo, by simp, by simp, hblanks.trans hpassed, rfl⟩

/-! ## Any calls -/

/-- A lexer of the source after some calls, with the states saved on the way. -/
inductive LexCalls (source : Bytes) : SnobolLexer → List SnobolLexerState → Prop where
  | create : LexCalls source (snobolLexerCreate source) []
  | next {lexer saved} (h : LexCalls source lexer saved) :
      LexCalls source (snobolLexerNext lexer).2 saved
  | peek {lexer saved} (h : LexCalls source lexer saved) :
      LexCalls source (snobolLexerPeek lexer).2 saved
  | save {lexer saved} (h : LexCalls source lexer saved) :
      LexCalls source lexer (snobolLexerSave lexer :: saved)
  | restore {lexer saved state} (h : LexCalls source lexer saved) (hstate : state ∈ saved) :
      LexCalls source (snobolLexerRestore lexer state) saved

/-- A cursor stands between two pieces, and a token in the buffer is the last one. -/
structure Between (source : Bytes) (pieces : List LexPiece) (state : SnobolLexerState) : Prop where
  split : ∃ done todo, pieces = done ++ todo ∧
    (state.line, state.column) = lexedPosition done ∧
    Reads state.prevType (source.drop state.pos) todo
  peeked : state.hasPeek = true → state.peekToken.type = state.prevType

/-- An error is recorded with the position of all pieces, or none is and every cursor stands
between pieces. -/
def PositionOk (source : Bytes) (pieces : List LexPiece) (lexer : SnobolLexer)
    (saved : List SnobolLexerState) : Prop :=
  lexer.source = source ∧
    if lexer.hasError then (lexer.errorLine, lexer.errorCol) = lexedPosition pieces
    else ∀ state ∈ snobolLexerSave lexer :: saved, Between source pieces state

namespace PositionOk

variable {source : Bytes} {pieces : List LexPiece} {lexer lexer' : SnobolLexer}
  {saved : List SnobolLexerState}

/-- Where an error was recorded, and where the cursor stands without one. -/
theorem of_error (hsource : lexer.source = source) (herror : lexer.hasError = true)
    (h : (lexer.errorLine, lexer.errorCol) = lexedPosition pieces) :
    PositionOk source pieces lexer saved := by
  refine ⟨hsource, ?_⟩
  rwa [if_pos herror]

theorem of_between (hsource : lexer.source = source) (herror : lexer.hasError = false)
    (h : Between source pieces (snobolLexerSave lexer))
    (hsaved : ∀ state ∈ saved, Between source pieces state) :
    PositionOk source pieces lexer saved := by
  refine ⟨hsource, ?_⟩
  rw [herror, if_neg Bool.false_ne_true]
  exact List.forall_mem_cons.mpr ⟨h, hsaved⟩

theorem position (h : PositionOk source pieces lexer saved) (herror : lexer.hasError = true) :
    (lexer.errorLine, lexer.errorCol) = lexedPosition pieces := by
  have hif := h.2
  rwa [if_pos herror] at hif

theorem between (h : PositionOk source pieces lexer saved) (herror : lexer.hasError = false) :
    Between source pieces (snobolLexerSave lexer) ∧
      ∀ state ∈ saved, Between source pieces state := by
  have hif := h.2
  rw [herror, if_neg Bool.false_ne_true] at hif
  exact List.forall_mem_cons.mp hif

/-- A fresh token. -/
theorem fresh (h : PositionOk source pieces lexer saved) (herror : lexer.hasError = false)
    (hpeek : lexer.hasPeek = false) :
    PositionOk source pieces (snobolLexerNext lexer).2 saved ∧
      ((snobolLexerNext lexer).2.hasError = false →
        (snobolLexerNext lexer).2.hasPeek = false ∧
        (snobolLexerNext lexer).1.type = (snobolLexerNext lexer).2.prevType) := by
  obtain ⟨hbetween, hsaved⟩ := h.between herror
  obtain ⟨done, todo, rfl, hposition, hreads⟩ := hbetween.split
  have hreads' : Reads lexer.prevType lexer.rest todo := by
    rw [rest, h.1]
    exact hreads
  have hstart : (lexer.line, lexer.column) = lexedPosition done := hposition
  rcases snobolLexerNext_reads hreads' herror hpeek with
    ⟨herror', hsource, hrecorded⟩ | ⟨done', todo, rfl, -, hpassed, htype⟩
  · constructor
    · refine of_error (hsource.trans h.1) herror' ?_
      rw [hrecorded, hstart, lexedPosition, lexedPosition, List.foldl_append]
    · intro hnone
      rw [hnone] at herror'
      cases herror'
  · have hnone := hpassed.hasError.trans herror
    have hnopeek := hpassed.hasPeek.trans hpeek
    refine ⟨of_between (hpassed.source.trans h.1) hnone ?_ hsaved, fun _ => ⟨hnopeek, htype⟩⟩
    constructor
    · refine ⟨done ++ done', todo, (List.append_assoc ..).symm, ?_, ?_⟩
      · show (_, _) = _
        rw [lexedPosition, List.foldl_append, ← lexedPosition, ← hstart]
        exact hpassed.position
      · have hreads'' := hpassed.reads
        rw [rest, hpassed.source, h.1] at hreads''
        exact hreads''
    · intro hpeeked
      rw [show (snobolLexerSave (snobolLexerNext lexer).2).hasPeek = false from hnopeek] at hpeeked
      cases hpeeked

theorem next (h : PositionOk source pieces lexer saved) :
    PositionOk source pieces (snobolLexerNext lexer).2 saved := by
  by_cases herror : lexer.hasError = true
  · rw [snobolLexerNext, if_pos herror]
    exact h
  · rw [Bool.not_eq_true] at herror
    by_cases hpeek : lexer.hasPeek = true
    · -- the token in the buffer is the one before the cursor already
      rw [snobolLexerNext, herror, if_neg Bool.false_ne_true, if_pos hpeek]
      obtain ⟨hbetween, hsaved⟩ := h.between herror
      have htype : lexer.peekToken.type = lexer.prevType := hbetween.peeked hpeek
      rw [htype]
      refine of_between h.1 rfl ⟨hbetween.split, ?_⟩ hsaved
      intro hpeek'
      cases hpeek'
    · rw [Bool.not_eq_true] at hpeek
      exact (h.fresh herror hpeek).1

theorem peek (h : PositionOk source pieces lexer saved) :
    PositionOk source pieces (snobolLexerPeek lexer).2 saved := by
  by_cases hpeek : lexer.hasPeek = true
  · rw [snobolLexerPeek, if_pos hpeek]
    exact h
  · rw [snobolLexerPeek, if_neg hpeek]
    dsimp only
    by_cases herror : lexer.hasError = true
    · rw [snobolLexerNext, if_pos herror]
      exact of_error h.1 herror (h.position herror)
    · rw [Bool.not_eq_true] at hpeek herror
      obtain ⟨hfresh, htype⟩ := h.fresh herror hpeek
      by_cases herror' : (snobolLexerNext lexer).2.hasError = true
      · exact of_error hfresh.1 herror' (hfresh.position herror')
      · rw [Bool.not_eq_true] at herror'
        obtain ⟨hbetween, hsaved⟩ := hfresh.between herror'
        exact of_between hfresh.1 herror' ⟨hbetween.split, fun _ => (htype herror').2⟩ hsaved

theorem save (h : PositionOk source pieces lexer saved) :
    PositionOk source pieces lexer (snobolLexerSave lexer :: saved) := by
  by_cases herror : lexer.hasError = true
  · exact of_error h.1 herror (h.position herror)
  · rw [Bool.not_eq_true] at herror
    obtain ⟨hbetween, hsaved⟩ := h.between herror
    exact of_between h.1 herror hbetween (List.forall_mem_cons.mpr ⟨hbetween, hsaved⟩)

theorem restore {state : SnobolLexerState} (h : PositionOk source pieces lexer saved)
    (hstate : state ∈ saved) :
    PositionOk source pieces (snobolLexerRestore lexer state) saved := by
  by_cases herror : lexer.hasError = true
  · exact of_error h.1 herror (h.position herror)
  · rw [Bool.not_eq_true] at herror
    obtain ⟨-, hsaved⟩ := h.between herror
    exact of_between h.1 herror (hsaved state hstate) hsaved

/-- After any calls. -/
theorem of_calls (hreads : Reads .eof source pieces) (h : LexCalls source lexer saved) :
    PositionOk source pieces lexer saved := by
  induction h with
  | create =>
    refine of_between rfl rfl ⟨⟨[], pieces, rfl, rfl, hreads⟩, ?_⟩ ?_
    · intro hpeek
      cases hpeek
    · intro state hstate
      cases hstate
  | next _ ih => exact ih.next
  | peek _ ih => exact ih.peek
  | save _ ih => exact ih.save
  | restore _ hstate ih => exact ih.restore hstate

end PositionOk

/-- Calls for tokens come to the unrecognised byte. -/
theorem error_reached {source : Bytes} {lexer : SnobolLexer} {saved : List SnobolLexerState}
    {pieces : List LexPiece} (h : LexCalls source lexer saved) (herror : lexer.hasError = false)
    (hpeek : lexer.hasPeek = false) (hreads : Reads lexer.prevType lexer.rest pieces) :
    ∃ lexer' saved', LexCalls source lexer' saved' ∧ lexer'.hasError = true := by
  induction hlen : pieces.length using Nat.strong_induction_on generalizing lexer pieces with
  | _ n ih =>
    rcases snobolLexerNext_reads hreads herror hpeek with
      ⟨herror', -⟩ | ⟨done, todo, rfl, hdone, hpassed, -⟩
    · exact ⟨_, _, h.next, herror'⟩
    · have hpos := List.length_pos_iff.mpr hdone
      rw [List.length_append] at hlen
      exact ih todo.length (by omega) h.next (hpassed.hasError.trans herror)
        (hpassed.hasPeek.trans hpeek) hpassed.reads rfl

/-! ## The two positions -/

theorem textPosition_append {text more : Bytes} (hmore : ch '\n' ∉ more) :
    textPosition (text ++ more) =
      ((textPosition text).1, (textPosition text).2 + more.length) := by
  have hall : ∀ c ∈ more.reverse, (c != ch '\n') = true := by
    intro c hc
    rw [bne_iff_ne]
    rintro rfl
    exact hmore (List.mem_reverse.mp hc)
  rw [textPosition, textPosition, List.count_append, List.count_eq_zero_of_not_mem hmore,
    List.reverse_append, List.takeWhile_append_of_pos hall, List.length_append,
    List.length_reverse, Nat.add_zero, Nat.add_comm more.length, Nat.add_right_comm]

theorem textPosition_newline (text : Bytes) :
    textPosition (text ++ [ch '\n']) = ((textPosition text).1 + 1, 1) := by
  rw [textPosition, textPosition, List.count_append, List.reverse_append]
  rfl

theorem piecesText_concat (pieces : List LexPiece) (piece : LexPiece) :
    piecesText (pieces ++ [piece]) = piecesText pieces ++ piece.text := by
  rw [piecesText, piecesText, List.flatMap_append, List.flatMap_singleton]

/-- Only blanks and quoted texts have newlines. -/
def LexPiece.Clean : LexPiece → Prop
  | .blank _ => True
  | .plain text => ch '\n' ∉ text
  | .quoted start close _ => start ≠ ch '\n' ∧ close ≠ ch '\n'

theorem not_mem_of_all {p : UInt8 → Bool} {text : Bytes} (hp : p (ch '\n') = false)
    (htext : ∀ c ∈ text, p c = true) : ch '\n' ∉ text := by
  intro hmem
  rw [htext _ hmem] at hp
  cases hp

theorem Reads.clean {prev : TokenType} {text : Bytes} {pieces : List LexPiece}
    (h : Reads prev text pieces) : ∀ piece ∈ pieces, piece.Clean := by
  induction h with
  | stop => exact List.forall_mem_nil _
  | blank _ _ ih => exact List.forall_mem_cons.mpr ⟨trivial, ih⟩
  | @single _ c _ _ _ hc _ ih =>
    refine List.forall_mem_cons.mpr ⟨?_, ih⟩
    rw [LexPiece.Clean, List.mem_singleton]
    rintro rfl
    cases hc
  | key _ _ ih => exact List.forall_mem_cons.mpr ⟨by rw [LexPiece.Clean]; decide, ih⟩
  | charclass _ _ _ ih => exact List.forall_mem_cons.mpr ⟨by constructor <;> decide, ih⟩
  | literal _ _ ih => exact List.forall_mem_cons.mpr ⟨by constructor <;> decide, ih⟩
  | @ident _ c _ _ _ hc hbody _ _ ih =>
    have hstart : isIdentContinue c = true := by rw [isIdentContinue, hc, Bool.true_or]
    exact List.forall_mem_cons.mpr
      ⟨not_mem_of_all (by decide) (List.forall_mem_cons.mpr ⟨hstart, hbody⟩), ih⟩
  | integer hc hdigits _ _ _ ih =>
    exact List.forall_mem_cons.mpr
      ⟨not_mem_of_all (by decide) (List.forall_mem_cons.mpr ⟨hc, hdigits⟩), ih⟩
  | @negative _ c digits _ _ hc hdigits _ _ _ ih =>
    have hnot : ch '\n' ∉ c :: digits :=
      not_mem_of_all (by decide) (List.forall_mem_cons.mpr ⟨hc, hdigits⟩)
    refine List.forall_mem_cons.mpr ⟨?_, ih⟩
    rw [LexPiece.Clean, List.mem_cons, not_or]
    exact ⟨by decide, hnot⟩

/-- No quoted text has a newline. -/
def OneLineQuotes (pieces : List LexPiece) : Prop :=
  ∀ start close body, .quoted start close body ∈ pieces → ch '\n' ∉ body

/-- A newline comes after every quoted text. -/
def ClosedLines (pieces : List LexPiece) : Prop :=
  ∀ before start close body after, pieces = before ++ .quoted start close body :: after →
    ch '\n' ∈ piecesText after

theorem quotesBehind_iff (pieces : List LexPiece) :
    QuotesBehind pieces ↔ OneLineQuotes pieces ∧ ClosedLines pieces := by
  constructor
  · intro h
    constructor
    · intro start close body hmem
      obtain ⟨before, after, hsplit⟩ := List.append_of_mem hmem
      exact (h before start close body after hsplit).1
    · intro before start close body after hsplit
      exact (h before start close body after hsplit).2
  · rintro ⟨hline, hclosed⟩ before start close body after hsplit
    refine ⟨hline start close body ?_, hclosed before start close body after hsplit⟩
    rw [hsplit]
    exact List.mem_append_right _ List.mem_cons_self

theorem oneLineQuotes_concat (pieces : List LexPiece) (piece : LexPiece) :
    OneLineQuotes (pieces ++ [piece]) ↔
      OneLineQuotes pieces ∧ OneLineQuotes [piece] := by
  unfold OneLineQuotes
  simp only [List.mem_append]
  constructor
  · intro h
    exact ⟨fun start close body hmem => h start close body (.inl hmem),
      fun start close body hmem => h start close body (.inr hmem)⟩
  · rintro ⟨hpieces, hpiece⟩ start close body (hmem | hmem)
    · exact hpieces start close body hmem
    · exact hpiece start close body hmem

theorem closedLines_concat_quoted (pieces : List LexPiece) (start close : UInt8) (body : Bytes) :
    ¬ ClosedLines (pieces ++ [.quoted start close body]) := by
  intro h
  cases h pieces start close body [] rfl

theorem closedLines_concat (pieces : List LexPiece) {piece : LexPiece}
    (hpiece : ∀ start close body, piece ≠ .quoted start close body) :
    ClosedLines (pieces ++ [piece]) ↔ ch '\n' ∈ piece.text ∨ ClosedLines pieces := by
  constructor
  · intro h
    by_cases hnewline : ch '\n' ∈ piece.text
    · exact .inl hnewline
    · right
      intro before start close body after hsplit
      have hmem := h before start close body (after ++ [piece]) (by rw [hsplit]; simp)
      rw [piecesText_concat] at hmem
      exact (List.mem_append.mp hmem).resolve_right hnewline
  · intro h before start close body after hsplit
    -- the last piece is not quoted, so the quoted one is before it
    rcases List.eq_nil_or_concat after with rfl | ⟨after, last, rfl⟩
    · have hlast := List.append_inj_right' hsplit rfl
      cases hlast
      exact absurd rfl (hpiece start close body)
    · rw [List.concat_eq_append, ← List.cons_append, ← List.append_assoc] at hsplit
      obtain ⟨rfl, hlast⟩ := List.append_inj' hsplit rfl
      cases hlast
      rw [List.concat_eq_append, piecesText_concat, List.mem_append]
      exact h.elim .inr fun hclosed => .inl (hclosed before start close body after rfl)

theorem lexedPosition_concat (pieces : List LexPiece) (piece : LexPiece) :
    lexedPosition (pieces ++ [piece]) = piece.advance (lexedPosition pieces) := by
  rw [lexedPosition, List.foldl_append]
  rfl

/-- The lexer's line and column beside the true ones. -/
structure Tracks (lexed actual : Nat × Nat) (oneLine closed : Prop) : Prop where
  le : lexed.1 ≤ actual.1
  line : lexed.1 = actual.1 ↔ oneLine
  column_le : oneLine → actual.2 ≤ lexed.2
  column : oneLine → (lexed.2 = actual.2 ↔ closed)

/-- A piece without quotes and newlines. -/
theorem Tracks.shift {lexed actual : Nat × Nat} {oneLine oneLine' closed closed' : Prop}
    (h : Tracks lexed actual oneLine closed) (n : Nat) (hline : oneLine' ↔ oneLine)
    (hclosed : closed' ↔ closed) :
    Tracks (lexed.1, lexed.2 + n) (actual.1, actual.2 + n) oneLine' closed' := by
  refine ⟨h.le, h.line.trans hline.symm, ?_, ?_⟩
  · intro hone
    exact Nat.add_le_add_right (h.column_le (hline.mp hone)) n
  · intro hone
    have hcolumn := h.column (hline.mp hone)
    show lexed.2 + n = actual.2 + n ↔ closed'
    rw [hclosed, ← hcolumn]
    omega

/-- A newline outside quotes: both positions start a line. -/
theorem Tracks.newline {lexed actual : Nat × Nat} {oneLine oneLine' closed closed' : Prop}
    (h : Tracks lexed actual oneLine closed) (hline : oneLine' ↔ oneLine) (hclosed : closed') :
    Tracks (lexed.1 + 1, 1) (actual.1 + 1, 1) oneLine' closed' := by
  refine ⟨Nat.succ_le_succ h.le, ?_, fun _ => Nat.le_refl 1, fun _ => iff_of_true rfl hclosed⟩
  rw [hline, ← h.line]
  exact Nat.succ_inj

/-- A quoted text with a newline: the lexer's line stays behind for good. -/
theorem Tracks.behind {lexed actual actual' : Nat × Nat}
    {oneLine oneLine' closed closed' : Prop} (h : Tracks lexed actual oneLine closed)
    (column : Nat) (hactual : actual.1 < actual'.1) (hnot : ¬ oneLine') :
    Tracks (lexed.1, column) actual' oneLine' closed' := by
  have hlt : lexed.1 < actual'.1 := Nat.lt_of_le_of_lt h.le hactual
  refine ⟨Nat.le_of_lt hlt, iff_of_false (Nat.ne_of_lt hlt) hnot, ?_, ?_⟩
  · exact fun hone => absurd hone hnot
  · exact fun hone => absurd hone hnot

/-- A quoted text on one line: the lexer's column is ahead until the next newline. -/
theorem Tracks.ahead {lexed actual : Nat × Nat} {oneLine oneLine' closed closed' : Prop}
    (h : Tracks lexed actual oneLine closed) {m n : Nat} (hmn : n < m)
    (hline : oneLine' ↔ oneLine) (hnot : ¬ closed') :
    Tracks (lexed.1, lexed.2 + m) (actual.1, actual.2 + n) oneLine' closed' := by
  refine ⟨h.le, h.line.trans hline.symm, ?_, ?_⟩
  · intro hone
    exact Nat.add_le_add (h.column_le (hline.mp hone)) (Nat.le_of_lt hmn)
  · intro hone
    have hcolumn := h.column_le (hline.mp hone)
    apply iff_of_false _ hnot
    show lexed.2 + m ≠ actual.2 + n
    omega

theorem oneLineQuotes_concat_plain (pieces : List LexPiece) {piece : LexPiece}
    (hpiece : ∀ start close body, piece ≠ .quoted start close body) :
    OneLineQuotes (pieces ++ [piece]) ↔ OneLineQuotes pieces := by
  rw [oneLineQuotes_concat, and_iff_left_iff_imp]
  intro _ start close body hmem
  exact absurd (List.mem_singleton.mp hmem).symm (hpiece start close body)

theorem lexedPosition_tracks {pieces : List LexPiece} (hclean : ∀ piece ∈ pieces, piece.Clean) :
    Tracks (lexedPosition pieces) (textPosition (piecesText pieces)) (OneLineQuotes pieces)
      (ClosedLines pieces) := by
  induction pieces using List.reverseRecOn with
  | nil =>
    have hone : OneLineQuotes [] := fun _ _ _ hmem => absurd hmem List.not_mem_nil
    have hclosed : ClosedLines [] := by
      intro before start close body after hsplit
      exact absurd hsplit.symm (by simp)
    exact ⟨Nat.le_refl 1, iff_of_true rfl hone, fun _ => Nat.le_refl 1,
      fun _ => iff_of_true rfl hclosed⟩
  | append_singleton pieces piece ih =>
    -- from the end, since a position is a fact about what comes before
    rw [List.forall_mem_append, List.forall_mem_singleton] at hclean
    have htracks := ih hclean.1
    have hpiece := hclean.2
    rw [lexedPosition_concat, piecesText_concat]
    cases piece with
    | blank c =>
      have hquote : ∀ start close body, LexPiece.blank c ≠ .quoted start close body := by
        intro _ _ _ heq
        cases heq
      have hone := oneLineQuotes_concat_plain pieces hquote
      have hclosed := closedLines_concat pieces hquote
      rw [LexPiece.advance, LexPiece.text]
      by_cases hc : c = ch '\n'
      · rw [LexPiece.text, hc, List.mem_singleton] at hclosed
        rw [if_pos hc, hc, textPosition_newline]
        exact htracks.newline (hc ▸ hone) (hclosed.mpr (.inl rfl))
      · have hnot : ch '\n' ∉ [c] := by
          rw [List.mem_singleton]
          exact Ne.symm hc
        rw [LexPiece.text, or_iff_right hnot] at hclosed
        rw [if_neg hc, textPosition_append hnot]
        exact htracks.shift 1 hone hclosed
    | plain text =>
      have hquote : ∀ start close body, LexPiece.plain text ≠ .quoted start close body := by
        intro _ _ _ heq
        cases heq
      have hone := oneLineQuotes_concat_plain pieces hquote
      have hclosed := closedLines_concat pieces hquote
      rw [LexPiece.text, or_iff_right hpiece] at hclosed
      rw [LexPiece.advance, LexPiece.text, textPosition_append hpiece]
      exact htracks.shift text.length hone hclosed
    | quoted start close body =>
      have hone : OneLineQuotes (pieces ++ [.quoted start close body]) ↔
          OneLineQuotes pieces ∧ ch '\n' ∉ body := by
        rw [oneLineQuotes_concat]
        refine and_congr_right fun _ => ⟨fun h => h start close body List.mem_cons_self, ?_⟩
        intro hbody _ _ _ hmem
        cases List.mem_singleton.mp hmem
        exact hbody
      have hclosed := closedLines_concat_quoted pieces start close body
      rw [LexPiece.advance, LexPiece.text]
      by_cases hbody : ch '\n' ∈ body
      · have hcount : 0 < (start :: (body ++ [close])).count (ch '\n') :=
          List.count_pos_iff.mpr (List.mem_cons_of_mem _ (List.mem_append_left _ hbody))
        apply htracks.behind
        · rw [textPosition, textPosition, List.count_append]
          omega
        · rw [hone, not_and_not_right]
          exact fun _ => hbody
      · have hnot : ch '\n' ∉ start :: (body ++ [close]) := by
          rw [List.mem_cons, List.mem_append, List.mem_singleton, not_or, not_or]
          exact ⟨Ne.symm hpiece.1, hbody, Ne.symm hpiece.2⟩
        rw [textPosition_append hnot, List.length_cons, List.length_append, List.length_singleton]
        exact htracks.ahead (by omega) (hone.trans (and_iff_left hbody)) hclosed

/-- The first error, at an unrecognised byte, is recorded with the line and column of that byte
just if no quoted text before it has a newline or is on its line. -/
theorem lexer_error_position_iff (source : Bytes) (pieces : List LexPiece)
    (hreads : Reads .eof source pieces) :
    (∃ lexer saved, LexCalls source lexer saved ∧ lexer.hasError = true) ∧
      ∀ lexer saved, LexCalls source lexer saved → lexer.hasError = true →
        ((lexer.errorLine, lexer.errorCol) = textPosition (piecesText pieces) ↔
          QuotesBehind pieces) := by
  constructor
  · exact error_reached .create rfl rfl hreads
  · intro lexer saved hcalls herror
    have htracks := lexedPosition_tracks hreads.clean
    rw [(PositionOk.of_calls hreads hcalls).position herror, quotesBehind_iff, Prod.ext_iff,
      htracks.line]
    exact and_congr_right htracks.column

theorem lexer_error_position_literal :
    (∃ lexer saved, LexCalls (ascii "'a'\n#") lexer saved ∧ lexer.hasError = true) ∧
      ∀ lexer saved, LexCalls (ascii "'a'\n#") lexer saved → lexer.hasError = true →
        ((lexer.errorLine, lexer.errorCol) = textPosition (ascii "'a'\n") ↔
          QuotesBehind [.quoted (ch '\'') (ch '\'') [ch 'a'], .blank (ch '\n')]) := by
  have hstop : Unrecognised (ch '#') none := by
    refine ⟨?_, ?_, ?_, ?_, ?_, ?_, ?_, ?_⟩
    · unfold IsBlank
      decide
    all_goals decide
  have hblank : IsBlank (ch '\n') := .inr (.inr (.inl rfl))
  have hquote : ch '\'' ∉ [ch 'a'] := by decide
  exact lexer_error_position_iff _ _ (.literal hquote (.blank hblank (.stop hstop)))

/-- A literal on the line of the unrecognised byte moves the column. -/
theorem literal_moves_column :
    let lexer := (snobolLexerNext (snobolLexerNext (snobolLexerCreate (ascii "'a'#"))).2).2
    lexer.hasError = true ∧ lexer.errorLine = 1 ∧ lexer.errorCol = 6 ∧
      textPosition (ascii "'a'") = (1, 4) := by
  refine ⟨?_, ?_, ?_, ?_⟩ <;> decide

end Snobol4
