import Mathlib.Data.Nat.Digits.Defs
import Snobol4.LexerReads
import Snobol4.RegisterRange

/-!
# WrittenIntegers — the value of a run of digits (`lexer.c`, `parser.c`)

The accumulator of `scan_integer` has 64 bits and wraps, but only behind the digit at which the
overflow is noted, and that is the first one with which the number is too large.  What the
parser takes as an argument is the number that was written.
-/

namespace Snobol4

open Fueled SnobolLexer

/-! ## With 64 bits -/

/-- The digit loop of `scan_integer` on its `int64_t`. -/
def scanDigits64 : Bytes → SnobolLexer → Int64 → Bool → Int64 × Bool × SnobolLexer
  | [], lexer, value, overflow => (value, overflow, lexer)
  | c :: rest, lexer, value, overflow =>
      if isDigit c then
        let d := Int64.ofInt ((c.toNat : Int) - (ch '0').toNat)
        scanDigits64 rest lexer.bump (value * 10 + d)
          (overflow || decide (value > (Int64.maxValue - d) / 10))
      else (value, overflow, lexer)

/-- `scan_integer` on its `int64_t`. -/
def scanInteger64 (lexer : SnobolLexer) (negative : Bool) : Token × SnobolLexer :=
  match scanDigits64 lexer.rest lexer 0 false with
  | (_, true, lexer) =>
      let lexer :=
        if lexer.hasError then lexer
        else
          { lexer with
            hasError := true
            errorLine := lexer.line
            errorCol := lexer.column
            errorMsg := ascii s!"integer literal too large (64-bit overflow) at line {lexer.line}, column {lexer.column}" }
      (.error, lexer)
  | (value, false, lexer) => (.integer (if negative then -value else value).toInt, lexer)

theorem digit_le {c : UInt8} (hc : isDigit c = true) :
    (c.toNat : Int) - (ch '0').toNat ≤ 9 := by
  rw [isDigit, Bool.and_eq_true, decide_eq_true_eq, decide_eq_true_eq] at hc
  have hle : c.toNat ≤ (ch '9').toNat := UInt8.le_iff_toNat_le.mp hc.2
  have hnine : (ch '9').toNat = 57 := rfl
  have hzero : (ch '0').toNat = 48 := rfl
  omega

theorem toInt_ofInt64 {v : Int} (hv : -9223372036854775808 ≤ v ∧ v ≤ int64Max) :
    (Int64.ofInt v).toInt = v := by
  unfold int64Max at hv
  exact Int64.toInt_ofInt_of_le (by omega) (by omega)

/-- The overflow test computes within 64 bits. -/
theorem overflow_test {v d : Int} (hv : 0 ≤ v ∧ v ≤ int64Max) (hd : 0 ≤ d ∧ d ≤ 9) :
    Int64.ofInt v > (Int64.maxValue - Int64.ofInt d) / 10 ↔ v > (int64Max - d) / 10 := by
  have hmax : Int64.maxValue = Int64.ofInt int64Max := rfl
  have hten : (10 : Int64) = Int64.ofInt 10 := rfl
  have hdiv : (Int64.maxValue - Int64.ofInt d) / 10 = Int64.ofInt ((int64Max - d) / 10) := by
    have hquot : (int64Max - d) / 10 = (int64Max - d).tdiv 10 := by
      rw [Int.tdiv_eq_ediv_of_nonneg]
      unfold int64Max
      omega
    rw [hquot, hmax, hten, ← Int64.ofInt_sub]
    have hlow : Int64.minValue.toInt = -9223372036854775808 := rfl
    have hhigh : Int64.maxValue.toInt = 9223372036854775807 := rfl
    refine (Int64.ofInt_tdiv ?_ ?_ (by decide) (by decide)).symm <;>
    · unfold int64Max
      omega
  rw [hdiv, gt_iff_lt, gt_iff_lt, Int64.lt_iff_toInt_lt, toInt_ofInt64, toInt_ofInt64]
  · unfold int64Max at hv ⊢
    omega
  · unfold int64Max at hv ⊢
    omega

/-- The loop on 64 bits is the one on integers, modulo `2 ^ 64`, and notes an overflow where
that one does. -/
theorem scanDigits64_eq (text : Bytes) (lexer : SnobolLexer) {value : Int} {overflow : Bool}
    (hvalue : overflow = false → 0 ≤ value ∧ value ≤ int64Max) :
    scanDigits64 text lexer (Int64.ofInt value) overflow =
      (Int64.ofInt (scanDigits text lexer value overflow).1,
        (scanDigits text lexer value overflow).2) ∧
    ((scanDigits text lexer value overflow).2.1 = false →
      0 ≤ (scanDigits text lexer value overflow).1 ∧
        (scanDigits text lexer value overflow).1 ≤ int64Max) := by
  induction text generalizing lexer value overflow with
  | nil => exact ⟨rfl, hvalue⟩
  | cons c text ih =>
    rw [scanDigits64, scanDigits]
    by_cases hc : isDigit c = true
    · rw [if_pos hc, if_pos hc]
      have hd := And.intro (digit_nonneg hc) (digit_le hc)
      generalize (c.toNat : Int) - (ch '0').toNat = d at hd
      have hnext : Int64.ofInt value * 10 + Int64.ofInt d = Int64.ofInt (value * 10 + d) := by
        rw [Int64.ofInt_add, Int64.ofInt_mul]
        rfl
      have htest :
          (overflow || decide (Int64.ofInt value > (Int64.maxValue - Int64.ofInt d) / 10)) =
            (overflow || decide (value > (int64Max - d) / 10)) := by
        cases overflow with
        | true => rfl
        | false => rw [decide_eq_decide.mpr (overflow_test (hvalue rfl) hd)]
      dsimp only
      rw [hnext, htest]
      apply ih
      intro hnone
      rw [Bool.or_eq_false_iff, decide_eq_false_iff_not] at hnone
      obtain ⟨hnonneg, -⟩ := hvalue hnone.1
      exact ⟨by omega, by omega⟩
    · rw [if_neg hc, if_neg hc]
      exact ⟨rfl, hvalue⟩

theorem scanInteger64_eq (lexer : SnobolLexer) (negative : Bool) :
    scanInteger64 lexer negative = scanInteger lexer negative := by
  obtain ⟨hscan, hrange⟩ := @scanDigits64_eq lexer.rest lexer 0 false fun _ => by decide
  have hzero : Int64.ofInt 0 = 0 := rfl
  rw [hzero] at hscan
  rw [scanInteger64, scanInteger, hscan]
  rcases hdigits : scanDigits lexer.rest lexer 0 false with ⟨value, _ | _, lexer'⟩
  · rw [hdigits] at hrange
    obtain ⟨hnonneg, hle⟩ := hrange rfl
    have hpos := toInt_ofInt64 (v := value) (by dsimp only at hnonneg hle; omega)
    have hneg := toInt_ofInt64 (v := -value) (by unfold int64Max at *; dsimp only at *; omega)
    cases negative with
    | true =>
      dsimp only
      rw [if_pos rfl, if_pos rfl, ← Int64.ofInt_neg, hneg]
    | false =>
      dsimp only
      rw [if_neg Bool.false_ne_true, if_neg Bool.false_ne_true, hpos]
  · rfl

/-! ## The number and the token -/

/-- The number that digits write, perhaps with a minus sign before them. -/
def writtenValue (negative : Bool) (digits : Bytes) : Int :=
  let magnitude : Nat := Nat.ofDigits 10 (digits.reverse.map fun c => c.toNat - (ch '0').toNat)
  if negative then -(magnitude : Int) else magnitude

theorem decimalFrom_eq {digits : Bytes} (hdigits : ∀ b ∈ digits, isDigit b = true) :
    decimalFrom 0 digits = writtenValue false digits := by
  induction digits using List.reverseRecOn with
  | nil => rfl
  | append_singleton digits c ih =>
    rw [List.forall_mem_append, List.forall_mem_singleton] at hdigits
    have hd := digit_nonneg hdigits.2
    have happend : decimalFrom 0 (digits ++ [c]) =
        decimalFrom 0 digits * 10 + ((c.toNat : Int) - (ch '0').toNat) :=
      List.foldl_append
    rw [happend, ih hdigits.1]
    simp only [writtenValue, Bool.false_eq_true, if_false, List.reverse_append,
      List.reverse_singleton, List.singleton_append, List.map_cons, Nat.ofDigits_cons]
    push_cast
    omega

theorem abs_writtenValue {negative : Bool} {digits : Bytes} :
    |writtenValue negative digits| = writtenValue false digits := by
  cases negative with
  | true => exact (abs_neg _).trans (abs_of_nonneg (Int.natCast_nonneg _))
  | false => exact abs_of_nonneg (Int.natCast_nonneg _)

section scan

variable {digits rest : Bytes} {lexer : SnobolLexer} {negative : Bool}

/-- A number of 64 bits is read. -/
theorem scanInteger_fitting (hdigits : ∀ b ∈ digits, isDigit b = true)
    (hstop : ∀ b ∈ rest.head?, isDigit b = false) (hlexer : lexer.rest = digits ++ rest)
    (hfits : |writtenValue negative digits| ≤ int64Max) :
    (scanInteger lexer negative).1 = .integer (writtenValue negative digits) := by
  rw [abs_writtenValue, ← decimalFrom_eq hdigits] at hfits
  rw [scanInteger, hlexer, scanDigits_eq hdigits hstop (Int.le_refl 0) hfits,
    decimalFrom_eq hdigits]
  cases negative <;> rfl

/-- A larger one is an error. -/
theorem scanInteger_large (hdigits : ∀ b ∈ digits, isDigit b = true)
    (hlexer : lexer.rest = digits ++ rest)
    (hlarge : int64Max < |writtenValue negative digits|) :
    (scanInteger lexer negative).1 = .error ∧ (scanInteger lexer negative).2.hasError = true := by
  rw [abs_writtenValue, ← decimalFrom_eq hdigits] at hlarge
  rw [scanInteger, hlexer]
  rcases hscan : scanDigits (digits ++ rest) lexer 0 false with ⟨value, _ | _, lexer'⟩
  · have hnone : (scanDigits (digits ++ rest) lexer 0 false).2.1 = false := by rw [hscan]
    have hfits := scanDigits_fits hdigits (by decide) hnone
    omega
  · refine ⟨rfl, ?_⟩
    dsimp only
    split
    · assumption
    · rfl

end scan

/-- At the lexer, behind blanks, digits are written, perhaps with a minus sign before them. -/
structure DigitsAt (lexer : SnobolLexer) (negative : Bool) (digits rest : Bytes) : Prop where
  text : (skipWhitespace lexer).rest =
    (if negative then ch '-' :: (digits ++ rest) else digits ++ rest)
  ne : digits ≠ []
  digits : ∀ b ∈ digits, isDigit b = true
  stop : ∀ b ∈ rest.head?, isDigit b = false

/-- The lexer has met no error and has not looked ahead. -/
structure Unread (lexer : SnobolLexer) : Prop where
  error : lexer.hasError = false
  peek : lexer.hasPeek = false

section tokens

variable {lexer : SnobolLexer} {negative : Bool} {digits rest : Bytes}

/-- Such a number is what the next call scans. -/
theorem DigitsAt.next (h : DigitsAt lexer negative digits rest) (hunread : Unread lexer) :
    ∃ lexer', lexer'.rest = digits ++ rest ∧
      snobolLexerNext lexer = returning (scanInteger lexer' negative) := by
  obtain ⟨d, digits', rfl⟩ := List.exists_cons_of_ne_nil h.ne
  have hd : isDigit d = true := h.digits d List.mem_cons_self
  have htext := h.text
  rw [snobolLexerNext, hunread.error, hunread.peek, if_neg Bool.false_ne_true,
    if_neg Bool.false_ne_true]
  dsimp only
  cases negative with
  | true =>
    rw [if_pos rfl] at htext
    rw [htext]
    refine ⟨(skipWhitespace lexer).bump, rest_bump htext, ?_⟩
    dsimp only
    rw [if_neg (by decide), scanToken, show singleCharTokens.lookup (ch '-') = none from rfl]
    dsimp only
    rw [if_neg (by decide), if_neg (by decide), if_neg (by decide), if_neg (by decide),
      if_pos ⟨rfl, hd⟩]
  | false =>
    rw [if_neg Bool.false_ne_true] at htext
    rw [htext]
    obtain ⟨hnul, hbracket, hquote⟩ := isDigit_apart hd
    refine ⟨skipWhitespace lexer, htext, ?_⟩
    rw [List.cons_append]
    dsimp only
    rw [if_neg hnul, scanToken, singleCharTokens_none (.inr hd)]
    dsimp only
    rw [if_neg hbracket, if_neg hquote, isIdentStart_of_isDigit hd, if_neg Bool.false_ne_true,
      if_pos hd]

theorem scanUntil_ne_integer (close : UInt8) {token : Bytes → Token}
    (htoken : ∀ body v, token body ≠ .integer v) (start : Nat) (text : Bytes) (v : Int) :
    (scanUntil close token start text lexer).1 ≠ .integer v := by
  obtain ⟨-, content, hscan⟩ := scanUntil_scanned close token start text lexer
  rw [hscan]
  exact htoken content v

/-- A number is the only text with an integer for its token. -/
theorem exists_digitsAt (hunread : Unread lexer) {v : Int}
    (h : (snobolLexerNext lexer).1 = .integer v) :
    ∃ negative digits rest, DigitsAt lexer negative digits rest := by
  rw [snobolLexerNext, hunread.error, hunread.peek, if_neg Bool.false_ne_true,
    if_neg Bool.false_ne_true] at h
  dsimp only at h
  cases hrest : (skipWhitespace lexer).rest with
  | nil =>
    rw [hrest] at h
    cases h
  | cons c text =>
    rw [hrest] at h
    dsimp only at h
    split at h
    · cases h
    unfold scanToken at h
    -- in the order of the tests of the switch
    cases hlookup : singleCharTokens.lookup c with
    | some tok =>
      rw [hlookup] at h
      have hall : ∀ entry ∈ singleCharTokens, entry.2.type ≠ .integer := by decide
      obtain ⟨before, after, hsplit, -⟩ := List.lookup_eq_some_iff.1 hlookup
      exact absurd (congrArg Token.type h) (hall (c, tok) (by simp [hsplit]))
    | none =>
      rw [hlookup] at h
      dsimp only at h
      split_ifs at h with hbracket hkey hquote hident hdigit hminus
      · cases h
      · exact absurd h (scanUntil_ne_integer _ (fun _ _ h => by cases h) _ _ v)
      · exact absurd h (scanUntil_ne_integer _ (fun _ _ h => by cases h) _ _ v)
      · obtain ⟨-, name, hname⟩ := scanIdentFrom_scanned (skipWhitespace lexer).pos
          (skipWhitespace lexer).rest (skipWhitespace lexer)
        cases hname.symm.trans h
      · obtain ⟨digits, rest, rfl, hdigits, hstop⟩ := exists_front isDigit text
        refine ⟨false, c :: digits, rest, hrest, List.cons_ne_nil c digits, ?_, hstop⟩
        exact List.forall_mem_cons.mpr ⟨hdigit, hdigits⟩
      · obtain ⟨rfl, hnext⟩ := hminus
        cases text with
        | nil => cases hnext
        | cons d text =>
          obtain ⟨digits, rest, rfl, hdigits, hstop⟩ := exists_front isDigit text
          refine ⟨true, d :: digits, rest, hrest, List.cons_ne_nil d digits, ?_, hstop⟩
          exact List.forall_mem_cons.mpr ⟨hnext, hdigits⟩
      · cases h

end tokens

/-! ## What the parser takes -/

/-- The token of the source with this index is written as the number. -/
def IntegerAt (source : Bytes) (i : Nat) (v : Int) : Prop :=
  ∃ negative digits rest,
    DigitsAt (lexerAt source i) negative digits rest ∧ v = writtenValue negative digits

section parser

variable {source : Bytes} {i : Nat} {s s' : Parsing} {v : Int} {n : Int32}

/-- Before a token the lexer is unread. -/
theorem Cursor.unread (h : Cursor source i s) : Unread (lexerAt source i) := by
  have herror : (lexerAt source i).hasError = false := by
    rcases h.lexer with hlexer | hlexer
    · rw [← hlexer]
      exact h.error
    · have hpeek := h.error
      rw [hlexer] at hpeek
      by_contra htrue
      rw [Bool.not_eq_false] at htrue
      unfold snobolLexerPeek at hpeek
      rw [snobolLexerNext_sticky htrue] at hpeek
      split at hpeek
      · rw [htrue] at hpeek
        cases hpeek
      · rw [show _ = true from htrue] at hpeek
        cases hpeek
  refine ⟨herror, ?_⟩
  cases i with
  | zero => rfl
  | succ i =>
    -- the token before was taken, or an error is recorded
    rw [lexerAt] at herror ⊢
    cases hprev : (snobolLexerPeek (lexerAt source i)).2.hasError with
    | true =>
      rw [snobolLexerNext_sticky hprev, hprev] at herror
      cases herror
    | false =>
      rw [snobolLexerNext, hprev, if_neg Bool.false_ne_true, if_pos (peek_hasPeek _)]

theorem tokenAt_eq (hunread : Unread (lexerAt source i)) :
    tokenAt source i = (snobolLexerNext (lexerAt source i)).1 := by
  rw [tokenAt, snobolLexerPeek, hunread.peek, if_neg Bool.false_ne_true]

/-- The token of a number. -/
theorem IntegerAt.token (h : IntegerAt source i v) (hunread : Unread (lexerAt source i)) :
    tokenAt source i = if |v| ≤ int64Max then .integer v else .error := by
  obtain ⟨negative, digits, rest, hdigits, rfl⟩ := h
  obtain ⟨lexer, hlexer, hnext⟩ := hdigits.next hunread
  rw [tokenAt_eq hunread, hnext, returning]
  split
  · rename_i hfits
    exact scanInteger_fitting hdigits.digits hdigits.stop hlexer hfits
  · rename_i hlarge
    exact (scanInteger_large hdigits.digits hlexer (not_le.mp hlarge)).1

/-- The number of an integer token. -/
theorem integerAt_of_token (hunread : Unread (lexerAt source i))
    (h : tokenAt source i = .integer v) : IntegerAt source i v := by
  rw [tokenAt_eq hunread] at h
  obtain ⟨negative, digits, rest, hdigits⟩ := exists_digitsAt hunread h
  have hwritten : IntegerAt source i (writtenValue negative digits) :=
    ⟨negative, digits, rest, hdigits, rfl⟩
  have htoken := hwritten.token hunread
  rw [tokenAt_eq hunread, h] at htoken
  split at htoken
  · cases htoken
    exact hwritten
  · cases htoken

theorem toInt_ofInt32 (hv : -2147483648 ≤ v ∧ v ≤ 2147483647) : (Int32.ofInt v).toInt = v :=
  Int32.toInt_ofInt_of_le (by omega) (by omega)

/-- An argument is returned exactly at an integer token that fits 32 bits. -/
theorem parseIntegerArg_iff (h : Cursor source i s) (func : String) :
    Parse.parseIntegerArg func s = (.ret n, s') ↔
      tokenAt source i = .integer n.toInt ∧ s' = advanced (peeked s) := by
  rw [Parse.parseIntegerArg, bind_apply, h.peek_run]
  have hfail : ∀ {msg}, (Parse.failWith msg : Parse Int32) (peeked s) ≠ (.ret n, s') :=
    fun h => by cases h
  generalize tokenAt source i = tok
  cases tok with
  | integer v =>
    show (if v < -2147483648 ∨ v > 2147483647 then Parse.failWith _ else _) _ = _ ↔ _
    split
    · rename_i hlarge
      refine iff_of_false hfail fun hn => ?_
      cases hn.1
      have := n.toInt_lt
      have := n.le_toInt
      omega
    · rename_i hfits
      show (Outcome.ret (Int32.ofInt v), advanced (peeked s)) = (Outcome.ret n, s') ↔ _
      rw [Prod.mk.injEq, Outcome.ret.injEq, Token.integer.injEq, eq_comm (a := s'),
        ← Int32.toInt_inj, toInt_ofInt32 (by omega)]
  | error =>
    refine iff_of_false (fun hret => ?_) fun hn => by cases hn.1
    change (if (peeked s).lexer.hasError then Parse.failLexically else Parse.failWith _) _ = _
      at hret
    split at hret
    · cases hret
    · exact hfail hret
  | _ => exact iff_of_false hfail fun hn => by cases hn.1

/-- The parser accepts a number as an argument exactly if it fits 32 bits. -/
theorem parseIntegerArg_accepts (h : Cursor source i s) (hv : IntegerAt source i v)
    (func : String) :
    (∃ n s', Parse.parseIntegerArg func s = (.ret n, s')) ↔
      -2147483648 ≤ v ∧ v ≤ 2147483647 := by
  have htoken := hv.token h.unread
  constructor
  · rintro ⟨n, s', hret⟩
    rw [((parseIntegerArg_iff h func).mp hret).1] at htoken
    split at htoken
    · cases htoken
      exact ⟨n.le_toInt, Int.le_of_lt_add_one n.toInt_lt⟩
    · cases htoken
  · intro hfits
    have hsmall : |v| ≤ int64Max := by
      unfold int64Max
      rw [abs_le]
      omega
    refine ⟨Int32.ofInt v, _, (parseIntegerArg_iff h func).mpr ⟨?_, rfl⟩⟩
    rw [htoken, if_pos hsmall, toInt_ofInt32 hfits]

/-- What it returns is what is written. -/
theorem parseIntegerArg_written (h : Cursor source i s) {func : String}
    (hret : Parse.parseIntegerArg func s = (.ret n, s')) : IntegerAt source i n.toInt :=
  integerAt_of_token h.unread ((parseIntegerArg_iff h func).mp hret).1

/-- The node of a builtin with an integer argument holds what is written. -/
theorem parseIntCall_written (h : Cursor source i s) {func : String} {create : Int32 → AstNode}
    {node : AstNode} (hret : Parse.parseIntCall func create s = (.ret node, s')) :
    ∃ n, node = create n ∧ IntegerAt source i n.toInt := by
  obtain ⟨n, s₁, harg, hret⟩ := bind_eq_ret.mp hret
  obtain ⟨⟨⟩, s₂, -, hret⟩ := bind_eq_ret.mp hret
  cases hret
  exact ⟨n, rfl, parseIntegerArg_written h harg⟩

/-- The token before which the parser stands is taken. -/
theorem Cursor.take (h : Cursor source i s) (herror : tokenAt source i ≠ .error)
    (heof : tokenAt source i ≠ .eof) :
    Cursor source (i + 1) (Snobol4.advanced (Snobol4.peeked s)) := by
  rcases h.peeked with hdead | ⟨hcursor, hseen⟩
  · -- the error would be the token
    have hlexer : (Snobol4.peeked s).lexer = (snobolLexerPeek (lexerAt source i)).2 :=
      congrArg Prod.snd h.peek_eq
    have htoken := peek_error h.unread.error (hlexer ▸ hdead.error)
    rw [snobolLexerPeek, h.unread.peek, if_neg Bool.false_ne_true] at htoken
    exact absurd ((tokenAt_eq h.unread).trans htoken) herror
  · exact hcursor.advanced hseen heof

theorem Cursor.expect_ret (h : Cursor source i s) {type : TokenType} (herror : type ≠ .error)
    (heof : type ≠ .eof) (hret : Parse.expect type s = (.ret (), s')) :
    Cursor source (i + 1) s' := by
  rw [Parse.expect, bind_apply, h.peek_run] at hret
  dsimp only at hret
  split at hret
  · rename_i htype
    cases hret
    refine h.take (fun htoken => herror ?_) fun htoken => heof ?_
    · rw [← htype, htoken]
      rfl
    · rw [← htype, htoken]
      rfl
  · simp only [bind_apply, Parse.isLexicalError, Fueled.read, Pure.pure, Fueled.pure] at hret
    split_ifs at hret <;> cases hret

/-- After an argument the parser stands before the next token. -/
theorem Cursor.parseIntegerArg_ret (h : Cursor source i s) {func : String}
    (hret : Parse.parseIntegerArg func s = (.ret n, s')) :
    Cursor source (i + 1) s' := by
  obtain ⟨htoken, rfl⟩ := (parseIntegerArg_iff h func).mp hret
  refine h.take ?_ ?_ <;>
  · rw [htoken]
    exact fun h => by cases h

theorem expect_peeked (type : TokenType) (s : Parsing) :
    Parse.expect type (peeked s) = Parse.expect type s := by
  have hpeek : Parse.peek (peeked s) = Parse.peek s := by
    show (Outcome.ret (snobolLexerPeek (snobolLexerPeek s.lexer).2).1,
      { s with lexer := (snobolLexerPeek (snobolLexerPeek s.lexer).2).2 }) = _
    rw [peek_again]
    rfl
  rw [Parse.expect, bind_apply, bind_apply, hpeek]

/-- The bounds of a repetition are what is written, if no lexical error is met. -/
theorem parseRepeatCall_written {call : Rule → Parse AstNode} (hc : CallsMark source call)
    (h : Cursor source i s) (hbehind : Behind source .lparen i) {node : AstNode}
    (hret : Parse.parseRepeatCall call s = (.ret node, s')) (herror : s'.lexer.hasError = false) :
    ∃ sub min max j, i ≤ j ∧ node = .repetition sub min max ∧ IntegerAt source (j + 1) min.toInt ∧
      IntegerAt source (j + 3) max.toInt := by
  have hclear : Clear source i := hbehind.clear fun h => by cases h
  obtain ⟨closed, s₁, hmatch, hret⟩ := bind_eq_ret.mp hret
  obtain rfl : peeked s = s₁ := congrArg Prod.snd hmatch
  split at hret
  · cases hret
  obtain ⟨sub, s₂, hcall, hret⟩ := bind_eq_ret.mp hret
  have hreached : Dead s₂ ∨ ∃ j, i ≤ j ∧ Cursor source j s₂ := by
    rcases h.peeked with hdead | ⟨hcursor, -⟩
    · exact .inl (((hc.marks .repetition).dead _ hdead).of_ret hcall)
    · have hmarks := (hc.marks .repetition).alive i _ hcursor hclear fun _ h => by cases h
      rcases hmarks.of_ret hcall with hdead | ⟨j, hij, hcursor', -⟩
      · exact .inl hdead
      · exact .inr ⟨j, hij, hcursor'⟩
  rcases hreached with hdead | ⟨j, hij, hcursor⟩
  · -- an error stays
    have hdead' : Dead s' := ((@marks_repeatBounds source _ sub).dead s₂ hdead).of_ret hret
    rw [hdead'.error] at herror
    cases herror
  · obtain ⟨⟨⟩, s₃, hcomma, hret⟩ := bind_eq_ret.mp hret
    have hcursor₃ := hcursor.expect_ret (by decide) (by decide) hcomma
    obtain ⟨min, s₄, hmin, hret⟩ := bind_eq_ret.mp hret
    have hcursor₄ := hcursor₃.parseIntegerArg_ret hmin
    obtain ⟨closed, s₅, hmatch, hret⟩ := bind_eq_ret.mp hret
    obtain rfl : peeked s₄ = s₅ := congrArg Prod.snd hmatch
    split at hret
    · cases hret
    obtain ⟨⟨⟩, s₆, hcomma, hret⟩ := bind_eq_ret.mp hret
    rw [expect_peeked] at hcomma
    have hcursor₆ := hcursor₄.expect_ret (by decide) (by decide) hcomma
    obtain ⟨max, s₇, hmax, hret⟩ := bind_eq_ret.mp hret
    obtain ⟨⟨⟩, s₈, -, hret⟩ := bind_eq_ret.mp hret
    refine ⟨sub, min, max, j, hij, ?_, parseIntegerArg_written hcursor₃ hmin,
      parseIntegerArg_written hcursor₆ hmax⟩
    unfold Parse.makeRepeat at hret
    split_ifs at hret
    · cases hret
    · cases hret
    · cases hret
      rfl

/-- The register that is assigned is what is written behind the `=`. -/
theorem parseTableOrAssign_written {call : Rule → Parse AstNode} (h : Cursor source i s)
    (hequals : tokenAt source i = .equals) {name : Bytes} {node : AstNode}
    (hret : Parse.parseTableOrAssign call name s = (.ret node, s')) :
    ∃ var reg, node = .assign var reg ∧ IntegerAt source (i + 1) reg.toInt := by
  have hbehind : Cursor source (i + 1) (Snobol4.advanced (Snobol4.peeked s)) := by
    refine h.take ?_ ?_ <;>
    · rw [hequals]
      exact fun h => by cases h
  rw [Parse.parseTableOrAssign, bind_apply, h.peek_run, hequals] at hret
  change Parse.parseAssign name (Snobol4.peeked s) = _ at hret
  obtain ⟨⟨⟩, s₁, hadvance, hret⟩ := bind_eq_ret.mp hret
  obtain rfl : Snobol4.advanced (Snobol4.peeked s) = s₁ := congrArg Prod.snd hadvance
  obtain ⟨s₂, s₃, hread, hret⟩ := bind_eq_ret.mp hret
  cases hread
  cases htarget : Parse.assignTarget (Snobol4.advanced (Snobol4.peeked s)).parser name with
  | none =>
    rw [htarget] at hret
    cases hret
  | some var =>
    rw [htarget] at hret
    obtain ⟨tok, s₄, hpeek, hret⟩ := bind_eq_ret.mp hret
    rw [hbehind.peek_run] at hpeek
    cases hpeek
    cases htoken : tokenAt source (i + 1) with
    | integer v =>
      rw [htoken] at hret
      dsimp only at hret
      split_ifs at hret with hrange
      · cases hret
      obtain ⟨⟨⟩, s₅, -, hret⟩ := bind_eq_ret.mp hret
      cases hret
      have hmax : (maxVars : Int) = 64 := rfl
      have hreg : (Int32.ofInt v).toInt = v := toInt_ofInt32 (by omega)
      exact ⟨_, _, rfl, hreg.symm ▸ integerAt_of_token hbehind.unread htoken⟩
    | _ =>
      rw [htoken] at hret
      cases hret

end parser

/-- A run of digits is scanned to the number that is written, if that fits 64 bits, and is an
error otherwise; as an argument it is accepted if it fits 32 bits, and the tree holds what is
written. -/
theorem integers_as_written :
    (∀ lexer negative digits rest, (∀ b ∈ digits, isDigit b = true) →
      (∀ b ∈ rest.head?, isDigit b = false) → lexer.rest = digits ++ rest →
      scanInteger64 lexer negative = scanInteger lexer negative ∧
        (∀ v, (scanInteger64 lexer negative).1 = .integer v ↔
          v = writtenValue negative digits ∧ |v| ≤ int64Max) ∧
        (int64Max < |writtenValue negative digits| →
          (scanInteger64 lexer negative).1 = .error ∧
            (scanInteger64 lexer negative).2.hasError = true)) ∧
    ∀ source i s, Cursor source i s →
      (∀ func v, IntegerAt source i v →
        ((∃ n s', Parse.parseIntegerArg func s = (.ret n, s')) ↔
          -2147483648 ≤ v ∧ v ≤ 2147483647)) ∧
      (∀ func n s', Parse.parseIntegerArg func s = (.ret n, s') → IntegerAt source i n.toInt) ∧
      (∀ func create node s', Parse.parseIntCall func create s = (.ret node, s') →
        ∃ n, node = create n ∧ IntegerAt source i n.toInt) ∧
      (∀ fuel node s', Behind source .lparen i →
        Parse.parseRepeatCall (Parse.parseRule fuel) s = (.ret node, s') →
        s'.lexer.hasError = false →
        ∃ sub min max j, i ≤ j ∧ node = .repetition sub min max ∧
          IntegerAt source (j + 1) min.toInt ∧ IntegerAt source (j + 3) max.toInt) ∧
      ∀ call name node s', tokenAt source i = .equals →
        Parse.parseTableOrAssign call name s = (.ret node, s') →
        ∃ var reg, node = .assign var reg ∧ IntegerAt source (i + 1) reg.toInt := by
  refine ⟨fun lexer negative digits rest hdigits hstop hlexer => ?_, fun source i s h =>
    ⟨fun func v hv => parseIntegerArg_accepts h hv func,
      fun func n s' hret => parseIntegerArg_written h hret,
      fun func create node s' hret => parseIntCall_written h hret,
      fun fuel node s' hbehind hret herror =>
        parseRepeatCall_written (parseRule_marks fuel) h hbehind hret herror,
      fun call name node s' hequals hret => parseTableOrAssign_written h hequals hret⟩⟩
  rw [scanInteger64_eq]
  refine ⟨rfl, fun v => ⟨fun htoken => ?_, ?_⟩, scanInteger_large hdigits hlexer⟩
  · by_cases hfits : |writtenValue negative digits| ≤ int64Max
    · rw [scanInteger_fitting hdigits hstop hlexer hfits, Token.integer.injEq] at htoken
      rw [← htoken]
      exact ⟨rfl, hfits⟩
    · rw [(scanInteger_large hdigits hlexer (not_le.mp hfits)).1] at htoken
      cases htoken
  · rintro ⟨rfl, hfits⟩
    exact scanInteger_fitting hdigits hstop hlexer hfits

/-- `-42` is taken as an argument. -/
theorem minus_forty_two_as_written :
    ∃ n s', Parse.parseIntegerArg "POS" (freshParsing (ascii "-42")) = (.ret n, s') := by
  have hcursor : Cursor (ascii "-42") 0 (freshParsing (ascii "-42")) :=
    ⟨⟨rfl, List.forall_mem_nil _⟩, rfl, .inl rfl, fun k hk => absurd hk (Nat.not_lt_zero k)⟩
  have hdigits : DigitsAt (lexerAt (ascii "-42") 0) true [52, 50] [] :=
    ⟨rfl, List.cons_ne_nil _ _,
      List.forall_mem_cons.mpr ⟨rfl, List.forall_mem_singleton.mpr rfl⟩, fun _ h => by cases h⟩
  have hwritten : IntegerAt (ascii "-42") 0 (-42) := ⟨true, [52, 50], [], hdigits, rfl⟩
  exact ((integers_as_written.2 _ _ _ hcursor).1 "POS" _ hwritten).mpr (by decide)

end Snobol4
