import Snobol4.LexerProgress
import Snobol4.Parser

/-!
# ParserProgress — the parser decides, or it replays a token for ever

Every call of a parser function either consumes source or fails, as long as no
lookahead at a token that is a pattern by itself (a bare `ARB`, `FENCE` or `REM`,
or `$`) meets a lexical error.  Such a lookahead leaves the lexer stale, and from
there the loop of `parse_concatenation` takes the same token as a new part for
ever.
-/

namespace Snobol4

open Fueled SnobolLexer

/-! ## Lookaheads -/

/-- A token that `parse_repetition` accepts as a whole primary without looking at
what follows it. -/
def Token.standsAlone : Token → Bool
  | .anchorEnd => true
  | .ident name => (Parse.barePrimitive name).isSome
  | _ => false

/-- A lookahead, taken with this lexer, that will be replayed: it is at a token
that stands alone, and the token after that is a lexical error. -/
def LookaheadReplays (lexer : SnobolLexer) : Prop :=
  lexer.peekToken.standsAlone = true ∧ lookaheadErrs lexer = true

instance (lexer : SnobolLexer) : Decidable (LookaheadReplays lexer) :=
  inferInstanceAs (Decidable (_ ∧ _))

/-- No lookahead so far will be replayed. -/
def Safe (s : Parsing) : Prop := ∀ lexer ∈ s.saves, ¬LookaheadReplays lexer

/-- The parser stands between two tokens, with at most `m` remaining. -/
structure Ready (m : Nat) (s : Parsing) : Prop where
  sound : s.lexer.Sound
  hasError : s.parser.hasError = false
  safe : Safe s
  remaining : s.lexer.remaining ≤ m

/-- The parser has peeked at `tok`. -/
structure At (tok : Token) (m : Nat) (s : Parsing) : Prop extends Ready m s where
  holds : s.lexer.Holds tok

/-- The lexer is stale at `tok`, which is replayed if it stands alone. -/
structure Stuck (tok : Token) (s : Parsing) : Prop where
  stale : s.lexer.Stale tok
  hasError : s.parser.hasError = false
  safe : Safe s ↔ tok.standsAlone = false

/-- The parser has reported an error. -/
structure Failed (s : Parsing) : Prop where
  hasError : s.parser.hasError = true
  safe : Safe s

/-- A run that used up `n` units of fuel where `b` are enough, or is replaying. -/
def Starved (n b : Nat) (s : Parsing) : Prop := ¬Safe s ∨ n < b

theorem Ready.mono {m k : Nat} {s : Parsing} (h : Ready m s) (hmk : m ≤ k) : Ready k s :=
  { h with remaining := h.remaining.trans hmk }

theorem Starved.mono {n b n' b' : Nat} {s : Parsing} (h : Starved n b s) (hb : n < b → n' < b') :
    Starved n' b' s :=
  h.imp_right hb

/-! ## The primitives -/

section primitives

variable {m : Nat} {s : Parsing} {tok : Token} {α : Type} {N E : Parsing → Prop}

theorem Ready.peek {Q : Token → Parsing → Prop} (h : Ready m s)
    (hQ : ∀ tok s', At tok m s' → Q tok s') : wp Parse.peek Q N E s := by
  obtain ⟨hsound, hholds, hrem⟩ := snobolLexerPeek_sound h.sound
  exact hQ _ _ ⟨⟨hsound, h.hasError, h.safe, hrem.trans h.remaining⟩, hholds⟩

theorem At.advance {Q : Unit → Parsing → Prop} (h : At tok m s) (hreal : tok.isReal = true)
    (hQ : ∀ k s', m = k + 1 → Ready k s' → Q () s') : wp Parse.advance Q N E s := by
  obtain ⟨hsound, hrem⟩ := snobolLexerNext_sound h.sound h.holds hreal
  have hm := h.remaining
  obtain ⟨k, rfl⟩ : ∃ k, m = k + 1 := ⟨m - 1, by omega⟩
  exact hQ k _ rfl ⟨hsound, h.hasError, h.safe, by show (snobolLexerNext s.lexer).2.remaining ≤ k; omega⟩

theorem Safe.failWith {Q : α → Parsing → Prop} (h : Safe s) (msg : Bytes) :
    wp (Parse.failWith (α := α) msg) Q Failed E s :=
  show Failed _ from ⟨rfl, h⟩

theorem Safe.failLexically {Q : α → Parsing → Prop} (h : Safe s) :
    wp (Parse.failLexically (α := α)) Q Failed E s :=
  show Failed _ from ⟨rfl, h⟩

theorem wp_isLexicalError {Q : Bool → Parsing → Prop} (hQ : ∀ b, Q b s) :
    wp (Parse.isLexicalError tok) Q N E s :=
  hQ _

theorem Ready.matchToken {Q : Bool → Parsing → Prop} (h : Ready m s) (type : TokenType)
    (hQ : ∀ tok s', At tok m s' → Q (decide (tok.type = type)) s') :
    wp (Parse.matchToken type) Q N E s :=
  (wp_bind _ _).2 (h.peek fun tok s' h' => hQ tok s' h')

/-- The types of the tokens that stand for a piece of the source. -/
def TokenType.isReal : TokenType → Bool
  | .eof | .error => false
  | _ => true

theorem Token.isReal_of_type {type : TokenType} (htype : type.isReal = true) (h : tok.type = type) :
    tok.isReal = true := by
  subst h
  cases tok <;> first | rfl | exact htype

theorem Ready.expect {Q : Unit → Parsing → Prop} (h : Ready m s) {type : TokenType}
    (htype : type.isReal = true) (hQ : ∀ k s', m = k + 1 → Ready k s' → Q () s') :
    wp (Parse.expect type) Q Failed E s := by
  refine (wp_bind _ _).2 (h.peek fun tok s' h' => ?_)
  refine (wp_ite _ _ _).2 ⟨fun ht => ?_, fun _ => ?_⟩
  · exact h'.advance (Token.isReal_of_type htype ht) hQ
  · refine (wp_bind _ _).2 (wp_isLexicalError fun b => ?_)
    exact (wp_ite _ _ _).2 ⟨fun _ => h'.safe.failLexically, fun _ => h'.safe.failWith _⟩

theorem Ready.parseIntegerArg {Q : Int32 → Parsing → Prop} (h : Ready m s) (func : String)
    (hQ : ∀ n k s', m = k + 1 → Ready k s' → Q n s') :
    wp (Parse.parseIntegerArg func) Q Failed E s := by
  refine (wp_bind _ _).2 (h.peek fun tok s' h' => ?_)
  refine (wp_bind _ _).2 (wp_isLexicalError fun b => ?_)
  refine (wp_ite _ _ _).2 ⟨fun _ => h'.safe.failLexically, fun _ => ?_⟩
  split
  · rename_i value
    refine (wp_ite _ _ _).2 ⟨fun _ => h'.safe.failWith _, fun _ => ?_⟩
    exact (wp_bind _ _).2 (h'.advance rfl fun k s'' hk h'' => hQ _ k s'' hk h'')
  · exact h'.safe.failWith _

theorem Ready.allocateCapture {Q : Nat → Parsing → Prop} (h : Ready m s) (text : Bytes)
    (hQ : ∀ reg s', Ready m s' → Q reg s') : wp (Parse.allocateCapture text) Q N E s :=
  hQ _ _ ⟨h.sound, h.hasError, h.safe, h.remaining⟩

/-! ### Lookahead -/

/-- The state in the middle of a lookahead, after `save`, `advance` and `peek`. -/
def ahead (s : Parsing) : Parsing :=
  { s with
    lexer := (snobolLexerPeek (snobolLexerNext s.lexer).2).2
    saves := s.lexer :: s.saves }

/-- The token that the lookahead sees. -/
def aheadToken (s : Parsing) : Token := (snobolLexerPeek (snobolLexerNext s.lexer).2).1

/-- The state after the lookahead's `restore`. -/
def lookedAhead (s : Parsing) : Parsing :=
  { s with
    lexer := afterLookahead s.lexer
    saves := s.lexer :: s.saves }

theorem wp_lookahead {Q : α → Parsing → Prop} (f : SnobolLexerState → Token → Parse α) :
    wp (do let st ← Parse.save; Parse.advance; let next ← Parse.peek; f st next) Q N E s ↔
      wp (f (snobolLexerSave s.lexer) (aheadToken s)) Q N E (ahead s) := Iff.rfl

theorem wp_restore {Q : α → Parsing → Prop} (m : Parse α) :
    wp (do Parse.restore (snobolLexerSave s.lexer); m) Q N E (ahead s) ↔
      wp m Q N E (lookedAhead s) := Iff.rfl

theorem At.safe_cons (h : At tok m s) (herrs : lookaheadErrs s.lexer = false) :
    ∀ lexer ∈ s.lexer :: s.saves, ¬LookaheadReplays lexer := by
  intro lexer hmem
  rcases List.mem_cons.1 hmem with rfl | hmem
  · exact fun hr => Bool.false_ne_true (herrs.symm.trans hr.2)
  · exact h.safe lexer hmem

/-- A lookahead that sees no error goes on from there as from any peek. -/
theorem At.ahead (h : At tok m s) (hreal : tok.isReal = true) (hnext : aheadToken s ≠ .error) :
    ∃ k, m = k + 1 ∧ At (aheadToken s) k (ahead s) := by
  obtain ⟨hsound, hrem⟩ := snobolLexerNext_sound h.sound h.holds hreal
  obtain ⟨hsound', hholds, hrem'⟩ := snobolLexerPeek_sound hsound
  have hm := h.remaining
  have herrs : lookaheadErrs s.lexer = false := by
    by_contra herrs
    have hpeek := (hsound'.peeked (by simpa [lookaheadErrs] using herrs)).2
    exact hnext (hholds.peekToken.symm.trans hpeek)
  refine ⟨m - 1, by omega, ⟨hsound', h.hasError, h.safe_cons herrs, ?_⟩, hholds⟩
  exact hrem'.trans (by omega)

/-- A restored lookahead is back where it was, unless it met an error. -/
theorem At.lookedAhead (h : At tok m s) (hreal : tok.isReal = true) :
    At tok m (lookedAhead s) ∨ Stuck tok (lookedAhead s) := by
  by_cases herrs : lookaheadErrs s.lexer = true
  · refine .inr ⟨afterLookahead_stale h.holds hreal herrs, h.hasError, ?_⟩
    refine ⟨fun hsafe => ?_, fun halone => ?_⟩
    · by_contra halone
      refine hsafe s.lexer List.mem_cons_self ⟨?_, herrs⟩
      rw [h.holds.peekToken]
      simpa using halone
    · intro lexer hmem
      rcases List.mem_cons.1 hmem with rfl | hmem
      · rintro ⟨hr, -⟩
        rw [h.holds.peekToken, halone] at hr
        cases hr
      · exact h.safe lexer hmem
  · have herrs' : lookaheadErrs s.lexer = false := by simpa using herrs
    obtain ⟨hsound, hholds, hrem⟩ := afterLookahead_sound h.sound h.holds hreal herrs'
    exact .inl ⟨⟨hsound, h.hasError, h.safe_cons herrs', hrem.le.trans h.remaining⟩, hholds⟩

/-! ### Stale primitives -/

theorem Stuck.not_safe (h : Stuck tok s) (halone : tok.standsAlone = true) : ¬Safe s :=
  fun hs => Bool.false_ne_true ((h.safe.1 hs).symm.trans halone)

theorem Stuck.peek {Q : Token → Parsing → Prop} (h : Stuck tok s) (hQ : Q tok s) :
    wp Parse.peek Q N E s := by
  show Q (snobolLexerPeek s.lexer).1 { s with lexer := (snobolLexerPeek s.lexer).2 }
  rw [h.stale.peek]
  exact hQ

theorem Stuck.advance {Q : Unit → Parsing → Prop} (h : Stuck tok s) (hQ : Q () s) :
    wp Parse.advance Q N E s := by
  show Q () { s with lexer := (snobolLexerNext s.lexer).2 }
  rw [h.stale.next]
  exact hQ

/-- A lookahead of a stale lexer sees the stale token again and changes nothing. -/
theorem Stuck.lookahead (h : Stuck tok s) :
    aheadToken s = tok ∧ ahead s = lookedAhead s ∧ Stuck tok (lookedAhead s) := by
  have hnext : (snobolLexerPeek (snobolLexerNext s.lexer).2) = (tok, s.lexer) := by
    rw [h.stale.next, h.stale.peek]
  have hafter : afterLookahead s.lexer = s.lexer := by
    rw [afterLookahead, hnext]
    rfl
  refine ⟨congrArg Prod.fst hnext, ?_, ?_⟩
  · simp only [Snobol4.ahead, Snobol4.lookedAhead, hnext, hafter]
  · refine ⟨by simpa only [Snobol4.lookedAhead, hafter] using h.stale, h.hasError, ?_⟩
    refine ⟨fun hsafe => h.safe.1 fun lexer hmem => hsafe lexer (List.mem_cons_of_mem _ hmem), ?_⟩
    intro halone lexer hmem
    rcases List.mem_cons.1 hmem with rfl | hmem
    · rintro ⟨hr, -⟩
      rw [h.stale.peekToken, halone] at hr
      cases hr
    · exact h.safe.2 halone lexer hmem

end primitives

/-! ## What a call does -/

/-- The order in which the functions call each other without consuming source. -/
def Rule.rank : Rule → Nat
  | .functionCall => 1
  | .alternationLoop _ => 1
  | .primary => 2
  | .repetition => 3
  | .concatenationLoop _ => 4
  | .alternation => 5
  | .statement => 6

/-- The loops may end at once; every other function consumes a token or fails. -/
def Rule.cost : Rule → Nat
  | .alternationLoop _ => 0
  | .concatenationLoop (_ :: _) => 0
  | _ => 1

/-- The functions that a stale lexer can be met in, with the token it is stale at. -/
def Rule.entered (tok : Token) : Rule → Bool
  | .functionCall => tok.type = .ident
  | .primary | .repetition | .concatenationLoop _ | .alternation =>
      tok.type = .ident || tok = .anchorEnd
  | _ => false

/-- The functions that return one primary. -/
def Rule.single : Rule → Bool
  | .functionCall | .primary | .repetition => true
  | _ => false

/-- At least `c` of `m` are consumed. -/
def Consumed (c m : Nat) (s : Parsing) : Prop := ∃ k, k + c ≤ m ∧ Ready k s

theorem Ready.consumed {c k m : Nat} {s : Parsing} (h : Ready k s) (hk : k + c ≤ m) :
    Consumed c m s :=
  ⟨k, hk, h⟩

/-- A node after which the parenthesis is closed. -/
theorem Ready.closed {c k m : Nat} {s : Parsing} (h : Ready k s) (hk : k + c ≤ m + 1)
    (node : AstNode) :
    wp (do Parse.expect .rparen; pure node) (fun _ => Consumed c m) Failed E s := by
  refine (wp_bind _ _).2 (h.expect rfl fun k' s' hk' h' => ?_)
  exact h'.consumed (by omega)

/-- A node made of the token before the parenthesis. -/
theorem At.closed {c k m : Nat} {s : Parsing} {tok : Token} (h : At tok k s)
    (hreal : tok.isReal = true) (hk : k + c ≤ m + 2) (node : AstNode) :
    wp (do Parse.advance; Parse.expect .rparen; pure node) (fun _ => Consumed c m) Failed E s := by
  refine (wp_bind _ _).2 (h.advance hreal fun k' s' hk' h' => ?_)
  exact h'.closed (by omega) node

/-- What every call with `n` units of fuel does, from a lexer that is in step and
from a stale one.  A stale lexer lets only the functions that return one primary
return, and only at a token that stands alone. -/
structure CallSpec (n : Nat) (call : Rule → Parse AstNode) : Prop where
  ready : ∀ rule m s, Ready m s →
    wp (call rule) (fun _ => Consumed rule.cost m) Failed (Starved n (8 * m + rule.rank)) s
  stuck : ∀ rule tok s, rule.entered tok = true → Stuck tok s →
    wp (call rule) (fun _ s' => rule.single = true ∧ tok.standsAlone = true ∧ Stuck tok s')
      (fun s' => tok.standsAlone = false ∧ Failed s')
      (fun s' => ¬Safe s' ∨ tok.standsAlone = false ∧ n < rule.rank) s

section bodies

variable {n m b : Nat} {call : Rule → Parse AstNode} {s : Parsing} {tok : Token} {α : Type}
  {E : Parsing → Prop}

/-- A call in the middle of a body. -/
theorem CallSpec.seq (hc : CallSpec n call) {rule : Rule} {f : AstNode → Parse α}
    {Q : α → Parsing → Prop} (h : Ready m s) (hb : 8 * m + rule.rank < b)
    (hf : ∀ node k s', k + rule.cost ≤ m → Ready k s' → wp (f node) Q Failed (Starved (n + 1) b) s') :
    wp (call rule >>= f) Q Failed (Starved (n + 1) b) s := by
  refine (wp_bind _ _).2 ((hc.ready rule m s h).mono ?_ (fun _ hN => hN) fun s' hE => ?_)
  · rintro node s' ⟨k, hk, h'⟩
    exact hf node k s' hk h'
  · exact hE.mono fun _ => by omega

/-- A call at the end of a body. -/
theorem CallSpec.last (hc : CallSpec n call) {rule : Rule} {c k : Nat} (h : Ready k s)
    (hk : k + c ≤ m + rule.cost) (hb : 8 * k + rule.rank < b) :
    wp (call rule) (fun _ => Consumed c m) Failed (Starved (n + 1) b) s := by
  refine (hc.ready rule k s h).mono ?_ (fun _ hN => hN) fun s' hE => ?_
  · rintro node s' ⟨j, hj, h'⟩
    exact h'.consumed (by omega)
  · exact hE.mono fun _ => by omega

/-! ### Statements and alternations -/

theorem parseLabel_spec (hc : CallSpec n call) (h : Ready m s) (name : Bytes)
    (hb : 8 * m + 6 < b) :
    wp (Parse.parseLabel call name) (fun _ => Consumed 0 m) Failed (Starved (n + 1) b) s := by
  refine (wp_bind _ _).2 (wp_read.2 ?_)
  refine (wp_ite _ _ _).2 ⟨fun _ => h.safe.failWith _, fun _ => ?_⟩
  refine (wp_bind _ _).2 ((wp_modify _).2 ?_)
  refine hc.seq ⟨h.sound, h.hasError, h.safe, h.remaining⟩ hb ?_
  intro target k s' hk h'
  exact h'.consumed (by omega)

theorem parseGoto_spec (h : At .colon m s) (pattern : AstNode) :
    wp (Parse.parseGoto pattern) (fun _ => Consumed 0 m) Failed E s := by
  refine (wp_bind _ _).2 (h.advance rfl fun k s₁ hk h₁ => ?_)
  refine (wp_bind _ _).2 (h₁.expect rfl fun k₂ s₂ hk₂ h₂ => ?_)
  refine (wp_bind _ _).2 (h₂.peek fun tok s₃ h₃ => ?_)
  split
  · exact h₃.closed rfl (by omega) _
  · exact h₃.safe.failWith _

theorem parseUnlabelled_spec (hc : CallSpec n call) (h : Ready m s) (hb : 8 * m + 5 < b) :
    wp (Parse.parseUnlabelled call) (fun _ => Consumed 1 m) Failed (Starved (n + 1) b) s := by
  refine hc.seq h hb ?_
  intro pattern k s₁ hk h₁
  refine (wp_bind _ _).2 (h₁.peek fun tok s₂ h₂ => ?_)
  refine (wp_ite _ _ _).2 ⟨fun ht => ?_, fun _ => ?_⟩
  · subst ht
    refine (parseGoto_spec h₂ pattern).mono ?_ (fun _ hN => hN) fun _ hE => hE
    rintro node s' ⟨j, hj, h'⟩
    exact h'.consumed (by simp only [Rule.cost] at hk; omega)
  · exact h₂.toReady.consumed hk

/-- A stale lexer enters `parse_alternation` only to go on to the loop. -/
theorem CallSpec.stuck_last (hc : CallSpec n call) {rule : Rule} (h : Stuck tok s)
    (hent : rule.entered tok = true) (hsingle : rule.single = false) (hb : rule.rank < b) :
    wp (call rule) (fun _ _ => False) (fun s' => tok.standsAlone = false ∧ Failed s')
      (fun s' => ¬Safe s' ∨ tok.standsAlone = false ∧ n + 1 < b) s := by
  refine (hc.stuck rule tok s hent h).mono ?_ (fun _ hN => hN) fun s' hE => ?_
  · rintro node s' ⟨hs, -⟩
    rw [hsingle] at hs
    cases hs
  · exact hE.imp_right fun ⟨halone, hn⟩ => ⟨halone, by omega⟩

theorem parseUnlabelled_stuck (hc : CallSpec n call) (h : Stuck tok s) (htok : tok.type = .ident) :
    wp (Parse.parseUnlabelled call) (fun _ _ => False) (fun s' => tok.standsAlone = false ∧ Failed s')
      (fun s' => ¬Safe s' ∨ tok.standsAlone = false ∧ n + 1 < 6) s := by
  have hent : Rule.alternation.entered tok = true := by simp [Rule.entered, htok]
  refine (wp_bind _ _).2 ((hc.stuck_last (b := 6) h hent rfl (by decide)).mono ?_ ?_ ?_)
  · exact fun _ _ hF => hF.elim
  · exact fun _ hN => hN
  · exact fun _ hE => hE

theorem parseStatement_spec (hc : CallSpec n call) (h : Ready m s) (hb : 8 * m + 5 < b) :
    wp (Parse.parseStatement call) (fun _ => Consumed 1 m) Failed (Starved (n + 1) b) s := by
  refine (wp_bind _ _).2 (h.peek fun tok s₁ h₁ => ?_)
  split
  · rename_i name
    rw [wp_lookahead]
    refine (wp_ite _ _ _).2 ⟨fun hcolon => ?_, fun _ => ?_⟩
    · obtain ⟨k, hk, h₂⟩ := h₁.ahead rfl (by rw [hcolon]; exact Token.noConfusion)
      rw [hcolon] at h₂
      refine (wp_bind _ _).2 (h₂.advance rfl fun k₃ s₃ hk₃ h₃ => ?_)
      refine (parseLabel_spec hc h₃ name (by omega)).mono ?_ (fun _ hN => hN) fun _ hE => hE
      rintro node s' ⟨j, hj, h'⟩
      exact h'.consumed (by omega)
    · rw [wp_restore]
      rcases h₁.lookedAhead rfl with h₂ | h₂
      · exact parseUnlabelled_spec hc h₂.toReady hb
      · refine (parseUnlabelled_stuck hc h₂ rfl).mono ?_ ?_ ?_
        · exact fun _ _ hF => hF.elim
        · exact fun _ hN => hN.2
        · exact fun _ hE => hE.imp_right fun hn => by omega
  · exact parseUnlabelled_spec hc h₁.toReady hb

theorem parseAlternation_spec (hc : CallSpec n call) (h : Ready m s) (hb : 8 * m + 4 < b) :
    wp (Parse.parseAlternation call) (fun _ => Consumed 1 m) Failed (Starved (n + 1) b) s := by
  refine hc.seq h hb ?_
  intro left k s₁ hk h₁
  exact hc.last h₁ hk (by simp only [Rule.cost, Rule.rank] at hk ⊢; omega)

theorem parseAlternation_stuck (hc : CallSpec n call) (h : Stuck tok s)
    (htok : tok.type = .ident ∨ tok = .anchorEnd) :
    wp (Parse.parseAlternation call) (fun _ _ => False)
      (fun s' => tok.standsAlone = false ∧ Failed s')
      (fun s' => ¬Safe s' ∨ tok.standsAlone = false ∧ n + 1 < 5) s := by
  have hent : (Rule.concatenationLoop []).entered tok = true := by simpa [Rule.entered] using htok
  refine (wp_bind _ _).2 ((hc.stuck_last h hent rfl (Nat.lt_succ_self 4)).mono ?_ ?_ ?_)
  · exact fun _ _ hF => hF.elim
  · exact fun _ hN => hN
  · exact fun _ hE => hE

theorem parseAlternationLoop_spec (hc : CallSpec n call) (h : Ready m s) (left : AstNode)
    (hb : 8 * m < b) :
    wp (Parse.parseAlternationLoop call left) (fun _ => Consumed 0 m) Failed (Starved (n + 1) b)
      s := by
  refine (wp_bind _ _).2 (h.matchToken .pipe fun tok s₁ h₁ => ?_)
  refine (wp_ite _ _ _).2 ⟨fun ht => ?_, fun _ => ?_⟩
  · refine (wp_bind _ _).2 (h₁.advance (Token.isReal_of_type rfl (by simpa using ht)) ?_)
    intro k₂ s₂ hk₂ h₂
    refine hc.seq h₂ (by simp only [Rule.rank]; omega) ?_
    intro right k₃ s₃ hk₃ h₃
    simp only [Rule.cost] at hk₃
    exact hc.last h₃ (by simp only [Rule.cost]; omega) (by simp only [Rule.rank]; omega)
  · exact h₁.toReady.consumed le_rfl

/-! ### Concatenations -/

theorem parseRegisterTarget_spec (h : At tok m s) :
    wp (Parse.parseRegisterTarget tok) (fun _ => Consumed 1 m) Failed E s := by
  unfold Parse.parseRegisterTarget
  split
  · split
    · refine (wp_ite _ _ _).2 ⟨fun _ => h.safe.failWith _, fun _ => ?_⟩
      refine (wp_bind _ _).2 (h.advance rfl fun k s' hk h' => ?_)
      exact h'.consumed (by omega)
    · split
      · exact (wp_ite _ _ _).2 ⟨fun _ => h.safe.failWith _, fun _ => h.safe.failWith _⟩
      · exact h.safe.failWith _
  · exact h.safe.failWith _

theorem parseNamingTarget_spec (h : Ready m s) :
    wp Parse.parseNamingTarget (fun _ => Consumed 1 m) Failed E s := by
  refine (wp_bind _ _).2 (h.peek fun tok s₁ h₁ => ?_)
  refine (wp_ite _ _ _).2 ⟨fun ht => ?_, fun _ => (wp_ite _ _ _).2 ⟨fun ht => ?_, fun _ => ?_⟩⟩
  · subst ht
    refine (wp_bind _ _).2 (h₁.advance rfl fun k₂ s₂ hk₂ h₂ => ?_)
    refine (wp_bind _ _).2 (h₂.peek fun tok s₃ h₃ => ?_)
    split
    · refine (wp_bind _ _).2 (wp_read.2 ?_)
      refine (wp_ite _ _ _).2 ⟨fun _ => h₃.safe.failWith _, fun _ => ?_⟩
      -- the register is allocated before the name is consumed
      refine (wp_bind _ _).2 ((wp_update _).2 ((wp_bind _ _).2 ?_))
      refine At.advance (m := k₂) ⟨⟨h₃.sound, h₃.hasError, h₃.safe, h₃.remaining⟩, h₃.holds⟩ rfl ?_
      intro k₄ s₄ hk₄ h₄
      exact h₄.consumed (by omega)
    · exact h₃.safe.failWith _
  · subst ht
    refine (wp_bind _ _).2 (h₁.advance rfl fun k₂ s₂ hk₂ h₂ => ?_)
    refine (wp_bind _ _).2 (h₂.peek fun tok s₃ h₃ => ?_)
    refine (parseRegisterTarget_spec h₃).mono ?_ (fun _ hN => hN) fun _ hE => hE
    rintro reg s' ⟨k, hk, h'⟩
    exact h'.consumed (by omega)
  · exact parseRegisterTarget_spec h₁

theorem finishConcatenation_spec (h : Ready m s) (parts : List AstNode) :
    wp (Parse.finishConcatenation parts)
      (fun _ => Consumed (Rule.concatenationLoop parts).cost m) Failed E s := by
  unfold Parse.finishConcatenation
  split
  · exact h.safe.failWith _
  · exact h.consumed le_rfl
  · rename_i hne _
    cases parts with
    | nil => exact absurd rfl hne
    | cons part rest => exact h.consumed le_rfl

theorem Rule.cost_concatenationLoop_le (parts : List AstNode) :
    (Rule.concatenationLoop parts).cost ≤ 1 := by
  cases parts <;> simp [Rule.cost]

theorem Rule.cost_concatenationLoop_append (parts : List AstNode) (part : AstNode) :
    (Rule.concatenationLoop (parts ++ [part])).cost = 0 := by
  cases parts <;> rfl

theorem parsePart_spec (hc : CallSpec n call) (h : Ready m s) (parts : List AstNode)
    (hb : 8 * m + 3 < b) :
    wp (Parse.parsePart call parts tok) (fun _ => Consumed (Rule.concatenationLoop parts).cost m)
      Failed (Starved (n + 1) b) s := by
  refine (wp_ite _ _ _).2 ⟨fun _ => ?_, fun _ => finishConcatenation_spec h parts⟩
  refine hc.seq h hb ?_
  intro part k s₁ hk h₁
  have hcost := Rule.cost_concatenationLoop_le parts
  simp only [Rule.cost] at hk
  refine hc.last h₁ ?_ (by simp only [Rule.rank]; omega)
  rw [Rule.cost_concatenationLoop_append]
  omega

/-- From a stale lexer the next part either fails or is the replayed token, and
then the loop is entered again in the same state. -/
theorem parsePart_stuck (hc : CallSpec n call) (h : Stuck tok s) (parts : List AstNode)
    (htok : tok.type = .ident ∨ tok = .anchorEnd) :
    wp (Parse.parsePart call parts tok) (fun _ _ => False)
      (fun s' => tok.standsAlone = false ∧ Failed s')
      (fun s' => ¬Safe s' ∨ tok.standsAlone = false ∧ n + 1 < 4) s := by
  have hprimary : Parse.startsPrimary tok = true := by
    rcases htok with htok | rfl
    · cases tok <;> first | rfl | cases htok
    · rfl
  have hent : ∀ rule : Rule, rule = .repetition ∨ (∃ parts, rule = .concatenationLoop parts) →
      rule.entered tok = true := by
    rintro rule (rfl | ⟨parts, rfl⟩) <;> simpa [Rule.entered] using htok
  refine (wp_ite _ _ _).2 ⟨fun _ => ?_, fun hp => absurd hprimary hp⟩
  refine (wp_bind _ _).2 ((hc.stuck .repetition tok s (hent _ (.inl rfl)) h).mono ?_ ?_ ?_)
  · rintro part s₁ ⟨-, halone, h₁⟩
    refine (hc.stuck_last h₁ (hent _ (.inr ⟨_, rfl⟩)) rfl (Nat.lt_succ_self 4)).mono ?_ ?_ ?_
    · exact fun _ _ hF => hF
    · exact fun _ hN => hN
    · rintro s' (hE | ⟨hE, -⟩)
      · exact .inl hE
      · exact absurd (hE.symm.trans halone) Bool.false_ne_true
  · exact fun _ hN => hN
  · exact fun _ hE => hE.imp_right fun ⟨halone, hn⟩ => ⟨halone, by simp only [Rule.rank] at hn; omega⟩

theorem parsePartAhead_spec (hc : CallSpec n call) (h : At tok m s) (parts : List AstNode)
    (hb : 8 * m + 3 < b) :
    wp (Parse.parsePartAhead call parts tok)
      (fun _ => Consumed (Rule.concatenationLoop parts).cost m) Failed (Starved (n + 1) b) s := by
  unfold Parse.parsePartAhead
  split
  · rw [wp_lookahead]
    show wp (do Parse.restore (snobolLexerSave s.lexer); Parse.parsePart call parts _) _ _ _ _
    rw [wp_restore]
    rcases h.lookedAhead rfl with h₁ | h₁
    · exact parsePart_spec hc h₁.toReady parts (by omega)
    · refine (parsePart_stuck hc h₁ parts (.inl rfl)).mono ?_ ?_ ?_
      · exact fun _ _ hF => hF.elim
      · exact fun _ hN => hN.2
      · exact fun _ hE => hE.imp_right fun hn => by omega
  · exact parsePart_spec hc h.toReady parts (by omega)

theorem parseNaming_spec (hc : CallSpec n call) (h : Ready m s) (parts : List AstNode)
    (hparts : parts ≠ []) (hb : 8 * m < b) :
    wp (Parse.parseNaming call parts) (fun _ => Consumed 0 m) Failed (Starved (n + 1) b) s := by
  refine wp.seq (parseNamingTarget_spec h) ?_
  rintro reg s₁ ⟨k, hk, h₁⟩
  split
  · exact hc.last h₁ (by omega) (by simp only [Rule.rank]; omega)
  · rename_i hlast
    exact absurd (List.getLast?_eq_none_iff.1 hlast) hparts

theorem parseConcatenationLoop_spec (hc : CallSpec n call) (h : Ready m s) (parts : List AstNode)
    (hb : 8 * m + 3 < b) :
    wp (Parse.parseConcatenationLoop call parts)
      (fun _ => Consumed (Rule.concatenationLoop parts).cost m) Failed (Starved (n + 1) b) s := by
  have hcost : ∀ {k : Nat} {s' : Parsing}, Consumed 0 k s' → k + 1 ≤ m →
      Consumed (Rule.concatenationLoop parts).cost m s' := by
    rintro k s' ⟨j, hj, h'⟩ hk
    exact h'.consumed (by have := Rule.cost_concatenationLoop_le parts; omega)
  refine (wp_bind _ _).2 (h.peek fun tok s₁ h₁ => ?_)
  refine (wp_ite _ _ _).2 ⟨fun ht => ?_, fun _ => (wp_ite _ _ _).2 ⟨fun ht => ?_, fun _ => ?_⟩⟩
  · obtain ⟨hparts, rfl⟩ := ht
    refine (wp_bind _ _).2 (h₁.advance rfl fun k₂ s₂ hk₂ h₂ => ?_)
    refine (parseNaming_spec hc h₂ parts hparts (by omega)).mono ?_ (fun _ hN => hN) fun _ hE => hE
    exact fun _ _ hcon => hcost hcon (by omega)
  · obtain ⟨hparts, rfl⟩ := ht
    rw [wp_lookahead]
    have hahead := h₁.ahead rfl
    split
    · rename_i huse
      obtain ⟨k₂, hk₂, h₂⟩ := hahead fun he => by rw [he] at huse; cases huse
      refine (parseNaming_spec (b := b) hc h₂.toReady parts hparts (by omega)).mono ?_ ?_ ?_
      · exact fun _ _ hcon => hcost hcon (by omega)
      · exact fun _ hN => hN
      · exact fun _ hE => hE
    · rename_i huse
      obtain ⟨k₂, hk₂, h₂⟩ := hahead fun he => by rw [he] at huse; cases huse
      exact h₂.safe.failWith _
    · rw [wp_restore]
      rcases h₁.lookedAhead rfl with h₂ | h₂
      · exact parsePartAhead_spec hc h₂ parts hb
      · refine Fueled.wp.mono (parsePart_stuck hc h₂ parts (.inr rfl)) ?_ ?_ ?_
        · exact fun _ _ hF => hF.elim
        · exact fun _ hN => hN.2
        · exact fun _ hE => hE.imp_right fun hn => by omega
  · exact parsePartAhead_spec hc h₁ parts hb

/-- From a stale lexer the loop of `parse_concatenation` never ends on its own: the
lookaheads change nothing, whatever was collected so far. -/
theorem parseConcatenationLoop_stuck (hc : CallSpec n call) (h : Stuck tok s)
    (parts : List AstNode) (htok : tok.type = .ident ∨ tok = .anchorEnd) :
    wp (Parse.parseConcatenationLoop call parts) (fun _ _ => False)
      (fun s' => tok.standsAlone = false ∧ Failed s')
      (fun s' => ¬Safe s' ∨ tok.standsAlone = false ∧ n + 1 < 4) s := by
  have hne : tok ≠ .dot := by
    rintro rfl
    rcases htok with htok | htok <;> cases htok
  have hpart : ∀ s', Stuck tok s' → wp (Parse.parsePartAhead call parts tok) (fun _ _ => False)
      (fun s' => tok.standsAlone = false ∧ Failed s')
      (fun s' => ¬Safe s' ∨ tok.standsAlone = false ∧ n + 1 < 4) s' := by
    intro s' h'
    unfold Parse.parsePartAhead
    split
    · rw [wp_lookahead]
      show wp (do Parse.restore (snobolLexerSave s'.lexer); Parse.parsePart call parts _) _ _ _ _
      rw [wp_restore]
      exact parsePart_stuck hc h'.lookahead.2.2 parts htok
    · exact parsePart_stuck hc h' parts htok
  refine (wp_bind _ _).2 (h.peek ?_)
  refine (wp_ite _ _ _).2 ⟨fun ht => absurd ht.2 hne, fun _ => ?_⟩
  refine (wp_ite _ _ _).2 ⟨fun ht => ?_, fun _ => hpart s h⟩
  obtain ⟨-, rfl⟩ := ht
  obtain ⟨hnext, -, hlooked⟩ := h.lookahead
  rw [wp_lookahead, hnext]
  show wp (do Parse.restore (snobolLexerSave s.lexer); Parse.parsePartAhead call parts _) _ _ _ _
  rw [wp_restore]
  exact hpart _ hlooked

/-! ### Primaries -/

theorem parseRepetition_spec (hc : CallSpec n call) (h : Ready m s) (hb : 8 * m + 2 < b) :
    wp (Parse.parseRepetition call) (fun _ => Consumed 1 m) Failed (Starved (n + 1) b) s := by
  refine hc.seq h hb ?_
  intro primary k s₁ hk h₁
  refine (wp_bind _ _).2 (h₁.peek fun tok s₂ h₂ => ?_)
  have htrailing : ∀ node : AstNode, tok.isReal = true →
      wp (do Parse.advance; pure node) (fun _ => Consumed 1 m) Failed (Starved (n + 1) b) s₂ := by
    intro node hreal
    refine (wp_bind _ _).2 (h₂.advance hreal fun k₃ s₃ hk₃ h₃ => ?_)
    exact h₃.consumed (by simp only [Rule.cost] at hk; omega)
  split
  · exact htrailing _ rfl
  · exact htrailing _ rfl
  · exact htrailing _ rfl
  · exact h₂.toReady.consumed hk

theorem parseRepetition_stuck (hc : CallSpec n call) (h : Stuck tok s)
    (htok : tok.type = .ident ∨ tok = .anchorEnd) :
    wp (Parse.parseRepetition call) (fun _ s' => tok.standsAlone = true ∧ Stuck tok s')
      (fun s' => tok.standsAlone = false ∧ Failed s')
      (fun s' => ¬Safe s' ∨ tok.standsAlone = false ∧ n + 1 < 3) s := by
  have hent : Rule.primary.entered tok = true := by simpa [Rule.entered] using htok
  refine (wp_bind _ _).2 ((hc.stuck .primary tok s hent h).mono ?_ ?_ ?_)
  · rintro primary s₁ ⟨-, halone, h₁⟩
    refine (wp_bind _ _).2 (h₁.peek ?_)
    split
    · rcases htok with htok | htok <;> cases htok
    · rcases htok with htok | htok <;> cases htok
    · rcases htok with htok | htok <;> cases htok
    · exact ⟨halone, h₁⟩
  · exact fun _ hN => hN
  · exact fun _ hE => hE.imp_right fun ⟨halone, hn⟩ => ⟨halone, by simp only [Rule.rank] at hn; omega⟩

theorem parseCapture_spec (hc : CallSpec n call) (h : At .at m s) (hb : 8 * m < b) :
    wp (Parse.parseCapture call) (fun _ => Consumed 1 m) Failed (Starved (n + 1) b) s := by
  refine (wp_bind _ _).2 (h.advance rfl fun k₁ s₁ hk₁ h₁ => ?_)
  refine (wp_bind _ _).2 (h₁.peek fun tok s₂ h₂ => ?_)
  split
  · refine (wp_bind _ _).2 (h₂.advance rfl fun k₃ s₃ hk₃ h₃ => ?_)
    refine (wp_bind _ _).2 (wp_read.2 ?_)
    refine (wp_ite _ _ _).2 ⟨fun _ => h₃.safe.failWith _, fun _ => ?_⟩
    refine (wp_bind _ _).2 (h₃.allocateCapture _ fun reg s₄ h₄ => ?_)
    refine hc.seq h₄ (by simp only [Rule.rank]; omega) ?_
    intro sub k₅ s₅ hk₅ h₅
    exact h₅.consumed (by omega)
  · exact h₂.safe.failWith _

theorem parseGroup_spec (hc : CallSpec n call) (h : At .lparen m s) (hb : 8 * m < b) :
    wp (Parse.parseGroup call) (fun _ => Consumed 1 m) Failed (Starved (n + 1) b) s := by
  refine (wp_bind _ _).2 (h.advance rfl fun k₁ s₁ hk₁ h₁ => ?_)
  refine hc.seq h₁ (by simp only [Rule.rank]; omega) ?_
  intro inner k₂ s₂ hk₂ h₂
  exact h₂.closed (by omega) _

theorem parseEndAnchor_spec (h : At .anchorEnd m s) :
    wp Parse.parseEndAnchor (fun _ => Consumed 1 m) Failed E s := by
  refine (wp_bind _ _).2 (h.advance rfl fun k₁ s₁ hk₁ h₁ => ?_)
  refine (wp_bind _ _).2 (h₁.peek fun tok s₂ h₂ => ?_)
  refine (wp_ite _ _ _).2 ⟨fun _ => h₂.safe.failWith _, fun _ => ?_⟩
  exact h₂.toReady.consumed (by omega)

/-- A node made of the one token under the lookahead. -/
theorem At.token (h : At tok m s) (hreal : tok.isReal = true) (node : AstNode) :
    wp (do Parse.advance; pure node) (fun _ => Consumed 1 m) Failed E s := by
  refine (wp_bind _ _).2 (h.advance hreal fun k s' hk h' => ?_)
  exact h'.consumed (by omega)

theorem parsePrimary_spec (hc : CallSpec n call) (h : Ready m s) (hb : 8 * m + 1 < b) :
    wp (Parse.parsePrimary call) (fun _ => Consumed 1 m) Failed (Starved (n + 1) b) s := by
  refine (wp_bind _ _).2 (h.peek fun tok s₁ h₁ => ?_)
  split
  · exact h₁.token rfl _
  · exact h₁.token rfl _
  · exact parseGroup_spec hc h₁ (by omega)
  · exact h₁.token rfl _
  · exact parseEndAnchor_spec h₁
  · exact parseCapture_spec hc h₁ (by omega)
  · exact hc.last h₁.toReady le_rfl hb
  · refine (wp_bind _ _).2 (wp_isLexicalError fun b => ?_)
    refine (wp_ite _ _ _).2 ⟨fun _ => h₁.safe.failLexically, fun _ => ?_⟩
    exact (wp_ite _ _ _).2 ⟨fun _ => h₁.safe.failWith _, fun _ => h₁.safe.failWith _⟩

/-- A stale `$` is an end anchor again: what follows it is `$`, not a name. -/
theorem parsePrimary_stuck (hc : CallSpec n call) (h : Stuck tok s)
    (htok : tok.type = .ident ∨ tok = .anchorEnd) :
    wp (Parse.parsePrimary call) (fun _ s' => tok.standsAlone = true ∧ Stuck tok s')
      (fun s' => tok.standsAlone = false ∧ Failed s')
      (fun s' => ¬Safe s' ∨ tok.standsAlone = false ∧ n + 1 < 2) s := by
  refine (wp_bind _ _).2 (h.peek ?_)
  rcases htok with htok | rfl
  · obtain ⟨name, rfl⟩ : ∃ name, tok = .ident name := by
      cases tok <;> first | exact ⟨_, rfl⟩ | cases htok
    refine (hc.stuck .functionCall _ s (by simp [Rule.entered, Token.type]) h).mono ?_ ?_ ?_
    · exact fun _ _ hQ => hQ.2
    · exact fun _ hN => hN
    · exact fun _ hE => hE.imp_right fun ⟨halone, hn⟩ => ⟨halone, by simp only [Rule.rank] at hn; omega⟩
  · refine (wp_bind _ _).2 (h.advance ((wp_bind _ _).2 (h.peek ?_)))
    exact ⟨rfl, h⟩

/-! ### Function calls -/

theorem parseSetCall_spec (h : Ready m s) (func : String) (create : Bytes → AstNode) :
    wp (Parse.parseSetCall func create) (fun _ => Consumed 1 m) Failed E s := by
  refine (wp_bind _ _).2 (h.peek fun tok s₁ h₁ => ?_)
  split
  · exact h₁.closed rfl (by omega) _
  · exact h₁.closed rfl (by omega) _
  · exact h₁.safe.failWith _

theorem parseAnyCall_spec (h : Ready m s) :
    wp Parse.parseAnyCall (fun _ => Consumed 1 m) Failed E s := by
  refine (wp_bind _ _).2 (h.peek fun tok s₁ h₁ => ?_)
  refine (wp_ite _ _ _).2 ⟨fun ht => ?_, fun _ => parseSetCall_spec h₁.toReady _ _⟩
  exact h₁.token (by rw [ht]; rfl) _

theorem parseIntCall_spec (h : Ready m s) (func : String) (create : Int32 → AstNode) :
    wp (Parse.parseIntCall func create) (fun _ => Consumed 1 m) Failed E s := by
  refine (wp_bind _ _).2 (h.parseIntegerArg func fun value k₁ s₁ hk₁ h₁ => ?_)
  exact h₁.closed (by omega) _

theorem parseNullaryCall_spec (h : Ready m s) (node : AstNode) :
    wp (Parse.parseNullaryCall node) (fun _ => Consumed 1 m) Failed E s :=
  h.closed (by omega) node

theorem parseNoArgumentsCall_spec (h : Ready m s) (func : String) (node : AstNode) :
    wp (Parse.parseNoArgumentsCall func node) (fun _ => Consumed 1 m) Failed E s := by
  refine (wp_bind _ _).2 (h.matchToken .rparen fun tok s₁ h₁ => ?_)
  refine (wp_ite _ _ _).2 ⟨fun ht => ?_, fun _ => h₁.safe.failWith _⟩
  exact h₁.token (Token.isReal_of_type rfl (by simpa using ht)) _

theorem parseDynamicEval_spec (hc : CallSpec n call) (h : Ready m s) (hb : 8 * m + 5 < b) :
    wp (Parse.parseDynamicEval call) (fun _ => Consumed 1 m) Failed (Starved (n + 1) b) s := by
  refine hc.seq h hb ?_
  intro expr k₁ s₁ hk₁ h₁
  exact h₁.closed (by omega) _

theorem parseEmit_spec (h : Ready m s) :
    wp Parse.parseEmit (fun _ => Consumed 1 m) Failed E s := by
  refine (wp_bind _ _).2 (h.peek fun tok s₁ h₁ => ?_)
  split
  · exact h₁.closed rfl (by omega) _
  · refine (wp_bind _ _).2 (h₁.advance rfl fun k₂ s₂ hk₂ h₂ => ?_)
    refine (wp_bind _ _).2 (h₂.peek fun tok s₃ h₃ => ?_)
    split
    · refine (wp_bind _ _).2 (wp_read.2 ?_)
      split
      · exact h₃.closed rfl (by omega) _
      · exact h₃.safe.failWith _
    · exact h₃.safe.failWith _
  · exact h₁.safe.failWith _

theorem parseArbnoCall_spec (hc : CallSpec n call) (h : Ready m s) (hb : 8 * m + 3 < b) :
    wp (Parse.parseArbnoCall call) (fun _ => Consumed 1 m) Failed (Starved (n + 1) b) s := by
  refine (wp_bind _ _).2 (h.matchToken .rparen fun tok s₁ h₁ => ?_)
  refine (wp_ite _ _ _).2 ⟨fun _ => h₁.safe.failWith _, fun _ => ?_⟩
  refine hc.seq h₁.toReady hb ?_
  intro sub k₂ s₂ hk₂ h₂
  refine (wp_bind _ _).2 (h₂.matchToken .comma fun tok s₃ h₃ => ?_)
  refine (wp_ite _ _ _).2 ⟨fun _ => h₃.safe.failWith _, fun _ => ?_⟩
  exact h₃.toReady.closed (by omega) _

theorem parseDelimiter_spec (h : Ready m s) (text : Bytes) :
    wp (Parse.parseDelimiter text) (fun _ => Consumed 0 m) Failed E s := by
  unfold Parse.parseDelimiter
  split
  · exact h.consumed le_rfl
  · exact h.safe.failWith _

theorem parseClosingDelimiter_spec (h : At .comma m s) :
    wp Parse.parseClosingDelimiter (fun _ => Consumed 0 m) Failed E s := by
  refine (wp_bind _ _).2 (h.advance rfl fun k₁ s₁ hk₁ h₁ => ?_)
  refine (wp_bind _ _).2 (h₁.peek fun tok s₂ h₂ => ?_)
  split
  · exact h₂.safe.failWith _
  · refine (wp_bind _ _).2 (h₂.advance rfl fun k₃ s₃ hk₃ h₃ => ?_)
    refine (parseDelimiter_spec h₃ _).mono ?_ (fun _ hN => hN) fun _ hE => hE
    rintro cp s' ⟨k, hk, h'⟩
    exact h'.consumed (by omega)
  · exact h₂.safe.failWith _

theorem parseBalCall_spec (h : Ready m s) :
    wp Parse.parseBalCall (fun _ => Consumed 1 m) Failed E s := by
  refine (wp_bind _ _).2 (h.peek fun tok s₁ h₁ => ?_)
  split
  · exact h₁.token rfl _
  · refine (wp_bind _ _).2 (h₁.advance rfl fun k₂ s₂ hk₂ h₂ => ?_)
    refine wp.seq (parseDelimiter_spec h₂ _) ?_
    rintro openCp s₃ ⟨k₃, hk₃, h₃⟩
    refine (wp_bind _ _).2 (h₃.matchToken .comma fun tok s₄ h₄ => ?_)
    refine (wp_ite _ _ _).2 ⟨fun ht => ?_, fun _ => ?_⟩
    · have hcomma : tok = .comma := by
        cases tok <;> first | rfl | cases of_decide_eq_true ht
      subst hcomma
      refine wp.seq (parseClosingDelimiter_spec h₄) ?_
      rintro closeCp s₅ ⟨k₅, hk₅, h₅⟩
      exact h₅.closed (by omega) _
    · exact h₄.toReady.closed (by omega) _
  · exact h₁.safe.failWith _

theorem makeRepeat_spec (h : Ready m s) (sub : AstNode) (min max : Int32) :
    wp (Parse.makeRepeat sub min max) (fun _ => Consumed 0 m) Failed E s := by
  refine (wp_ite _ _ _).2 ⟨fun _ => h.safe.failWith _, fun _ => ?_⟩
  refine (wp_ite _ _ _).2 ⟨fun _ => h.safe.failWith _, fun _ => ?_⟩
  exact h.consumed le_rfl

theorem parseRepeatCall_spec (hc : CallSpec n call) (h : Ready m s) (hb : 8 * m + 3 < b) :
    wp (Parse.parseRepeatCall call) (fun _ => Consumed 1 m) Failed (Starved (n + 1) b) s := by
  refine (wp_bind _ _).2 (h.matchToken .rparen fun tok s₁ h₁ => ?_)
  refine (wp_ite _ _ _).2 ⟨fun _ => h₁.safe.failWith _, fun _ => ?_⟩
  refine hc.seq h₁.toReady hb ?_
  intro sub k₂ s₂ hk₂ h₂
  refine (wp_bind _ _).2 (h₂.expect rfl fun k₃ s₃ hk₃ h₃ => ?_)
  refine (wp_bind _ _).2 (h₃.parseIntegerArg _ fun min k₄ s₄ hk₄ h₄ => ?_)
  refine (wp_bind _ _).2 (h₄.matchToken .rparen fun tok s₅ h₅ => ?_)
  refine (wp_ite _ _ _).2 ⟨fun _ => h₅.safe.failWith _, fun _ => ?_⟩
  refine (wp_bind _ _).2 (h₅.toReady.expect rfl fun k₆ s₆ hk₆ h₆ => ?_)
  refine (wp_bind _ _).2 (h₆.parseIntegerArg _ fun max k₇ s₇ hk₇ h₇ => ?_)
  refine (wp_bind _ _).2 (h₇.expect rfl fun k₈ s₈ hk₈ h₈ => ?_)
  refine (makeRepeat_spec h₈ sub min max).mono ?_ (fun _ hN => hN) fun _ hE => hE
  rintro node s' ⟨k, hk, h'⟩
  exact h'.consumed (by simp only [Rule.cost] at hk₂; omega)

theorem parseBuiltin_spec (hc : CallSpec n call) (h : Ready m s) (name : Bytes)
    (hb : 8 * m + 5 < b) :
    wp (Parse.parseBuiltin call name) (fun _ => Consumed 1 m) Failed (Starved (n + 1) b) s := by
  have hstep : ∀ {c : Prop} [Decidable c] {p q : Parse AstNode},
      wp p (fun _ => Consumed 1 m) Failed (Starved (n + 1) b) s →
        wp q (fun _ => Consumed 1 m) Failed (Starved (n + 1) b) s →
          wp (if c then p else q) (fun _ => Consumed 1 m) Failed (Starved (n + 1) b) s :=
    fun hp hq => (wp_ite _ _ _).2 ⟨fun _ => hp, fun _ => hq⟩
  unfold Parse.parseBuiltin
  refine hstep (parseSetCall_spec h _ _) ?_
  refine hstep (parseSetCall_spec h _ _) ?_
  refine hstep (parseSetCall_spec h _ _) ?_
  refine hstep (parseAnyCall_spec h) ?_
  refine hstep (parseSetCall_spec h _ _) ?_
  refine hstep (parseIntCall_spec h _ _) ?_
  refine hstep (parseDynamicEval_spec hc h hb) ?_
  refine hstep (parseEmit_spec h) ?_
  refine hstep (parseIntCall_spec h _ _) ?_
  refine hstep (parseIntCall_spec h _ _) ?_
  refine hstep (parseNullaryCall_spec h _) ?_
  refine hstep (parseArbnoCall_spec hc h (by omega)) ?_
  refine hstep (parseBalCall_spec h) ?_
  refine hstep (parseNoArgumentsCall_spec h _ _) ?_
  refine hstep (parseNoArgumentsCall_spec h _ _) ?_
  refine hstep (parseIntCall_spec h _ _) ?_
  refine hstep (parseIntCall_spec h _ _) ?_
  refine hstep (parseRepeatCall_spec hc h (by omega)) ?_
  refine hstep (parseNullaryCall_spec h _) ?_
  refine hstep (parseNullaryCall_spec h _) ?_
  refine hstep (parseNullaryCall_spec h _) ?_
  exact h.safe.failWith _

/-! ### Assignments and tables -/

theorem parseAssign_spec (h : At .equals m s) (name : Bytes) :
    wp (Parse.parseAssign name) (fun _ => Consumed 0 m) Failed E s := by
  refine (wp_bind _ _).2 (h.advance rfl fun k₁ s₁ hk₁ h₁ => ?_)
  refine (wp_bind _ _).2 (wp_read.2 ?_)
  split
  · exact h₁.safe.failWith _
  · refine (wp_bind _ _).2 (h₁.peek fun tok s₂ h₂ => ?_)
    split
    · refine (wp_ite _ _ _).2 ⟨fun _ => h₂.safe.failWith _, fun _ => ?_⟩
      refine (wp_bind _ _).2 (h₂.advance rfl fun k₃ s₃ hk₃ h₃ => ?_)
      exact h₃.consumed (by omega)
    · exact h₂.safe.failWith _

theorem parseRegisterKey_spec (h : At .anchorEnd m s) :
    wp Parse.parseRegisterKey (fun _ => Consumed 0 m) Failed E s := by
  refine (wp_bind _ _).2 (h.advance rfl fun k₁ s₁ hk₁ h₁ => ?_)
  refine (wp_bind _ _).2 (h₁.peek fun tok s₂ h₂ => ?_)
  split
  · split
    · refine (wp_ite _ _ _).2 ⟨fun _ => h₂.safe.failWith _, fun _ => ?_⟩
      refine (wp_bind _ _).2 (h₂.advance rfl fun k₃ s₃ hk₃ h₃ => ?_)
      exact h₃.consumed (by omega)
    · exact h₂.safe.failWith _
  · exact h₂.safe.failWith _

theorem parseTableKey_spec (h : Ready m s) (name : Bytes) :
    wp (Parse.parseTableKey name) (fun _ => Consumed 0 m) Failed E s := by
  refine (wp_bind _ _).2 (h.peek fun tok s₁ h₁ => ?_)
  refine (wp_bind _ _).2 (wp_isLexicalError fun b => ?_)
  refine (wp_ite _ _ _).2 ⟨fun _ => h₁.safe.failLexically, fun _ => ?_⟩
  split
  · refine (wp_bind _ _).2 (h₁.advance rfl fun k₂ s₂ hk₂ h₂ => ?_)
    exact h₂.consumed (by omega)
  · exact parseRegisterKey_spec h₁
  · exact h₁.safe.failWith _

theorem parseTable_spec (hc : CallSpec n call) (h : At tok m s) (hreal : tok.isReal = true)
    (name : Bytes) (hb : 8 * m + 3 < b) :
    wp (Parse.parseTable call name) (fun _ => Consumed 0 m) Failed (Starved (n + 1) b) s := by
  refine (wp_bind _ _).2 (h.advance hreal fun k₁ s₁ hk₁ h₁ => ?_)
  refine wp.seq (parseTableKey_spec h₁ name) ?_
  rintro key s₂ ⟨k₂, hk₂, h₂⟩
  refine (wp_bind _ _).2 (h₂.expect rfl fun k₃ s₃ hk₃ h₃ => ?_)
  refine (wp_bind _ _).2 (h₃.matchToken .equals fun tok s₄ h₄ => ?_)
  refine (wp_ite _ _ _).2 ⟨fun ht => ?_, fun _ => h₄.toReady.consumed (by omega)⟩
  refine (wp_bind _ _).2 (h₄.advance (Token.isReal_of_type rfl (by simpa using ht)) ?_)
  intro k₅ s₅ hk₅ h₅
  refine (wp_bind _ _).2 (h₅.peek fun tok s₆ h₆ => ?_)
  refine (wp_ite _ _ _).2 ⟨fun _ => h₆.safe.failWith _, fun _ => ?_⟩
  refine hc.seq h₆.toReady (by simp only [Rule.rank]; omega) ?_
  intro value k₇ s₇ hk₇ h₇
  exact h₇.consumed (by omega)

theorem parseTableOrAssign_spec (hc : CallSpec n call) (h : At tok m s) (hreal : tok.isReal = true)
    (name : Bytes) (hb : 8 * m + 3 < b) :
    wp (Parse.parseTableOrAssign call name) (fun _ => Consumed 0 m) Failed (Starved (n + 1) b)
      s := by
  have hpeek : snobolLexerPeek s.lexer = (tok, s.lexer) := by
    simp [snobolLexerPeek, h.holds.hasPeek, h.holds.peekToken]
  refine (wp_bind _ _).2 ?_
  show wp (if (snobolLexerPeek s.lexer).1 = .equals then _ else _) _ _ _
    { s with lexer := (snobolLexerPeek s.lexer).2 }
  rw [hpeek]
  refine (wp_ite _ _ _).2 ⟨fun ht => ?_, fun _ => ?_⟩
  · have hat : At .equals m s := ⟨h.toReady, ⟨h.holds.hasPeek, h.holds.peekToken.trans ht⟩⟩
    exact parseAssign_spec hat name
  · exact parseTable_spec hc h hreal name hb

theorem parseAfterName_spec (hc : CallSpec n call) (h : At tok m s) (name : Bytes)
    (hb : 8 * m + 5 < b) :
    wp (Parse.parseAfterName call name tok) (fun _ => Consumed 0 m) Failed (Starved (n + 1) b)
      s := by
  unfold Parse.parseAfterName
  split
  · exact parseTableOrAssign_spec hc h rfl name (by omega)
  · exact parseTableOrAssign_spec hc h rfl name (by omega)
  · exact h.safe.failWith _
  · refine (wp_bind _ _).2 (h.advance rfl fun k₁ s₁ hk₁ h₁ => ?_)
    refine (parseBuiltin_spec (b := b) hc h₁ name (by omega)).mono ?_ (fun _ hN => hN) fun _ hE => hE
    rintro node s' ⟨k, hk, h'⟩
    exact h'.consumed (by omega)
  · split
    · exact h.toReady.consumed le_rfl
    · exact h.safe.failWith _

theorem parseFunctionCall_spec (hc : CallSpec n call) (h : Ready m s) (hb : 8 * m < b) :
    wp (Parse.parseFunctionCall call) (fun _ => Consumed 1 m) Failed (Starved (n + 1) b) s := by
  refine (wp_bind _ _).2 (h.peek fun tok s₁ h₁ => ?_)
  split
  · refine (wp_bind _ _).2 (h₁.advance rfl fun k₂ s₂ hk₂ h₂ => ?_)
    refine (wp_bind _ _).2 (h₂.peek fun next s₃ h₃ => ?_)
    refine (parseAfterName_spec (b := b) hc h₃ _ (by omega)).mono ?_ (fun _ hN => hN) fun _ hE => hE
    rintro node s' ⟨k, hk, h'⟩
    exact h'.consumed (by omega)
  · exact h₁.safe.failWith _

/-- A stale identifier is followed by itself: it is a bare name. -/
theorem parseFunctionCall_stuck (h : Stuck tok s) (htok : tok.type = .ident) :
    wp (Parse.parseFunctionCall call) (fun _ s' => tok.standsAlone = true ∧ Stuck tok s')
      (fun s' => tok.standsAlone = false ∧ Failed s') E s := by
  obtain ⟨name, rfl⟩ : ∃ name, tok = .ident name := by
    cases tok <;> first | exact ⟨_, rfl⟩ | cases htok
  refine (wp_bind _ _).2 (h.peek ((wp_bind _ _).2 (h.advance ((wp_bind _ _).2 (h.peek ?_)))))
  show wp (Parse.parseAfterName call name (.ident name)) _ _ _ _
  simp only [Parse.parseAfterName]
  split
  · rename_i node hbare
    have halone : (Token.ident name).standsAlone = true := by simp [Token.standsAlone, hbare]
    exact ⟨halone, h⟩
  · rename_i hbare
    have halone : (Token.ident name).standsAlone = false := by simp [Token.standsAlone, hbare]
    exact ⟨halone, rfl, h.safe.2 halone⟩

end bodies

/-! ## Every call -/

/-- **What a call does**, for every function and any amount of fuel: by induction on
the fuel, one case a function. -/
theorem parseRule_spec (n : Nat) : CallSpec n (Parse.parseRule n) := by
  induction n with
  | zero =>
      refine ⟨fun rule m s h => ?_, fun rule tok s hent h => ?_⟩
      · exact .inr (by cases rule <;> simp only [Rule.rank] <;> omega)
      · rcases halone : tok.standsAlone
        · exact .inr ⟨rfl, by cases rule <;> simp [Rule.rank]⟩
        · exact .inl (h.not_safe halone)
  | succ n ih =>
      refine ⟨fun rule m s h => ?_, fun rule tok s hent h => ?_⟩
      · cases rule with
        | statement => exact parseStatement_spec ih h (by simp only [Rule.rank]; omega)
        | alternation => exact parseAlternation_spec ih h (by simp only [Rule.rank]; omega)
        | alternationLoop left =>
            exact parseAlternationLoop_spec ih h left (by simp only [Rule.rank]; omega)
        | concatenationLoop parts =>
            exact parseConcatenationLoop_spec ih h parts (by simp only [Rule.rank]; omega)
        | repetition => exact parseRepetition_spec ih h (by simp only [Rule.rank]; omega)
        | primary => exact parsePrimary_spec ih h (by simp only [Rule.rank]; omega)
        | functionCall => exact parseFunctionCall_spec ih h (by simp only [Rule.rank]; omega)
      · cases rule with
        | statement => cases hent
        | alternationLoop left => cases hent
        | alternation =>
            refine (parseAlternation_stuck ih h (by simpa [Rule.entered] using hent)).mono ?_ ?_ ?_
            · exact fun _ _ hF => hF.elim
            · exact fun _ hN => hN
            · exact fun _ hE => hE
        | concatenationLoop parts =>
            refine (parseConcatenationLoop_stuck ih h parts
              (by simpa [Rule.entered] using hent)).mono ?_ ?_ ?_
            · exact fun _ _ hF => hF.elim
            · exact fun _ hN => hN
            · exact fun _ hE => hE
        | repetition =>
            refine (parseRepetition_stuck ih h (by simpa [Rule.entered] using hent)).mono ?_ ?_ ?_
            · exact fun _ _ hQ => ⟨rfl, hQ⟩
            · exact fun _ hN => hN
            · exact fun _ hE => hE
        | primary =>
            refine (parsePrimary_stuck ih h (by simpa [Rule.entered] using hent)).mono ?_ ?_ ?_
            · exact fun _ _ hQ => ⟨rfl, hQ⟩
            · exact fun _ hN => hN
            · exact fun _ hE => hE
        | functionCall =>
            refine (parseFunctionCall_stuck (E := fun _ => False) h
              (by simpa [Rule.entered] using hent)).mono ?_ ?_ ?_
            · exact fun _ _ hQ => ⟨rfl, hQ⟩
            · exact fun _ hN => hN
            · exact fun _ hE => hE.elim

end Snobol4
