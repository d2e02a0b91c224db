import Snobol4.ParserProgress

/-!
# ParserTermination — when `snobol_parser_parse` decides

A run with more fuel continues the run with less, so the lookaheads of a run are
those of every longer one.  With that, the parser terminates on a source exactly
when no lookahead of its run is one that will be replayed.
-/

namespace Snobol4

open Fueled

/-- `s'` is `s` after some more lookaheads. -/
def Later (s s' : Parsing) : Prop := s.saves <:+ s'.saves

instance : IsPreorder Parsing Later where
  refl s := List.suffix_refl s.saves
  trans _ _ _ h h' := List.IsSuffix.trans h h'

/-! ## More fuel continues the run -/

section moreFuel

variable {call call' : Rule → Parse AstNode} {α : Type}

/-- A computation continues itself. -/
abbrev Steady (m : Parse α) : Prop := Extends Later m m

theorem steady_advance : Steady Parse.advance := .refl_of_later fun _ => List.suffix_refl _

theorem steady_peek : Steady Parse.peek := .refl_of_later fun _ => List.suffix_refl _

theorem steady_save : Steady Parse.save := .refl_of_later fun _ => List.suffix_cons _ _

theorem steady_restore (state : SnobolLexerState) : Steady (Parse.restore state) :=
  .refl_of_later fun _ => List.suffix_refl _

theorem steady_failWith (msg : Bytes) : Steady (Parse.failWith (α := α) msg) :=
  .refl_of_later fun _ => List.suffix_refl _

theorem steady_failLexically : Steady (Parse.failLexically (α := α)) :=
  .refl_of_later fun _ => List.suffix_refl _

theorem steady_isLexicalError (tok : Token) : Steady (Parse.isLexicalError tok) :=
  .refl_of_later fun _ => List.suffix_refl _

theorem steady_matchToken (type : TokenType) : Steady (Parse.matchToken type) :=
  .refl_of_later fun _ => List.suffix_refl _

theorem steady_allocateCapture (text : Bytes) : Steady (Parse.allocateCapture text) :=
  .refl_of_later fun _ => List.suffix_refl _

theorem steady_expect (type : TokenType) : Steady (Parse.expect type) := by
  refine .bind steady_peek fun tok => .ite _ ?_ ?_
  · exact steady_advance
  · exact .bind (steady_isLexicalError tok) fun _ => .ite _ steady_failLexically (steady_failWith _)

theorem steady_parseIntegerArg (func : String) : Steady (Parse.parseIntegerArg func) := by
  refine .bind steady_peek fun tok => .bind (steady_isLexicalError tok) fun _ => ?_
  refine .ite _ steady_failLexically ?_
  split
  · exact .ite _ (steady_failWith _) (.bind steady_advance fun _ => .pure _)
  · exact steady_failWith _

theorem steady_parseRegisterTarget (tok : Token) : Steady (Parse.parseRegisterTarget tok) := by
  unfold Parse.parseRegisterTarget
  split
  · split
    · exact .ite _ (steady_failWith _) (.bind steady_advance fun _ => .pure _)
    · split
      · exact .ite _ (steady_failWith _) (steady_failWith _)
      · exact steady_failWith _
  · exact steady_failWith _

theorem steady_parseNamingTarget : Steady Parse.parseNamingTarget := by
  refine .bind steady_peek fun tok => .ite _ ?_ (.ite _ ?_ (steady_parseRegisterTarget tok))
  · refine .bind steady_advance fun _ => .bind steady_peek fun tok => ?_
    split
    · refine .bind .read fun _ => .ite _ (steady_failWith _) ?_
      exact .bind (steady_allocateCapture _) fun _ => .bind steady_advance fun _ => .pure _
    · exact steady_failWith _
  · exact .bind steady_advance fun _ => .bind steady_peek fun tok => steady_parseRegisterTarget tok

theorem steady_parseGoto (pattern : AstNode) : Steady (Parse.parseGoto pattern) := by
  refine .bind steady_advance fun _ => .bind (steady_expect _) fun _ => .bind steady_peek ?_
  intro tok
  split
  · exact .bind steady_advance fun _ => .bind (steady_expect _) fun _ => .pure _
  · exact steady_failWith _

theorem steady_finishConcatenation (parts : List AstNode) :
    Steady (Parse.finishConcatenation parts) := by
  unfold Parse.finishConcatenation
  split
  · exact steady_failWith _
  · exact .pure _
  · exact .pure _

theorem steady_parseEndAnchor : Steady Parse.parseEndAnchor :=
  .bind steady_advance fun _ => .bind steady_peek fun _ => .ite _ (steady_failWith _) (.pure _)

theorem steady_parseSetCall (func : String) (create : Bytes → AstNode) :
    Steady (Parse.parseSetCall func create) := by
  refine .bind steady_peek fun tok => ?_
  split
  · exact .bind steady_advance fun _ => .bind (steady_expect _) fun _ => .pure _
  · exact .bind steady_advance fun _ => .bind (steady_expect _) fun _ => .pure _
  · exact steady_failWith _

theorem steady_parseAnyCall : Steady Parse.parseAnyCall :=
  .bind steady_peek fun _ =>
    .ite _ (.bind steady_advance fun _ => .pure _) (steady_parseSetCall _ _)

theorem steady_parseIntCall (func : String) (create : Int32 → AstNode) :
    Steady (Parse.parseIntCall func create) :=
  .bind (steady_parseIntegerArg _) fun _ => .bind (steady_expect _) fun _ => .pure _

theorem steady_parseNullaryCall (node : AstNode) : Steady (Parse.parseNullaryCall node) :=
  .bind (steady_expect _) fun _ => .pure _

theorem steady_parseNoArgumentsCall (func : String) (node : AstNode) :
    Steady (Parse.parseNoArgumentsCall func node) :=
  .bind (steady_matchToken _) fun _ =>
    .ite _ (.bind steady_advance fun _ => .pure _) (steady_failWith _)

theorem steady_parseEmit : Steady Parse.parseEmit := by
  refine .bind steady_peek fun tok => ?_
  split
  · exact .bind steady_advance fun _ => .bind (steady_expect _) fun _ => .pure _
  · refine .bind steady_advance fun _ => .bind steady_peek fun tok => ?_
    split
    · refine .bind .read fun s => ?_
      split
      · exact .bind steady_advance fun _ => .bind (steady_expect _) fun _ => .pure _
      · exact steady_failWith _
    · exact steady_failWith _
  · exact steady_failWith _

theorem steady_parseDelimiter (text : Bytes) : Steady (Parse.parseDelimiter text) := by
  unfold Parse.parseDelimiter
  split
  · exact .pure _
  · exact steady_failWith _

theorem steady_parseClosingDelimiter : Steady Parse.parseClosingDelimiter := by
  refine .bind steady_advance fun _ => .bind steady_peek fun tok => ?_
  split
  · exact steady_failWith _
  · exact .bind steady_advance fun _ => steady_parseDelimiter _
  · exact steady_failWith _

theorem steady_parseBalCall : Steady Parse.parseBalCall := by
  refine .bind steady_peek fun tok => ?_
  split
  · exact .bind steady_advance fun _ => .pure _
  · refine .bind steady_advance fun _ => .bind (steady_parseDelimiter _) fun _ => ?_
    refine .bind (steady_matchToken _) fun _ => .ite _ ?_ ?_
    · exact .bind steady_parseClosingDelimiter fun _ => .bind (steady_expect _) fun _ => .pure _
    · exact .bind (steady_expect _) fun _ => .pure _
  · exact steady_failWith _

theorem steady_parseAssign (name : Bytes) : Steady (Parse.parseAssign name) := by
  refine .bind steady_advance fun _ => .bind .read fun s => ?_
  split
  · exact steady_failWith _
  · refine .bind steady_peek fun tok => ?_
    split
    · exact .ite _ (steady_failWith _) (.bind steady_advance fun _ => .pure _)
    · exact steady_failWith _

theorem steady_parseRegisterKey : Steady Parse.parseRegisterKey := by
  refine .bind steady_advance fun _ => .bind steady_peek fun tok => ?_
  split
  · split
    · exact .ite _ (steady_failWith _) (.bind steady_advance fun _ => .pure _)
    · exact steady_failWith _
  · exact steady_failWith _

theorem steady_parseTableKey (name : Bytes) : Steady (Parse.parseTableKey name) := by
  refine .bind steady_peek fun tok => .bind (steady_isLexicalError tok) fun _ => ?_
  refine .ite _ steady_failLexically ?_
  split
  · exact .bind steady_advance fun _ => .pure _
  · exact steady_parseRegisterKey
  · exact steady_failWith _

variable (h : ∀ rule, Extends Later (call rule) (call' rule))

include h

theorem extends_parseUnlabelled :
    Extends Later (Parse.parseUnlabelled call) (Parse.parseUnlabelled call') :=
  .bind (h _) fun pattern => .bind steady_peek fun _ => .ite _ (steady_parseGoto pattern) (.pure _)

theorem extends_parseStatement :
    Extends Later (Parse.parseStatement call) (Parse.parseStatement call') := by
  refine .bind steady_peek fun tok => ?_
  split
  · refine .bind steady_save fun st => .bind steady_advance fun _ => .bind steady_peek fun _ => ?_
    refine .ite _ (.bind steady_advance fun _ => ?_) ?_
    · refine .bind .read fun s => .ite _ (steady_failWith _) ?_
      exact .bind (.refl_of_later fun _ => List.suffix_refl _) fun _ => .bind (h _) fun _ => .pure _
    · exact .bind (steady_restore st) fun _ => extends_parseUnlabelled h
  · exact extends_parseUnlabelled h

theorem extends_parseAlternationLoop (left : AstNode) :
    Extends Later (Parse.parseAlternationLoop call left) (Parse.parseAlternationLoop call' left) :=
  .bind (steady_matchToken _) fun _ =>
    .ite _ (.bind steady_advance fun _ => .bind (h _) fun _ => h _) (.pure _)

theorem extends_parsePart (parts : List AstNode) (tok : Token) :
    Extends Later (Parse.parsePart call parts tok) (Parse.parsePart call' parts tok) :=
  .ite _ (.bind (h _) fun _ => h _) (steady_finishConcatenation parts)

theorem extends_parsePartAhead (parts : List AstNode) (tok : Token) :
    Extends Later (Parse.parsePartAhead call parts tok) (Parse.parsePartAhead call' parts tok) := by
  unfold Parse.parsePartAhead
  split
  · refine .bind steady_save fun st => .bind steady_advance fun _ => .bind steady_peek fun _ => ?_
    exact .bind (steady_restore st) fun _ => extends_parsePart h parts _
  · exact extends_parsePart h parts tok

theorem extends_parseNaming (parts : List AstNode) :
    Extends Later (Parse.parseNaming call parts) (Parse.parseNaming call' parts) := by
  refine .bind steady_parseNamingTarget fun reg => ?_
  split
  · exact h _
  · exact .failed

theorem extends_parseConcatenationLoop (parts : List AstNode) :
    Extends Later (Parse.parseConcatenationLoop call parts)
      (Parse.parseConcatenationLoop call' parts) := by
  refine .bind steady_peek fun tok => .ite _ ?_ (.ite _ ?_ (extends_parsePartAhead h parts tok))
  · exact .bind steady_advance fun _ => extends_parseNaming h parts
  · refine .bind steady_save fun st => .bind steady_advance fun _ => .bind steady_peek fun nxt => ?_
    split
    · exact extends_parseNaming h parts
    · exact steady_failWith _
    · exact .bind (steady_restore st) fun _ => extends_parsePartAhead h parts tok

theorem extends_parseRepetition :
    Extends Later (Parse.parseRepetition call) (Parse.parseRepetition call') := by
  refine .bind (h _) fun primary => .bind steady_peek fun tok => ?_
  split
  · exact .bind steady_advance fun _ => .pure _
  · exact .bind steady_advance fun _ => .pure _
  · exact .bind steady_advance fun _ => .pure _
  · exact .pure _

theorem extends_parseCapture :
    Extends Later (Parse.parseCapture call) (Parse.parseCapture call') := by
  refine .bind steady_advance fun _ => .bind steady_peek fun tok => ?_
  split
  · refine .bind steady_advance fun _ => .bind .read fun s => .ite _ (steady_failWith _) ?_
    exact .bind (steady_allocateCapture _) fun _ => .bind (h _) fun _ => .pure _
  · exact steady_failWith _

theorem extends_parsePrimary :
    Extends Later (Parse.parsePrimary call) (Parse.parsePrimary call') := by
  refine .bind steady_peek fun tok => ?_
  split
  · exact .bind steady_advance fun _ => .pure _
  · exact .bind steady_advance fun _ => .pure _
  · exact .bind steady_advance fun _ => .bind (h _) fun _ => .bind (steady_expect _) fun _ => .pure _
  · exact .bind steady_advance fun _ => .pure _
  · exact steady_parseEndAnchor
  · exact extends_parseCapture h
  · exact h _
  · refine .bind (steady_isLexicalError _) fun _ => .ite _ steady_failLexically ?_
    exact .ite _ (steady_failWith _) (steady_failWith _)

theorem extends_parseArbnoCall :
    Extends Later (Parse.parseArbnoCall call) (Parse.parseArbnoCall call') := by
  refine .bind (steady_matchToken _) fun _ => .ite _ (steady_failWith _) ?_
  refine .bind (h _) fun _ => .bind (steady_matchToken _) fun _ => .ite _ (steady_failWith _) ?_
  exact .bind (steady_expect _) fun _ => .pure _

theorem extends_parseRepeatCall :
    Extends Later (Parse.parseRepeatCall call) (Parse.parseRepeatCall call') := by
  refine .bind (steady_matchToken _) fun _ => .ite _ (steady_failWith _) ?_
  refine .bind (h _) fun _ => .bind (steady_expect _) fun _ => ?_
  refine .bind (steady_parseIntegerArg _) fun _ => .bind (steady_matchToken _) fun _ => ?_
  refine .ite _ (steady_failWith _) (.bind (steady_expect _) fun _ => ?_)
  refine .bind (steady_parseIntegerArg _) fun _ => .bind (steady_expect _) fun _ => ?_
  exact .ite _ (steady_failWith _) (.ite _ (steady_failWith _) (.pure _))

theorem extends_parseBuiltin (name : Bytes) :
    Extends Later (Parse.parseBuiltin call name) (Parse.parseBuiltin call' name) := by
  unfold Parse.parseBuiltin
  refine .ite _ (steady_parseSetCall _ _) (.ite _ (steady_parseSetCall _ _) ?_)
  refine .ite _ (steady_parseSetCall _ _) (.ite _ steady_parseAnyCall ?_)
  refine .ite _ (steady_parseSetCall _ _) (.ite _ (steady_parseIntCall _ _) ?_)
  refine .ite _ (.bind (h _) fun _ => .bind (steady_expect _) fun _ => .pure _) ?_
  refine .ite _ steady_parseEmit (.ite _ (steady_parseIntCall _ _) ?_)
  refine .ite _ (steady_parseIntCall _ _) (.ite _ (steady_parseNullaryCall _) ?_)
  refine .ite _ (extends_parseArbnoCall h) (.ite _ steady_parseBalCall ?_)
  refine .ite _ (steady_parseNoArgumentsCall _ _) (.ite _ (steady_parseNoArgumentsCall _ _) ?_)
  refine .ite _ (steady_parseIntCall _ _) (.ite _ (steady_parseIntCall _ _) ?_)
  refine .ite _ (extends_parseRepeatCall h) (.ite _ (steady_parseNullaryCall _) ?_)
  refine .ite _ (steady_parseNullaryCall _) (.ite _ (steady_parseNullaryCall _) ?_)
  exact steady_failWith _

theorem extends_parseTable (name : Bytes) :
    Extends Later (Parse.parseTable call name) (Parse.parseTable call' name) := by
  refine .bind steady_advance fun _ => .bind (steady_parseTableKey name) fun _ => ?_
  refine .bind (steady_expect _) fun _ => .bind (steady_matchToken _) fun _ => ?_
  refine .ite _ (.bind steady_advance fun _ => .bind steady_peek fun _ => ?_) (.pure _)
  exact .ite _ (steady_failWith _) (.bind (h _) fun _ => .pure _)

theorem extends_parseFunctionCall :
    Extends Later (Parse.parseFunctionCall call) (Parse.parseFunctionCall call') := by
  have htable : ∀ name, Extends Later (Parse.parseTableOrAssign call name)
      (Parse.parseTableOrAssign call' name) := fun name =>
    .bind steady_peek fun _ => .ite _ (steady_parseAssign name) (extends_parseTable h name)
  refine .bind steady_peek fun tok => ?_
  split
  · refine .bind steady_advance fun _ => .bind steady_peek fun next => ?_
    unfold Parse.parseAfterName
    split
    · exact htable _
    · exact htable _
    · exact steady_failWith _
    · exact .bind steady_advance fun _ => extends_parseBuiltin h _
    · split
      · exact .pure _
      · exact steady_failWith _
  · exact steady_failWith _

/-- Calls that continue each other give bodies that do. -/
theorem extends_ruleBody (rule : Rule) :
    Extends Later (Parse.ruleBody call rule) (Parse.ruleBody call' rule) := by
  cases rule with
  | statement => exact extends_parseStatement h
  | alternation => exact .bind (h _) fun _ => h _
  | alternationLoop left => exact extends_parseAlternationLoop h left
  | concatenationLoop parts => exact extends_parseConcatenationLoop h parts
  | repetition => exact extends_parseRepetition h
  | primary => exact extends_parsePrimary h
  | functionCall => exact extends_parseFunctionCall h

end moreFuel

theorem steady_parseRule (n : Nat) (rule : Rule) : Steady (Parse.parseRule n rule) := by
  induction n generalizing rule with
  | zero => exact .refl_of_later fun _ => List.suffix_refl _
  | succ n ih => exact extends_ruleBody ih rule

/-- **More fuel continues the run**: one call more of fuel at a time, by induction. -/
theorem extends_parseRule {n m : Nat} (hnm : n ≤ m) (rule : Rule) :
    Extends Later (Parse.parseRule n rule) (Parse.parseRule m rule) := by
  induction n generalizing m rule with
  | zero => exact .exhausted (steady_parseRule m rule).later
  | succ n ih =>
      obtain ⟨k, rfl⟩ : ∃ k, m = k + 1 := ⟨m - 1, by omega⟩
      exact extends_ruleBody (fun r => ih (by omega) r) rule

theorem extends_snobolParserParse {n m : Nat} (hnm : n ≤ m) :
    Extends Later (snobolParserParse n) (snobolParserParse m) := by
  have hnode : ∀ ast : Option AstNode, Steady (returnNode ast) := by
    rintro (_ | ast)
    · exact .failed
    · exact .pure ast
  refine .bind (.refl_of_later fun _ => List.suffix_refl _) fun _ => ?_
  refine .bind (extends_parseRule hnm .statement).attempt fun ast => .bind .read fun s => ?_
  refine .ite _ (hnode ast) (.bind steady_peek fun tok => .bind (steady_isLexicalError tok) ?_)
  exact fun _ => .ite _ steady_failLexically (.ite _ (steady_failWith _) (hnode ast))

/-! ## The parser -/

/-- The run ended, with a tree and no error or with a null pointer and an error. -/
def Decided : Outcome AstNode × Parsing → Prop
  | (.ret _, s) => s.parser.hasError = false
  | (.fail, s) => s.parser.hasError = true
  | (.outOfFuel, _) => False

/-- `snobol_parser_parse` terminates on a fresh parser and lexer over `source`, and
what it returns agrees with the error flag. -/
def Decides (source : Bytes) : Prop :=
  ∃ fuel, Decided (snobolParserParse fuel (freshParsing source))

theorem Ready.fresh (source : Bytes) : Ready source.length (freshParsing source) where
  sound := .create source
  hasError := rfl
  safe := fun _ hmem => absurd hmem List.not_mem_nil
  remaining := by simp [freshParsing, snobolLexerCreate, SnobolLexer.remaining]

theorem snobolParserParse_spec (fuel : Nat) (source : Bytes) :
    wp (snobolParserParse fuel) (fun _ s => s.parser.hasError = false ∧ Safe s) Failed
      (Starved fuel (8 * source.length + 6)) (freshParsing source) := by
  refine (wp_bind _ _).2 ((wp_modify _).2 ((wp_bind _ _).2 ((wp_attempt _).2 ?_)))
  refine ((parseRule_spec fuel).ready .statement source.length _ (Ready.fresh source)).mono ?_ ?_ ?_
  · rintro ast s₁ ⟨k, -, h₁⟩
    refine (wp_bind _ _).2 (wp_read.2 ?_)
    rw [if_neg (by rw [h₁.hasError]; exact Bool.false_ne_true)]
    refine (wp_bind _ _).2 (h₁.peek fun tok s₂ h₂ => (wp_bind _ _).2 (wp_isLexicalError ?_))
    refine fun b => (wp_ite _ _ _).2 ⟨fun _ => h₂.safe.failLexically, fun _ => ?_⟩
    exact (wp_ite _ _ _).2 ⟨fun _ => h₂.safe.failWith _, fun _ => ⟨h₂.hasError, h₂.safe⟩⟩
  · intro s₁ h₁
    refine (wp_bind _ _).2 (wp_read.2 ?_)
    rw [if_pos h₁.hasError]
    exact h₁
  · exact fun _ hE => hE

/-- A run that has ended made no lookahead that is replayed. -/
theorem Decided.safe {fuel : Nat} {source : Bytes}
    (h : Decided (snobolParserParse fuel (freshParsing source))) :
    Safe (snobolParserParse fuel (freshParsing source)).2 := by
  have hspec := snobolParserParse_spec fuel source
  rcases hr : snobolParserParse fuel (freshParsing source) with ⟨ast | _ | _, s⟩
  · exact (hspec.of_ret hr).2
  · exact (hspec.of_fail hr).safe
  · rw [hr] at h
    exact h.elim

/-- Once a lookahead is replayed, no amount of fuel ends the run: a longer run has
made the same lookahead, and a shorter one that had ended would be this one. -/
theorem not_decided_of_replay (fuel fuel' : Nat) {source : Bytes}
    (h : ¬Safe (snobolParserParse fuel (freshParsing source)).2) :
    ¬Decided (snobolParserParse fuel' (freshParsing source)) := by
  intro hdec
  rcases Nat.le_total fuel fuel' with hle | hle
  · have hext := extends_snobolParserParse hle
    by_cases hout : (snobolParserParse fuel (freshParsing source)).1 = .outOfFuel
    · have hlater : Later _ _ := hext.beyond _ hout
      exact h fun lexer hmem => hdec.safe lexer (hlater.subset hmem)
    · rw [hext.same _ hout] at hdec
      exact h hdec.safe
  · have hout : (snobolParserParse fuel' (freshParsing source)).1 ≠ .outOfFuel := by
      intro hout
      rcases hr : snobolParserParse fuel' (freshParsing source) with ⟨o, s⟩
      rw [hr] at hdec hout
      subst hout
      exact hdec
    have hsame := (extends_snobolParserParse hle).same _ hout
    rw [hsame] at h
    exact h hdec.safe

/-- Without a replayed lookahead, fuel linear in the source is enough. -/
theorem decided_of_safe {source : Bytes}
    (h : Safe (snobolParserParse (8 * source.length + 6) (freshParsing source)).2) :
    Decided (snobolParserParse (8 * source.length + 6) (freshParsing source)) := by
  have hspec := snobolParserParse_spec (8 * source.length + 6) source
  rcases hr : snobolParserParse (8 * source.length + 6) (freshParsing source) with ⟨ast | _ | _, s⟩
  · exact (hspec.of_ret hr).1
  · exact (hspec.of_fail hr).hasError
  · rw [hr] at h
    exact ((hspec.of_outOfFuel hr).elim (fun hs => hs h) (Nat.lt_irrefl _)).elim

/-- **`snobol_parser_parse` decides exactly the sources on which it replays nothing**:
it terminates, with a tree and no error or with a null pointer and an error, if and
only if no lookahead of its run is taken at `$` or at a bare `ARB`, `FENCE` or `REM`
whose next token is a lexical error. -/
theorem snobolParserParse_decides_iff (source : Bytes) :
    Decides source ↔
      ∀ fuel, ∀ lexer ∈ (snobolParserParse fuel (freshParsing source)).2.saves,
        ¬LookaheadReplays lexer := by
  refine ⟨fun ⟨fuel, hdec⟩ fuel' => ?_, fun h => ⟨8 * source.length + 6, decided_of_safe (h _)⟩⟩
  by_contra hunsafe
  exact not_decided_of_replay fuel' fuel hunsafe hdec

/-- On `FENCE #` the parser never ends: the bad character makes the lookahead after
`FENCE` stale. -/
theorem snobolParserParse_replays_fence : ¬Decides (ascii "FENCE #") := by
  rintro ⟨fuel, hdec⟩
  refine not_decided_of_replay 8 fuel (fun hsafe => ?_) hdec
  have hall : ((snobolParserParse 8 (freshParsing (ascii "FENCE #"))).2.saves.all
      fun lexer => decide ¬LookaheadReplays lexer) = true := by
    simpa [List.all_eq_true, Safe] using hsafe
  exact absurd hall (by decide)

end Snobol4
