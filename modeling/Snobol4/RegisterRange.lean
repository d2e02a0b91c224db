import Mathlib.Data.List.Basic
import Snobol4.TakenTokens

/-!
# RegisterRange — the registers of an accepted pattern (`parser.c`)

`ident_is_v_register` lets `v64` pass.  The naming targets and the table keys test the register
once more; the target of an assignment and `EMIT(@vN)` do not, and nothing else names a register
that is not one of the VM.
-/

namespace Snobol4

open Fueled

/-! ## The registers of a tree -/

mutual

/-- The registers that a tree names. -/
def AstNode.registers : AstNode → List Int32
  | .concat parts => registersOf parts
  | .alt left right => left.registers ++ right.registers
  | .repetition sub _ _ => sub.registers
  | .arbno sub => sub.registers
  | .cap reg sub => reg :: sub.registers
  | .assign var reg => [var, reg]
  | .eval _ reg => [reg]
  | .dynamicEval expr => expr.registers
  | .emit none reg => [reg]
  | .label _ target => target.registers
  | .tableAccess _ key => key.registers
  | .tableUpdate _ key value => key.registers ++ value.registers
  | .regRef reg => [reg]
  | _ => []

/-- The registers that a sequence names. -/
def registersOf : List AstNode → List Int32
  | [] => []
  | part :: parts => part.registers ++ registersOf parts

end

/-- A register of the VM. -/
def IsRegister (reg : Int32) : Prop := 0 ≤ reg.toInt ∧ reg.toInt < maxVars

/-- The tree names registers of the VM only. -/
def AstNode.InRange (ast : AstNode) : Prop := ∀ reg ∈ ast.registers, IsRegister reg

theorem isRegister_ofNat {reg : Nat} (h : reg < maxVars) : IsRegister (Int32.ofNat reg) := by
  have hlt : reg < 2147483648 := Nat.lt_trans h (by decide)
  rw [IsRegister, Int32.toInt_ofNat_of_lt hlt]
  exact ⟨Int.natCast_nonneg reg, Int.ofNat_lt.mpr h⟩

theorem isRegister_ofInt {reg : Int} (hpos : 0 ≤ reg) (h : reg < maxVars) :
    IsRegister (Int32.ofInt reg) := by
  obtain ⟨n, rfl⟩ := Int.eq_ofNat_of_zero_le hpos
  exact isRegister_ofNat (Int.ofNat_lt.mp h)

theorem not_isRegister_maxVars : ¬ IsRegister (Int32.ofNat maxVars) := fun h =>
  absurd h.2 (by decide)

namespace AstNode

theorem inRange_of_nil {ast : AstNode} (h : ast.registers = []) : ast.InRange := by
  intro reg hreg
  rw [h] at hreg
  cases hreg

theorem inRange_congr {ast ast' : AstNode} (h : ast.registers = ast'.registers) :
    ast.InRange ↔ ast'.InRange := by
  rw [InRange, InRange, h]

theorem inRange_concat {parts : List AstNode} :
    (AstNode.concat parts).InRange ↔ ∀ part ∈ parts, part.InRange := by
  show (∀ reg ∈ registersOf parts, IsRegister reg) ↔ _
  induction parts with
  | nil => exact iff_of_true (List.forall_mem_nil _) (List.forall_mem_nil _)
  | cons part parts ih =>
    show (∀ reg ∈ part.registers ++ registersOf parts, IsRegister reg) ↔ _
    rw [List.forall_mem_append, ih, List.forall_mem_cons]
    rfl

theorem inRange_alt {left right : AstNode} :
    (AstNode.alt left right).InRange ↔ left.InRange ∧ right.InRange :=
  List.forall_mem_append

theorem inRange_cap {reg : Int32} {sub : AstNode} :
    (AstNode.cap reg sub).InRange ↔ IsRegister reg ∧ sub.InRange :=
  List.forall_mem_cons

theorem inRange_tableUpdate {name : Bytes} {key value : AstNode} :
    (AstNode.tableUpdate name key value).InRange ↔ key.InRange ∧ value.InRange :=
  List.forall_mem_append

theorem inRange_assign {var reg : Int32} :
    (AstNode.assign var reg).InRange ↔ IsRegister var ∧ IsRegister reg :=
  List.forall_mem_cons.trans (and_congr_right fun _ => List.forall_mem_singleton)

theorem inRange_emit {reg : Int32} : (AstNode.emit none reg).InRange ↔ IsRegister reg :=
  List.forall_mem_singleton

end AstNode

/-! ## The parser functions -/

/-- What a loop has so far is in range. -/
def Rule.InRange : Rule → Prop
  | .alternationLoop left => left.InRange
  | .concatenationLoop parts => ∀ part ∈ parts, part.InRange
  | _ => True

/-- The recursive calls return trees that are in range if and only if no token that they take is
off, and a closing parenthesis is no primary. -/
structure CallsMark (source : Bytes) (call : Rule → Parse AstNode) : Prop where
  marks : ∀ rule, Marks source (Clear source) none rule.InRange (call rule) AstNode.InRange
  rparen : ∀ before, Marks source (fun i => tokenAt source i = .rparen) none before
    (call .primary) AstNode.InRange

section bodies

variable {source : Bytes} {look : Option Token} {before : Prop} {call : Rule → Parse AstNode}

/-- A call whose tree is the result. -/
theorem CallsMark.tail (hc : CallsMark source call) (rule : Rule) (h : before ↔ rule.InRange) :
    Marks source (Clear source) look before (call rule) AstNode.InRange :=
  (hc.marks rule).blind.congr h

/-- A call of a rule without an accumulator. -/
theorem CallsMark.bind {good : AstNode → Prop} (hc : CallsMark source call) (rule : Rule)
    (hrule : rule.InRange) {f : AstNode → Parse AstNode}
    (hf : ∀ ast, Marks source (Clear source) none (before ∧ ast.InRange) (f ast) good) :
    Marks source (Clear source) look before (call rule >>= f) good := by
  have hcall : Marks source (Clear source) look before (call rule)
      fun ast => before ∧ ast.InRange :=
    (((hc.marks rule).frame before).blind).congr (iff_self_and.mpr fun _ => hrule)
  exact hcall.bind hf

/-- A call before which nothing was built. -/
theorem CallsMark.first {good : AstNode → Prop} (hc : CallsMark source call) (rule : Rule)
    (hrule : rule.InRange) {f : AstNode → Parse AstNode}
    (hf : ∀ ast, Marks source (Clear source) none ast.InRange (f ast) good) :
    Marks source (Clear source) look True (call rule >>= f) good :=
  hc.bind rule hrule fun ast => (hf ast).congr (iff_of_eq (true_and _))

/-- A node after which the parenthesis is closed. -/
theorem marks_closed {node : AstNode} (h : node.InRange ↔ before) :
    Marks source (Clear source) look before (do Parse.expect .rparen; pure node)
      AstNode.InRange := by
  refine Marks.expect (t := .rparen) rfl rfl ?_
  exact (Marks.pure h).mono fun _ hi => hi.clear fun h => by cases h

/-- A node made of the one token under the lookahead. -/
theorem marks_token {tok : Token} (htok : tok.isPlain = true) {node : AstNode}
    (h : node.registers = []) :
    Marks source (Clear source) (some tok) True (do Parse.advance; pure node) AstNode.InRange :=
  .skip htok (.pure (iff_true_intro (AstNode.inRange_of_nil h)))

theorem marks_parseIntegerArg (func : String) :
    Marks source (Clear source) look before (Parse.parseIntegerArg func) fun _ => before := by
  refine .peek fun tok => .isLexicalError fun _ => .ite (fun _ => .failLexically) fun _ => ?_
  split
  · exact .ite (fun _ => .failWith _) fun _ => .skip rfl (.pure Iff.rfl)
  · exact .failWith _

theorem marks_parseLabel (hc : CallsMark source call) (name : Bytes) :
    Marks source (Clear source) look True (Parse.parseLabel call name) AstNode.InRange := by
  refine .read fun _ _ => .ite (fun _ => .failWith _) fun _ => ?_
  have hstatement : Marks source (Clear source) look True
      (do
        let target ← call .statement
        return .label name target) AstNode.InRange :=
    hc.first .statement trivial fun target => .pure Iff.rfl
  refine ⟨fun s hs => ?_, fun i s hs hi hlook => ?_⟩
  · exact hstatement.dead _ ⟨⟨hs.unreported, hs.names⟩, hs.error, hs.notEof⟩
  · refine hstatement.alive i _ ⟨⟨hs.unreported, hs.names⟩, hs.error, hs.lexer, hs.inside⟩ hi ?_
    exact fun tok htok => ⟨(hlook tok htok).token, (hlook tok htok).lexer⟩

theorem marks_parseGoto (pattern : AstNode) :
    Marks source (Clear source) (some .colon) pattern.InRange (Parse.parseGoto pattern)
      AstNode.InRange := by
  unfold Parse.parseGoto
  refine .skip rfl (.expect (t := .lparen) rfl rfl (.mono (.peek fun tok => ?_)
    fun _ hi => hi.clear fun h => by cases h))
  split
  · refine .skip rfl (marks_closed ?_)
    rw [AstNode.inRange_concat, List.forall_mem_cons, List.forall_mem_singleton]
    exact and_iff_left (AstNode.inRange_of_nil rfl)
  · exact .failWith _

theorem marks_parseUnlabelled (hc : CallsMark source call) :
    Marks source (Clear source) look True (Parse.parseUnlabelled call) AstNode.InRange := by
  refine hc.first .alternation trivial fun pattern => .peek fun tok => .ite (fun hcolon => ?_) ?_
  · rw [hcolon]
    exact marks_parseGoto pattern
  · exact fun _ => .pure Iff.rfl

theorem marks_parseStatement (hc : CallsMark source call) :
    Marks source (Clear source) look True (Parse.parseStatement call) AstNode.InRange := by
  refine .peek fun tok => ?_
  split
  · refine .lookahead rfl fun s nxt => ?_
    by_cases hcolon : nxt = .colon
    · left
      rw [if_pos hcolon, hcolon]
      refine .mono ?_ fun _ hi => hi.clear fun h => by cases h
      exact .skip rfl (marks_parseLabel hc _)
    · right
      rw [if_neg hcolon]
      exact ⟨_, rfl, marks_parseUnlabelled hc⟩
  · exact marks_parseUnlabelled hc

theorem marks_parseAlternation (hc : CallsMark source call) :
    Marks source (Clear source) look True (Parse.parseAlternation call) AstNode.InRange :=
  hc.first (.concatenationLoop []) (List.forall_mem_nil _) fun left =>
    hc.tail (.alternationLoop left) Iff.rfl

theorem marks_parseAlternationLoop (hc : CallsMark source call) (left : AstNode) :
    Marks source (Clear source) look left.InRange (Parse.parseAlternationLoop call left)
      AstNode.InRange := by
  refine .matchToken (t := .pipe) rfl ?_ fun tok => ?_
  · refine .skip rfl (hc.bind (.concatenationLoop []) (List.forall_mem_nil _) fun right => ?_)
    exact hc.tail (.alternationLoop _) AstNode.inRange_alt.symm
  · exact .pure Iff.rfl

/-! ### Concatenations -/

/-- Here the register is tested. -/
theorem marks_parseRegisterTarget (tok : Token) :
    Marks source (Clear source) (some tok) before (Parse.parseRegisterTarget tok)
      fun reg => before ∧ IsRegister (Int32.ofNat reg) := by
  unfold Parse.parseRegisterTarget
  split
  · split
    · refine .ite (fun _ => .failWith _) fun hlt => .skip rfl (.pure ?_)
      exact and_iff_left (isRegister_ofNat (Nat.not_le.mp hlt))
    · split
      · exact .ite (fun _ => .failWith _) fun _ => .failWith _
      · exact .failWith _
  · exact .failWith _

/-- No parenthesis stands before the `@` of a naming target. -/
theorem marks_parseCaptureTarget {op : Token} (hop : op ≠ .lparen) (hat : op ≠ .at) :
    Marks source (Behind source op) (some .at) before Parse.parseCaptureTarget
      fun reg => before ∧ IsRegister (Int32.ofNat reg) := by
  unfold Parse.parseCaptureTarget
  refine .take before (fun i => ∃ t, i = t + 2 ∧ tokenAt source t = op) (fun h => by cases h)
    (fun i hi htok => ?_) ?_ (.peek fun tok => ?_)
  · exact iff_self_and.mpr fun _ => (hi.clear hat).not_off htok fun h => by cases h
  · rintro _ ⟨t, rfl, ht⟩ -
    exact ⟨t, rfl, ht⟩
  · split
    · refine .allocate fun reg hreg =>
        .take before (Clear source) (fun h => by cases h) ?_ ?_ (.pure ?_)
      · rintro i ⟨t, hi, ht⟩ hident
        refine iff_self_and.mpr fun _ hoff => ?_
        obtain ⟨t', hi', hlparen, -⟩ := hoff.of_ident hident
        obtain rfl : t = t' := by omega
        exact hop (ht.symm.trans hlparen)
      · exact fun i _ hident => clear_succ hident fun h => by cases h
      · exact and_iff_left (isRegister_ofNat hreg)
    · exact .failWith _

theorem marks_parseNamingTarget {op : Token} (hop : op ≠ .lparen) (hat : op ≠ .at) :
    Marks source (Behind source op) look before Parse.parseNamingTarget
      fun reg => before ∧ IsRegister (Int32.ofNat reg) := by
  refine .peek fun tok => .ite (fun htok => ?_) fun _ => .mono (.ite (fun htok => ?_) fun _ => ?_)
    fun i hi => hi.clear hat
  · rw [htok]
    exact marks_parseCaptureTarget hop hat
  · rw [htok]
    exact .skip rfl (.peek fun tok => marks_parseRegisterTarget tok)
  · exact marks_parseRegisterTarget tok

theorem marks_finishConcatenation (parts : List AstNode) :
    Marks source (Clear source) look (∀ part ∈ parts, part.InRange)
      (Parse.finishConcatenation parts) AstNode.InRange := by
  unfold Parse.finishConcatenation
  split
  · exact .failWith _
  · exact .pure List.forall_mem_singleton.symm
  · exact .pure AstNode.inRange_concat

theorem marks_parsePart (hc : CallsMark source call) (parts : List AstNode) (tok : Token) :
    Marks source (Clear source) look (∀ part ∈ parts, part.InRange)
      (Parse.parsePart call parts tok) AstNode.InRange := by
  refine .ite (fun _ => ?_) fun _ => marks_finishConcatenation parts
  refine hc.bind .repetition trivial fun part => hc.tail (.concatenationLoop _) ?_
  show _ ↔ ∀ part ∈ _, AstNode.InRange part
  rw [List.forall_mem_append, List.forall_mem_singleton]

theorem marks_parsePartAhead (hc : CallsMark source call) (parts : List AstNode) (tok : Token) :
    Marks source (Clear source) (some tok) (∀ part ∈ parts, part.InRange)
      (Parse.parsePartAhead call parts tok) AstNode.InRange := by
  unfold Parse.parsePartAhead
  split
  · exact .lookahead rfl fun s nxt => .inr ⟨_, rfl, marks_parsePart hc parts _⟩
  · exact marks_parsePart hc parts _

theorem marks_parseNaming (hc : CallsMark source call) (parts : List AstNode) {op : Token}
    (hop : op ≠ .lparen) (hat : op ≠ .at) :
    Marks source (Behind source op) look (∀ part ∈ parts, part.InRange)
      (Parse.parseNaming call parts) AstNode.InRange := by
  refine (marks_parseNamingTarget hop hat).bind fun reg => ?_
  split
  · rename_i part hlast
    refine hc.tail (.concatenationLoop _) ?_
    show _ ↔ ∀ part ∈ _, AstNode.InRange part
    rw [List.forall_mem_append, List.forall_mem_singleton, AstNode.inRange_cap]
    conv_lhs => rw [← List.dropLast_append_getLast? part hlast, List.forall_mem_append,
      List.forall_mem_singleton]
    rw [and_assoc, and_comm (a := part.InRange)]
  · exact .failed

theorem marks_parseConcatenationLoop (hc : CallsMark source call) (parts : List AstNode) :
    Marks source (Clear source) look (∀ part ∈ parts, part.InRange)
      (Parse.parseConcatenationLoop call parts) AstNode.InRange := by
  refine .peek fun tok => .ite (fun hdot => ?_) fun _ => .ite (fun hdollar => ?_) fun _ => ?_
  · rw [hdot.2]
    exact .step rfl (marks_parseNaming hc parts (fun h => by cases h) fun h => by cases h)
  · rw [hdollar.2]
    refine .lookahead rfl fun s nxt => ?_
    split
    · exact .inl (marks_parseNaming hc parts (fun h => by cases h) fun h => by cases h)
    · exact .inl (.failWith _)
    · exact .inr ⟨_, rfl, marks_parsePartAhead hc parts _⟩
  · exact marks_parsePartAhead hc parts _

/-! ### Primaries -/

theorem marks_parseRepetition (hc : CallsMark source call) :
    Marks source (Clear source) look True (Parse.parseRepetition call) AstNode.InRange := by
  refine hc.first .primary trivial fun primary => .peek fun tok => ?_
  split
  · exact .skip rfl (.pure (AstNode.inRange_congr rfl))
  · refine .skip rfl (.pure ?_)
    rw [AstNode.inRange_concat, List.forall_mem_cons, List.forall_mem_singleton]
    exact (iff_of_eq (and_self _).symm).symm
  · exact .skip rfl (.pure (AstNode.inRange_congr rfl))
  · exact .pure Iff.rfl

/-- After its name a capture has a primary, so it is not closed there. -/
theorem marks_parseCapture (hc : CallsMark source call) :
    Marks source (Clear source) (some .at) True (Parse.parseCapture call) AstNode.InRange := by
  unfold Parse.parseCapture
  refine .take True (fun _ => True) (fun h => by cases h) (fun i hi hat => ?_)
    (fun _ _ _ => trivial) (.peek fun tok => ?_)
  · exact iff_self_and.mpr fun _ => hi.not_off hat fun h => by cases h
  · split
    · rename_i text
      have hcap : ∀ reg, reg < maxVars → ∀ sub,
          (AstNode.cap (Int32.ofNat reg) sub).InRange ↔ sub.InRange := fun reg hreg sub =>
        AstNode.inRange_cap.trans (and_iff_right (isRegister_ofNat hreg))
      refine .cases (Off source) ?_ ?_
      · -- `(@v64)`: the parenthesis is no primary, and the call does not return
        refine .take False (fun i => tokenAt source i = .rparen)
          (fun h => by cases h) (fun i hi _ => ?_) ?_ ?_
        · exact (iff_false_intro fun h => h.2 hi.2).symm
        · rintro i ⟨-, hoff⟩ hident
          obtain ⟨-, -, -, -, hrparen⟩ := hoff.of_ident hident
          exact hrparen
        · exact .allocate fun reg hreg =>
            (hc.rparen False).bind fun sub => .pure (hcap reg hreg sub)
      · refine .take True (Clear source) (fun h => by cases h)
          (fun i hi _ => iff_self_and.mpr fun _ => hi.2) ?_ ?_
        · exact fun i _ hident => clear_succ hident fun h => by cases h
        · exact .allocate fun reg hreg =>
            hc.first .primary trivial fun sub => .pure (hcap reg hreg sub)
    · exact .failWith _

theorem marks_parsePrimary (hc : CallsMark source call) :
    Marks source (Clear source) look True (Parse.parsePrimary call) AstNode.InRange := by
  refine .peek fun tok => ?_
  split
  · exact marks_token rfl rfl
  · exact marks_token rfl rfl
  · unfold Parse.parseGroup
    exact .skip rfl (hc.first .alternation trivial fun _ => marks_closed Iff.rfl)
  · exact marks_token rfl rfl
  · unfold Parse.parseEndAnchor
    refine .skip rfl (.peek fun nxt => .ite (fun _ => .failWith _) fun _ => .pure ?_)
    exact iff_true_intro (AstNode.inRange_of_nil rfl)
  · exact marks_parseCapture hc
  · exact hc.tail .functionCall Iff.rfl
  · refine .isLexicalError fun _ => .ite (fun _ => .failLexically) fun _ => ?_
    exact .ite (fun _ => .failWith _) fun _ => .failWith _

/-- A closing parenthesis is no primary. -/
theorem marks_parsePrimary_rparen (hc : CallsMark source call) :
    Marks source (fun i => tokenAt source i = .rparen) none before (Parse.parsePrimary call)
      AstNode.InRange := by
  have hprimary : Marks source (Clear source) none True (Parse.parsePrimary call)
    AstNode.InRange := marks_parsePrimary hc
  refine ⟨hprimary.dead, fun i s hs hi _ => ?_⟩
  unfold Parse.parsePrimary wp
  rw [bind_apply, hs.peek_run, hi]
  exact trivial

/-! ### Function calls -/

theorem marks_parseSetCall (func : String) {create : Bytes → AstNode}
    (h : ∀ text, (create text).registers = []) :
    Marks source (Clear source) look True (Parse.parseSetCall func create) AstNode.InRange := by
  have hnode : ∀ text, (create text).InRange ↔ True := fun text =>
    iff_true_intro (AstNode.inRange_of_nil (h text))
  refine .peek fun tok => ?_
  split
  · exact .skip rfl (marks_closed (hnode _))
  · exact .skip rfl (marks_closed (hnode _))
  · exact .failWith _

theorem marks_parseAnyCall :
    Marks source (Clear source) look True Parse.parseAnyCall AstNode.InRange := by
  refine .peek fun tok => .ite (fun hrparen => ?_) fun _ => marks_parseSetCall _ fun _ => rfl
  rw [hrparen]
  exact marks_token rfl rfl

theorem marks_parseIntCall (func : String) {create : Int32 → AstNode}
    (h : ∀ n, (create n).registers = []) :
    Marks source (Clear source) look True (Parse.parseIntCall func create) AstNode.InRange :=
  (marks_parseIntegerArg func).bind fun n =>
    marks_closed (iff_true_intro (AstNode.inRange_of_nil (h n)))

theorem marks_parseNoArgumentsCall (func : String) {node : AstNode} (h : node.registers = []) :
    Marks source (Clear source) look True (Parse.parseNoArgumentsCall func node)
      AstNode.InRange :=
  .matchToken (t := .rparen) rfl (marks_token rfl h) fun _ => .failWith _

theorem marks_parseDynamicEval (hc : CallsMark source call) :
    Marks source (Clear source) look True (Parse.parseDynamicEval call) AstNode.InRange :=
  hc.first .alternation trivial fun _ => marks_closed (AstNode.inRange_congr rfl)

theorem marks_parseArbnoCall (hc : CallsMark source call) :
    Marks source (Clear source) look True (Parse.parseArbnoCall call) AstNode.InRange := by
  refine .matchToken (t := .rparen) rfl (.failWith _) fun _ => ?_
  refine hc.first .repetition trivial fun sub => ?_
  refine .matchToken (t := .comma) rfl (.failWith _) fun _ => ?_
  exact marks_closed (AstNode.inRange_congr rfl)

theorem marks_parseDelimiter (text : Bytes) :
    Marks source (Clear source) look before (Parse.parseDelimiter text) fun _ => before := by
  unfold Parse.parseDelimiter
  split
  · exact .pure Iff.rfl
  · exact .failWith _

theorem marks_parseClosingDelimiter :
    Marks source (Clear source) (some .comma) before Parse.parseClosingDelimiter
      fun _ => before := by
  unfold Parse.parseClosingDelimiter
  refine .skip rfl (.peek fun tok => ?_)
  split
  · exact .failWith _
  · exact .skip rfl (marks_parseDelimiter _)
  · exact .failWith _

theorem marks_parseBalCall :
    Marks source (Clear source) look True Parse.parseBalCall AstNode.InRange := by
  refine .peek fun tok => ?_
  split
  · exact marks_token rfl rfl
  · refine .skip rfl ((marks_parseDelimiter _).bind fun _ => ?_)
    refine .matchToken (t := .comma) rfl ?_ fun _ => ?_
    · exact marks_parseClosingDelimiter.bind fun _ =>
        marks_closed (iff_true_intro (AstNode.inRange_of_nil rfl))
    · exact marks_closed (iff_true_intro (AstNode.inRange_of_nil rfl))
  · exact .failWith _

/-- The bounds of `repeat`, behind the pattern. -/
theorem marks_repeatBounds (sig : Bytes) (sub : AstNode) :
    Marks source (Clear source) none sub.InRange
      (do
        Parse.expect .comma
        let min ← Parse.parseIntegerArg "repeat"
        if ← Parse.matchToken .rparen then Parse.failWith sig
        else
          Parse.expect .comma
          let max ← Parse.parseIntegerArg "repeat"
          Parse.expect .rparen
          Parse.makeRepeat sub min max) AstNode.InRange := by
  have hclear : ∀ i, Behind source .comma i → Clear source i := fun i hi =>
    hi.clear fun h => by cases h
  refine .expect (t := .comma) rfl rfl (.mono ?_ hclear)
  refine (marks_parseIntegerArg _).bind fun min => ?_
  refine .matchToken (t := .rparen) rfl (.failWith _) fun _ => ?_
  refine .expect (t := .comma) rfl rfl (.mono ?_ hclear)
  refine (marks_parseIntegerArg _).bind fun max => ?_
  refine .expect (t := .rparen) rfl rfl (.mono ?_ fun i hi => hi.clear ?_)
  · unfold Parse.makeRepeat
    refine .ite (fun _ => .failWith _) fun _ => .ite (fun _ => .failWith _) fun _ => .pure ?_
    exact AstNode.inRange_congr rfl
  · exact fun h => by cases h

theorem marks_parseRepeatCall (hc : CallsMark source call) :
    Marks source (Clear source) look True (Parse.parseRepeatCall call) AstNode.InRange := by
  refine .matchToken (t := .rparen) rfl (.failWith _) fun _ => ?_
  exact hc.first .repetition trivial fun sub => marks_repeatBounds _ sub

theorem vRegisterDigits_le {digits : Bytes} {reg value : Nat} (hvalue : value ≤ maxVars)
    (h : Parse.vRegisterDigits digits value = some reg) : reg ≤ maxVars := by
  induction digits generalizing value with
  | nil =>
    cases h
    exact hvalue
  | cons c digits ih =>
    rw [Parse.vRegisterDigits] at h
    split at h
    · dsimp only at h
      split at h
      · cases h
      · exact ih (by omega) h
    · cases h

/-- A register that is spelled out is one of the VM, or it is `v64`. -/
theorem identIsVRegister_le {text : Bytes} {reg : Nat}
    (h : Parse.identIsVRegister text = some reg) : reg ≤ maxVars := by
  unfold Parse.identIsVRegister at h
  split at h
  · split at h
    · exact vRegisterDigits_le (Nat.zero_le _) h
    · cases h
  · cases h

/-- The register of a name is none of the VM if it is `v64`. -/
theorem isRegister_target {s : Parsing} (hs : Sane s) {text : Bytes} {reg : Nat}
    (htarget : (Parse.identIsVRegister text).or
      (Parse.findCaptureReg s.parser.captureNames text) = some reg) :
    IsRegister (Int32.ofNat reg) ↔ ¬ Parse.identIsVRegister text = some maxVars := by
  cases hident : Parse.identIsVRegister text with
  | none =>
    rw [hident, Option.none_or] at htarget
    obtain ⟨before, after, hsplit, -⟩ := List.lookup_eq_some_iff.1 htarget
    have hlt : reg < maxVars := hs.names (text, reg) (by simp [hsplit])
    exact iff_of_true (isRegister_ofNat hlt) fun h => by cases h
  | some n =>
    rw [hident, Option.some_or] at htarget
    cases htarget
    by_cases hmax : reg = maxVars
    · rw [hmax]
      exact iff_of_false not_isRegister_maxVars fun h => h rfl
    · have hlt : reg < maxVars := (identIsVRegister_le hident).lt_of_ne hmax
      exact iff_of_true (isRegister_ofNat hlt) fun h => hmax (Option.some.inj h)

/-- The name that is emitted is off if it is `v64`, and it is followed by the parenthesis. -/
theorem marks_emitted {text : Bytes} {node : AstNode}
    (h : node.InRange ↔ ¬ Parse.identIsVRegister text = some maxVars) :
    Marks source (fun i => ∃ t, i = t + 2 ∧ tokenAt source t = .lparen ∧
        tokenAt source (t + 1) = .at) (some (.ident text)) True
      (do Parse.advance; Parse.expect .rparen; pure node) AstNode.InRange := by
  have hclear : ∀ i, tokenAt source i = .ident text → Clear source (i + 1) := fun i hident =>
    clear_succ hident fun h => by cases h
  refine .cases (fun i => Off source i ∨ ¬ Parse.identIsVRegister text = some maxVars) ?_ ?_
  · -- the register decides
    refine .take (¬ Parse.identIsVRegister text = some maxVars) (Clear source) (fun h => by cases h)
      (fun i hi hident => ?_) (fun i _ hident => hclear i hident) (marks_closed h)
    constructor
    · refine fun hnot => ⟨trivial, fun hoff => ?_⟩
      obtain ⟨-, -, -, hmax, -⟩ := hoff.of_ident hident
      exact hnot hmax
    · exact fun hoff => hi.2.resolve_left hoff.2
  · -- `(@v64` is not closed here
    refine .take True (fun i => tokenAt source i ≠ .rparen) (fun h => by cases h)
      (fun i hi _ => iff_self_and.mpr fun _ hoff => hi.2 (.inl hoff)) ?_ ?_
    · rintro _ ⟨⟨t, rfl, hlparen, hat⟩, hoff⟩ hident hrparen
      refine hoff (.inl (.emit hlparen hat ?_ hrparen))
      rw [hident]
      exact not_not.mp fun hmax => hoff (.inr hmax)
    · have hnode : Marks source (Clear source) none
          (¬ Parse.identIsVRegister text = some maxVars) (pure node) AstNode.InRange := .pure h
      refine Marks.expectNot (t := .rparen) rfl rfl (hnode.mono ?_)
      exact fun _ hi => hi.clear fun h => by cases h

/-- `EMIT(@v64)` is off, and nothing else in an `EMIT`. -/
theorem marks_parseEmit :
    Marks source (Behind source .lparen) look True Parse.parseEmit AstNode.InRange := by
  have hclear : ∀ i, Behind source .lparen i → Clear source i := fun i hi =>
    hi.clear fun h => by cases h
  refine .peek fun tok => ?_
  split
  · refine .mono (.skip rfl (marks_closed (iff_true_intro (AstNode.inRange_of_nil rfl)))) hclear
  · refine .take True (fun i => ∃ t, i = t + 2 ∧ tokenAt source t = .lparen ∧
      tokenAt source (t + 1) = .at) (fun h => by cases h) (fun i hi hat => ?_) ?_
      (.peek fun tok => ?_)
    · exact iff_self_and.mpr fun _ => (hclear i hi).not_off hat fun h => by cases h
    · rintro _ ⟨t, rfl, ht⟩ hat
      exact ⟨t, rfl, ht, hat⟩
    · split
      · rename_i text
        refine .read fun s hs => ?_
        split
        · rename_i reg htarget
          have hreg : (AstNode.emit none (Int32.ofNat reg)).InRange ↔
              ¬ Parse.identIsVRegister text = some maxVars :=
            AstNode.inRange_emit.trans (isRegister_target hs htarget)
          exact marks_emitted hreg
        · exact .failWith _
      · exact .failWith _
  · exact .failWith _

theorem marks_parseBuiltin (hc : CallsMark source call) (name : Bytes) :
    Marks source (Behind source .lparen) look True (Parse.parseBuiltin call name)
      AstNode.InRange := by
  have hclear : ∀ {m : Parse AstNode}, Marks source (Clear source) look True m AstNode.InRange →
      Marks source (Behind source .lparen) look True m AstNode.InRange := fun h =>
    h.mono fun i hi => hi.clear fun h => by cases h
  have hnullary : ∀ node : AstNode, node.registers = [] →
      Marks source (Behind source .lparen) look True (Parse.parseNullaryCall node)
        AstNode.InRange := fun node h =>
    hclear (marks_closed (iff_true_intro (AstNode.inRange_of_nil h)))
  unfold Parse.parseBuiltin
  refine .ite (fun _ => hclear (marks_parseSetCall _ fun _ => rfl)) fun _ => ?_
  refine .ite (fun _ => hclear (marks_parseSetCall _ fun _ => rfl)) fun _ => ?_
  refine .ite (fun _ => hclear (marks_parseSetCall _ fun _ => rfl)) fun _ => ?_
  refine .ite (fun _ => hclear marks_parseAnyCall) fun _ => ?_
  refine .ite (fun _ => hclear (marks_parseSetCall _ fun _ => rfl)) fun _ => ?_
  refine .ite (fun _ => hclear (marks_parseIntCall _ fun _ => rfl)) fun _ => ?_
  refine .ite (fun _ => hclear (marks_parseDynamicEval hc)) fun _ => ?_
  refine .ite (fun _ => marks_parseEmit) fun _ => ?_
  refine .ite (fun _ => hclear (marks_parseIntCall _ fun _ => rfl)) fun _ => ?_
  refine .ite (fun _ => hclear (marks_parseIntCall _ fun _ => rfl)) fun _ => ?_
  refine .ite (fun _ => hnullary _ rfl) fun _ => ?_
  refine .ite (fun _ => hclear (marks_parseArbnoCall hc)) fun _ => ?_
  refine .ite (fun _ => hclear marks_parseBalCall) fun _ => ?_
  refine .ite (fun _ => hclear (marks_parseNoArgumentsCall _ rfl)) fun _ => ?_
  refine .ite (fun _ => hclear (marks_parseNoArgumentsCall _ rfl)) fun _ => ?_
  refine .ite (fun _ => hclear (marks_parseIntCall _ fun _ => rfl)) fun _ => ?_
  refine .ite (fun _ => hclear (marks_parseIntCall _ fun _ => rfl)) fun _ => ?_
  refine .ite (fun _ => hclear (marks_parseRepeatCall hc)) fun _ => ?_
  refine .ite (fun _ => hnullary _ rfl) fun _ => ?_
  refine .ite (fun _ => hnullary _ rfl) fun _ => ?_
  refine .ite (fun _ => hnullary _ rfl) fun _ => ?_
  exact .failWith _

/-! ### Assignments and tables -/

/-- The target of an assignment is not tested. -/
theorem marks_parseAssign (name : Bytes) :
    Marks source (Behind source (.ident name)) (some .equals) True (Parse.parseAssign name)
      AstNode.InRange := by
  unfold Parse.parseAssign
  refine .take (¬ Parse.identIsVRegister name = some maxVars) (Clear source)
    (fun h => by cases h) (fun i hi hequals => ?_) ?_ (.read fun s hs => ?_)
  · -- `=` is off exactly behind `v64`
    rw [off_equals hi hequals]
    exact (iff_of_eq (true_and _)).symm
  · exact fun i _ hequals => clear_succ hequals fun h => by cases h
  · split
    · exact .failWith _
    · rename_i var htarget
      refine .peek fun tok => ?_
      split
      · refine .ite (fun _ => .failWith _) fun hrange => .skip rfl (.pure ?_)
        rw [AstNode.inRange_assign, isRegister_target hs htarget]
        exact and_iff_left (isRegister_ofInt (by omega) (by omega))
      · exact .failWith _

/-- Here the register is tested. -/
theorem marks_parseRegisterKey :
    Marks source (Clear source) (some .anchorEnd) True Parse.parseRegisterKey
      AstNode.InRange := by
  unfold Parse.parseRegisterKey
  refine .skip rfl (.peek fun tok => ?_)
  split
  · split
    · refine .ite (fun _ => .failWith _) fun hlt => .skip rfl (.pure (iff_true_intro ?_))
      exact List.forall_mem_singleton.mpr (isRegister_ofNat (Nat.not_le.mp hlt))
    · exact .failWith _
  · exact .failWith _

theorem marks_parseTableKey (name : Bytes) :
    Marks source (Clear source) look True (Parse.parseTableKey name) AstNode.InRange := by
  refine .peek fun tok => .isLexicalError fun _ => .ite (fun _ => .failLexically) fun _ => ?_
  split
  · exact marks_token rfl rfl
  · exact marks_parseRegisterKey
  · exact .failWith _

/-- The `=` of an update stands behind a bracket. -/
theorem marks_parseTable (hc : CallsMark source call) (name : Bytes) :
    Marks source (Clear source) (some .lbracket) True (Parse.parseTable call name)
      AstNode.InRange := by
  unfold Parse.parseTable
  refine .skip rfl ((marks_parseTableKey name).bind fun key => ?_)
  refine .expect (t := .rbracket) rfl rfl ?_
  refine .matchToken (t := .equals) rfl ?_ fun tok => ?_
  · refine .take key.InRange (Clear source) (fun h => by cases h)
      (fun i hi hequals => iff_self_and.mpr fun _ hoff => ?_) ?_ (.peek fun tok => ?_)
    · obtain ⟨t, rfl, ht⟩ := hi
      cases hoff with
      | assign hmax =>
        rw [ht] at hmax
        exact hmax
      | emit _ _ hmax => exact hmax.ne.2.1 hequals
    · exact fun i _ hequals => clear_succ hequals fun h => by cases h
    · refine .ite (fun _ => .failWith _) fun _ => ?_
      exact hc.bind .repetition trivial fun value => .pure AstNode.inRange_tableUpdate
  · exact .mono (.pure (AstNode.inRange_congr rfl)) fun i hi => hi.clear fun h => by cases h

theorem barePrimitive_inRange {name : Bytes} {node : AstNode}
    (h : Parse.barePrimitive name = some node) : node.InRange := by
  unfold Parse.barePrimitive at h
  split_ifs at h <;> cases h <;> exact AstNode.inRange_of_nil rfl

theorem marks_parseTableOrAssign (hc : CallsMark source call) (name : Bytes) {tok : Token}
    (htok : tok = .equals ∨ tok = .lbracket) :
    Marks source (Behind source (.ident name)) (some tok) True
      (Parse.parseTableOrAssign call name) AstNode.InRange := by
  have hclear : ∀ i, Behind source (.ident name) i → Clear source i := fun i hi =>
    hi.clear fun h => by cases h
  have hassign : Marks source (Behind source (.ident name)) (some .equals) True
      (Parse.parseAssign name) AstNode.InRange := marks_parseAssign name
  refine .peekKnown (fun _ s hs => ?_) (fun i s _ h => (h tok rfl).token) (.ite (fun h => ?_) ?_)
  · refine (wp_ite _ _ _).mpr ⟨fun _ => hassign.dead s hs, fun _ => ?_⟩
    exact (marks_parseTable hc name).dead s hs
  · rw [h]
    exact hassign
  · intro hne
    rcases htok with rfl | rfl
    · exact absurd rfl hne
    · exact (marks_parseTable hc name).mono hclear

/-- What follows an identifier. -/
theorem marks_parseAfterName (hc : CallsMark source call) (name : Bytes) (next : Token) :
    Marks source (Behind source (.ident name)) (some next) True
      (Parse.parseAfterName call name next) AstNode.InRange := by
  have hclear : ∀ i, Behind source (.ident name) i → Clear source i := fun i hi =>
    hi.clear fun h => by cases h
  unfold Parse.parseAfterName
  split
  · exact marks_parseTableOrAssign hc name (.inl rfl)
  · exact marks_parseTableOrAssign hc name (.inr rfl)
  · exact .failWith _
  · exact .mono (.step rfl (marks_parseBuiltin hc name)) hclear
  · split
    · rename_i node hbare
      exact .mono (.pure (iff_true_intro (barePrimitive_inRange hbare))) hclear
    · exact .failWith _

theorem marks_parseFunctionCall (hc : CallsMark source call) :
    Marks source (Clear source) look True (Parse.parseFunctionCall call) AstNode.InRange := by
  refine .peek fun tok => ?_
  split
  · exact .step rfl (.peek fun next => marks_parseAfterName hc _ next)
  · exact .failWith _

/-- Calls that mark give bodies that do. -/
theorem ruleBody_marks (hc : CallsMark source call) : CallsMark source (Parse.ruleBody call) := by
  refine ⟨fun rule => ?_, fun before => marks_parsePrimary_rparen hc⟩
  cases rule with
  | statement => exact marks_parseStatement hc
  | alternation => exact marks_parseAlternation hc
  | alternationLoop left => exact marks_parseAlternationLoop hc left
  | concatenationLoop parts => exact marks_parseConcatenationLoop hc parts
  | repetition => exact marks_parseRepetition hc
  | primary => exact marks_parsePrimary hc
  | functionCall => exact marks_parseFunctionCall hc

end bodies

variable {source : Bytes}

theorem parseRule_marks (fuel : Nat) : CallsMark source (Parse.parseRule fuel) := by
  induction fuel with
  | zero => exact ⟨fun _ => ⟨fun _ _ => trivial, fun _ _ _ _ _ => trivial⟩,
      fun _ => ⟨fun _ _ => trivial, fun _ _ _ _ _ => trivial⟩⟩
  | succ fuel ih => exact ruleBody_marks ih

/-- A dead lexer is not at the end of the source, and a lexer that is there has taken every
token. -/
theorem snobolParserParse_marks (fuel : Nat) :
    wp (snobolParserParse fuel) (fun ast _ => ast.InRange ↔ ¬ UsesMaxVars source)
      (fun _ => True) (fun _ => True) (freshParsing source) := by
  refine (wp_bind _ _).mpr ((wp_modify _).mpr ((wp_bind _ _).mpr ((wp_attempt _).mpr ?_)))
  have hfresh : Cursor source 0
      { freshParsing source with
        parser := { (freshParsing source).parser with
          hasError := false
          seenLabels := []
          captureNames := []
          captureRegCounter := 0 } } :=
    ⟨⟨rfl, List.forall_mem_nil _⟩, rfl, .inl rfl, fun k hk => absurd hk (Nat.not_lt_zero k)⟩
  refine (((parseRule_marks fuel).marks .statement).alive 0 _ hfresh (fun t ht => ?_) ?_).mono
    ?_ ?_ ?_
  · cases ht
  · exact fun _ h => by cases h
  · intro ast s hreached
    have hsane : Sane s := by
      rcases hreached with hdead | ⟨j, -, hcursor, -⟩
      · exact hdead.toSane
      · exact hcursor.toSane
    refine (wp_bind _ _).mpr (wp_read.mpr ?_)
    rw [if_neg (by rw [hsane.unreported]; exact Bool.false_ne_true)]
    refine (wp_bind _ _).mpr ?_
    show wp _ _ _ _ (peeked s)
    refine (wp_bind _ _).mpr ((wp_ite _ _ _).mpr ⟨fun _ => trivial, fun _ => ?_⟩)
    refine (wp_ite _ _ _).mpr ⟨fun _ => trivial, fun heof => ?_⟩
    have heof : (snobolLexerPeek s.lexer).1 = .eof := by
      have htype := not_not.mp heof
      generalize (snobolLexerPeek s.lexer).1 = tok at htype
      cases tok <;> first | rfl | cases htype
    show ast.InRange ↔ ¬ UsesMaxVars source
    rcases hreached with hdead | ⟨j, -, hcursor, -, hgood⟩
    · -- a dead lexer does not come to the end
      exact absurd heof hdead.token_ne
    · rw [congrArg Prod.fst hcursor.peek_eq] at heof
      rw [hgood, usesMaxVars_iff hcursor.inside heof]
      exact iff_of_eq (true_and _)
  · intro s _
    refine (wp_bind _ _).mpr (wp_read.mpr ((wp_ite _ _ _).mpr ⟨fun _ => trivial, fun _ => ?_⟩))
    refine (wp_bind _ _).mpr ?_
    show wp _ _ _ _ (peeked s)
    refine (wp_bind _ _).mpr ((wp_ite _ _ _).mpr ⟨fun _ => trivial, fun _ => ?_⟩)
    exact (wp_ite _ _ _).mpr ⟨fun _ => trivial, fun _ => trivial⟩
  · exact fun _ h => h

/-- An accepted source names registers of the VM only if and only if it neither assigns to `v64`
nor emits it. -/
theorem parser_registers_in_range_iff (source : Bytes) (fuel : Nat) (ast : AstNode) (s : Parsing)
    (h : snobolParserParse fuel (freshParsing source) = (.ret ast, s)) :
    ast.InRange ↔ ¬ UsesMaxVars source :=
  (snobolParserParse_marks fuel).of_ret h

/-- `v63 = 0` names registers of the VM. -/
theorem assign_v63_in_range :
    ∃ s, snobolParserParse 9 (freshParsing (ascii "v63 = 0")) = (.ret (.assign 63 0), s) ∧
      ((AstNode.assign 63 0).InRange ↔ ¬ UsesMaxVars (ascii "v63 = 0")) :=
  ⟨_, rfl, parser_registers_in_range_iff (ascii "v63 = 0") 9 (.assign 63 0) _ rfl⟩

/-- `v64 = 0` is accepted and names the register 64. -/
theorem assign_v64_accepted :
    ∃ s, snobolParserParse 9 (freshParsing (ascii "v64 = 0")) = (.ret (.assign 64 0), s) ∧
      ¬ (AstNode.assign 64 0).InRange := by
  refine ⟨_, rfl, ?_⟩
  intro h
  exact absurd (h 64 List.mem_cons_self).2 (by decide)

end Snobol4
