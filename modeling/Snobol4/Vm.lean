import Mathlib.Logic.Function.Basic
import Snobol4.CharClass

/-!
# Vm — the backtracking interpreter (`vm_exec.c`, `vm_choice.c`, `vm_capture.c`)

`vmStep` is one turn of the dispatch loop of `vm_run`: fetch the instruction at
`ip`, act, and hand back either the next state or the result of the run.  Register
files are functions from the register number, the choice stack and the undo trail
are lists with the newest entry first.  Allocations succeed.
-/

namespace Snobol4

/-! ## Scanning the subject -/

/-- `utf8_peek_next` with the codepoint as a number. -/
def peekCp (s : Bytes) (pos : Nat) : Option (Nat × Nat) :=
  (utf8PeekNext s pos).map fun (cp, bytes) => (cp.toNat, bytes)

/-- The end of the run of codepoints that satisfy `p` from `pos` on; a codepoint
takes at least one of the `fuel` bytes. -/
def spanCps (s : Bytes) (p : Nat → Bool) : Nat → Nat → Nat
  | 0, pos => pos
  | fuel + 1, pos =>
      match peekCp s pos with
      | some (cp, bytes) => if p cp then spanCps s p fuel (pos + bytes) else pos
      | none => pos

/-- The position `n` codepoints after `pos`. -/
def skipCps (s : Bytes) : Nat → Nat → Option Nat
  | 0, pos => some pos
  | n + 1, pos =>
      match peekCp s pos with
      | some (_, bytes) => skipCps s n (pos + bytes)
      | none => none

/-- A UTF-8 continuation byte. -/
def isContinuation (b : UInt8) : Bool := b &&& 0xC0 == 0x80

/-- The byte offset of the `n`-th codepoint, found by skipping continuation bytes
from `target` on, never past the end. -/
def forwardTarget (s : Bytes) : Nat → Nat → Nat
  | 0, target => target
  | n + 1, target =>
      if target < s.length then forwardTarget s n (spanBytes s isContinuation (target + 1))
      else target

/-- Step back over continuation bytes, not before the start. -/
def backOverContinuation (s : Bytes) : Nat → Nat
  | 0 => 0
  | target + 1 =>
      if (s[target + 1]?).any isContinuation then backOverContinuation s target else target + 1

/-- The byte offset `n` codepoints before `target`, found by skipping continuation
bytes backwards. -/
def backwardTarget (s : Bytes) : Nat → Nat → Nat
  | 0, target => target
  | _ + 1, 0 => 0
  | n + 1, target + 1 => backwardTarget s n (backOverContinuation s target)

/-! ## The environment of a run -/

/-- What the VM calls outside its own file: the callbacks of the host, the tables
it registered, and the string and type functions of the library. -/
structure Host (W : Type) where
  /-- `eval_fn` -/
  evalFn : Option (Nat → Nat → Nat → W → Bool × W)
  /-- `emit_fn` -/
  emitFn : Option (Bytes → W → W)
  /-- `vm->out` is not null. -/
  hasOut : Bool
  /-- `vm_get_table` and `table_get` -/
  tableGet : W → Nat → Option (Bytes → Option Bytes)
  /-- `vm_get_table` and `table_set` -/
  tableSet : W → Nat → Option (Bytes → Bytes → Option W)
  trim : Bytes → Option Bytes
  reverse : Bytes → Option Bytes
  upper : Bytes → Option Bytes
  lower : Bytes → Option Bytes
  integer : Bytes → Bool
  real : Bytes → Bool
  numeric : Bytes → Bool

/-- A host without callbacks and tables. -/
def Host.bare : Host Unit where
  evalFn := none
  emitFn := none
  hasOut := true
  tableGet _ _ := none
  tableSet _ _ := none
  trim := some
  reverse text := some text.reverse
  upper := some
  lower := some
  integer _ := false
  real _ := false
  numeric _ := false

/-- The fields of `VM` that a run only reads. -/
structure VmEnv (W : Type) where
  bc : Bytes
  s : Bytes
  rangeMeta : Option (List (Option ClassRanges))
  /-- The cache is absent or `snobol_build_range_meta` built it. -/
  rangeMeta_eq : rangeMeta = none ∨ rangeMeta = buildRangeMeta bc
  /-- `use_compact_choice`: `SNOBOL_LEGACY_CHOICE` is not set. -/
  compact : Bool
  labelOffsets : List Nat
  host : Host W

/-- The class of a set id as the handlers see it. -/
def VmEnv.ranges {W : Type} (env : VmEnv W) (setId : Nat) : Option (List CpRange) :=
  (getRangesPtr env.bc env.rangeMeta setId).map (·.ranges)

/-- What a run writes and backtracking does not restore: the output buffer and the
state of the host. -/
structure Globals (W : Type) where
  out : Bytes
  world : W

/-- Capture and variable registers. -/
structure Regs where
  capStart : Nat → Nat
  capEnd : Nat → Nat
  varStart : Nat → Nat
  varEnd : Nat → Nat
  varCount : Nat
  maxCapUsed : Nat

/-- `UndoRecord` -/
inductive UndoRecord where
  | counterDec (loop priorCount priorLastPos : Nat)
  | capWrite (reg sub priorStart priorEnd : Nat)
  | varWrite (var priorStart priorEnd : Nat)
  deriving Repr, DecidableEq

/-- The registers that a choice point restores, and the undo trail. -/
structure Store where
  regs : Regs
  counters : Nat → Nat
  loopLastPos : Nat → Nat
  maxCounterUsed : Nat
  trail : List UndoRecord

/-- What a choice record keeps besides the cursor: the trail base, or in legacy
mode copies of the registers in use. -/
inductive Saved where
  | trailBase (base : Nat)
  | snapshot (capStart capEnd counters loopLastPos : Nat → Nat)

/-- A choice record. -/
structure Choice where
  ip : Nat
  pos : Nat
  varCount : Nat
  maxCapUsed : Nat
  maxCounterUsed : Nat
  saved : Saved

/-- `VM` -/
structure Vm (W : Type) extends Store where
  ip : Nat
  pos : Nat
  loopMin : Nat → Nat
  loopMax : Nat → Nat
  loopSpanGreedy : Nat → Bool
  globals : Globals W
  inGotoFail : Bool
  abortFlag : Bool
  choices : List Choice

variable {W : Type}

/-! ## Handlers of the plain instructions -/

/-- The outcome of a plain instruction: the new cursor and registers with the undo
records written (newest first), failure, or a `break` that leaves the dispatch
loop. -/
inductive PrimResult (W : Type) where
  | next (pos : Nat) (regs : Regs) (undo : List UndoRecord) (g : Globals W)
  | fail (g : Globals W)
  | leave (g : Globals W)

/-- Append to the output buffer and call the emit callback. -/
def emitText (host : Host W) (text : Bytes) (g : Globals W) : Globals W :=
  { out := if host.hasOut then g.out ++ text else g.out
    world := host.emitFn.elim g.world fun f => f text g.world }

/-- `OP_LIT`: the cursor after the `len` bytes `text`. -/
def matchLit (s text : Bytes) (len pos : Nat) : Option Nat :=
  if len ≤ s.length - pos ∧ (s.drop pos).take len = text then some (pos + len) else none

/-- `OP_ANY` -/
def matchAny (s : Bytes) (ranges : Option (List CpRange)) (pos : Nat) : Option Nat :=
  match ranges with
  | none => none
  | some ranges =>
      match rangesToBitmap 127 ranges with
      | some bitmap => if (s[pos]?).any bitmap then some (pos + 1) else none
      | none =>
          match peekCp s pos with
          | some (cp, bytes) => if rangeContains ranges cp then some (pos + bytes) else none
          | none => none

/-- `OP_NOTANY` -/
def matchNotany (s : Bytes) (ranges : Option (List CpRange)) (pos : Nat) : Option Nat :=
  match ranges.bind (rangesToBitmap 127) with
  | some bitmap => if (s[pos]?).any fun b => !bitmap b then some (pos + 1) else none
  | none =>
      match peekCp s pos with
      | some (cp, bytes) =>
          if ranges.any (rangeContains · cp) then none else some (pos + bytes)
      | none => none

/-- The scan of `OP_SPAN`. -/
def spanTarget (s : Bytes) (ranges : List CpRange) (pos : Nat) : Nat :=
  match rangesToBitmap 127 ranges with
  | some bitmap => spanBytes s bitmap pos
  | none => spanCps s (rangeContains ranges) s.length pos

/-- `OP_SPAN` -/
def matchSpan (s : Bytes) (ranges : Option (List CpRange)) (pos : Nat) : Option Nat :=
  match ranges with
  | none => none
  | some ranges =>
      if pos < spanTarget s ranges pos then some (spanTarget s ranges pos) else none

/-- The scan of `OP_BREAK` and `OP_BREAKX`.  `memchr` for a class of one byte finds
the position the bitmap scan finds. -/
def breakTarget (s : Bytes) (ranges : Option (List CpRange)) (pos : Nat) : Nat :=
  match ranges.bind (rangesToBitmap 127) with
  | some bitmap => spanBytes s (fun b => !bitmap b) pos
  | none => spanCps s (fun cp => !ranges.any (rangeContains · cp)) s.length pos

/-- `OP_ANY`, `OP_NOTANY`, `OP_SPAN`, `OP_BREAK` -/
def matchSet (s : Bytes) (ranges : Option (List CpRange)) (pos : Nat) : SetOp → Option Nat
  | .any => matchAny s ranges pos
  | .notany => matchNotany s ranges pos
  | .span => matchSpan s ranges pos
  | .break => some (breakTarget s ranges pos)

/-- `OP_RPOS`, `OP_RTAB`: `n` codepoints before the end. -/
def rposTarget (s : Bytes) (n : Nat) : Nat := backwardTarget s n s.length

/-- `OP_POS`, `OP_TAB`: `n` codepoints after the start. -/
def posTarget (s : Bytes) (n : Nat) : Nat := forwardTarget s n 0

/-- `OP_LEN`, `OP_POS`, `OP_RPOS`, `OP_TAB`, `OP_RTAB` -/
def matchCount (s : Bytes) (pos : Nat) : CountOp → Nat → Option Nat
  | .len, n => skipCps s n pos
  | .rpos, n => if pos = rposTarget s n then some pos else none
  | .rtab, n => if rposTarget s n < pos then none else some (rposTarget s n)
  | .pos, n => if pos = posTarget s n then some pos else none
  | .tab, n =>
      if s.length ≤ posTarget s n ∧ 0 < n then none
      else if posTarget s n < pos then none
      else some (posTarget s n)

/-- `OP_ANCHOR`: the start for type 0, the end for every other type. -/
def matchAnchor (s : Bytes) (pos type : Nat) : Option Nat :=
  if (if type = 0 then pos = 0 else pos = s.length) then some pos else none

/-- An `int`; an overflow, which the language leaves undefined, wraps. -/
def toInt (n : Int) : Int := n.bmod (2 ^ 32)

theorem toInt_eq {n : Int} (hge : 0 ≤ n) (hlt : n < 2147483648) : toInt n = n :=
  Int.bmod_eq_of_le (by omega) (by omega)

/-- The scan of `OP_BAL` for the delimiter that brings the depth back to 0. -/
def balScan (s : Bytes) (openCp closeCp : Nat) : Nat → Nat → Int → Option Nat
  | 0, _, _ => none
  | fuel + 1, pos, depth =>
      match peekCp s pos with
      | none => none
      | some (cp, bytes) =>
          if cp = openCp then balScan s openCp closeCp fuel (pos + bytes) (toInt (depth + 1))
          else if cp = closeCp then
            if toInt (depth - 1) = 0 then some (pos + bytes)
            else balScan s openCp closeCp fuel (pos + bytes) (toInt (depth - 1))
          else balScan s openCp closeCp fuel (pos + bytes) depth

/-- `OP_CAP_START` -/
def opCapStart (r pos : Nat) (regs : Regs) : Regs × List UndoRecord :=
  if r < maxCaps then
    ({ regs with
        capStart := Function.update regs.capStart r pos
        maxCapUsed := max regs.maxCapUsed (r + 1) },
      [.capWrite r 0 (regs.capStart r) (regs.capEnd r)])
  else (regs, [])

/-- `OP_CAP_END`: close the capture and expose it as variable `r`. -/
def opCapEnd (r pos : Nat) (regs : Regs) : Regs × List UndoRecord :=
  if r < maxCaps then
    ({ capStart := regs.capStart
       capEnd := Function.update regs.capEnd r pos
       varStart := Function.update regs.varStart r (regs.capStart r)
       varEnd := Function.update regs.varEnd r pos
       varCount := max regs.varCount (r + 1)
       maxCapUsed := max regs.maxCapUsed (r + 1) },
      [.varWrite r (regs.varStart r) (regs.varEnd r),
       .capWrite r 1 (regs.capStart r) (regs.capEnd r)])
  else (regs, [])

/-- `OP_ASSIGN` -/
def opAssign (var r : Nat) (regs : Regs) : Regs × List UndoRecord :=
  if var < maxCaps ∧ r < maxCaps then
    ({ regs with
        varStart := Function.update regs.varStart var (regs.capStart r)
        varEnd := Function.update regs.varEnd var (regs.capEnd r)
        varCount := max regs.varCount (var + 1) },
      [.varWrite var (regs.varStart var) (regs.varEnd var)])
  else (regs, [])

/-- A string function of `OP_EVAL`: its text is emitted. -/
def evalText (host : Host W) (text : Option Bytes) (g : Globals W) : Bool × Globals W :=
  match text with
  | some text => (true, emitText host text g)
  | none => (false, g)

/-- The function call of `OP_EVAL` on the capture `[start, stop)`: library functions
by number, all others through the host. -/
def evalCall (host : Host W) (s : Bytes) (fn start stop : Nat) (g : Globals W) :
    Bool × Globals W :=
  let cap := slice s start stop
  match fn with
  | 1 => (true, g)
  | 2 => evalText host (host.trim cap) g
  | 4 => evalText host (host.reverse cap) g
  | 12 => evalText host (host.upper cap) g
  | 13 => evalText host (host.lower cap) g
  | 19 => (host.integer cap, g)
  | 20 => (host.real cap, g)
  | 21 => (host.numeric cap, g)
  | _ =>
      match host.evalFn with
      | none => (true, g)
      | some f =>
          let (ok, world) := f fn start stop g.world
          (ok, { g with world })

/-- Go on at a position, or fail. -/
def moveTo (regs : Regs) (g : Globals W) : Option Nat → PrimResult W
  | some pos => .next pos regs [] g
  | none => .fail g

/-- Go on with registers and the undo records of the change. -/
def writeRegs (pos : Nat) (g : Globals W) (w : Regs × List UndoRecord) : PrimResult W :=
  .next pos w.1 w.2 g

/-- `OP_EVAL` -/
def opEval (host : Host W) (s : Bytes) (fn r pos : Nat) (regs : Regs) (g : Globals W) :
    PrimResult W :=
  if maxCaps ≤ r then .fail g
  else if regs.capStart r ≤ regs.capEnd r ∧ regs.capEnd r ≤ s.length then
    match evalCall host s fn (regs.capStart r) (regs.capEnd r) g with
    | (true, g) => .next pos regs [] g
    | (false, g) => .fail g
  else .fail g

/-- `OP_EMIT_CAPTURE` -/
def opEmitCapture (host : Host W) (s : Bytes) (r pos : Nat) (regs : Regs) (g : Globals W) :
    PrimResult W :=
  if r < maxCaps ∧ regs.capStart r ≤ regs.capEnd r ∧ regs.capEnd r ≤ s.length then
    .next pos regs [] (emitText host (slice s (regs.capStart r) (regs.capEnd r)) g)
  else .next pos regs [] g

/-- The text of a non-empty capture. -/
def keyText (s : Bytes) (regs : Regs) (r : Nat) : Option Bytes :=
  if maxCaps ≤ r ∨ regs.capEnd r ≤ regs.capStart r then none
  else some (slice s (regs.capStart r) (regs.capEnd r))

/-- `OP_TABLE_GET` -/
def opTableGet (host : Host W) (s : Bytes) (table key pos : Nat) (regs : Regs) (g : Globals W) :
    PrimResult W :=
  match host.tableGet g.world table with
  | none => .leave g
  | some lookup =>
      match keyText s regs key with
      | none => .leave g
      | some text =>
          match lookup text with
          | none => .leave g
          | some _ => .next pos regs [] g

/-- `OP_TABLE_SET` -/
def opTableSet (host : Host W) (s : Bytes) (table key value pos : Nat) (regs : Regs)
    (g : Globals W) : PrimResult W :=
  match host.tableSet g.world table with
  | none => .leave g
  | some store =>
      match keyText s regs key with
      | none => .leave g
      | some keyText' =>
          match keyText s regs value with
          | none => .leave g
          | some valueText =>
              match store keyText' valueText with
              | none => .leave g
              | some world => .next pos regs [] { g with world }

/-- `OP_BAL` -/
def opBal (s : Bytes) (openCp closeCp pos : Nat) (regs : Regs) (g : Globals W) : PrimResult W :=
  match peekCp s pos with
  | none => .leave g
  | some (first, _) =>
      if first = openCp then moveTo regs g (balScan s openCp closeCp s.length pos 0)
      else .leave g

/-- The handlers of the plain instructions. -/
def Prim.exec (env : VmEnv W) (p : Prim) (pos : Nat) (regs : Regs) (g : Globals W) :
    PrimResult W :=
  match p with
  | .nop => .next pos regs [] g
  | .lit off len => moveTo regs g (matchLit env.s ((env.bc.drop off).take len) len pos)
  | .set op id => moveTo regs g (matchSet env.s (env.ranges id) pos op)
  | .capStart r => writeRegs pos g (opCapStart r pos regs)
  | .capEnd r => writeRegs pos g (opCapEnd r pos regs)
  | .assign var r => writeRegs pos g (opAssign var r regs)
  | .count op n => moveTo regs g (matchCount env.s pos op n)
  | .eval fn r => opEval env.host env.s fn r pos regs g
  | .anchor type => moveTo regs g (matchAnchor env.s pos type)
  | .emitLiteral off len => .next pos regs [] (emitText env.host ((env.bc.drop off).take len) g)
  | .emitCapture r => opEmitCapture env.host env.s r pos regs g
  | .label _ => .next pos regs [] g
  | .tableGet table key _ => opTableGet env.host env.s table key pos regs g
  | .tableSet table key value => opTableSet env.host env.s table key value pos regs g
  | .bal openCp closeCp => opBal env.s openCp closeCp pos regs g
  | .rem => .next env.s.length regs [] g

/-! ## Choice points and the trail -/

namespace Store

/-- Append undo records to the trail, in compact mode. -/
def record (env : VmEnv W) (undo : List UndoRecord) (st : Store) : Store :=
  if env.compact then { st with trail := undo ++ st.trail } else st

/-- Write a loop counter and its last position. -/
def setLoop (loop count lastPos : Nat) (st : Store) : Store :=
  { st with
    counters := Function.update st.counters loop count
    loopLastPos := Function.update st.loopLastPos loop lastPos }

/-- One record of `vm_trail_replay`. -/
def undo (st : Store) : UndoRecord → Store
  | .counterDec loop priorCount priorLastPos =>
      if loop < maxLoops then st.setLoop loop priorCount priorLastPos else st
  | .capWrite reg sub priorStart priorEnd =>
      if reg < maxCaps then
        let setStart (st : Store) : Store :=
          { st with regs.capStart := Function.update st.regs.capStart reg priorStart }
        let setEnd (st : Store) : Store :=
          { st with regs.capEnd := Function.update st.regs.capEnd reg priorEnd }
        if sub = 0 then setStart st else if sub = 1 then setEnd st else setEnd (setStart st)
      else st
  | .varWrite var priorStart priorEnd =>
      if var < maxCaps then
        { st with
          regs.varStart := Function.update st.regs.varStart var priorStart
          regs.varEnd := Function.update st.regs.varEnd var priorEnd }
      else st

/-- `vm_trail_replay`: undo the records above `base`, the newest first. -/
def replay (base : Nat) : List UndoRecord → Store → Store
  | [], st => { st with trail := [] }
  | e :: trail, st =>
      if base ≤ trail.length then replay base trail (st.undo e)
      else { st with trail := e :: trail }

/-- The registers below `used` from the copy, the others as they are. -/
def restoreBelow (used : Nat) (copy current : Nat → Nat) : Nat → Nat := fun i =>
  if i < used then copy i else current i

/-- The registers that `vm_pop_choice` restores from the record `c`. -/
def restore (c : Choice) (st : Store) : Store :=
  let st :=
    { st with
      regs.varCount := c.varCount
      regs.maxCapUsed := c.maxCapUsed
      maxCounterUsed := c.maxCounterUsed }
  match c.saved with
  | .trailBase base => replay base st.trail st
  | .snapshot capStart capEnd counters loopLastPos =>
      { st with
        regs.capStart := restoreBelow c.maxCapUsed capStart st.regs.capStart
        regs.capEnd := restoreBelow c.maxCapUsed capEnd st.regs.capEnd
        counters := restoreBelow c.maxCounterUsed counters st.counters
        loopLastPos := restoreBelow c.maxCounterUsed loopLastPos st.loopLastPos }

/-- The record that `vm_push_choice` saves; its base is a `uint32_t`. -/
def choice (env : VmEnv W) (ip pos : Nat) (st : Store) : Choice where
  ip
  pos
  varCount := st.regs.varCount
  maxCapUsed := st.regs.maxCapUsed
  maxCounterUsed := st.maxCounterUsed
  saved :=
    if env.compact then .trailBase (st.trail.length % 2 ^ 32)
    else .snapshot st.regs.capStart st.regs.capEnd st.counters st.loopLastPos

end Store

/-- `vm_push_choice` -/
def Vm.pushChoice (env : VmEnv W) (ip pos : Nat) (vm : Vm W) : Vm W :=
  { vm with choices := vm.toStore.choice env ip pos :: vm.choices }

/-- `vm_pop_choice` on the record `c`. -/
def Vm.restore (c : Choice) (rest : List Choice) (vm : Vm W) : Vm W :=
  { vm with toStore := vm.toStore.restore c, ip := c.ip, pos := c.pos, choices := rest }

/-! ## The dispatch loop -/

/-- What a turn of the dispatch loop ends in. -/
inductive StepResult (W : Type) where
  | running (vm : Vm W)
  | halted (ok : Bool) (vm : Vm W)

/-- The state the result is about. -/
def StepResult.vm : StepResult W → Vm W
  | .running vm => vm
  | .halted _ vm => vm

/-- The run goes on. -/
def StepResult.isRunning : StepResult W → Bool
  | .running _ => true
  | .halted _ _ => false

/-- The run ends with success. -/
def StepResult.isAccepted : StepResult W → Bool
  | .halted ok _ => ok
  | .running _ => false

/-- The state of a run that goes on passes the test. -/
def StepResult.All (p : Vm W → Bool) : StepResult W → Bool
  | .running vm => p vm
  | .halted _ _ => true

theorem StepResult.eq_halted {result : StepResult W} (h : result.isAccepted = true) :
    result = .halted true result.vm := by
  cases result with
  | running vm => cases h
  | halted ok vm =>
    obtain rfl : ok = true := h
    rfl

/-- The run ends with failure. -/
def StepResult.isFailed : StepResult W → Bool
  | .halted ok _ => !ok
  | .running _ => false

theorem StepResult.eq_failed {result : StepResult W} (h : result.isFailed = true) :
    result = .halted false result.vm := by
  cases result with
  | running vm => cases h
  | halted ok vm =>
    cases ok with
    | false => rfl
    | true => cases h

theorem StepResult.eq_running {result : StepResult W} (h : result.isRunning = true) :
    result = .running result.vm := by
  cases result with
  | running vm => rfl
  | halted ok vm => cases h

/-- Fail: resume the newest choice point, or end the run with failure. -/
def Vm.backtrack (vm : Vm W) : StepResult W :=
  match vm.choices with
  | [] => .halted false vm
  | c :: rest => .running (vm.restore c rest)

/-- A bare `break` behind `vm_pop_choice`: it leaves the loop, and the run fails. -/
def Vm.leave (vm : Vm W) : StepResult W :=
  match vm.choices with
  | [] => .halted false vm
  | c :: rest => .halted false (vm.restore c rest)

/-- Act on the outcome of a plain instruction. -/
def Vm.apply (env : VmEnv W) (vm : Vm W) : PrimResult W → StepResult W
  | .next pos regs undo globals =>
      .running
        { vm with
          toStore := { vm.toStore with regs }.record env undo
          pos
          globals }
  | .fail globals => { vm with globals }.backtrack
  | .leave globals => { vm with globals }.leave

/-- `OP_REPEAT_INIT` -/
def opRepeatInit (env : VmEnv W) (loop min max skip : Nat) (vm : Vm W) : Vm W :=
  if loop < maxLoops then
    let vm :=
      { vm with
        toStore :=
          { vm.toStore.setLoop loop 0 vm.pos with
            maxCounterUsed := Nat.max vm.maxCounterUsed (loop + 1) }
        loopMin := Function.update vm.loopMin loop min
        loopMax := Function.update vm.loopMax loop max }
    if min = 0 then vm.pushChoice env skip vm.pos else vm
  else vm

/-- `vm->pos += (int32_t)extra` on a `size_t`. -/
def addInt32 (pos extra : Nat) : Nat :=
  if extra % 2 ^ 32 < 2 ^ 31 then pos + extra % 2 ^ 32
  else (pos + extra % 2 ^ 32 + 2 ^ 64 - 2 ^ 32) % 2 ^ 64

/-- The end of the run of class bytes that the greedy shortcut of `OP_REPEAT_STEP`
commits to, where the class of the `OP_SPAN` at `target` fits the 256-bit map. -/
def greedyRunEnd (env : VmEnv W) (target pos : Nat) : Option Nat :=
  match env.ranges (readU16 env.bc (target + 1)).1 with
  | none => none
  | some ranges =>
      if ranges = [] then none
      else (rangesToBitmap 255 ranges).map fun bitmap => spanBytes env.s bitmap pos

/-- Count an iteration, with its undo record; the last position stays. -/
def Store.count (env : VmEnv W) (loop count : Nat) (st : Store) : Store :=
  (st.setLoop loop count (st.loopLastPos loop)).record env
    [.counterDec loop (st.counters loop) (st.loopLastPos loop)]

/-- The run of the greedy branch: the new position and counter. -/
def greedyExtend (env : VmEnv W) (loop target : Nat) (vm : Vm W) : Vm W :=
  match greedyRunEnd env target vm.pos with
  | none => vm
  | some runEnd =>
      { vm with
        toStore :=
          vm.toStore.count env loop ((vm.counters loop + 1 + (runEnd - vm.pos)) % 2 ^ 32)
        pos := addInt32 vm.pos (runEnd - vm.pos) }

/-- The greedy branch of `OP_REPEAT_STEP`; `vm.ip` is the address after it. -/
def opRepeatGreedy (env : VmEnv W) (loop target : Nat) (vm : Vm W) : Vm W :=
  let vm := greedyExtend env loop target vm
  let vm :=
    if vm.loopLastPos loop < vm.pos then vm.pushChoice env (vm.ip - 6) (vm.pos - 1) else vm
  { vm with toStore := vm.toStore.setLoop loop (vm.counters loop) vm.pos }

/-- The per-iteration branch of `OP_REPEAT_STEP`. -/
def opRepeatIterate (env : VmEnv W) (loop target : Nat) (vm : Vm W) : Vm W :=
  let count := (vm.counters loop + 1) % 2 ^ 32
  let lastPos := vm.loopLastPos loop
  let vm := { vm with toStore := vm.toStore.count env loop count }
  let again (vm : Vm W) : Vm W :=
    { vm with toStore := vm.toStore.setLoop loop count vm.pos, ip := target }
  if count < vm.loopMin loop then again vm
  else if vm.loopMax loop = unbounded ∨ count < vm.loopMax loop then
    if vm.loopMax loop = unbounded ∧ vm.pos = lastPos then vm
    else if vm.loopMax loop = unbounded ∧ env.s.length + 1 < count then vm
    else again (vm.pushChoice env vm.ip vm.pos)
  else vm

/-- The loop takes the greedy shortcut: its flag is set, or it is unbounded and the
opcode at the target is `OP_SPAN`. -/
def takesGreedy (env : VmEnv W) (loop target : Nat) (vm : Vm W) : Bool :=
  vm.loopSpanGreedy loop ||
    (decide (vm.loopMax loop = unbounded) && env.bc[target]? == some OpCode.span.code)

/-- `OP_REPEAT_STEP` -/
def opRepeatStep (env : VmEnv W) (loop target : Nat) (vm : Vm W) : Vm W :=
  if loop < maxLoops then
    if takesGreedy env loop target vm then
      opRepeatGreedy env loop target
        { vm with loopSpanGreedy := Function.update vm.loopSpanGreedy loop true }
    else opRepeatIterate env loop target vm
  else vm

/-- `OP_BREAKX` at address `here`: scan to the break character, and save a choice
that scans again behind it. -/
def opBreakx (env : VmEnv W) (setId here : Nat) (vm : Vm W) : Vm W :=
  let stop := breakTarget env.s (env.ranges setId) vm.pos
  let vm := { vm with pos := stop }
  if stop < env.s.length then
    let skip := (peekCp env.s stop).elim 1 (·.2)
    vm.pushChoice env here (stop + skip)
  else vm

/-- One turn of the loop of `vm_run`. -/
def vmStep (env : VmEnv W) (vm : Vm W) : StepResult W :=
  match fetch env.bc vm.ip with
  | none => vm.backtrack
  | some (instr, next) =>
      let here := vm.ip
      let vm := { vm with ip := next }
      match instr with
      | .prim p => vm.apply env (p.exec env vm.pos vm.regs vm.globals)
      | .accept => .halted true vm
      | .fail => vm.backtrack
      | .jmp target => .running { vm with ip := target }
      | .split a b => .running { vm.pushChoice env b vm.pos with ip := a }
      | .repeatInit loop min max skip => .running (opRepeatInit env loop min max skip vm)
      | .repeatStep loop target => .running (opRepeatStep env loop target vm)
      | .goto label =>
          match env.labelOffsets[label]? with
          | some target => .running { vm with ip := target }
          | none => { vm with inGotoFail := true }.backtrack
      | .breakx setId => .running (opBreakx env setId here vm)
      | .fence => .running { vm with choices := [] }
      | .abort => .halted false { vm with abortFlag := true, choices := [] }
      | .succeed => .halted true vm
      | .unknown _ => vm.backtrack

/-- Up to `n` turns of the loop. -/
def vmSteps (env : VmEnv W) : Nat → Vm W → StepResult W
  | 0, vm => .running vm
  | n + 1, vm =>
      match vmStep env vm with
      | .running vm => vmSteps env n vm
      | .halted ok vm => .halted ok vm

/-- A turn after which the loop goes on. -/
theorem vmSteps_running {env : VmEnv W} {vm vm' : Vm W} (hstep : vmStep env vm = .running vm')
    (n : Nat) : vmSteps env (n + 1) vm = vmSteps env n vm' := by
  show (match vmStep env vm with | .running vm => _ | .halted ok vm => _) = _
  rw [hstep]

/-- A turn that ends the run. -/
theorem vmSteps_last {env : VmEnv W} {vm final : Vm W} {ok : Bool}
    (hstep : vmStep env vm = .halted ok final) (n : Nat) :
    vmSteps env (n + 1) vm = .halted ok final := by
  show (match vmStep env vm with | .running vm => _ | .halted ok vm => _) = _
  rw [hstep]

/-- The state in which `vm_run` enters its loop. -/
def vmRunStart (vm : Vm W) : Vm W := { vm with choices := [], trail := [] }

/-- `vm_run` returns `ok`, with the VM in state `final`. -/
def VmRun (env : VmEnv W) (vm : Vm W) (ok : Bool) (final : Vm W) : Prop :=
  ∃ n, vmSteps env n (vmRunStart vm) = .halted ok final

/-- The states of the run of `vm_run` from `start` on. -/
inductive VmReach (env : VmEnv W) (start : Vm W) : Vm W → Prop where
  | start : VmReach env start (vmRunStart start)
  | step {vm vm' : Vm W} (h : VmReach env start vm) (hstep : vmStep env vm = .running vm') :
      VmReach env start vm'

/-- A run that ends does so in a last turn from a state it reaches. -/
theorem VmRun.last {env : VmEnv W} {start final : Vm W} {ok : Bool}
    (h : VmRun env start ok final) :
    ∃ vm, VmReach env start vm ∧ vmStep env vm = .halted ok final := by
  obtain ⟨n, hn⟩ := h
  suffices hgen : ∀ vm, VmReach env start vm → vmSteps env n vm = .halted ok final →
      ∃ vm, VmReach env start vm ∧ vmStep env vm = .halted ok final from hgen _ .start hn
  clear hn
  induction n with
  | zero =>
    intro vm _ hn
    cases hn
  | succ n ih =>
    intro vm hvm hn
    cases hstep : vmStep env vm with
    | running vm' =>
      rw [vmSteps_running hstep] at hn
      exact ih vm' (hvm.step hstep) hn
    | halted ok' vm' =>
      rw [vmSteps_last hstep] at hn
      cases hn
      exact ⟨vm, hvm, hstep⟩

/-- A state that `n` turns lead to is reached. -/
theorem VmReach.steps {env : VmEnv W} {start vm vm' : Vm W} {n : Nat} (h : VmReach env start vm)
    (hn : vmSteps env n vm = .running vm') : VmReach env start vm' := by
  induction n generalizing vm with
  | zero =>
    cases hn
    exact h
  | succ n ih =>
    cases hstep : vmStep env vm with
    | running vm₁ =>
      rw [vmSteps_running hstep] at hn
      exact ih (h.step hstep) hn
    | halted ok vm₁ =>
      rw [vmSteps_last hstep] at hn
      cases hn

/-- Further turns from a state that `n` turns lead to. -/
theorem vmSteps_add {env : VmEnv W} {n : Nat} {vm vm' : Vm W}
    (h : vmSteps env n vm = .running vm') (m : Nat) :
    vmSteps env (n + m) vm = vmSteps env m vm' := by
  induction n generalizing vm with
  | zero =>
    cases h
    rw [Nat.zero_add]
  | succ n ih =>
    rw [Nat.add_right_comm]
    cases hstep : vmStep env vm with
    | running vm₁ =>
      rw [vmSteps_running hstep] at h ⊢
      exact ih h
    | halted ok vm₁ =>
      rw [vmSteps_last hstep] at h
      cases h

/-- Nothing happens behind the end. -/
theorem vmSteps_halted {env : VmEnv W} {n : Nat} {vm final : Vm W} {ok : Bool}
    (h : vmSteps env n vm = .halted ok final) (m : Nat) :
    vmSteps env (n + m) vm = .halted ok final := by
  induction n generalizing vm with
  | zero => cases h
  | succ n ih =>
    rw [Nat.add_right_comm]
    cases hstep : vmStep env vm with
    | running vm₁ =>
      rw [vmSteps_running hstep] at h ⊢
      exact ih h
    | halted ok' vm₁ =>
      rw [vmSteps_last hstep] at h ⊢
      exact h

theorem VmReach.exists_steps {env : VmEnv W} {start vm : Vm W} (h : VmReach env start vm) :
    ∃ n, vmSteps env n (vmRunStart start) = .running vm := by
  induction h with
  | start => exact ⟨0, rfl⟩
  | step _ hstep ih =>
    obtain ⟨n, hn⟩ := ih
    refine ⟨n + 1, ?_⟩
    rw [vmSteps_add hn, vmSteps_running hstep]
    rfl

/-- A turn that ends the run from a state that is reached. -/
theorem VmReach.halts {env : VmEnv W} {start vm final : Vm W} {ok : Bool}
    (h : VmReach env start vm) (hstep : vmStep env vm = .halted ok final) :
    VmRun env start ok final := by
  obtain ⟨n, hn⟩ := h.exists_steps
  refine ⟨n + 1, ?_⟩
  rw [vmSteps_add hn, vmSteps_last hstep]

/-- A run ends in one way. -/
theorem VmRun.unique {env : VmEnv W} {start final final' : Vm W} {ok ok' : Bool}
    (h : VmRun env start ok final) (h' : VmRun env start ok' final') :
    ok = ok' ∧ final = final' := by
  obtain ⟨n, hn⟩ := h
  obtain ⟨m, hm⟩ := h'
  have hend := vmSteps_halted hn m
  rw [Nat.add_comm, vmSteps_halted hm n] at hend
  cases hend
  exact ⟨rfl, rfl⟩

/-- The states of a run that ends after `n` turns. -/
theorem VmReach.forall_of_steps {env : VmEnv W} {start final : Vm W} {ok : Bool} {n : Nat}
    {P : Vm W → Prop} (hend : vmSteps env n (vmRunStart start) = .halted ok final)
    (h : ∀ m < n, ∀ vm, vmSteps env m (vmRunStart start) = .running vm → P vm) (vm : Vm W)
    (hvm : VmReach env start vm) : P vm := by
  obtain ⟨m, hm⟩ := hvm.exists_steps
  by_cases hlt : m < n
  · exact h m hlt vm hm
  · have hhalt := vmSteps_halted hend (m - n)
    rw [Nat.add_sub_cancel' (Nat.le_of_not_lt hlt), hm] at hhalt
    cases hhalt

/-- The label offsets `vm_exec` registers from the trailer, cut to 16 bits. -/
def registerLabels (bc : Bytes) : List Nat :=
  let n := bc.length
  if n < 8 ∨ (readU32 bc (n - 4)).1 ≠ labelTableMagic then []
  else
    let count := (readU32 bc (n - 8)).1
    if n < 8 + count * 4 then []
    else (List.range count).map fun i => (readU32 bc (n - 8 - count * 4 + i * 4)).1 % 2 ^ 16

/-- The environment in which `vm_exec` runs compiled code over `s`. -/
def VmEnv.ofCode (bc s : Bytes) (host : Host W) : VmEnv W where
  bc
  s
  rangeMeta := none
  rangeMeta_eq := .inl rfl
  compact := true
  labelOffsets := registerLabels bc
  host

/-- The state in which `vm_exec` calls `vm_run`. -/
def vmExecStart (vm : Vm W) : Vm W :=
  { vm with
    ip := 0
    pos := 0
    regs.maxCapUsed := 0
    maxCounterUsed := 0
    abortFlag := false
    inGotoFail := false
    counters := fun _ => 0 }

/-- `vm_exec` returns `ok`, with the VM in state `final`. -/
def VmExec (env : VmEnv W) (vm : Vm W) (ok : Bool) (final : Vm W) : Prop :=
  VmRun env (vmExecStart vm) ok final

/-- A zeroed VM. -/
def Vm.zero (globals : Globals W) : Vm W where
  ip := 0
  pos := 0
  regs := ⟨fun _ => 0, fun _ => 0, fun _ => 0, fun _ => 0, 0, 0⟩
  counters := fun _ => 0
  loopMin := fun _ => 0
  loopMax := fun _ => 0
  loopLastPos := fun _ => 0
  loopSpanGreedy := fun _ => false
  maxCounterUsed := 0
  globals
  inGotoFail := false
  abortFlag := false
  choices := []
  trail := []

end Snobol4
