import Mathlib.Data.List.Sort
import Snobol4.Ast
import Snobol4.CharClass
import Snobol4.Support.CallResult

/-!
# Compiler — from the syntax tree to bytecode (`compiler_codegen.c`, `compiler_analysis.c`)

The emitters append to a code buffer, collect character classes and labels, and
number loops; jump targets are emitted as placeholders and patched.  After the tree
and `OP_ACCEPT` a peephole pass fuses alternatives of single characters, and the
class and label tables are appended.
-/

namespace Snobol4

/-- `snobol_to_upper_cp` and `snobol_to_lower_cp` (generated tables). -/
structure CaseFold where
  upper : Nat → Nat × Option Nat
  lower : Nat → Nat

/-- The settings of one compilation. -/
structure CompilerConfig where
  caseInsensitive : Bool
  fold : CaseFold

/-- Case matters. -/
def CompilerConfig.caseSensitive : CompilerConfig where
  caseInsensitive := false
  fold := { upper := fun cp => (cp, none), lower := fun cp => cp }

/-- `CCEntry` -/
structure CcEntry where
  ranges : List CpRange
  caseInsensitive : Bool
  deriving Repr, DecidableEq

/-- `LabelEntry` -/
structure LabelEntry where
  name : Bytes
  offset : Nat
  defined : Bool
  referenced : Bool
  deriving Repr, DecidableEq

/-- The code buffer and the tables of the compiler.  `splits` is a ghost field: the
addresses of the emitted `OP_SPLIT` instructions. -/
structure CompilerState where
  buf : Bytes
  classes : List CcEntry
  nextLoopId : Nat
  labels : List LabelEntry
  splits : List Nat
  deriving Repr, DecidableEq

/-- An emitter: it changes the compiler state, returns -1, or breaks the heap. -/
abbrev Emit := StateT CompilerState CallResult

/-- Return -1. -/
def refuse {α : Type} : Emit α := fun _ => .refused

/-- Go on with memory that was freed. -/
def useFreed {α : Type} : Emit α := fun _ => .undefined

/-! ## Character classes -/

/-- `normalize_ranges` after sorting: merge a range into the one before it when they
overlap or touch. -/
def mergeRanges : CpRange → List CpRange → List CpRange
  | w, [] => [w]
  | w, r :: rs =>
      if r.start ≤ w.stop + 1 then mergeRanges ⟨w.start, max w.stop r.stop⟩ rs
      else w :: mergeRanges r rs

/-- `normalize_ranges` -/
def normalizeRanges (ranges : List CpRange) : List CpRange :=
  match ranges.insertionSort fun a b => a.start ≤ b.start with
  | [] => []
  | r :: rs => mergeRanges r rs

/-- The case variants of a codepoint by the folding tables. -/
def foldVariants (fold : CaseFold) (cp : Nat) : List CpRange :=
  let (up, second) := fold.upper cp
  let low := fold.lower cp
  (if up = cp then [] else ⟨up, up⟩ :: (second.map fun cp => ⟨cp, cp⟩).toList) ++
    if low = cp then [] else [⟨low, low⟩]

/-- The ranges that `add_or_get_charclass` adds to the range from `cp` to `stop`
when case is ignored. -/
def rangeVariants (fold : CaseFold) (cp stop : Nat) : List CpRange :=
  if 0x41 ≤ cp ∧ stop ≤ 0x5A then [⟨cp + 32, stop + 32⟩]
  else if 0x61 ≤ cp ∧ stop ≤ 0x7A then [⟨cp - 32, stop - 32⟩]
  else if 0x7F < stop then (List.range' cp (stop + 1 - cp)).flatMap (foldVariants fold)
  else []

/-- The scan of `add_or_get_charclass` over the text of a set: `X-Y` with `X < Y` is
a range, every other codepoint stands for itself. -/
def setRanges (cfg : CompilerConfig) (set : Bytes) : Nat → Nat → List CpRange
  | 0, _ => []
  | fuel + 1, pos =>
      let item (cp stop next : Nat) : List CpRange :=
        ⟨cp, stop⟩ :: (if cfg.caseInsensitive then rangeVariants cfg.fold cp stop else []) ++
          setRanges cfg set fuel next
      match utf8PeekNext set pos with
      | none => []
      | some (cp, cpBytes) =>
          match utf8PeekNext set (pos + cpBytes) with
          | some (0x2D, dashBytes) =>
              match utf8PeekNext set (pos + cpBytes + dashBytes) with
              | some (endCp, endBytes) =>
                  if cp < endCp then
                    item cp.toNat endCp.toNat (pos + cpBytes + dashBytes + endBytes)
                  else item cp.toNat cp.toNat (pos + cpBytes)
              | none => item cp.toNat cp.toNat (pos + cpBytes)
          | _ => item cp.toNat cp.toNat (pos + cpBytes)

/-- The class of a set text. -/
def charclassOf (cfg : CompilerConfig) (set : Bytes) : CcEntry :=
  ⟨normalizeRanges (setRanges cfg set set.length 0), cfg.caseInsensitive⟩

/-- The ranges of a class under construction; `rangeCap` is a `uint16_t`. -/
structure RangeArray where
  ranges : List CpRange
  rangeCap : Nat

/-- `add_range`: a full array is doubled, at first to 4.  Where the new capacity wraps to 0 the
block is freed, and the ranges are read and written there all the same. -/
def addRange (e : RangeArray) (r : CpRange) : CallResult RangeArray :=
  let rangeCap :=
    if e.ranges.length = e.rangeCap then
      if e.rangeCap = 0 then 4 else e.rangeCap * 2 % 2 ^ 16
    else e.rangeCap
  if e.ranges.length < rangeCap then .done ⟨e.ranges ++ [r], rangeCap⟩ else .undefined

/-- The ranges of a text, one after the other. -/
def addRanges : RangeArray → List CpRange → CallResult RangeArray
  | e, [] => .done e
  | e, r :: rs => (addRange e r).bind fun e => addRanges e rs

/-- Find a class in the list or append it; the id counts from 1. -/
def internClass (classes : List CcEntry) (e : CcEntry) : List CcEntry × Nat :=
  match classes.findIdx? (· = e) with
  | some i => (classes, i + 1)
  | none => (classes ++ [e], classes.length + 1)

/-- `add_or_get_charclass` on the list of classes. -/
def addOrGetClass (cfg : CompilerConfig) (classes : List CcEntry) (set : Bytes) :
    CallResult (List CcEntry × Nat) := do
  let e ← addRanges ⟨[], 0⟩ (setRanges cfg set set.length 0)
  return internClass classes ⟨normalizeRanges e.ranges, cfg.caseInsensitive⟩

/-! ## Emitters -/

/-- `cb_emit_bytes`, `cb_emit_u8` -/
def emit (bytes : Bytes) : Emit Unit :=
  modify fun st => { st with buf := st.buf ++ bytes }

/-- An opcode byte. -/
def emitOp (o : OpCode) : Emit Unit := emit [o.code]

/-- `cb_pos` -/
def cbPos : Emit Nat := do return (← get).buf.length

/-- Fill in a placeholder. -/
def patchU32 (at' v : Nat) : Emit Unit :=
  modify fun st =>
    { st with buf := st.buf.take at' ++ emitU32 v ++ st.buf.drop (at' + 4) }

/-- A C `int32_t` cast to `uint32_t`. -/
def bits (n : Int32) : Nat := n.toUInt32.toNat

/-- `add_or_get_charclass` -/
def addOrGetCharclass (cfg : CompilerConfig) (set : Bytes) : Emit Nat := fun st => do
  let (classes, id) ← addOrGetClass cfg st.classes set
  return (id, { st with classes })

/-- `emit_lit_bytes`: the literal stands inline after its operands. -/
def emitLitBytes (text : Bytes) : Emit Unit := do
  let pos ← cbPos
  emit ([OpCode.lit.code] ++ emitU32 (pos + 9) ++ emitU32 text.length ++ text)

/-- `emit_span_c`, `emit_break_c`, `emit_notany_c`, `emit_breakx_c` -/
def emitSetOp (cfg : CompilerConfig) (o : OpCode) (set : Bytes) : Emit Unit := do
  let id ← addOrGetCharclass cfg set
  emit ([o.code] ++ emitU16 id)

/-- `emit_any_c`: an empty set has the id 0. -/
def emitAnyC (cfg : CompilerConfig) (set : Bytes) : Emit Unit := do
  if set.length = 0 then emit ([OpCode.any.code] ++ emitU16 0)
  else emitSetOp cfg .any set

/-- `emit_lit_case_insensitive_c`: each codepoint as a class of its case variants. -/
def emitLitCaseInsensitiveC (cfg : CompilerConfig) (text : Bytes) : Nat → Nat → Emit Unit
  | 0, _ => pure ()
  | fuel + 1, pos =>
      if text.length ≤ pos then pure ()
      else
        match utf8PeekNext text pos with
        | none => do
            emitLitBytes (slice text pos (pos + 1))
            emitLitCaseInsensitiveC cfg text fuel (pos + 1)
        | some (_, cpBytes) => do
            emitSetOp cfg .any (slice text pos (pos + cpBytes))
            emitLitCaseInsensitiveC cfg text fuel (pos + cpBytes)

/-- `emit_len_c`, `emit_rpos_c`, `emit_rtab_c`, `emit_pos_c`, `emit_tab_c` -/
def emitCountOp (o : OpCode) (n : Int32) : Emit Unit := emit ([o.code] ++ emitU32 (bits n))

/-- `emit_emit_c` -/
def emitEmitC (text : Option Bytes) (reg : Int32) : Emit Unit := do
  match text with
  | some text =>
      let pos ← cbPos
      emit ([OpCode.emitLiteral.code] ++ emitU32 (pos + 9) ++ emitU32 text.length ++ text)
  | none =>
      if 0 ≤ reg then emit ([OpCode.emitCapture.code] ++ emitU8 (bits reg))

/-- Note the address of the instruction about to be emitted as a split. -/
def noteSplit : Emit Unit :=
  modify fun st => { st with splits := st.splits ++ [st.buf.length] }

/-- `emit_alt_c` -/
def emitAltC (left right : Emit Unit) : Emit Unit := do
  noteSplit
  emitOp .split
  let whereA ← cbPos
  emit (emitU32 0)
  let whereB ← cbPos
  emit (emitU32 0)
  let leftStart ← cbPos
  left
  emitOp .jmp
  let jmpTargetPos ← cbPos
  emit (emitU32 0)
  let rightStart ← cbPos
  right
  let endPos ← cbPos
  patchU32 whereA leftStart
  patchU32 whereB rightStart
  patchU32 jmpTargetPos endPos

/-- Number a loop; at most `MAX_LOOPS` fit. -/
def newLoopId : Emit Nat := do
  let st ← get
  if maxLoops ≤ st.nextLoopId then refuse
  set { st with nextLoopId := st.nextLoopId + 1 }
  return st.nextLoopId

/-- The code of `emit_arbno_c` and `emit_repeat_c` around the body. -/
def emitLoop (loopId min max : Nat) (body : Emit Unit) : Emit Unit := do
  emit ([OpCode.repeatInit.code] ++ emitU8 loopId ++ emitU32 min ++ emitU32 max)
  let skipTargetOff ← cbPos
  emit (emitU32 0)
  let bodyStart ← cbPos
  body
  emit ([OpCode.repeatStep.code] ++ emitU8 loopId ++ emitU32 bodyStart)
  let donePos ← cbPos
  patchU32 skipTargetOff donePos

/-- `emit_arbno_c` once its operand is unwrapped. -/
def emitArbnoLoop (body : Emit Unit) : Emit Unit := do
  let loopId ← newLoopId
  emitLoop loopId 0 unbounded body

/-- `emit_cap_c` -/
def emitCapC (reg : Nat) (body : Emit Unit) : Emit Unit := do
  emit ([OpCode.capStart.code] ++ emitU8 reg)
  body
  emit ([OpCode.capEnd.code] ++ emitU8 reg)

/-- `OP_TABLE_GET` and `OP_TABLE_SET` on an unbound table. -/
def emitTableOp (o : OpCode) (key reg : Nat) (table : Bytes) : Emit Unit :=
  emit ([o.code] ++ emitU16 0xFFFF ++ emitU8 key ++ emitU8 reg ++ emitU8 table.length ++ table)

/-- The label table doubles from 8 entries on.  At this length its 16-bit capacity wraps to
0. -/
def maxLabels : Nat := 32768

/-- `get_or_create_label_c`.  Where the new capacity is 0 the table is freed; the function returns
-1, and the cleanup of the compiler reads the table and frees it again. -/
def getOrCreateLabelC (name : Bytes) : Emit Nat := do
  let st ← get
  match st.labels.findIdx? (·.name = name) with
  | some i => return i
  | none =>
      if st.labels.length = maxLabels then useFreed
      set { st with labels := st.labels ++ [(⟨name, 0, false, false⟩ : LabelEntry)] }
      return st.labels.length

/-- `AST_LABEL`: a name may be defined once; `OP_GOTO` goes behind the label
instruction. -/
def emitLabel (name : Bytes) (target : Emit Unit) : Emit Unit := do
  if (← get).labels.any fun l => l.name = name && l.defined then refuse
  let idx ← getOrCreateLabelC name
  emit ([OpCode.label.code] ++ emitU16 idx)
  modify fun st =>
    { st with
      labels := st.labels.modify idx fun l => { l with offset := st.buf.length, defined := true } }
  target

/-- `AST_GOTO` -/
def emitGoto (name : Bytes) : Emit Unit := do
  let idx ← getOrCreateLabelC name
  modify fun st => { st with labels := st.labels.modify idx fun l => { l with referenced := true } }
  emit ([OpCode.goto.code] ++ emitU16 idx)

/-- The key of a table operation: a register reference names its register, any other
key is captured into register 0. -/
def emitTableKeyC : AstNode → Emit Unit → Emit Unit
  | .regRef _, _ => pure ()
  | _, body => emitCapC 0 body

/-- The register that holds the key. -/
def tableKeyReg : AstNode → Nat
  | .regRef reg => bits reg
  | _ => 0

mutual

/-- `emit_node_c` -/
def emitNodeC (cfg : CompilerConfig) : AstNode → Emit Unit
  | .literal text =>
      if cfg.caseInsensitive then emitLitCaseInsensitiveC cfg text text.length 0
      else emitLitBytes text
  | .concat parts => emitPartsC cfg parts
  | .alt left right => emitAltC (emitNodeC cfg left) (emitNodeC cfg right)
  | .repetition sub min max => do
      let loopId ← newLoopId
      if min = 0 ∧ max = -1 then emitRepeatStarC cfg sub (emitNodeC cfg sub)
      else emitLoop loopId (bits min) (bits max) (emitNodeC cfg sub)
  | .span set => emitSetOp cfg .span set
  | .break set => emitSetOp cfg .break set
  | .any set => emitAnyC cfg set
  | .notany set => emitSetOp cfg .notany set
  | .arbno sub => emitArbnoC cfg sub (emitNodeC cfg sub)
  | .cap reg sub => emitCapC (bits reg) (emitNodeC cfg sub)
  | .assign var reg =>
      emit ([OpCode.assign.code] ++ emitU16 (bits var) ++ emitU8 (bits reg))
  | .len n => emitCountOp .len n
  | .eval fn reg => emit ([OpCode.eval.code] ++ emitU16 (bits fn) ++ emitU8 (bits reg))
  | .dynamicEval expr => emitNodeC cfg expr
  | .anchor .anchorStart => emit [OpCode.anchor.code, 0]
  | .anchor .anchorEnd => emit [OpCode.anchor.code, 1]
  | .emit text reg => emitEmitC text reg
  | .breakx set => emitSetOp cfg .breakx set
  | .bal openCp closeCp =>
      emit ([OpCode.bal.code] ++ emitU32 openCp.toNat ++ emitU32 closeCp.toNat)
  | .fence => emitOp .fence
  | .rem => emitOp .rem
  | .rpos n => emitCountOp .rpos n
  | .rtab n => emitCountOp .rtab n
  | .pos n => emitCountOp .pos n
  | .tab n => emitCountOp .tab n
  | .abort => emitOp .abort
  | .fail => emitOp .fail
  | .succeed => emitOp .succeed
  | .label name target => emitLabel name (emitNodeC cfg target)
  | .goto name => emitGoto name
  | .tableAccess table key => do
      emitTableKeyC key (emitNodeC cfg key)
      emitTableOp .tableGet (tableKeyReg key) 0 table
  | .tableUpdate table key value => do
      emitTableKeyC key (emitNodeC cfg key)
      emitCapC 1 (emitNodeC cfg value)
      emitTableOp .tableSet (tableKeyReg key) 1 table
  | .regRef _ => refuse

/-- The parts of a concatenation. -/
def emitPartsC (cfg : CompilerConfig) : List AstNode → Emit Unit
  | [] => pure ()
  | part :: parts => do
      emitNodeC cfg part
      emitPartsC cfg parts

/-- `emit_arbno_c` at `sub`, whose own code is `body`: nested `ARBNO`s are unwrapped,
then nested repetitions (0, -1). -/
def emitArbnoC (cfg : CompilerConfig) : AstNode → Emit Unit → Emit Unit
  | .arbno sub, _ => emitArbnoC cfg sub (emitNodeC cfg sub)
  | .repetition sub min max, body =>
      if min = 0 ∧ max = -1 then emitStarC cfg sub (emitNodeC cfg sub) else emitArbnoLoop body
  | _, body => emitArbnoLoop body

/-- The second unwrapping loop of `emit_arbno_c`. -/
def emitStarC (cfg : CompilerConfig) : AstNode → Emit Unit → Emit Unit
  | .repetition sub min max, body =>
      if min = 0 ∧ max = -1 then emitStarC cfg sub (emitNodeC cfg sub) else emitArbnoLoop body
  | _, body => emitArbnoLoop body

/-- `emit_repeat_c` for the bounds (0, -1): unwrap nested repetitions of that kind,
then go on as `emit_arbno_c`. -/
def emitRepeatStarC (cfg : CompilerConfig) : AstNode → Emit Unit → Emit Unit
  | .repetition sub min max, body =>
      if min = 0 ∧ max = -1 then emitRepeatStarC cfg sub (emitNodeC cfg sub)
      else emitArbnoLoop body
  | .arbno sub, _ => emitArbnoC cfg sub (emitNodeC cfg sub)
  | _, body => emitArbnoLoop body

end

/-! ## The fusion pass -/

/-- `ArmInfo`: a literal byte or a class id, and the point where the arm ends. -/
inductive Arm where
  | lit (cp merge : Nat)
  | any (ccId merge : Nat)
  deriving Repr, DecidableEq

def Arm.merge : Arm → Nat
  | .lit _ merge => merge
  | .any _ merge => merge

/-- The single-character instruction at `a` and the address after it. -/
def parseSingle (bc : Bytes) (a : Nat) : Option ((Nat → Arm) × Nat) :=
  match bc[a]? with
  | none => none
  | some b =>
      if b = OpCode.lit.code then
        if (readU32 bc (a + 5)).1 = 1 then (bc[a + 9]?).map fun c => (Arm.lit c.toNat, a + 10)
        else none
      else if b = OpCode.any.code then
        if a + 3 ≤ bc.length then some (Arm.any (readU16 bc (a + 1)).1, a + 3) else none
      else none

/-- Skip the `OP_NOP`s of earlier fusions. -/
def skipNops (bc : Bytes) (a : Nat) : Nat := spanBytes bc (· = OpCode.nop.code) a

/-- `parse_arm_a`: a single character followed by `OP_JMP`. -/
def parseArmA (bc : Bytes) (a : Nat) : Option Arm := do
  let (arm, after) ← parseSingle bc a
  let jmp := skipNops bc after
  if jmp + 5 ≤ bc.length ∧ bc[jmp]? = some OpCode.jmp.code then
    some (arm (readU32 bc (jmp + 1)).1)
  else none

/-- `parse_arm_b`: a single character that falls through. -/
def parseArmB (bc : Bytes) (b : Nat) : Option Arm := do
  let (arm, after) ← parseSingle bc b
  some (arm (skipNops bc after))

/-- The class entry of an arm: `get_cc_entry` for a class, nothing for a literal. -/
def armEntry (classes : List CcEntry) : Arm → Option CcEntry
  | .lit .. => none
  | .any ccId _ => if ccId = 0 then none else classes[ccId - 1]?

/-- The ranges of an arm; an unknown class counts as codepoint 0. -/
def armRanges (classes : List CcEntry) (arm : Arm) : List CpRange :=
  match armEntry classes arm, arm with
  | some e, _ => e.ranges
  | none, .lit cp _ => [⟨cp, cp⟩]
  | none, .any .. => [⟨0, 0⟩]

/-- `fuse_add_union_cc` -/
def fuseUnion (classes : List CcEntry) (armA armB : Arm) : CcEntry :=
  ⟨normalizeRanges (armRanges classes armA ++ armRanges classes armB),
    (armEntry classes armA).any (·.caseInsensitive) ||
      (armEntry classes armB).any (·.caseInsensitive)⟩

/-- The arms of an eligible `OP_SPLIT` at `pos`: both strictly forward, single
characters, and merging at one point. -/
def eligibleArms (bc : Bytes) (pos : Nat) : Option (Arm × Arm) := do
  if bc[pos]? ≠ some OpCode.split.code ∨ bc.length < pos + 9 then none
  let a := (readU32 bc (pos + 1)).1
  let b := (readU32 bc (pos + 5)).1
  if a ≤ pos ∨ b ≤ pos ∨ bc.length ≤ a ∨ bc.length ≤ b then none
  let armA ← parseArmA bc a
  let armB ← parseArmB bc b
  if armA.merge = armB.merge then some (armA, armB) else none

/-- Write `OP_ANY id` at `pos` and `OP_NOP` up to `merge`. -/
def writeFused (bc : Bytes) (pos id merge : Nat) : Bytes :=
  bc.take pos ++ ([OpCode.any.code] ++ emitU16 id) ++
    List.replicate (merge - (pos + 3)) OpCode.nop.code ++ bc.drop (max (pos + 3) merge)

/-- The code and the class list the fusion pass works on. -/
structure FuseState where
  bc : Bytes
  classes : List CcEntry
  deriving Repr, DecidableEq

/-- One position of `snobol_bc_fuse_split_any`. -/
def fuseAt (pos : Nat) (st : FuseState) : FuseState :=
  match eligibleArms st.bc pos with
  | none => st
  | some (armA, armB) =>
      let (classes, id) := internClass st.classes (fuseUnion st.classes armA armB)
      if 0xFFFF < id then { st with classes }
      else { bc := writeFused st.bc pos id armA.merge, classes }

/-- The ranges of the two arms fit the array that `fuse_add_union_cc` allocates for their union: its
`range_cap` is a `uint16_t`. -/
def unionFits (st : FuseState) (pos : Nat) : Bool :=
  (eligibleArms st.bc pos).all fun arms =>
    decide ((armRanges st.classes arms.1).length + (armRanges st.classes arms.2).length < 2 ^ 16)

/-- `snobol_bc_fuse_split_any` on the positions below `pos`, right to left. -/
def fuseBelow : Nat → FuseState → FuseState
  | 0, st => st
  | pos + 1, st => fuseBelow pos (fuseAt pos st)

/-- All unions that `fuseBelow` makes fit. -/
def unionsFitBelow : Nat → FuseState → Bool
  | 0, _ => true
  | pos + 1, st => unionFits st pos && unionsFitBelow pos (fuseAt pos st)

/-- `snobol_bc_fuse_split_any` -/
def fuseSplitAny (st : FuseState) : FuseState := fuseBelow st.bc.length st

/-! ## The whole compilation -/

/-- The blob of a class. -/
def classBlob (e : CcEntry) : Bytes :=
  emitU16 e.ranges.length ++ emitU16 e.caseInsensitive.toNat ++
    e.ranges.flatMap fun r => emitU32 r.start ++ emitU32 r.stop

/-- The offsets of the blobs laid out from `base` on. -/
def blobOffsets : Nat → List CcEntry → List Nat
  | _, [] => []
  | base, e :: es => base :: blobOffsets (base + (classBlob e).length) es

/-- `emit_label_table` -/
def labelTable (labels : List LabelEntry) : Bytes :=
  (labels.flatMap fun l => emitU32 (if l.defined then l.offset else 0)) ++
    emitU32 labels.length ++ emitU32 labelTableMagic

/-- What follows the instructions: the classes in reverse order, their offsets in
the order of the ids, their count, and the label table. -/
def trailer (base : Nat) (classes : List CcEntry) (labels : List LabelEntry) : Bytes :=
  classes.reverse.flatMap classBlob ++
    (blobOffsets base classes.reverse).reverse.flatMap emitU32 ++
    emitU32 classes.length ++ labelTable labels

/-- The compiler state at the start. -/
def CompilerState.init : CompilerState where
  buf := []
  classes := []
  nextLoopId := 0
  labels := []
  splits := []

/-- The emission of a program, up to the check of the labels. -/
def emitOutcome (cfg : CompilerConfig) (ast : AstNode) : CallResult CompilerState := do
  let ((), st) ← (emitNodeC cfg ast).run .init
  if st.labels.any fun l => l.referenced && !l.defined then .refused
  else .done { st with buf := st.buf ++ [OpCode.accept.code] }

/-- The instructions before the fusion pass, with the tables collected. -/
def emitProgram (cfg : CompilerConfig) (ast : AstNode) : Option CompilerState :=
  (emitOutcome cfg ast).toOption

/-- `compile_ast_to_bytecode_c` -/
def compileOutcome (cfg : CompilerConfig) (ast : AstNode) : CallResult Bytes := do
  let st ← emitOutcome cfg ast
  let fused := fuseSplitAny ⟨st.buf, st.classes⟩
  if unionsFitBelow st.buf.length ⟨st.buf, st.classes⟩ then
    .done (fused.bc ++ trailer fused.bc.length fused.classes st.labels)
  else .undefined

/-- The bytecode that `compile_ast_to_bytecode_c` returns. -/
def compileAstToBytecodeC (cfg : CompilerConfig) (ast : AstNode) : Option Bytes :=
  (compileOutcome cfg ast).toOption

end Snobol4
