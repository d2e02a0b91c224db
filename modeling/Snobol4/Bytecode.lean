import Mathlib.Algebra.Group.Nat.Defs
import Mathlib.Tactic.Common
import Snobol4.Bytes

/-!
# Bytecode — opcodes, operand readers and the instruction decoder (`vm.h`)

The bytecode is a byte string with big-endian operands.  `fetch` reads the opcode
at an address together with its operands, as every handler of `vm_run` does before
it acts.  A reader that would run past the end yields 0 and leaves the instruction
pointer at the end.
-/

namespace Snobol4

/-- `MAX_CAPS` and `MAX_VARS` -/
def maxCaps : Nat := 64

/-- `MAX_LOOPS` -/
def maxLoops : Nat := 16

/-- `(uint32_t)-1`, the bound of an unbounded loop. -/
def unbounded : Nat := 2 ^ 32 - 1

/-- `OpCode`, in the order of the source. -/
inductive OpCode where
  | accept | fail | jmp | split | lit | any | notany | span | «break»
  | capStart | capEnd | assign | len | eval | anchor | repeatInit | repeatStep
  | emitLiteral | emitCapture | emitExpr | emitTable | emitFormat
  | label | goto | gotoF | tableGet | tableSet | arrayGet | arraySet
  | dynamic | dynamicDef | breakx | bal | fence | rem | rpos | rtab | pos | tab
  | abort | succeed | nop
  deriving Repr, DecidableEq

namespace OpCode

/-- The opcodes in the order of their numbers. -/
def all : List OpCode :=
  [accept, fail, jmp, split, lit, any, notany, span, «break»,
   capStart, capEnd, assign, len, eval, anchor, repeatInit, repeatStep,
   emitLiteral, emitCapture, emitExpr, emitTable, emitFormat,
   label, goto, gotoF, tableGet, tableSet, arrayGet, arraySet,
   dynamic, dynamicDef, breakx, bal, fence, rem, rpos, rtab, pos, tab,
   abort, succeed, nop]

/-- The byte of an opcode. -/
def code (o : OpCode) : UInt8 := UInt8.ofNat o.ctorIdx

/-- The opcode of a byte. -/
def ofByte (b : UInt8) : Option OpCode := all[b.toNat]?

@[simp] theorem ofByte_code (o : OpCode) : ofByte o.code = some o := by
  cases o <;> rfl

@[simp] theorem code_inj {o o' : OpCode} : o.code = o'.code ↔ o = o' := by
  constructor
  · intro h
    have := congrArg ofByte h
    simpa using this
  · exact congrArg code

end OpCode

/-! ## Operands -/

/-- The value of four big-endian bytes. -/
def be32 (a b c d : UInt8) : Nat :=
  a.toNat * 2 ^ 24 + b.toNat * 2 ^ 16 + c.toNat * 2 ^ 8 + d.toNat

/-- `read_u8`: the operand and the address after it. -/
def readU8 (bc : Bytes) (ip : Nat) : Nat × Nat :=
  match bc.drop ip with
  | a :: _ => (a.toNat, ip + 1)
  | _ => (0, bc.length)

/-- `read_u16` -/
def readU16 (bc : Bytes) (ip : Nat) : Nat × Nat :=
  match bc.drop ip with
  | a :: b :: _ => (a.toNat * 2 ^ 8 + b.toNat, ip + 2)
  | _ => (0, bc.length)

/-- `read_u32` -/
def readU32 (bc : Bytes) (ip : Nat) : Nat × Nat :=
  match bc.drop ip with
  | a :: b :: c :: d :: _ => (be32 a b c d, ip + 4)
  | _ => (0, bc.length)

/-- `cb_emit_u8`: the low 8 bits. -/
def emitU8 (v : Nat) : Bytes := [UInt8.ofNat v]

/-- `cb_emit_u16`: the low 16 bits, big-endian. -/
def emitU16 (v : Nat) : Bytes := [UInt8.ofNat (v / 2 ^ 8), UInt8.ofNat v]

/-- `cb_emit_u32`: the low 32 bits, big-endian. -/
def emitU32 (v : Nat) : Bytes :=
  [UInt8.ofNat (v / 2 ^ 24), UInt8.ofNat (v / 2 ^ 16), UInt8.ofNat (v / 2 ^ 8), UInt8.ofNat v]

@[simp] theorem length_emitU8 (v : Nat) : (emitU8 v).length = 1 := rfl

@[simp] theorem length_emitU16 (v : Nat) : (emitU16 v).length = 2 := rfl

@[simp] theorem length_emitU32 (v : Nat) : (emitU32 v).length = 4 := rfl

theorem readU8_of_drop {bc rest : Bytes} {ip v : Nat} (h : bc.drop ip = emitU8 v ++ rest) :
    readU8 bc ip = (v % 2 ^ 8, ip + 1) := by
  simp [readU8, h, emitU8]

theorem readU16_of_drop {bc rest : Bytes} {ip v : Nat} (h : bc.drop ip = emitU16 v ++ rest) :
    readU16 bc ip = (v % 2 ^ 16, ip + 2) := by
  simp only [readU16, h, emitU16, List.cons_append, List.nil_append, UInt8.toNat_ofNat']
  congr 1
  omega

theorem readU32_of_drop {bc rest : Bytes} {ip v : Nat} (h : bc.drop ip = emitU32 v ++ rest) :
    readU32 bc ip = (v % 2 ^ 32, ip + 4) := by
  simp only [readU32, h, emitU32, be32, List.cons_append, List.nil_append, UInt8.toNat_ofNat']
  congr 1
  omega

/-- A number that stands behind a byte string. -/
theorem readU32_append (xs ys : Bytes) {v n : Nat} (hn : n = xs.length) :
    (readU32 (xs ++ (emitU32 v ++ ys)) n).1 = v % 2 ^ 32 := by
  subst hn
  have hdrop : (xs ++ (emitU32 v ++ ys)).drop xs.length = emitU32 v ++ ys := List.drop_left
  rw [readU32_of_drop hdrop]

theorem readU32_behind (xs ys : Bytes) {v n : Nat} (hv : v < 2 ^ 32) (hn : n = xs.length) :
    (readU32 (xs ++ (emitU32 v ++ ys)) n).1 = v := by
  rw [readU32_append xs ys hn, Nat.mod_eq_of_lt hv]

theorem length_flatMap_emitU32 (vs : List Nat) : (vs.flatMap emitU32).length = vs.length * 4 := by
  induction vs with
  | nil => rfl
  | cons v vs ih =>
    rw [List.flatMap_cons, List.length_append, length_emitU32, ih, List.length_cons]
    omega

/-- The entries of a table of numbers. -/
theorem readU32_entry_mod (xs ys : Bytes) {vs : List Nat} {n i v : Nat} (hn : n = xs.length)
    (hget : vs[i]? = some v) :
    (readU32 (xs ++ (vs.flatMap emitU32 ++ ys)) (n + i * 4)).1 = v % 2 ^ 32 := by
  induction vs generalizing xs n i with
  | nil => cases hget
  | cons w vs ih =>
    rw [List.flatMap_cons, List.append_assoc]
    cases i with
    | zero =>
      cases hget
      rw [Nat.zero_mul, Nat.add_zero]
      exact readU32_append xs _ hn
    | succ i =>
      rw [← List.append_assoc xs]
      have hentry := ih (xs ++ emitU32 w) (n := n + 4) (i := i)
        (by rw [List.length_append, length_emitU32, hn]) hget
      rw [show n + (i + 1) * 4 = n + 4 + i * 4 by omega]
      exact hentry

theorem readU8_next {bc : Bytes} {ip : Nat} (h : ip + 1 ≤ bc.length) : (readU8 bc ip).2 = ip + 1 := by
  have hlen := List.length_drop (l := bc) (i := ip)
  unfold readU8
  split
  · rfl
  · rename_i hnot
    cases hdrop : bc.drop ip with
    | nil =>
      rw [hdrop, List.length_nil] at hlen
      omega
    | cons a rest => exact absurd hdrop (hnot a rest)

theorem readU16_next {bc : Bytes} {ip : Nat} (h : ip + 2 ≤ bc.length) :
    (readU16 bc ip).2 = ip + 2 := by
  have hlen := List.length_drop (l := bc) (i := ip)
  unfold readU16
  split
  · rfl
  · rename_i hnot
    match hdrop : bc.drop ip with
    | [] | [_] => simp only [hdrop, List.length_nil, List.length_cons] at hlen; omega
    | a :: b :: rest => exact absurd hdrop (hnot a b rest)

theorem readU32_next {bc : Bytes} {ip : Nat} (h : ip + 4 ≤ bc.length) :
    (readU32 bc ip).2 = ip + 4 := by
  have hlen := List.length_drop (l := bc) (i := ip)
  unfold readU32
  split
  · rfl
  · rename_i hnot
    match hdrop : bc.drop ip with
    | [] | [_] | [_, _] | [_, _, _] =>
      simp only [hdrop, List.length_nil, List.length_cons] at hlen; omega
    | a :: b :: c :: d :: rest => exact absurd hdrop (hnot a b c d rest)

/-- The bytes after a prefix of what stands at an address. -/
theorem drop_add_of_drop {bc xs rest : Bytes} {ip : Nat} (h : bc.drop ip = xs ++ rest) (n : Nat)
    (hn : n = xs.length) : bc.drop (ip + n) = rest := by
  rw [hn, ← List.drop_drop, h, List.drop_left]

/-! ## Instructions -/

/-- The opcodes that test one character class. -/
inductive SetOp where
  | any
  | notany
  | span
  | «break»
  deriving Repr, DecidableEq

/-- The opcodes that count codepoints. -/
inductive CountOp where
  | len
  | rpos
  | rtab
  | pos
  | tab
  deriving Repr, DecidableEq

/-- An instruction that neither jumps nor saves or discards a choice point. -/
inductive Prim where
  | nop
  | lit (off len : Nat)
  | set (op : SetOp) (id : Nat)
  | capStart (reg : Nat)
  | capEnd (reg : Nat)
  | assign (var reg : Nat)
  | count (op : CountOp) (n : Nat)
  | eval (fn reg : Nat)
  | anchor (type : Nat)
  | emitLiteral (off len : Nat)
  | emitCapture (reg : Nat)
  | label (id : Nat)
  | tableGet (table key dest : Nat)
  | tableSet (table key value : Nat)
  | bal (openCp closeCp : Nat)
  | rem
  deriving Repr, DecidableEq

/-- A decoded instruction.  `unknown` covers the bytes above `OP_NOP` and the
opcodes that only templates and the PHP front end emit. -/
inductive Instr where
  | prim (p : Prim)
  | accept
  | fail
  | jmp (target : Nat)
  | split (a b : Nat)
  | repeatInit (loop min max skip : Nat)
  | repeatStep (loop target : Nat)
  | goto (label : Nat)
  | breakx (set : Nat)
  | fence
  | abort
  | succeed
  | unknown (byte : UInt8)
  deriving Repr, DecidableEq

/-- The operands of the opcode whose byte is `b`, read from `ip`, and the address
of the next instruction.  An inline payload is skipped where it starts right after
the operands. -/
def operands (bc : Bytes) (b : UInt8) (ip : Nat) : Instr × Nat :=
  let payload (mk : Nat → Nat → Prim) : Instr × Nat :=
    let (off, ip) := readU32 bc ip
    let (len, ip) := readU32 bc ip
    (.prim (mk off len), if off = ip then ip + len else ip)
  let set (op : SetOp) : Instr × Nat :=
    let (id, ip) := readU16 bc ip
    (.prim (.set op id), ip)
  let count (op : CountOp) : Instr × Nat :=
    let (n, ip) := readU32 bc ip
    (.prim (.count op n), ip)
  let table (mk : Nat → Nat → Nat → Prim) : Instr × Nat :=
    let (table, ip) := readU16 bc ip
    let (key, ip) := readU8 bc ip
    let (reg, ip) := readU8 bc ip
    let (nameLen, ip) := readU8 bc ip
    (.prim (mk table key reg), ip + nameLen)
  match OpCode.ofByte b with
  | some .accept => (.accept, ip)
  | some .fail => (.fail, ip)
  | some .jmp =>
      let (target, ip) := readU32 bc ip
      (.jmp target, ip)
  | some .split =>
      let (a, ip) := readU32 bc ip
      let (b, ip) := readU32 bc ip
      (.split a b, ip)
  | some .lit => payload .lit
  | some .any => set .any
  | some .notany => set .notany
  | some .span => set .span
  | some .break => set .break
  | some .capStart =>
      let (r, ip) := readU8 bc ip
      (.prim (.capStart r), ip)
  | some .capEnd =>
      let (r, ip) := readU8 bc ip
      (.prim (.capEnd r), ip)
  | some .assign =>
      let (var, ip) := readU16 bc ip
      let (r, ip) := readU8 bc ip
      (.prim (.assign var r), ip)
  | some .len => count .len
  | some .eval =>
      let (fn, ip) := readU16 bc ip
      let (r, ip) := readU8 bc ip
      (.prim (.eval fn r), ip)
  | some .anchor =>
      let (type, ip) := readU8 bc ip
      (.prim (.anchor type), ip)
  | some .repeatInit =>
      let (loop, ip) := readU8 bc ip
      let (min, ip) := readU32 bc ip
      let (max, ip) := readU32 bc ip
      let (skip, ip) := readU32 bc ip
      (.repeatInit loop min max skip, ip)
  | some .repeatStep =>
      let (loop, ip) := readU8 bc ip
      let (target, ip) := readU32 bc ip
      (.repeatStep loop target, ip)
  | some .emitLiteral => payload .emitLiteral
  | some .emitCapture =>
      let (r, ip) := readU8 bc ip
      (.prim (.emitCapture r), ip)
  | some .label =>
      let (id, ip) := readU16 bc ip
      (.prim (.label id), ip)
  | some .goto =>
      let (id, ip) := readU16 bc ip
      (.goto id, ip)
  | some .tableGet => table .tableGet
  | some .tableSet => table .tableSet
  | some .breakx =>
      let (id, ip) := readU16 bc ip
      (.breakx id, ip)
  | some .bal =>
      let (openCp, ip) := readU32 bc ip
      let (closeCp, ip) := readU32 bc ip
      (.prim (.bal openCp closeCp), ip)
  | some .fence => (.fence, ip)
  | some .rem => (.prim .rem, ip)
  | some .rpos => count .rpos
  | some .rtab => count .rtab
  | some .pos => count .pos
  | some .tab => count .tab
  | some .abort => (.abort, ip)
  | some .succeed => (.succeed, ip)
  | some .nop => (.prim .nop, ip)
  | _ => (.unknown b, ip)

/-- The instruction at `ip` and the address of the next one, or nothing at the end
of the bytecode. -/
def fetch (bc : Bytes) (ip : Nat) : Option (Instr × Nat) :=
  bc[ip]?.map fun b => operands bc b (ip + 1)

theorem fetch_of_drop {bc rest : Bytes} {ip : Nat} {o : OpCode} (h : bc.drop ip = o.code :: rest) :
    fetch bc ip = some (operands bc o.code (ip + 1)) ∧ bc.drop (ip + 1) = rest := by
  have hget : bc[ip]? = some o.code := by
    have := congrArg (·[0]?) h
    simpa using this
  refine ⟨by simp [fetch, hget], ?_⟩
  have hcons : bc.drop ip = [o.code] ++ rest := h
  exact drop_add_of_drop hcons 1 rfl

end Snobol4
