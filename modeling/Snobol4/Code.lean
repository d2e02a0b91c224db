import Snobol4.Support.Search
import Snobol4.Bytecode

/-!
# Code — structured code and its layout in the bytecode

The compiler emits code for whole subtrees at a time, so the bytecode of a pattern is
the layout of a tree: instructions, sequences, alternatives (`OP_SPLIT`, the left
arm, `OP_JMP`, the right arm) and loops (`OP_REPEAT_INIT`, the body,
`OP_REPEAT_STEP`).  `Blk.Code` says that such a tree stands at an address; the lemmas
below give the instruction the VM fetches at each address the tree has.
-/

namespace Snobol4

/-- An instruction that leads to the next one, over references `C` to character
classes; literals and table names stand inline. -/
inductive Leaf (C : Type) where
  | nop
  | lit (text : Bytes)
  | set (op : SetOp) (cls : C)
  | capStart (reg : Nat)
  | capEnd (reg : Nat)
  | assign (var reg : Nat)
  | count (op : CountOp) (n : Nat)
  | eval (fn reg : Nat)
  | anchor (type : Nat)
  | emitLiteral (text : Bytes)
  | emitCapture (reg : Nat)
  | label (id : Nat)
  | tableGet (key reg : Nat) (name : Bytes)
  | tableSet (key reg : Nat) (name : Bytes)
  | bal (openCp closeCp : Nat)
  | rem
  | accept
  | fail
  | goto (id : Nat)
  | breakx (cls : C)
  | fence
  | abort
  | succeed
  deriving Repr, DecidableEq

/-- `id`, `min` and `max` of a loop. -/
structure LoopSpec where
  id : Nat
  min : Nat
  max : Nat
  deriving Repr, DecidableEq

/-- Structured code. -/
abbrev Blk := Pat (Leaf Nat) LoopSpec

/-! ## Layout -/

def SetOp.opcode : SetOp → OpCode
  | .any => .any
  | .notany => .notany
  | .span => .span
  | .break => .break

def CountOp.opcode : CountOp → OpCode
  | .len => .len
  | .rpos => .rpos
  | .rtab => .rtab
  | .pos => .pos
  | .tab => .tab

namespace Leaf

/-- The unbound table id the compiler writes. -/
def unboundTable : Nat := 0xFFFF

/-- The bytes of an instruction at address `a`. -/
def encode (a : Nat) : Leaf Nat → Bytes
  | nop => [OpCode.nop.code]
  | lit text => [OpCode.lit.code] ++ emitU32 (a + 9) ++ emitU32 text.length ++ text
  | set op id => [op.opcode.code] ++ emitU16 id
  | capStart reg => [OpCode.capStart.code] ++ emitU8 reg
  | capEnd reg => [OpCode.capEnd.code] ++ emitU8 reg
  | assign var reg => [OpCode.assign.code] ++ emitU16 var ++ emitU8 reg
  | count op n => [op.opcode.code] ++ emitU32 n
  | eval fn reg => [OpCode.eval.code] ++ emitU16 fn ++ emitU8 reg
  | anchor type => [OpCode.anchor.code] ++ emitU8 type
  | emitLiteral text =>
      [OpCode.emitLiteral.code] ++ emitU32 (a + 9) ++ emitU32 text.length ++ text
  | emitCapture reg => [OpCode.emitCapture.code] ++ emitU8 reg
  | label id => [OpCode.label.code] ++ emitU16 id
  | tableGet key reg name =>
      [OpCode.tableGet.code] ++ emitU16 unboundTable ++ emitU8 key ++ emitU8 reg ++
        emitU8 name.length ++ name
  | tableSet key reg name =>
      [OpCode.tableSet.code] ++ emitU16 unboundTable ++ emitU8 key ++ emitU8 reg ++
        emitU8 name.length ++ name
  | bal openCp closeCp => [OpCode.bal.code] ++ emitU32 openCp ++ emitU32 closeCp
  | rem => [OpCode.rem.code]
  | accept => [OpCode.accept.code]
  | fail => [OpCode.fail.code]
  | goto id => [OpCode.goto.code] ++ emitU16 id
  | breakx id => [OpCode.breakx.code] ++ emitU16 id
  | fence => [OpCode.fence.code]
  | abort => [OpCode.abort.code]
  | succeed => [OpCode.succeed.code]

/-- The number of bytes of an instruction. -/
def size : Leaf Nat → Nat
  | lit text => 9 + text.length
  | set _ _ => 3
  | capStart _ => 2
  | capEnd _ => 2
  | assign _ _ => 4
  | count _ _ => 5
  | eval _ _ => 4
  | anchor _ => 2
  | emitLiteral text => 9 + text.length
  | emitCapture _ => 2
  | label _ => 3
  | tableGet _ _ name => 6 + name.length
  | tableSet _ _ name => 6 + name.length
  | bal _ _ => 9
  | goto _ => 3
  | breakx _ => 3
  | nop | rem | accept | fail | fence | abort | succeed => 1

/-- The operands are within the width of their fields. -/
def Fits : Leaf Nat → Prop
  | set _ id => id < 2 ^ 16
  | capStart reg => reg < 2 ^ 8
  | capEnd reg => reg < 2 ^ 8
  | assign var reg => var < 2 ^ 16 ∧ reg < 2 ^ 8
  | count _ n => n < 2 ^ 32
  | eval fn reg => fn < 2 ^ 16 ∧ reg < 2 ^ 8
  | anchor type => type < 2 ^ 8
  | emitCapture reg => reg < 2 ^ 8
  | label id => id < 2 ^ 16
  | tableGet key reg name => key < 2 ^ 8 ∧ reg < 2 ^ 8 ∧ name.length < 2 ^ 8
  | tableSet key reg name => key < 2 ^ 8 ∧ reg < 2 ^ 8 ∧ name.length < 2 ^ 8
  | bal openCp closeCp => openCp < 2 ^ 32 ∧ closeCp < 2 ^ 32
  | goto id => id < 2 ^ 16
  | breakx id => id < 2 ^ 16
  | _ => True

/-- The instruction the VM fetches for a leaf at address `a`. -/
def instr (a : Nat) : Leaf Nat → Instr
  | nop => .prim .nop
  | lit text => .prim (.lit (a + 9) text.length)
  | set op id => .prim (.set op id)
  | capStart reg => .prim (.capStart reg)
  | capEnd reg => .prim (.capEnd reg)
  | assign var reg => .prim (.assign var reg)
  | count op n => .prim (.count op n)
  | eval fn reg => .prim (.eval fn reg)
  | anchor type => .prim (.anchor type)
  | emitLiteral text => .prim (.emitLiteral (a + 9) text.length)
  | emitCapture reg => .prim (.emitCapture reg)
  | label id => .prim (.label id)
  | tableGet key reg _ => .prim (.tableGet unboundTable key reg)
  | tableSet key reg _ => .prim (.tableSet unboundTable key reg)
  | bal openCp closeCp => .prim (.bal openCp closeCp)
  | rem => .prim .rem
  | accept => .accept
  | fail => .fail
  | goto id => .goto id
  | breakx id => .breakx id
  | fence => .fence
  | abort => .abort
  | succeed => .succeed

@[simp] theorem length_encode (l : Leaf Nat) (a : Nat) : (l.encode a).length = l.size := by
  cases l <;> simp [encode, size] <;> omega

theorem size_pos (l : Leaf Nat) : 0 < l.size := by
  cases l <;> simp only [size] <;> omega

end Leaf

namespace Blk

/-- The number of bytes of structured code. -/
def size : Blk → Nat
  | .skip => 0
  | .leaf l => l.size
  | .seq p q => size p + size q
  | .alt p q => 14 + size p + size q
  | .loop _ body => 20 + size body

/-- The bytes of structured code at address `a`. -/
def encode : Blk → Nat → Bytes
  | .skip, _ => []
  | .leaf l, a => l.encode a
  | .seq p q, a => encode p a ++ encode q (a + size p)
  | .alt p q, a =>
      [OpCode.split.code] ++ emitU32 (a + 9) ++ emitU32 (a + 14 + size p) ++
        encode p (a + 9) ++
        ([OpCode.jmp.code] ++ emitU32 (a + 14 + size p + size q)) ++
        encode q (a + 14 + size p)
  | .loop k body, a =>
      [OpCode.repeatInit.code] ++ emitU8 k.id ++ emitU32 k.min ++ emitU32 k.max ++
        emitU32 (a + 20 + size body) ++
        encode body (a + 14) ++
        ([OpCode.repeatStep.code] ++ emitU8 k.id ++ emitU32 (a + 14))

@[simp] theorem length_encode (b : Blk) (a : Nat) : (encode b a).length = size b := by
  induction b generalizing a with
  | skip => rfl
  | leaf l => simp [encode, size]
  | seq p q ihp ihq => simp [encode, size, ihp, ihq]
  | alt p q ihp ihq =>
    simp only [encode, size, List.length_append, List.length_cons, List.length_nil,
      length_emitU32, ihp, ihq]
    omega
  | loop k body ih =>
    simp only [encode, size, List.length_append, List.length_cons, List.length_nil,
      length_emitU32, length_emitU8, ih]
    omega

/-- Every operand is within the width of its field. -/
def Fits : Blk → Prop
  | .skip => True
  | .leaf l => l.Fits
  | .seq p q => Fits p ∧ Fits q
  | .alt p q => Fits p ∧ Fits q
  | .loop k body => (k.id < 2 ^ 8 ∧ k.min < 2 ^ 32 ∧ k.max < 2 ^ 32) ∧ Fits body

/-- The code of `b` stands at address `a` of the bytecode. -/
structure Code (bc : Bytes) (b : Blk) (a : Nat) : Prop where
  bytes : encode b a <+: bc.drop a
  short : a + size b < 2 ^ 32
  fits : Fits b

end Blk

/-! ## Fetching from structured code -/

theorem prefix_left {xs ys bs : Bytes} (h : xs ++ ys <+: bs) : xs <+: bs :=
  (List.prefix_append xs ys).trans h

theorem prefix_right {xs ys bc : Bytes} {a n : Nat} (h : xs ++ ys <+: bc.drop a)
    (hn : n = a + xs.length) : ys <+: bc.drop n := by
  obtain ⟨rest, h⟩ := h
  refine ⟨rest, ?_⟩
  rw [hn, ← List.drop_drop, ← h, List.append_assoc, List.drop_left]

theorem readU8_of_initial {bc : Bytes} {ip v : Nat} (h : emitU8 v <+: bc.drop ip)
    (hv : v < 2 ^ 8) : readU8 bc ip = (v, ip + 1) := by
  obtain ⟨rest, h⟩ := h
  rw [readU8_of_drop h.symm, Nat.mod_eq_of_lt hv]

theorem readU16_of_initial {bc : Bytes} {ip v : Nat} (h : emitU16 v <+: bc.drop ip)
    (hv : v < 2 ^ 16) : readU16 bc ip = (v, ip + 2) := by
  obtain ⟨rest, h⟩ := h
  rw [readU16_of_drop h.symm, Nat.mod_eq_of_lt hv]

theorem readU32_of_initial {bc : Bytes} {ip v : Nat} (h : emitU32 v <+: bc.drop ip)
    (hv : v < 2 ^ 32) : readU32 bc ip = (v, ip + 4) := by
  obtain ⟨rest, h⟩ := h
  rw [readU32_of_drop h.symm, Nat.mod_eq_of_lt hv]

/-- The opcode at an address and the bytes behind it. -/
theorem fetch_of_initial {bc xs : Bytes} {a : Nat} {o : OpCode}
    (h : [o.code] ++ xs <+: bc.drop a) :
    fetch bc a = some (operands bc o.code (a + 1)) ∧ xs <+: bc.drop (a + 1) := by
  refine ⟨?_, prefix_right h rfl⟩
  obtain ⟨rest, h⟩ := h
  have hdrop : bc.drop a = o.code :: (xs ++ rest) := by simpa using h.symm
  exact (fetch_of_drop hdrop).1

theorem Leaf.encode_lit (a : Nat) (text : Bytes) :
    (Leaf.lit text).encode a =
      [OpCode.lit.code] ++ (emitU32 (a + 9) ++ (emitU32 text.length ++ text)) := by
  simp [Leaf.encode]

/-- An instruction with an inline payload. -/
private theorem fetch_payload {bc text : Bytes} {a : Nat} {o : OpCode} {mk : Nat → Nat → Prim}
    (h : [o.code] ++ (emitU32 (a + 9) ++ (emitU32 text.length ++ text)) <+: bc.drop a)
    (hlt : a + (9 + text.length) < 2 ^ 32)
    (hop : ∀ ip, operands bc o.code ip =
      (let (off, ip) := readU32 bc ip
       let (len, ip) := readU32 bc ip
       (.prim (mk off len), if off = ip then ip + len else ip))) :
    fetch bc a = some (.prim (mk (a + 9) text.length), a + (9 + text.length)) := by
  obtain ⟨hfetch, hops⟩ := fetch_of_initial h
  have hoff := readU32_of_initial (v := a + 9) (prefix_left hops) (by omega)
  have hlen := readU32_of_initial (v := text.length)
    (prefix_left (prefix_right hops (n := a + 5) (by simp))) (by omega)
  simp only [hfetch, hop, hoff, show a + 1 + 4 = a + 5 by omega, hlen,
    show a + 5 + 4 = a + 9 by omega, if_true, Nat.add_assoc]

/-- A table operation. -/
theorem fetch_table {bc name : Bytes} {a id key reg : Nat} {o : OpCode}
    {mk : Nat → Nat → Nat → Prim}
    (h : [o.code] ++ (emitU16 id ++ (emitU8 key ++ (emitU8 reg ++
      (emitU8 name.length ++ name)))) <+: bc.drop a)
    (hid : id < 2 ^ 16) (hfits : key < 2 ^ 8 ∧ reg < 2 ^ 8 ∧ name.length < 2 ^ 8)
    (hop : ∀ ip, operands bc o.code ip =
      (let (table, ip) := readU16 bc ip
       let (key, ip) := readU8 bc ip
       let (reg, ip) := readU8 bc ip
       let (nameLen, ip) := readU8 bc ip
       (.prim (mk table key reg), ip + nameLen))) :
    fetch bc a = some (.prim (mk id key reg), a + (6 + name.length)) := by
  obtain ⟨hfetch, hops⟩ := fetch_of_initial h
  have htable := readU16_of_initial (prefix_left hops) hid
  have hops := prefix_right hops (n := a + 3) (by simp)
  have hkey := readU8_of_initial (prefix_left hops) hfits.1
  have hops := prefix_right hops (n := a + 4) (by simp)
  have hreg := readU8_of_initial (prefix_left hops) hfits.2.1
  have hops := prefix_right hops (n := a + 5) (by simp)
  have hname := readU8_of_initial (prefix_left hops) hfits.2.2
  simp only [hfetch, hop, htable, show a + 1 + 2 = a + 3 by omega, hkey,
    show a + 3 + 1 = a + 4 by omega, hreg, show a + 4 + 1 = a + 5 by omega, hname,
    show a + 5 + 1 = a + 6 by omega, Nat.add_assoc]

/-- The VM fetches a leaf where its bytes stand. -/
theorem Leaf.fetch_eq {bc : Bytes} {l : Leaf Nat} {a : Nat} (h : l.encode a <+: bc.drop a)
    (hfits : l.Fits) (hshort : a + l.size < 2 ^ 32) :
    fetch bc a = some (l.instr a, a + l.size) := by
  cases l with
  | lit text =>
    exact fetch_payload (by simpa [encode] using h) hshort fun ip => rfl
  | emitLiteral text =>
    exact fetch_payload (by simpa [encode] using h) hshort fun ip => rfl
  | tableGet key reg name =>
    exact fetch_table (by simpa [encode] using h) (by decide) hfits fun ip => rfl
  | tableSet key reg name =>
    exact fetch_table (by simpa [encode] using h) (by decide) hfits fun ip => rfl
  | set op id =>
    obtain ⟨hfetch, hops⟩ := fetch_of_initial h
    rw [hfetch]
    cases op <;>
      simp [SetOp.opcode, operands, OpCode.ofByte_code, readU16_of_initial hops hfits, instr, size]
  | count op n =>
    obtain ⟨hfetch, hops⟩ := fetch_of_initial h
    rw [hfetch]
    cases op <;>
      simp [CountOp.opcode, operands, OpCode.ofByte_code, readU32_of_initial hops hfits, instr, size]
  | capStart reg =>
    obtain ⟨hfetch, hops⟩ := fetch_of_initial h
    simp [hfetch, operands, readU8_of_initial hops hfits, instr, size]
  | capEnd reg =>
    obtain ⟨hfetch, hops⟩ := fetch_of_initial h
    simp [hfetch, operands, readU8_of_initial hops hfits, instr, size]
  | emitCapture reg =>
    obtain ⟨hfetch, hops⟩ := fetch_of_initial h
    simp [hfetch, operands, readU8_of_initial hops hfits, instr, size]
  | anchor type =>
    obtain ⟨hfetch, hops⟩ := fetch_of_initial h
    simp [hfetch, operands, readU8_of_initial hops hfits, instr, size]
  | label id =>
    obtain ⟨hfetch, hops⟩ := fetch_of_initial h
    simp [hfetch, operands, readU16_of_initial hops hfits, instr, size]
  | goto id =>
    obtain ⟨hfetch, hops⟩ := fetch_of_initial h
    simp [hfetch, operands, readU16_of_initial hops hfits, instr, size]
  | breakx id =>
    obtain ⟨hfetch, hops⟩ := fetch_of_initial h
    simp [hfetch, operands, readU16_of_initial hops hfits, instr, size]
  | assign var reg =>
    obtain ⟨hfetch, hops⟩ := fetch_of_initial (by simpa only [encode, List.append_assoc] using h)
    have hvar := readU16_of_initial (prefix_left hops) hfits.1
    have hreg := readU8_of_initial (prefix_right hops (n := a + 1 + 2) rfl) hfits.2
    simp [hfetch, operands, hvar, hreg, instr, size]
  | eval fn reg =>
    obtain ⟨hfetch, hops⟩ := fetch_of_initial (by simpa only [encode, List.append_assoc] using h)
    have hfn := readU16_of_initial (prefix_left hops) hfits.1
    have hreg := readU8_of_initial (prefix_right hops (n := a + 1 + 2) rfl) hfits.2
    simp [hfetch, operands, hfn, hreg, instr, size]
  | bal openCp closeCp =>
    obtain ⟨hfetch, hops⟩ := fetch_of_initial (by simpa only [encode, List.append_assoc] using h)
    have hopen := readU32_of_initial (prefix_left hops) hfits.1
    have hclose := readU32_of_initial (prefix_right hops (n := a + 1 + 4) rfl) hfits.2
    simp [hfetch, operands, hopen, hclose, instr, size]
  | nop | rem | accept | fail | fence | abort | succeed =>
    obtain ⟨hfetch, -⟩ := @fetch_of_initial _ [] _ _ (by simpa [encode] using h)
    simp [hfetch, operands, instr, size]

/-- The payload of a literal stands behind its operands. -/
theorem Leaf.payload_eq {bc text : Bytes} {a : Nat} {o : OpCode}
    (h : [o.code] ++ emitU32 (a + 9) ++ emitU32 text.length ++ text <+: bc.drop a) :
    (bc.drop (a + 9)).take text.length = text := by
  obtain ⟨rest, h⟩ := prefix_right h (n := a + 9) (by simp)
  rw [← h, List.take_left]

/-- The instructions around the arms of an alternative. -/
theorem fetch_alt_parts {bc xs ys : Bytes} {a n m : Nat}
    (h : [OpCode.split.code] ++ emitU32 (a + 9) ++ emitU32 (a + 14 + n) ++ xs ++
      ([OpCode.jmp.code] ++ emitU32 (a + 14 + n + m)) ++ ys <+: bc.drop a)
    (hlen : xs.length = n) (hshort : a + (14 + n + m) < 2 ^ 32) :
    fetch bc a = some (.split (a + 9) (a + 14 + n), a + 9) ∧ xs <+: bc.drop (a + 9) ∧
      fetch bc (a + 9 + n) = some (.jmp (a + 14 + n + m), a + 14 + n) ∧
      ys <+: bc.drop (a + 14 + n) := by
  simp only [List.append_assoc] at h
  obtain ⟨hsplit, hops⟩ := fetch_of_initial h
  have hleft := readU32_of_initial (prefix_left hops) (by omega)
  have hops := prefix_right hops (n := a + 5) (by simp)
  have hright := readU32_of_initial (prefix_left hops) (by omega)
  have hp := prefix_right hops (n := a + 9) (by simp)
  have hjmp := prefix_right hp (n := a + 9 + n) (by rw [hlen])
  obtain ⟨hfetch, htarget⟩ := fetch_of_initial hjmp
  have hend := readU32_of_initial (prefix_left htarget) (by omega)
  have hq := prefix_right htarget (n := a + 14 + n) (by simp; omega)
  refine ⟨?_, prefix_left hp, ?_, hq⟩
  · simp only [hsplit, operands, OpCode.ofByte_code, hleft, show a + 1 + 4 = a + 5 by omega, hright]
  · simp only [hfetch, operands, OpCode.ofByte_code, hend, Option.some.injEq, Prod.mk.injEq,
      true_and]
    omega

/-- The instructions around the body of a loop. -/
theorem fetch_loop_parts {bc xs : Bytes} {k : LoopSpec} {a n : Nat}
    (h : [OpCode.repeatInit.code] ++ emitU8 k.id ++ emitU32 k.min ++ emitU32 k.max ++
      emitU32 (a + 20 + n) ++ xs ++ ([OpCode.repeatStep.code] ++ emitU8 k.id ++
        emitU32 (a + 14)) <+: bc.drop a)
    (hlen : xs.length = n) (hshort : a + (20 + n) < 2 ^ 32)
    (hfits : k.id < 2 ^ 8 ∧ k.min < 2 ^ 32 ∧ k.max < 2 ^ 32) :
    fetch bc a = some (.repeatInit k.id k.min k.max (a + 20 + n), a + 14) ∧
      xs <+: bc.drop (a + 14) ∧
      fetch bc (a + 14 + n) = some (.repeatStep k.id (a + 14), a + 20 + n) := by
  obtain ⟨hid, hmin, hmax⟩ := hfits
  simp only [List.append_assoc] at h
  obtain ⟨hinit, hops⟩ := fetch_of_initial h
  have hidR := readU8_of_initial (prefix_left hops) hid
  have hops := prefix_right hops (n := a + 2) (by simp)
  have hminR := readU32_of_initial (prefix_left hops) hmin
  have hops := prefix_right hops (n := a + 6) (by simp)
  have hmaxR := readU32_of_initial (prefix_left hops) hmax
  have hops := prefix_right hops (n := a + 10) (by simp)
  have hskip := readU32_of_initial (prefix_left hops) (by omega)
  have hbody := prefix_right hops (n := a + 14) (by simp)
  have hstep := prefix_right hbody (n := a + 14 + n) (by rw [hlen])
  obtain ⟨hfetch, htarget⟩ := fetch_of_initial hstep
  have hidS := readU8_of_initial (prefix_left htarget) hid
  have hback := readU32_of_initial (prefix_right htarget rfl) (v := a + 14) (by omega)
  simp only [length_emitU8] at hback
  refine ⟨?_, prefix_left hbody, ?_⟩
  · simp only [hinit, operands, OpCode.ofByte_code, hidR, show a + 1 + 1 = a + 2 by omega, hminR,
      show a + 2 + 4 = a + 6 by omega, hmaxR, show a + 6 + 4 = a + 10 by omega, hskip]
  · simp only [hfetch, operands, OpCode.ofByte_code, hidS, hback, Option.some.injEq, Prod.mk.injEq,
      true_and]
    omega

namespace Blk.Code

variable {bc : Bytes} {p q : Blk} {a : Nat}

theorem leaf {l : Leaf Nat} (h : Code bc (.leaf l) a) :
    fetch bc a = some (l.instr a, a + l.size) :=
  Leaf.fetch_eq h.bytes h.fits h.short

theorem seq (h : Code bc (.seq p q) a) : Code bc p a ∧ Code bc q (a + size p) := by
  obtain ⟨hbytes, hshort, hfits⟩ := h
  simp only [size] at hshort
  exact ⟨⟨prefix_left hbytes, by omega, hfits.1⟩,
    ⟨prefix_right hbytes (by simp), by omega, hfits.2⟩⟩

/-- The instructions of an alternative and its arms. -/
theorem alt (h : Code bc (.alt p q) a) :
    fetch bc a = some (.split (a + 9) (a + 14 + size p), a + 9) ∧
      Code bc p (a + 9) ∧
      fetch bc (a + 9 + size p) = some (.jmp (a + 14 + size p + size q), a + 14 + size p) ∧
      Code bc q (a + 14 + size p) := by
  obtain ⟨hsplit, hp, hjmp, hq⟩ := fetch_alt_parts h.bytes (length_encode p _) h.short
  have hshort := h.short
  simp only [size] at hshort
  exact ⟨hsplit, ⟨hp, by omega, h.fits.1⟩, hjmp, ⟨hq, by omega, h.fits.2⟩⟩

/-- The instructions of a loop and its body. -/
theorem loop {k : LoopSpec} {body : Blk} (h : Code bc (.loop k body) a) :
    fetch bc a = some (.repeatInit k.id k.min k.max (a + 20 + size body), a + 14) ∧
      Code bc body (a + 14) ∧
      fetch bc (a + 14 + size body) = some (.repeatStep k.id (a + 14), a + 20 + size body) := by
  obtain ⟨hinit, hbody, hstep⟩ :=
    fetch_loop_parts h.bytes (length_encode body _) h.short h.fits.1
  have hshort := h.short
  simp only [size] at hshort
  exact ⟨hinit, ⟨hbody, by omega, h.fits.2⟩, hstep⟩

end Blk.Code

end Snobol4
