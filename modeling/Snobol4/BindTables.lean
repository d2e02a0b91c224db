import Snobol4.VmRows

/-!
# BindTables — binding the tables of a pattern (`api.c`)

`snobol_pattern_bind_bytecode_tables` walks the body with its own table of instruction
lengths and writes an id into every table instruction.
-/

namespace Snobol4

/-! ## The walk -/

/-- `pattern_next_instruction`, `none` for `SIZE_MAX`. -/
def patternNextInstruction (bc : Bytes) (ip : Nat) : Option Nat :=
  let n := bc.length
  let next := ip + 1
  let within (stop : Nat) : Option Nat := if stop ≤ n then some stop else none
  match bc[ip]?.bind OpCode.ofByte with
  | some .accept | some .fail | some .succeed | some .abort | some .rem | some .fence
  | some .dynamic | some .nop => some next
  | some .capStart | some .capEnd | some .anchor | some .emitCapture => some (next + 1)
  | some .any | some .notany | some .span | some .break | some .breakx | some .label
  | some .goto | some .gotoF | some .emitExpr => some (next + 2)
  | some .assign | some .eval => some (next + 3)
  | some .len | some .jmp | some .pos | some .tab | some .rpos | some .rtab => some (next + 4)
  | some .repeatStep => some (next + 5)
  | some .split | some .bal => some (next + 8)
  | some .repeatInit => some (next + 13)
  | some .emitFormat =>
      if n < next + 2 then none
      else if (readU8 bc (next + 1)).1 = 4 ∨ (readU8 bc (next + 1)).1 = 5 then some (next + 5)
      else some (next + 2)
  | some .lit | some .emitLiteral =>
      if n < next + 8 then none
      else if (readU32 bc next).1 = next + 8 then
        if n - (next + 8) < (readU32 bc (next + 4)).1 then none
        else some (next + 8 + (readU32 bc (next + 4)).1)
      else some (next + 8)
  | some .arrayGet | some .arraySet =>
      if n < next + 5 then none else within (next + 5 + (readU8 bc (next + 4)).1)
  | some .emitTable =>
      if n < next + 4 then none
      else
        let stop := next + 4 + (readU8 bc (next + 3)).1
        if n < stop then none
        else if (readU8 bc (next + 2)).1 = 0 then
          if n < stop + 2 then none else within (stop + 2 + (readU16 bc stop).1)
        else if (readU8 bc (next + 2)).1 = 1 then within (stop + 1)
        else within stop
  | some .dynamicDef =>
      if n < next + 4 then none
      else
        let stop := next + 4 + (readU32 bc next).1
        if n < stop + 4 then none else within (stop + 4 + (readU32 bc stop).1)
  | _ => none

/-- The id of a table name: its first place in the list, or the unbound marker.  A name may
be a null pointer. -/
def bindingId (names : List (Option Bytes)) (name : Bytes) : Nat :=
  (names.findIdx? (· == some name)).getD Leaf.unboundTable

/-- Write a table id behind the opcode at `ip`. -/
def writeTableId (bc : Bytes) (ip id : Nat) : Bytes :=
  (bc.set (ip + 1) (UInt8.ofNat (id / 2 ^ 8))).set (ip + 2) (UInt8.ofNat id)

/-- The loop of `snobol_pattern_bind_bytecode_tables` from `ip` on: the bytecode afterwards
and whether the walk came to its end.  Every turn goes forward, so the limit bounds the
fuel. -/
def bindLoop (names : List (Option Bytes)) (limit : Nat) (bounded : Bool) :
    Nat → Nat → Bytes → Bytes × Bool
  | 0, _, bc => (bc, false)
  | fuel + 1, ip, bc =>
      if ip < limit then
        let op := bc[ip]?.bind OpCode.ofByte
        if bounded = false ∧ (op = some .accept ∨ op = some .succeed ∨ op = some .abort) then
          (bc, true)
        else if op = some .tableGet ∨ op = some .tableSet then
          let nameLen := (readU8 bc (ip + 5)).1
          if bc.length < ip + 6 then (bc, false)
          else if bc.length < ip + 6 + nameLen then (bc, false)
          else
            bindLoop names limit bounded fuel (ip + 6 + nameLen)
              (writeTableId bc ip (bindingId names ((bc.drop (ip + 6)).take nameLen)))
        else
          match patternNextInstruction bc ip with
          | none => (bc, false)
          | some next =>
              if limit < next then (bc, false) else bindLoop names limit bounded fuel next bc
      else (bc, true)

/-- `snobol_pattern_bind_bytecode_tables`: the bytecode afterwards and whether the result
is 0. -/
def snobolPatternBindBytecodeTables (bc : Bytes) (names : List (Option Bytes)) : Bytes × Bool :=
  if bc = [] then (bc, false)
  else if Leaf.unboundTable ≤ names.length then (bc, false)
  else
    let bodyLen := snobolBcBodyLen bc
    bindLoop names (if 0 < bodyLen then bodyLen else bc.length) (decide (0 < bodyLen))
      (bc.length + 1) 0 bc

/-! ## Code with bound tables -/

namespace Leaf

/-- The bytes of an instruction whose table has the id `id name`. -/
def bound (id : Bytes → Nat) (a : Nat) : Leaf Nat → Bytes
  | tableGet key reg name =>
      [OpCode.tableGet.code] ++ (emitU16 (id name) ++ (emitU8 key ++ (emitU8 reg ++
        (emitU8 name.length ++ name))))
  | tableSet key reg name =>
      [OpCode.tableSet.code] ++ (emitU16 (id name) ++ (emitU8 key ++ (emitU8 reg ++
        (emitU8 name.length ++ name))))
  | l => l.encode a

/-- The compiler leaves every table unbound. -/
theorem bound_unbound (l : Leaf Nat) (a : Nat) :
    l.bound (fun _ => unboundTable) a = l.encode a := by
  cases l with
  | tableGet | tableSet => simp [bound, encode]
  | _ => rfl

theorem length_bound (id : Bytes → Nat) (l : Leaf Nat) (a : Nat) :
    (l.bound id a).length = l.size := by
  rw [← l.length_encode a]
  cases l with
  | tableGet | tableSet => simp [bound, encode]
  | _ => rfl

end Leaf

namespace Blk

/-- The bytes of structured code whose tables have the ids `id`. -/
def bound (id : Bytes → Nat) : Blk → Nat → Bytes
  | .skip, _ => []
  | .leaf l, a => l.bound id a
  | .seq p q, a => bound id p a ++ bound id q (a + size p)
  | .alt p q, a =>
      [OpCode.split.code] ++ emitU32 (a + 9) ++ emitU32 (a + 14 + size p) ++
        bound id p (a + 9) ++
        ([OpCode.jmp.code] ++ emitU32 (a + 14 + size p + size q)) ++
        bound id q (a + 14 + size p)
  | .loop k body, a =>
      [OpCode.repeatInit.code] ++ emitU8 k.id ++ emitU32 k.min ++ emitU32 k.max ++
        emitU32 (a + 20 + size body) ++
        bound id body (a + 14) ++
        ([OpCode.repeatStep.code] ++ emitU8 k.id ++ emitU32 (a + 14))

theorem bound_unbound (b : Blk) (a : Nat) :
    bound (fun _ => Leaf.unboundTable) b a = encode b a := by
  induction b generalizing a with
  | skip => rfl
  | leaf l => exact l.bound_unbound a
  | seq p q ihp ihq => rw [bound, encode, ihp, ihq]
  | alt p q ihp ihq => rw [bound, encode, ihp, ihq]
  | loop k body ih => rw [bound, encode, ih]

theorem length_bound (id : Bytes → Nat) (b : Blk) (a : Nat) : (bound id b a).length = size b := by
  induction b generalizing a with
  | skip => rfl
  | leaf l => exact l.length_bound id a
  | seq p q ihp ihq => rw [bound, List.length_append, ihp, ihq, size]
  | alt p q ihp ihq =>
    simp only [bound, size, List.length_append, List.length_cons, List.length_nil,
      length_emitU32, ihp, ihq]
    omega
  | loop k body ih =>
    simp only [bound, size, List.length_append, List.length_cons, List.length_nil,
      length_emitU32, length_emitU8, ih]
    omega

end Blk

/-! ## The walk over structured code -/

/-- With enough fuel the bounded walk from `ip` on ends with the bytecode `out`. -/
def Binds (names : List (Option Bytes)) (limit ip : Nat) (bc out : Bytes) : Prop :=
  ∀ fuel, limit < fuel + ip → bindLoop names limit true fuel ip bc = (out, true)

section

variable {names : List (Option Bytes)} {limit ip target : Nat} {bc out : Bytes}

theorem Binds.stop (names : List (Option Bytes)) (limit : Nat) (bc : Bytes) :
    Binds names limit limit bc bc := by
  intro fuel hfuel
  cases fuel with
  | zero => omega
  | succ fuel => rw [bindLoop, if_neg (Nat.lt_irrefl limit)]

/-- A turn over an instruction without a table. -/
theorem Binds.next {o : OpCode} (hop : bc[ip]? = some o.code)
    (hplain : o ≠ .tableGet ∧ o ≠ .tableSet) (hnext : patternNextInstruction bc ip = some target)
    (hlt : ip < target) (hle : target ≤ limit) (h : Binds names limit target bc out) :
    Binds names limit ip bc out := by
  intro fuel hfuel
  cases fuel with
  | zero => omega
  | succ fuel =>
    have htable : ¬(some o = some OpCode.tableGet ∨ some o = some OpCode.tableSet) := by
      simpa using hplain
    rw [bindLoop, if_pos (by omega)]
    simp only [hop, Option.bind_some, OpCode.ofByte_code, reduceCtorEq, false_and, if_false,
      if_neg htable, hnext, if_neg (Nat.not_lt_of_le hle)]
    exact h fuel (by omega)

/-- A turn over a table instruction. -/
theorem Binds.table {o : OpCode} {nameLen : Nat} (hop : bc[ip]? = some o.code)
    (htable : o = .tableGet ∨ o = .tableSet) (hlen : (readU8 bc (ip + 5)).1 = nameLen)
    (hend : ip + 6 + nameLen ≤ bc.length) (hle : ip + 6 + nameLen ≤ limit)
    (h : Binds names limit (ip + 6 + nameLen)
      (writeTableId bc ip (bindingId names ((bc.drop (ip + 6)).take nameLen))) out) :
    Binds names limit ip bc out := by
  intro fuel hfuel
  cases fuel with
  | zero => omega
  | succ fuel =>
    have htable' : some o = some OpCode.tableGet ∨ some o = some OpCode.tableSet := by
      simpa using htable
    rw [bindLoop, if_pos (by omega)]
    simp only [hop, Option.bind_some, OpCode.ofByte_code, reduceCtorEq, false_and, if_false,
      if_pos htable', hlen, if_neg (Nat.not_lt_of_le hend),
      if_neg (show ¬bc.length < ip + 6 by omega)]
    exact h fuel (by omega)

/-- All that stands at an address. -/
theorem prefix_of_drop {x : Bytes} (h : bc.drop ip = x) : x <+: bc.drop ip :=
  ⟨[], by rw [List.append_nil, h]⟩

/-- The opcode in front of its operands. -/
theorem opcode_of_initial {x : Bytes} {o : OpCode} (h : [o.code] ++ x <+: bc.drop ip) :
    bc[ip]? = some o.code := by
  obtain ⟨rest, h⟩ := h
  rw [← List.head?_drop, ← h]
  rfl

/-- The length of an instruction with an inline payload. -/
theorem patternNextInstruction_payload {text : Bytes} {o : OpCode}
    (ho : o = .lit ∨ o = .emitLiteral)
    (h : [o.code] ++ (emitU32 (ip + 9) ++ (emitU32 text.length ++ text)) <+: bc.drop ip)
    (hshort : ip + (9 + text.length) < 2 ^ 32) (hend : ip + (9 + text.length) ≤ bc.length) :
    patternNextInstruction bc ip = some (ip + (9 + text.length)) := by
  have hops := prefix_right h (n := ip + 1) rfl
  have hoff := readU32_of_initial (prefix_left hops) (show ip + 9 < 2 ^ 32 by omega)
  have hlen := readU32_of_initial
    (prefix_left (prefix_right hops (n := ip + 5) (by simp))) (show text.length < 2 ^ 32 by omega)
  have hroom : ¬bc.length - (ip + 9) < text.length := by omega
  rcases ho with rfl | rfl
  · simp only [patternNextInstruction, opcode_of_initial h, Option.bind_some, OpCode.ofByte_code,
      hoff, show ip + 1 + 4 = ip + 5 by omega, hlen, show ip + 1 + 8 = ip + 9 by omega, if_true,
      if_neg hroom, if_neg (show ¬bc.length < ip + 9 by omega), Nat.add_assoc]
  · simp only [patternNextInstruction, opcode_of_initial h, Option.bind_some, OpCode.ofByte_code,
      hoff, show ip + 1 + 4 = ip + 5 by omega, hlen, show ip + 1 + 8 = ip + 9 by omega, if_true,
      if_neg hroom, if_neg (show ¬bc.length < ip + 9 by omega), Nat.add_assoc]

/-- The length of a leaf without a table. -/
theorem Leaf.binds_plain {l : Leaf Nat} (hl : ∀ key reg name, l ≠ .tableGet key reg name ∧
      l ≠ .tableSet key reg name)
    (hcode : l.encode ip <+: bc.drop ip) (hshort : ip + l.size < 2 ^ 32)
    (hend : ip + l.size ≤ bc.length) (hle : ip + l.size ≤ limit)
    (h : Binds names limit (ip + l.size) bc out) : Binds names limit ip bc out := by
  have hpos := l.size_pos
  cases l with
  | tableGet key reg name => exact absurd rfl (hl key reg name).1
  | tableSet key reg name => exact absurd rfl (hl key reg name).2
  | lit text =>
    have hcode : [OpCode.lit.code] ++ (emitU32 (ip + 9) ++ (emitU32 text.length ++ text)) <+:
        bc.drop ip := by simpa [encode] using hcode
    exact h.next (opcode_of_initial hcode) (by simp)
      (patternNextInstruction_payload (.inl rfl) hcode hshort hend) (by omega) hle
  | emitLiteral text =>
    have hcode : [OpCode.emitLiteral.code] ++ (emitU32 (ip + 9) ++
        (emitU32 text.length ++ text)) <+: bc.drop ip := by simpa [encode] using hcode
    exact h.next (opcode_of_initial hcode) (by simp)
      (patternNextInstruction_payload (.inr rfl) hcode hshort hend) (by omega) hle
  | set op id =>
    have hop := opcode_of_initial hcode
    refine h.next hop ?_ ?_ (by omega) hle
    · cases op <;> simp [SetOp.opcode]
    · cases op <;> simp [patternNextInstruction, hop, SetOp.opcode, size]
  | count op n =>
    have hop := opcode_of_initial hcode
    refine h.next hop ?_ ?_ (by omega) hle
    · cases op <;> simp [CountOp.opcode]
    · cases op <;> simp [patternNextInstruction, hop, CountOp.opcode, size]
  | nop | capStart | capEnd | assign | eval | anchor | emitCapture | label | bal | rem | accept
  | fail | goto | breakx | fence | abort | succeed =>
    simp only [encode, List.append_assoc] at hcode
    have hop := opcode_of_initial (x := _) (by simpa using hcode)
    refine h.next hop (by simp) ?_ (by omega) hle
    simp [patternNextInstruction, hop, size]

theorem writeTableId_eq (pre rest : Bytes) (op : UInt8) (v id : Nat) :
    writeTableId (pre ++ ([op] ++ (emitU16 v ++ rest))) pre.length id =
      pre ++ ([op] ++ (emitU16 id ++ rest)) := by
  simp [writeTableId, emitU16]

theorem drop_pre (pre xs : Bytes) (hpre : pre.length = ip) : (pre ++ xs).drop ip = xs := by
  rw [← hpre, List.drop_left]

/-- The walk over a table instruction writes the id of its name, whatever stood there. -/
theorem binds_table {id key reg : Nat} {o : OpCode} {name pre post : Bytes}
    (ho : o = .tableGet ∨ o = .tableSet) (hpre : pre.length = ip) (hname : name.length < 2 ^ 8)
    (hle : ip + (6 + name.length) ≤ limit)
    (h : Binds names limit (ip + (6 + name.length)) (pre ++ ([o.code] ++
      (emitU16 (bindingId names name) ++ (emitU8 key ++ (emitU8 reg ++ (emitU8 name.length ++
        (name ++ post))))))) out) :
    Binds names limit ip (pre ++ ([o.code] ++ (emitU16 id ++ (emitU8 key ++ (emitU8 reg ++
      (emitU8 name.length ++ (name ++ post))))))) out := by
  have hdrop := drop_pre pre ([o.code] ++ (emitU16 id ++ (emitU8 key ++ (emitU8 reg ++
    (emitU8 name.length ++ (name ++ post)))))) hpre
  have hop := prefix_of_drop hdrop
  have hkey := prefix_right (prefix_right hop (n := ip + 1) rfl) (n := ip + 3) rfl
  have hlen := prefix_right (prefix_right hkey (n := ip + 4) rfl) (n := ip + 5) rfl
  have hnameLen := readU8_of_initial (prefix_left hlen) hname
  have htext : ((pre ++ ([o.code] ++ (emitU16 id ++ (emitU8 key ++ (emitU8 reg ++
      (emitU8 name.length ++ (name ++ post))))))).drop (ip + 6)).take name.length = name := by
    rw [← List.drop_drop, hdrop]
    exact List.take_left
  refine Binds.table (opcode_of_initial hop) ho (congrArg Prod.fst hnameLen) ?_ (by omega) ?_
  · simp only [List.length_append, length_emitU8, length_emitU16, List.length_singleton]
    omega
  · rw [htext, ← hpre, writeTableId_eq, hpre, Nat.add_assoc]
    exact h

/-- The walk over a leaf binds it. -/
theorem Leaf.binds (id : Bytes → Nat) {l : Leaf Nat} (hfits : l.Fits) {pre post : Bytes}
    (hpre : pre.length = ip) (hshort : ip + l.size < 2 ^ 32) (hle : ip + l.size ≤ limit)
    (h : Binds names limit (ip + l.size) (pre ++ (l.bound (bindingId names) ip ++ post)) out) :
    Binds names limit ip (pre ++ (l.bound id ip ++ post)) out := by
  by_cases htable : ∃ key reg name, l = .tableGet key reg name ∨ l = .tableSet key reg name
  · obtain ⟨key, reg, name, rfl | rfl⟩ := htable
    · simp only [bound, List.append_assoc] at h ⊢
      exact binds_table (.inl rfl) hpre hfits.2.2 hle h
    · simp only [bound, List.append_assoc] at h ⊢
      exact binds_table (.inr rfl) hpre hfits.2.2 hle h
  · have hplain : ∀ key reg name, l ≠ .tableGet key reg name ∧ l ≠ .tableSet key reg name := by
      intro key reg name
      exact ⟨fun hl => htable ⟨key, reg, name, .inl hl⟩, fun hl => htable ⟨key, reg, name, .inr hl⟩⟩
    have hencode : ∀ id, l.bound id ip = l.encode ip := by
      intro id
      cases l with
      | tableGet key reg name => exact absurd rfl (hplain key reg name).1
      | tableSet key reg name => exact absurd rfl (hplain key reg name).2
      | _ => rfl
    rw [hencode] at h ⊢
    refine Leaf.binds_plain hplain ?_ hshort ?_ hle h
    · rw [drop_pre pre _ hpre]
      exact List.prefix_append _ _
    · rw [List.length_append, List.length_append, Leaf.length_encode]
      omega

/-- One instruction of a branch or a loop. -/
theorem binds_jump {o : OpCode} {xs pre post : Bytes} (n : Nat) (hpre : pre.length = ip)
    (hplain : o ≠ .tableGet ∧ o ≠ .tableSet) (hxs : xs.length = n)
    (hnext : ∀ bc : Bytes, bc[ip]? = some o.code →
      patternNextInstruction bc ip = some (ip + (1 + n)))
    (hle : ip + (1 + n) ≤ limit)
    (h : Binds names limit (ip + (1 + n)) (pre ++ ([o.code] ++ xs) ++ post) out) :
    Binds names limit ip (pre ++ ([o.code] ++ xs) ++ post) out := by
  have hop : (pre ++ ([o.code] ++ xs) ++ post)[ip]? = some o.code := by
    refine opcode_of_initial (x := xs ++ post) (prefix_of_drop ?_)
    rw [List.append_assoc, drop_pre pre _ hpre, List.append_assoc]
  exact h.next hop hplain (hnext _ hop) (by omega) hle

end

/-- The walk over structured code binds its tables, whatever they were bound to. -/
theorem Blk.binds {names : List (Option Bytes)} {limit : Nat} {out : Bytes} (id : Bytes → Nat)
    {b : Blk} {a : Nat} {pre post : Bytes} (hfits : b.Fits) (hpre : pre.length = a)
    (hshort : a + b.size < 2 ^ 32) (hle : a + b.size ≤ limit)
    (h : Binds names limit (a + b.size) (pre ++ b.bound (bindingId names) a ++ post) out) :
    Binds names limit a (pre ++ b.bound id a ++ post) out := by
  induction b generalizing a pre post with
  | skip => exact h
  | leaf l =>
    rw [List.append_assoc] at h ⊢
    exact Leaf.binds id hfits hpre hshort hle h
  | seq p q ihp ihq =>
    simp only [bound, size] at h hshort hle ⊢
    rw [show pre ++ (bound id p a ++ bound id q (a + size p)) ++ post =
      pre ++ bound id p a ++ (bound id q (a + size p) ++ post) by simp]
    refine ihp hfits.1 hpre (by omega) (by omega) ?_
    rw [← List.append_assoc]
    refine ihq hfits.2 ?_ (by omega) (by omega) ?_
    · rw [List.length_append, length_bound, hpre]
    · rw [Nat.add_assoc]
      simpa using h
  | alt p q ihp ihq =>
    simp only [bound, size] at h hshort hle ⊢
    -- the operands of the split and of the jump
    generalize hhead : emitU32 (a + 9) ++ emitU32 (a + 14 + size p) = head
    generalize hjump : emitU32 (a + 14 + size p + size q) = jump at h ⊢
    have hheadLen : head.length = 8 := by rw [← hhead]; rfl
    have hjumpLen : jump.length = 4 := by rw [← hjump]; rfl
    rw [List.append_assoc [OpCode.split.code], hhead] at h ⊢
    have hq : Binds names limit (a + 14 + size p) (pre ++ ([OpCode.split.code] ++ head) ++
        bound (bindingId names) p (a + 9) ++ ([OpCode.jmp.code] ++ jump) ++
        bound id q (a + 14 + size p) ++ post) out := by
      refine ihq hfits.2 ?_ (by omega) (by omega) ?_
      · simp only [List.length_append, List.length_singleton, length_bound, hpre, hheadLen,
          hjumpLen]
        omega
      · rw [show a + 14 + size p + size q = a + (14 + size p + size q) by omega]
        simpa using h
    have hjmp : Binds names limit (a + 9 + size p) (pre ++ ([OpCode.split.code] ++ head) ++
        bound (bindingId names) p (a + 9) ++ ([OpCode.jmp.code] ++ jump) ++
        (bound id q (a + 14 + size p) ++ post)) out := by
      refine binds_jump 4 ?_ (by simp) hjumpLen ?_ (by omega) ?_
      · simp only [List.length_append, List.length_singleton, length_bound, hpre, hheadLen]
      · intro bc hop
        simp [patternNextInstruction, hop]
      · rw [show a + 9 + size p + (1 + 4) = a + 14 + size p by omega, ← List.append_assoc]
        exact hq
    have hp : Binds names limit (a + 9) (pre ++ ([OpCode.split.code] ++ head) ++
        bound id p (a + 9) ++ (([OpCode.jmp.code] ++ jump) ++
        (bound id q (a + 14 + size p) ++ post))) out := by
      refine ihp hfits.1 ?_ (by omega) (by omega) ?_
      · simp only [List.length_append, List.length_singleton, hpre, hheadLen]
      · rw [← List.append_assoc]
        exact hjmp
    have hsplit : Binds names limit a (pre ++ ([OpCode.split.code] ++ head) ++
        (bound id p (a + 9) ++ (([OpCode.jmp.code] ++ jump) ++
        (bound id q (a + 14 + size p) ++ post)))) out := by
      refine binds_jump 8 hpre (by simp) hheadLen ?_ (by omega) ?_
      · intro bc hop
        simp [patternNextInstruction, hop]
      · rw [← List.append_assoc]
        exact hp
    simpa using hsplit
  | loop k body ih =>
    simp only [bound, size] at h hshort hle ⊢
    -- the operands of the two loop instructions
    obtain ⟨head, hhead⟩ : ∃ head, emitU8 k.id ++ (emitU32 k.min ++ (emitU32 k.max ++
      emitU32 (a + 20 + size body))) = head := ⟨_, rfl⟩
    obtain ⟨back, hback⟩ : ∃ back, emitU8 k.id ++ emitU32 (a + 14) = back := ⟨_, rfl⟩
    have hheadLen : head.length = 13 := by rw [← hhead]; rfl
    have hbackLen : back.length = 5 := by rw [← hback]; rfl
    have hshape : ∀ code : Bytes, [OpCode.repeatInit.code] ++ emitU8 k.id ++ emitU32 k.min ++
        emitU32 k.max ++ emitU32 (a + 20 + size body) ++ code ++
        ([OpCode.repeatStep.code] ++ emitU8 k.id ++ emitU32 (a + 14)) =
          [OpCode.repeatInit.code] ++ head ++ code ++ ([OpCode.repeatStep.code] ++ back) := by
      intro code
      simp [← hhead, ← hback]
    rw [hshape] at h ⊢
    have hstep : Binds names limit (a + 14 + size body) (pre ++
        ([OpCode.repeatInit.code] ++ head) ++ bound (bindingId names) body (a + 14) ++
        ([OpCode.repeatStep.code] ++ back) ++ post) out := by
      refine binds_jump 5 ?_ (by simp) hbackLen ?_ (by omega) ?_
      · simp only [List.length_append, List.length_singleton, length_bound, hpre, hheadLen]
      · intro bc hop
        simp [patternNextInstruction, hop]
      · rw [show a + 14 + size body + (1 + 5) = a + (20 + size body) by omega]
        simpa using h
    have hbody : Binds names limit (a + 14) (pre ++ ([OpCode.repeatInit.code] ++ head) ++
        bound id body (a + 14) ++ (([OpCode.repeatStep.code] ++ back) ++ post)) out := by
      refine ih hfits.2 ?_ (by omega) (by omega) ?_
      · simp only [List.length_append, List.length_singleton, hpre, hheadLen]
      · rw [← List.append_assoc]
        exact hstep
    have hinit : Binds names limit a (pre ++ ([OpCode.repeatInit.code] ++ head) ++
        (bound id body (a + 14) ++ (([OpCode.repeatStep.code] ++ back) ++ post))) out := by
      refine binds_jump 13 hpre (by simp) hheadLen ?_ (by omega) ?_
      · intro bc hop
        simp [patternNextInstruction, hop]
      · rw [← List.append_assoc]
        exact hbody
    simpa using hinit

/-! ## What binding writes -/

/-- A table instruction. -/
def Instr.isTable : Instr → Bool
  | .prim (.tableGet _ _ _) | .prim (.tableSet _ _ _) => true
  | _ => false

/-- The name behind a table instruction. -/
def tableName (bc : Bytes) (a : Nat) : Bytes := (bc.drop (a + 6)).take (readU8 bc (a + 5)).1

/-- The id of a table instruction. -/
def tableId (bc : Bytes) (a : Nat) : Nat := (readU16 bc (a + 1)).1

namespace Blk

variable {id id' : Bytes → Nat}

/-- Two lists of bytes made of parts of the same lengths. -/
private theorem getElem?_append_same {xs ys xs' ys' : Bytes} {i : Nat}
    (hlen : xs.length = xs'.length) (hleft : xs[i]? = xs'[i]?)
    (hright : ∀ j, i = xs.length + j → ys[j]? = ys'[j]?) :
    (xs ++ ys)[i]? = (xs' ++ ys')[i]? := by
  by_cases hi : i < xs.length
  · rw [List.getElem?_append_left hi, List.getElem?_append_left (hlen ▸ hi), hleft]
  · have hle := Nat.le_of_not_lt hi
    rw [List.getElem?_append_right hle, List.getElem?_append_right (hlen ▸ hle), ← hlen]
    exact hright _ (by omega)

/-- The instructions of two bindings differ in their ids only. -/
private theorem leaf_frame (l : Leaf Nat) (a i : Nat)
    (h : (l.instr a).isTable = true → i ≠ 1 ∧ i ≠ 2) :
    (l.bound id a)[i]? = (l.bound id' a)[i]? := by
  cases l with
  | tableGet | tableSet =>
    obtain ⟨hone, htwo⟩ := h rfl
    match i with
    | 0 => rfl
    | 1 => exact absurd rfl hone
    | 2 => exact absurd rfl htwo
    | i + 3 => rfl
  | _ => rfl

/-- The code of two bindings differs in the ids of table instructions only. -/
theorem bound_frame (b : Blk) (a i : Nat) (h : ∀ c instr, (c, instr) ∈ b.listing a →
      instr.isTable = true → a + i ≠ c + 1 ∧ a + i ≠ c + 2) :
    (b.bound id a)[i]? = (b.bound id' a)[i]? := by
  induction b generalizing a i with
  | skip => rfl
  | leaf l =>
    refine leaf_frame l a i fun htable => ?_
    have := h a (l.instr a) (List.mem_singleton_self _) htable
    omega
  | seq p q ihp ihq =>
    rw [listing_of_seq] at h
    refine getElem?_append_same (by rw [length_bound, length_bound]) ?_ ?_
    · exact ihp a i fun c instr hmem => h c instr (List.mem_append_left _ hmem)
    · intro j hj
      rw [length_bound] at hj
      refine ihq _ j fun c instr hmem htable => ?_
      have := h c instr (List.mem_append_right _ hmem) htable
      omega
  | alt p q ihp ihq =>
    rw [listing_of_alt] at h
    refine getElem?_append_same ?_ (getElem?_append_same ?_ (getElem?_append_same rfl rfl ?_)
      fun _ _ => rfl) ?_
    · simp only [List.length_append, length_bound]
    · simp only [List.length_append, length_bound]
    · intro j hj
      simp only [List.length_append, List.length_singleton, length_emitU32] at hj
      refine ihp _ j fun c instr hmem htable => ?_
      have := h c instr (List.mem_cons_of_mem _ (List.mem_append_left _ hmem)) htable
      omega
    · intro j hj
      simp only [List.length_append, List.length_singleton, length_emitU32, length_bound] at hj
      refine ihq _ j fun c instr hmem htable => ?_
      have := h c instr (List.mem_cons_of_mem _ (List.mem_append_right _
        (List.mem_cons_of_mem _ hmem))) htable
      omega
  | loop k body ih =>
    rw [listing_of_loop] at h
    refine getElem?_append_same ?_ (getElem?_append_same rfl rfl ?_) fun _ _ => rfl
    · simp only [List.length_append, length_bound]
    · intro j hj
      simp only [List.length_append, List.length_singleton, length_emitU32, length_emitU8] at hj
      refine ih _ j fun c instr hmem htable => ?_
      have := h c instr (List.mem_cons_of_mem _ (List.mem_append_left _ hmem)) htable
      omega

/-- An instruction of structured code stands at its address, in any two bindings. -/
theorem leaf_of_listing {bc bc' : Bytes} {b : Blk} {a c : Nat} {instr : Instr} (hfits : b.Fits)
    (h : b.bound id a <+: bc.drop a) (h' : b.bound id' a <+: bc'.drop a)
    (hmem : (c, instr) ∈ b.listing a) (htable : instr.isTable = true) :
    ∃ l : Leaf Nat, l.Fits ∧ instr = l.instr c ∧ l.bound id c <+: bc.drop c ∧
      l.bound id' c <+: bc'.drop c := by
  induction b generalizing a with
  | skip => cases hmem
  | leaf l =>
    obtain ⟨rfl, rfl⟩ := Prod.mk.inj (List.mem_singleton.mp hmem)
    exact ⟨l, hfits, rfl, h, h'⟩
  | seq p q ihp ihq =>
    rw [listing_of_seq] at hmem
    obtain hmem | hmem := List.mem_append.mp hmem
    · exact ihp hfits.1 (prefix_left h) (prefix_left h') hmem
    · exact ihq hfits.2 (prefix_right h (by rw [length_bound]))
        (prefix_right h' (by rw [length_bound])) hmem
  | alt p q ihp ihq =>
    rw [listing_of_alt, List.mem_cons, List.mem_append, List.mem_cons] at hmem
    obtain hmem | hmem | hmem | hmem := hmem
    · obtain ⟨-, rfl⟩ := Prod.mk.inj hmem
      cases htable
    · exact ihp hfits.1 (prefix_right (prefix_left (prefix_left h)) rfl)
        (prefix_right (prefix_left (prefix_left h')) rfl) hmem
    · obtain ⟨-, rfl⟩ := Prod.mk.inj hmem
      cases htable
    · refine ihq hfits.2 (prefix_right h ?_) (prefix_right h' ?_) hmem
      · simp only [List.length_append, List.length_singleton, length_emitU32, length_bound]
        omega
      · simp only [List.length_append, List.length_singleton, length_emitU32, length_bound]
        omega
  | loop k body ih =>
    rw [listing_of_loop, List.mem_cons, List.mem_append, List.mem_singleton] at hmem
    obtain hmem | hmem | hmem := hmem
    · obtain ⟨-, rfl⟩ := Prod.mk.inj hmem
      cases htable
    · exact ih hfits.2 (prefix_right (prefix_left h) rfl) (prefix_right (prefix_left h') rfl) hmem
    · obtain ⟨-, rfl⟩ := Prod.mk.inj hmem
      cases htable

end Blk

/-- A leaf is fetched with the id of its table. -/
theorem Leaf.fetch_bound {bc : Bytes} {id : Bytes → Nat} {l : Leaf Nat} {a : Nat}
    (h : l.bound id a <+: bc.drop a) (hid : ∀ name, id name < 2 ^ 16) (hfits : l.Fits)
    (hshort : a + l.size < 2 ^ 32) :
    ∃ instr : Instr, fetch bc a = some (instr, a + l.size) ∧ instr.unbound = l.instr a := by
  cases l with
  | tableGet key reg name =>
    exact ⟨_, fetch_table h (hid name) hfits fun ip => rfl, rfl⟩
  | tableSet key reg name =>
    exact ⟨_, fetch_table h (hid name) hfits fun ip => rfl, rfl⟩
  | set op n => exact ⟨_, Leaf.fetch_eq h hfits hshort, by cases op <;> rfl⟩
  | _ => exact ⟨_, Leaf.fetch_eq h hfits hshort, rfl⟩

/-- An instruction of structured code is fetched, in a binding, with the id of its table. -/
theorem Blk.fetch_bound {bc bc' : Bytes} {id : Bytes → Nat} {b : Blk} {a c : Nat} {instr : Instr}
    (hcode : Code bc b a) (h : b.bound id a <+: bc'.drop a) (hid : ∀ name, id name < 2 ^ 16)
    (hmem : (c, instr) ∈ b.listing a) :
    ∃ (instr' : Instr) (next : Nat), fetch bc c = some (instr, next) ∧
      fetch bc' c = some (instr', next) ∧ instr'.unbound = instr := by
  induction b generalizing a with
  | skip => cases hmem
  | leaf l =>
    obtain ⟨rfl, rfl⟩ := Prod.mk.inj (List.mem_singleton.mp hmem)
    obtain ⟨instr, hfetch, hsame⟩ := Leaf.fetch_bound h hid hcode.fits hcode.short
    exact ⟨instr, _, hcode.leaf, hfetch, hsame⟩
  | seq p q ihp ihq =>
    obtain ⟨hp, hq⟩ := hcode.seq
    obtain hmem | hmem := List.mem_append.mp hmem
    · exact ihp hp (prefix_left h) hmem
    · exact ihq hq (prefix_right h (by rw [length_bound])) hmem
  | alt p q ihp ihq =>
    obtain ⟨hsplit, hp, hjmp, hq⟩ := hcode.alt
    obtain ⟨hsplit', hp', hjmp', hq'⟩ := fetch_alt_parts h (length_bound id p _) hcode.short
    simp only [listing_of_alt, List.mem_cons, List.mem_append, Prod.mk.injEq] at hmem
    obtain ⟨rfl, rfl⟩ | hmem | ⟨rfl, rfl⟩ | hmem := hmem
    · exact ⟨_, _, hsplit, hsplit', rfl⟩
    · exact ihp hp hp' hmem
    · exact ⟨_, _, hjmp, hjmp', rfl⟩
    · exact ihq hq hq' hmem
  | loop k body ih =>
    obtain ⟨hinit, hbody, hstep⟩ := hcode.loop
    obtain ⟨hinit', hbody', hstep'⟩ :=
      fetch_loop_parts h (length_bound id body _) hcode.short hcode.fits.1
    simp only [listing_of_loop, List.mem_cons, List.mem_append, Prod.mk.injEq, List.not_mem_nil,
      or_false] at hmem
    obtain ⟨rfl, rfl⟩ | hmem | ⟨rfl, rfl⟩ := hmem
    · exact ⟨_, _, hinit, hinit', rfl⟩
    · exact ih hbody hbody' hmem
    · exact ⟨_, _, hstep, hstep', rfl⟩

/-- A table instruction read back. -/
theorem table_of_initial {bc name : Bytes} {a id key reg : Nat} {o : OpCode}
    (h : [o.code] ++ (emitU16 id ++ (emitU8 key ++ (emitU8 reg ++ (emitU8 name.length ++
      name)))) <+: bc.drop a) (hid : id < 2 ^ 16) (hname : name.length < 2 ^ 8) :
    tableId bc a = id ∧ tableName bc a = name := by
  have hops := prefix_right h (n := a + 1) rfl
  have hkey := prefix_right hops (n := a + 3) rfl
  have hlen := prefix_right (prefix_right hkey (n := a + 4) rfl) (n := a + 5) rfl
  have htext := prefix_right hlen (n := a + 6) rfl
  refine ⟨congrArg Prod.fst (readU16_of_initial (prefix_left hops) hid), ?_⟩
  rw [tableName, readU8_of_initial (prefix_left hlen) hname]
  exact (List.prefix_iff_eq_take.mp htext).symm

/-- A bound table instruction has the id of its name, and keeps its name. -/
theorem Leaf.table_bound {bc bc' : Bytes} {a : Nat} {id id' : Bytes → Nat} {l : Leaf Nat}
    (hfits : l.Fits) (htable : (l.instr a).isTable = true) (h : l.bound id a <+: bc.drop a)
    (h' : l.bound id' a <+: bc'.drop a) (hid : ∀ name, id name < 2 ^ 16)
    (hid' : ∀ name, id' name < 2 ^ 16) : tableId bc' a = id' (tableName bc a) := by
  cases l with
  | tableGet key reg name =>
    obtain ⟨-, hname⟩ := table_of_initial h (hid name) hfits.2.2
    obtain ⟨htableId, -⟩ := table_of_initial h' (hid' name) hfits.2.2
    rw [htableId, hname]
  | tableSet key reg name =>
    obtain ⟨-, hname⟩ := table_of_initial h (hid name) hfits.2.2
    obtain ⟨htableId, -⟩ := table_of_initial h' (hid' name) hfits.2.2
    rw [htableId, hname]
  | _ => cases htable

theorem bindingId_lt {names : List (Option Bytes)} (h : names.length < Leaf.unboundTable)
    (name : Bytes) : bindingId names name < 2 ^ 16 := by
  unfold bindingId
  cases hfind : names.findIdx? (· == some name) with
  | none => exact show Leaf.unboundTable < 2 ^ 16 by decide
  | some k =>
    have hk := (List.findIdx?_eq_some_iff_getElem.mp hfind).1
    exact (hk.trans h).trans (by decide)

/-! ## Compiled patterns -/

/-- 65535 names are refused. -/
theorem bind_refused {bc : Bytes} {names : List (Option Bytes)}
    (hmany : Leaf.unboundTable ≤ names.length) :
    snobolPatternBindBytecodeTables bc names = (bc, false) := by
  unfold snobolPatternBindBytecodeTables
  rw [if_pos hmany]
  split
  · rfl
  · rfl

/-- What the compiler lays out for the code `b`, with its tables bound to `id`. -/
def boundProgram (b : Blk) (classes : List CcEntry) (labels : List LabelEntry)
    (id : Bytes → Nat) : Bytes :=
  b.bound id 0 ++ ([OpCode.accept.code] ++ trailer (b.size + 1) classes labels)

section

variable {b : Blk} {classes : List CcEntry} {labels : List LabelEntry}

theorem length_boundProgram (id id' : Bytes → Nat) :
    (boundProgram b classes labels id).length = (boundProgram b classes labels id').length := by
  simp only [boundProgram, List.length_append, Blk.length_bound]

theorem snobolBcBodyLen_boundProgram (id : Bytes → Nat)
    (hshort : (boundProgram b classes labels id).length < 2 ^ 32) :
    snobolBcBodyLen (boundProgram b classes labels id) = b.size + 1 := by
  have hlen : (b.bound id 0 ++ [OpCode.accept.code]).length = b.size + 1 := by
    rw [List.length_append, Blk.length_bound]
    rfl
  have hbody := snobolBcBodyLen_trailer (b.bound id 0 ++ [OpCode.accept.code]) classes labels
    (by simp) (by rw [hlen, List.append_assoc]; exact hshort)
  rw [hlen, List.append_assoc] at hbody
  exact hbody

/-- Binding a program gives the program with the new ids, whatever it was bound to. -/
theorem bind_boundProgram (hfits : b.Fits) (id : Bytes → Nat)
    (hshort : (boundProgram b classes labels id).length < 2 ^ 32)
    {names : List (Option Bytes)} (hnames : names.length < Leaf.unboundTable) :
    snobolPatternBindBytecodeTables (boundProgram b classes labels id) names =
      (boundProgram b classes labels (bindingId names), true) := by
  have hlen : b.size + 1 ≤ (boundProgram b classes labels id).length := by
    rw [boundProgram, List.length_append, List.length_append, Blk.length_bound,
      List.length_singleton]
    omega
  have hop : (boundProgram b classes labels (bindingId names))[b.size]? =
      some OpCode.accept.code := by
    refine opcode_of_initial (x := trailer (b.size + 1) classes labels) (prefix_of_drop ?_)
    rw [boundProgram, drop_pre _ _ (Blk.length_bound _ b 0)]
  have hend : Binds names (b.size + 1) b.size (boundProgram b classes labels (bindingId names))
      (boundProgram b classes labels (bindingId names)) :=
    (Binds.stop names (b.size + 1) _).next hop (by simp) (by simp [patternNextInstruction, hop])
      (Nat.lt_succ_self _) le_rfl
  have hwalk : Binds names (b.size + 1) 0 (boundProgram b classes labels id)
      (boundProgram b classes labels (bindingId names)) := by
    have hcode : Binds names (b.size + 1) 0 ([] ++ b.bound id 0 ++ ([OpCode.accept.code] ++
        trailer (b.size + 1) classes labels))
        (boundProgram b classes labels (bindingId names)) := by
      refine Blk.binds id hfits rfl (by omega) (by omega) ?_
      rw [Nat.zero_add]
      exact hend
    exact hcode
  have hne : boundProgram b classes labels id ≠ [] := by
    intro hnil
    rw [hnil] at hlen
    cases hlen
  rw [snobolPatternBindBytecodeTables, if_neg hne, if_neg (Nat.not_le_of_lt hnames),
    snobolBcBodyLen_boundProgram id hshort]
  simp only [Nat.succ_pos, if_true, decide_true]
  exact hwalk _ (by omega)

/-- The instructions of a program with bound tables. -/
theorem rebound_boundProgram {bc : Bytes} (hruns : b.Runs bc) {id : Bytes → Nat}
    (hid : ∀ name, id name < 2 ^ 16) : Rebound bc (boundProgram b classes labels id) b := by
  intro c instr next hrow hfetch
  have hbytes : b.bound id 0 <+: (boundProgram b classes labels id).drop 0 := List.prefix_append _ _
  obtain ⟨⟨c', instr'⟩, hmem, rfl⟩ := List.mem_map.mp hrow
  obtain hmem | hmem := List.mem_append.mp hmem
  · obtain ⟨instr'', next', hfetch', hbound, rfl⟩ := Blk.fetch_bound hruns.code hbytes hid hmem
    cases hbound.symm.trans hfetch
    exact hfetch'
  · cases List.mem_singleton.mp hmem
    have haccept : fetch (boundProgram b classes labels id) b.size =
        some (.accept, b.size + 1) := by
      have hdrop : (boundProgram b classes labels id).drop b.size =
          [OpCode.accept.code] ++ trailer (b.size + 1) classes labels := by
        rw [boundProgram, drop_pre _ _ (Blk.length_bound id b 0)]
      rw [(fetch_of_drop hdrop).1]
      simp [operands]
    cases haccept.symm.trans hfetch
    exact hruns.accept

/-- What earlier bindings made of a program is the program with some ids. -/
theorem bind_earlier (hfits : b.Fits) (id : Bytes → Nat)
    (hshort : (boundProgram b classes labels id).length < 2 ^ 32)
    (earlier : List (List (Option Bytes))) :
    ∃ id', earlier.foldl (fun bc names => (snobolPatternBindBytecodeTables bc names).1)
      (boundProgram b classes labels id) = boundProgram b classes labels id' := by
  induction earlier generalizing id with
  | nil => exact ⟨id, rfl⟩
  | cons names earlier ih =>
    rw [List.foldl_cons]
    by_cases hnames : names.length < Leaf.unboundTable
    · rw [bind_boundProgram hfits id hshort hnames]
      exact ih _ (by rw [length_boundProgram _ id]; exact hshort)
    · rw [bind_refused (Nat.le_of_not_lt hnames)]
      exact ih id hshort

end

/-- Binding leaves the instructions of a compiled pattern as they are, up to the ids of tables. -/
theorem CompiledAs.rebound {cfg : CompilerConfig} {ast : AstNode} {st : CompilerState} {bc : Bytes}
    {b b' : Blk} (h : CompiledAs cfg ast st bc b b') (hshort : bc.length < 2 ^ 32)
    (names : List (Option Bytes)) :
    Rebound bc (snobolPatternBindBytecodeTables bc names).1 b' := by
  obtain ⟨classes, hbody⟩ := h.body
  have hbc : bc = boundProgram b' classes st.labels fun _ => Leaf.unboundTable := by
    rw [boundProgram, Blk.bound_unbound]
    exact hbody
  by_cases hnames : names.length < Leaf.unboundTable
  · have hbind : snobolPatternBindBytecodeTables bc names =
        (boundProgram b' classes st.labels (bindingId names), true) := by
      rw [hbc] at hshort ⊢
      exact bind_boundProgram (h.fused.fits h.fits) _ hshort hnames
    rw [hbind]
    exact rebound_boundProgram h.runs (bindingId_lt hnames)
  · rw [bind_refused (Nat.le_of_not_lt hnames)]
    exact h.runs.rebound

/-- Binding a compiled pattern that is laid out as emitted succeeds for fewer than 65535 names,
gives every table instruction the id of its name, changes no other byte, and does not depend on
what was bound before. -/
theorem snobolPatternBindBytecodeTables_compiled (cfg : CompilerConfig) (ast : AstNode)
    (st : CompilerState) (bc : Bytes) (hcompile : compileAstToBytecodeC cfg ast = some bc)
    (hwell : WellEncoded cfg ast st) (hshort : bc.length < 2 ^ 32) (names : List (Option Bytes))
    (hnames : names.length < 2 ^ 16 - 1) :
    ∃ (b : Blk) (out : Bytes), Decodes bc 0 b.program (snobolBcBodyLen bc) ∧
      snobolPatternBindBytecodeTables bc names = (out, true) ∧ out.length = bc.length ∧
      (∀ c instr, (c, instr) ∈ b.program → instr.isTable = true →
        tableId out c = bindingId names (tableName bc c)) ∧
      (∀ i, out[i]? ≠ bc[i]? →
        ∃ c instr, (c, instr) ∈ b.program ∧ instr.isTable = true ∧ (i = c + 1 ∨ i = c + 2)) ∧
      ∀ earlier : List (List (Option Bytes)), snobolPatternBindBytecodeTables
        (earlier.foldl (fun bc names => (snobolPatternBindBytecodeTables bc names).1) bc) names =
          (out, true) := by
  obtain ⟨b₀, b, hb⟩ := hwell.compiledAs hcompile
  obtain ⟨classes, hbody⟩ := hb.body
  have hfits : b.Fits := hb.fused.fits hb.fits
  have hbc : bc = boundProgram b classes st.labels fun _ => Leaf.unboundTable := by
    rw [boundProgram, Blk.bound_unbound]
    exact hbody
  have hbodyLen : snobolBcBodyLen bc = b.size + 1 := by
    rw [hbc]
    exact snobolBcBodyLen_boundProgram _ (by rw [← hbc]; exact hshort)
  have hbind : ∀ id, snobolPatternBindBytecodeTables (boundProgram b classes st.labels id) names =
      (boundProgram b classes st.labels (bindingId names), true) := by
    intro id
    refine bind_boundProgram hfits id ?_ hnames
    rw [length_boundProgram id fun _ => Leaf.unboundTable, ← hbc]
    exact hshort
  -- the only row of the program outside its code is OP_ACCEPT
  have hlisting : ∀ c instr, (c, instr) ∈ b.program → instr.isTable = true →
      (c, instr) ∈ b.listing 0 := by
    intro c instr hmem htable
    obtain hmem | hmem := List.mem_append.mp hmem
    · exact hmem
    · obtain ⟨-, rfl⟩ := Prod.mk.inj (List.mem_singleton.mp hmem)
      cases htable
  refine ⟨b, boundProgram b classes st.labels (bindingId names), ?_, ?_, ?_, ?_, ?_, ?_⟩
  · rw [hbodyLen]
    exact hb.code.decodes_program hb.fetch_accept
  · rw [hbc]
    exact hbind _
  · rw [hbc]
    exact length_boundProgram _ _
  · intro c instr hmem htable
    have hcode : b.bound (fun _ => Leaf.unboundTable) 0 <+: bc.drop 0 := by
      rw [List.drop_zero, hbc]
      exact List.prefix_append _ _
    have hcode' : b.bound (bindingId names) 0 <+:
        (boundProgram b classes st.labels (bindingId names)).drop 0 := List.prefix_append _ _
    obtain ⟨l, hl, rfl, hat, hat'⟩ :=
      Blk.leaf_of_listing hfits hcode hcode' (hlisting c instr hmem htable) htable
    exact l.table_bound hl htable hat hat' (fun _ => by decide) (bindingId_lt hnames)
  · intro i hi
    by_contra hnone
    refine hi ?_
    rw [hbc]
    refine Blk.getElem?_append_same (by rw [Blk.length_bound, Blk.length_bound]) ?_ fun _ _ => rfl
    refine b.bound_frame 0 i fun c instr hmem htable => ?_
    rw [Nat.zero_add]
    constructor
    · intro heq
      exact hnone ⟨c, instr, List.mem_append_left _ hmem, htable, .inl heq⟩
    · intro heq
      exact hnone ⟨c, instr, List.mem_append_left _ hmem, htable, .inr heq⟩
  · intro earlier
    have hearlier := bind_earlier hfits (fun _ => Leaf.unboundTable)
      (by rw [← hbc]; exact hshort) earlier
    obtain ⟨id', hid⟩ := hearlier
    rw [hbc, hid]
    exact hbind id'

theorem snobolPatternBindBytecodeTables_compiled_lookupOrAny :
    ∃ bc b out, compileAstToBytecodeC .caseSensitive lookupOrAny = some bc ∧
      Decodes bc 0 (Blk.program b) (snobolBcBodyLen bc) ∧
      snobolPatternBindBytecodeTables bc [none, some [0x74]] = (out, true) ∧
      out.length = bc.length ∧ tableId out 23 = 1 := by
  have hlength : (compileAstToBytecodeC .caseSensitive lookupOrAny).map
      (fun bc => decide (bc.length < 2 ^ 32)) = some true := by decide +kernel
  obtain ⟨bc, hcompile, hshort⟩ := Option.map_eq_some_iff.mp hlength
  obtain ⟨b, out, hdecodes, hbind, hout, -⟩ := snobolPatternBindBytecodeTables_compiled
    .caseSensitive lookupOrAny lookupOrAnyState bc hcompile wellEncoded_lookupOrAny
    (of_decide_eq_true hshort) [none, some [0x74]] (by decide)
  have hid : (compileAstToBytecodeC .caseSensitive lookupOrAny).map (fun bc =>
      tableId (snobolPatternBindBytecodeTables bc [none, some [0x74]]).1 23) = some 1 := by
    decide +kernel
  rw [hcompile, Option.map_some, hbind, Option.some_inj] at hid
  exact ⟨bc, b, out, hcompile, hdecodes, hbind, hout, hid⟩

/-- 65535 names are refused, whatever they are. -/
theorem snobolPatternBindBytecodeTables_refuses :
    ∃ bc, compileAstToBytecodeC .caseSensitive lookupOrAny = some bc ∧
      snobolPatternBindBytecodeTables bc (List.replicate (2 ^ 16 - 1) (some [0x74])) =
        (bc, false) := by
  have hsome : (compileAstToBytecodeC .caseSensitive lookupOrAny).isSome = true := by
    decide +kernel
  obtain ⟨bc, hcompile⟩ := Option.isSome_iff_exists.mp hsome
  have hmany : Leaf.unboundTable ≤
      (List.replicate (2 ^ 16 - 1) (some ([0x74] : Bytes))).length := by
    rw [List.length_replicate]
    decide
  exact ⟨bc, hcompile, bind_refused hmany⟩

end Snobol4
