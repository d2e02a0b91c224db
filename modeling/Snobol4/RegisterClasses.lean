import Snobol4.VmRows

/-!
# RegisterClasses — what a pattern can write (`search_meta.c`, `search_tiers.c`)

A linear walk over the bytecode collects the classes of the registers that its instructions
use, so that the search VM clears only those.  The walk ends at the first `OP_ACCEPT`,
`OP_SUCCEED` or `OP_ABORT`, and what stands behind is not seen.
-/

namespace Snobol4

variable {W : Type}

/-! ## The walk -/

/-- `SNBL_REG_CAPTURE`, `SNBL_REG_VARS` and `SNBL_REG_COUNTERS` -/
inductive RegClass where
  | capture
  | vars
  | counters
  deriving Repr, DecidableEq

/-- The mask with every class. -/
def allRegClasses : List RegClass := [.capture, .vars, .counters]

/-- The classes that the walk notes for an opcode. -/
def OpCode.regClasses : OpCode → List RegClass
  | .capStart | .emitCapture => [.capture]
  | .capEnd | .assign => [.capture, .vars]
  | .repeatInit | .repeatStep => [.counters]
  | _ => []

/-- The bytes of operands that the walk steps over; nothing for the opcodes it cannot
classify. -/
def OpCode.registerOperands : OpCode → Option Nat
  | .accept | .succeed | .abort | .fail | .nop | .fence | .rem | .dynamic => some 0
  | .capStart | .capEnd | .emitCapture | .anchor => some 1
  | .any | .notany | .span | .break | .breakx => some 2
  | .assign | .eval => some 3
  | .jmp | .len | .pos | .rpos | .tab | .rtab => some 4
  | .repeatStep => some 5
  | .split | .lit | .emitLiteral => some 8
  | .repeatInit => some 13
  | _ => none

/-- The opcodes at which the walk ends. -/
def OpCode.endsWalk : OpCode → Bool
  | .accept | .succeed | .abort => true
  | _ => false

/-- The text of a literal may stand behind its operands. -/
def OpCode.hasText : OpCode → Bool
  | .lit | .emitLiteral => true
  | _ => false

/-- Where the walk goes on behind the instruction at `ip`. -/
def registerNext (bc : Bytes) (op : OpCode) (ip : Nat) : Option Nat :=
  match op.registerOperands with
  | none => none
  | some size =>
      if op.hasText then
        if bc.length < ip + 9 then none
        else if (readU32 bc (ip + 1)).1 = ip + 9 then some (ip + 9 + (readU32 bc (ip + 5)).1)
        else some (ip + 9)
      else some (ip + (1 + size))

/-- The walk from `ip` on; every turn takes at least one byte. -/
def registerWalk (bc : Bytes) : Nat → Nat → List RegClass → List RegClass
  | 0, _, classes => classes
  | fuel + 1, ip, classes =>
      if ip < bc.length then
        match bc[ip]?.bind OpCode.ofByte with
        | none => allRegClasses
        | some op =>
            if op.endsWalk then classes
            else
              match registerNext bc op ip with
              | none => allRegClasses
              | some next => registerWalk bc fuel next (classes ++ op.regClasses)
      else classes

/-- `snobol_bc_register_classes` -/
def snobolBcRegisterClasses (bc : Bytes) : List RegClass :=
  if bc.length < 2 then allRegClasses else registerWalk bc bc.length 0 []

/-! ## The walk over the rows of a program -/

def Prim.opcode : Prim → OpCode
  | .nop => .nop
  | .lit _ _ => .lit
  | .set op _ => op.opcode
  | .capStart _ => .capStart
  | .capEnd _ => .capEnd
  | .assign _ _ => .assign
  | .count op _ => op.opcode
  | .eval _ _ => .eval
  | .anchor _ => .anchor
  | .emitLiteral _ _ => .emitLiteral
  | .emitCapture _ => .emitCapture
  | .label _ => .label
  | .tableGet _ _ _ => .tableGet
  | .tableSet _ _ _ => .tableSet
  | .bal _ _ => .bal
  | .rem => .rem

def Instr.opcode : Instr → Option OpCode
  | .prim p => some p.opcode
  | .accept => some .accept
  | .fail => some .fail
  | .jmp _ => some .jmp
  | .split _ _ => some .split
  | .repeatInit _ _ _ _ => some .repeatInit
  | .repeatStep _ _ => some .repeatStep
  | .goto _ => some .goto
  | .breakx _ => some .breakx
  | .fence => some .fence
  | .abort => some .abort
  | .succeed => some .succeed
  | .unknown byte => OpCode.ofByte byte

/-- The walk over one row: it goes on with more classes, or it is over. -/
def walkRow (instr : Instr) (classes : List RegClass) :
    Except (List RegClass) (List RegClass) :=
  match instr.opcode with
  | none => .error allRegClasses
  | some op =>
      if op.endsWalk then .error classes
      else if op.registerOperands.isSome then .ok (classes ++ op.regClasses)
      else .error allRegClasses

def walkRows : List (Nat × Instr) → List RegClass → Except (List RegClass) (List RegClass)
  | [], classes => .ok classes
  | (_, instr) :: rows, classes => walkRow instr classes >>= walkRows rows

theorem walkRows_append (rows rows' : List (Nat × Instr)) (classes : List RegClass) :
    walkRows (rows ++ rows') classes = walkRows rows classes >>= walkRows rows' := by
  induction rows generalizing classes with
  | nil => rfl
  | cons row rows ih =>
    rw [List.cons_append, walkRows, walkRows]
    cases walkRow row.2 classes with
    | error classes' => rfl
    | ok classes' => exact ih classes'

/-- The walk from `ip` on ends with `mask`. -/
def WalksTo (bc : Bytes) (mask : List RegClass) (ip : Nat) (classes : List RegClass) : Prop :=
  ∃ fuel, bc.length ≤ fuel + ip ∧ registerWalk bc fuel ip classes = mask

/-- The walk goes on at `ip` as the walk over the rows says, or it is over. -/
def WalksAs (bc : Bytes) (mask : List RegClass) (ip : Nat) :
    Except (List RegClass) (List RegClass) → Prop
  | .error classes => mask = classes
  | .ok classes => WalksTo bc mask ip classes

theorem WalksAs.bind {bc : Bytes} {mask : List RegClass} {ip stop : Nat}
    {result : Except (List RegClass) (List RegClass)}
    {rest : List RegClass → Except (List RegClass) (List RegClass)}
    (h : WalksAs bc mask ip result)
    (hrest : ∀ classes, WalksTo bc mask ip classes → WalksAs bc mask stop (rest classes)) :
    WalksAs bc mask stop (result >>= rest) := by
  cases result with
  | error classes => exact h
  | ok classes => exact hrest classes h

section

variable {bc xs : Bytes} {mask classes : List RegClass} {ip size : Nat} {op : OpCode}

/-- One turn of the walk. -/
theorem WalksTo.turn (h : WalksTo bc mask ip classes)
    (hget : bc[ip]?.bind OpCode.ofByte = some op) :
    (op.endsWalk = true → mask = classes) ∧
      (op.endsWalk = false → registerNext bc op ip = none → mask = allRegClasses) ∧
      ∀ next, op.endsWalk = false → registerNext bc op ip = some next →
        WalksTo bc mask next (classes ++ op.regClasses) := by
  have hlt : ip < bc.length := by
    by_contra hout
    rw [List.getElem?_eq_none (Nat.le_of_not_lt hout)] at hget
    cases hget
  obtain ⟨fuel, hfuel, hwalk⟩ := h
  cases fuel with
  | zero => omega
  | succ fuel =>
    rw [registerWalk, if_pos hlt, hget] at hwalk
    simp only at hwalk
    refine ⟨?_, ?_, ?_⟩
    · intro hend
      rw [if_pos hend] at hwalk
      exact hwalk.symm
    · intro hend hnext
      rw [hend, hnext] at hwalk
      exact hwalk.symm
    · intro next hend hnext
      rw [hend, hnext] at hwalk
      refine ⟨fuel, ?_, hwalk⟩
      have hgrows : ip + 1 ≤ next := by
        unfold registerNext at hnext
        split at hnext
        · cases hnext
        split at hnext
        · split at hnext
          · cases hnext
          split at hnext
          · cases hnext
            omega
          · cases hnext
            omega
        · cases hnext
          omega
      omega

/-- The walk over an instruction without a text. -/
theorem WalksTo.row (h : WalksTo bc mask ip classes) (hop : [op.code] ++ xs <+: bc.drop ip)
    (hsize : op.registerOperands = none ∨ op.registerOperands = some size)
    (htext : op.hasText = false) {instr : Instr} (hinstr : instr.opcode = some op) :
    WalksAs bc mask (ip + (1 + size)) (walkRow instr classes) := by
  obtain ⟨hends, hunknown, hnext⟩ := h.turn (Passes.ofByte_of_initial hop)
  rw [walkRow, hinstr]
  simp only
  cases hend : op.endsWalk with
  | true => exact hends hend
  | false =>
    obtain hsize | hsize := hsize
    · rw [hsize]
      exact hunknown hend (by rw [registerNext, hsize])
    · rw [hsize]
      refine hnext _ hend ?_
      rw [registerNext, hsize, htext]
      rfl

/-- The walk over a literal. -/
theorem WalksTo.text (h : WalksTo bc mask ip classes) {text : Bytes}
    (hop : [op.code] ++ emitU32 (ip + 9) ++ emitU32 text.length ++ text <+: bc.drop ip)
    (hshort : ip + (9 + text.length) < 2 ^ 32) (htext : op.hasText = true)
    (hsize : op.registerOperands = some 8) (hend : op.endsWalk = false) {instr : Instr}
    (hinstr : instr.opcode = some op) :
    WalksAs bc mask (ip + (9 + text.length)) (walkRow instr classes) := by
  have hinitial : [op.code] ++ (emitU32 (ip + 9) ++ (emitU32 text.length ++ text)) <+:
      bc.drop ip := by
    simpa only [List.append_assoc] using hop
  have hops : emitU32 (ip + 9) ++ (emitU32 text.length ++ text) <+: bc.drop (ip + 1) :=
    prefix_right hinitial rfl
  have hlast : emitU32 text.length ++ text <+: bc.drop (ip + 5) :=
    prefix_right hops (by simp)
  have hoff : (readU32 bc (ip + 1)).1 = ip + 9 := by
    rw [readU32_of_initial (prefix_left hops) (by omega)]
  have hlen : (readU32 bc (ip + 5)).1 = text.length := by
    rw [readU32_of_initial (prefix_left hlast) (by omega)]
  have hfits : ip + 9 ≤ bc.length := by
    have hle := hop.length_le
    simp at hle
    omega
  obtain ⟨-, -, hnext⟩ := h.turn (Passes.ofByte_of_initial hinitial)
  rw [walkRow, hinstr]
  simp only
  rw [hend, hsize]
  refine hnext _ hend ?_
  rw [registerNext, hsize]
  simp only [htext, if_true]
  rw [if_neg (by omega), if_pos hoff, hlen, Nat.add_assoc]

/-- The walk over a leaf of structured code. -/
theorem WalksTo.leaf {l : Leaf Nat} {a : Nat} (h : WalksTo bc mask a classes)
    (hcode : Blk.Code bc (.leaf l) a) :
    WalksAs bc mask (a + l.size) (walkRow (l.instr a) classes) := by
  have hbytes : l.encode a <+: bc.drop a := hcode.bytes
  cases l with
  | lit text => exact h.text hbytes hcode.short rfl rfl rfl rfl
  | emitLiteral text => exact h.text hbytes hcode.short rfl rfl rfl rfl
  | set op id =>
    cases op with
    | _ => exact h.row hbytes (.inr rfl) rfl rfl
  | count op n =>
    cases op with
    | _ => exact h.row hbytes (.inr rfl) rfl rfl
  | assign var reg | eval fn reg =>
    rw [Leaf.encode, List.append_assoc] at hbytes
    exact h.row hbytes (.inr rfl) rfl rfl
  | capStart reg | capEnd reg | breakx id | anchor type | emitCapture reg =>
    exact h.row hbytes (.inr rfl) rfl rfl
  | nop | accept | fail | fence | abort | succeed | rem =>
    rw [← List.append_nil (Leaf.encode a _)] at hbytes
    exact h.row hbytes (.inr rfl) rfl rfl
  | label id | goto id =>
    rw [Leaf.size, show 3 = 1 + 2 from rfl]
    exact h.row hbytes (.inl rfl) rfl rfl
  | bal openCp closeCp =>
    rw [Leaf.encode, List.append_assoc] at hbytes
    rw [Leaf.size, show 9 = 1 + 8 from rfl]
    exact h.row hbytes (.inl rfl) rfl rfl
  | tableGet key reg name | tableSet key reg name =>
    simp only [Leaf.encode, List.append_assoc] at hbytes
    rw [Leaf.size, show 6 + name.length = 1 + (5 + name.length) by omega]
    exact h.row hbytes (.inl rfl) rfl rfl

/-- The walk over structured code. -/
theorem WalksTo.code {b : Blk} {a : Nat} (h : WalksTo bc mask a classes)
    (hcode : Blk.Code bc b a) :
    WalksAs bc mask (a + b.size) (walkRows (b.listing a) classes) := by
  induction b generalizing a classes with
  | skip => exact h
  | leaf l =>
    rw [Blk.listing, walkRows]
    exact (h.leaf hcode).bind fun classes h => h
  | seq p q ihp ihq =>
    obtain ⟨hp, hq⟩ := hcode.seq
    rw [Blk.listing_of_seq, walkRows_append, Blk.size, ← Nat.add_assoc]
    exact (ihp h hp).bind fun classes h => ihq h hq
  | alt p q ihp ihq =>
    obtain ⟨-, hp, -, hq⟩ := hcode.alt
    obtain ⟨⟨xs, hsplit⟩, -, ⟨ys, hjmp⟩, -⟩ := Blk.encode_alt_parts hcode.bytes
    have hend : a + Blk.size (.alt p q) = a + 14 + Blk.size p + Blk.size q := by
      simp only [Blk.size]
      omega
    have hfirst : WalksAs bc mask (a + 9)
        (walkRow (.split (a + 9) (a + 14 + Blk.size p)) classes) := h.row hsplit (.inr rfl) rfl rfl
    rw [Blk.listing_of_alt, walkRows, hend]
    refine hfirst.bind fun classes h => ?_
    rw [walkRows_append]
    refine (ihp h hp).bind fun classes h => ?_
    have hjump : WalksAs bc mask (a + 9 + Blk.size p + (1 + 4))
        (walkRow (.jmp (a + 14 + Blk.size p + Blk.size q)) classes) := h.row hjmp (.inr rfl) rfl rfl
    rw [show a + 9 + Blk.size p + (1 + 4) = a + 14 + Blk.size p by omega] at hjump
    rw [walkRows]
    exact hjump.bind fun classes h => ihq h hq
  | loop k body ih =>
    obtain ⟨-, hbody, -⟩ := hcode.loop
    obtain ⟨⟨xs, hinit⟩, -, ⟨ys, hstep⟩⟩ := Blk.encode_loop_parts hcode.bytes
    have hend : a + Blk.size (.loop k body) = a + 20 + Blk.size body := by
      simp only [Blk.size]
      omega
    have hfirst : WalksAs bc mask (a + 14)
        (walkRow (.repeatInit k.id k.min k.max (a + 20 + Blk.size body)) classes) :=
      h.row hinit (.inr rfl) rfl rfl
    rw [Blk.listing_of_loop, walkRows, hend]
    refine hfirst.bind fun classes h => ?_
    rw [walkRows_append]
    refine (ih h hbody).bind fun classes h => ?_
    have hback : WalksAs bc mask (a + 14 + Blk.size body + (1 + 5))
        (walkRow (.repeatStep k.id (a + 14)) classes) := h.row hstep (.inr rfl) rfl rfl
    rw [show a + 14 + Blk.size body + (1 + 5) = a + 20 + Blk.size body by omega] at hback
    rw [walkRows]
    exact hback.bind fun classes h => h

end

theorem ofByte_of_accept {bc : Bytes} {ip next : Nat} (h : fetch bc ip = some (.accept, next)) :
    bc[ip]?.bind OpCode.ofByte = some .accept := by
  unfold fetch at h
  obtain ⟨byte, hget, h⟩ := Option.map_eq_some_iff.mp h
  rw [hget, Option.bind_some]
  cases hop : OpCode.ofByte byte with
  | none =>
    simp only [operands, hop] at h
    cases h
  | some o =>
    simp only [operands, hop] at h
    cases o <;> first | rfl | cases h

/-- The classes that the walk over a program ends with. -/
theorem Blk.Runs.registerClasses {bc : Bytes} {b : Blk} (h : b.Runs bc) (hlen : 2 ≤ bc.length) :
    walkRows b.program [] = .error (snobolBcRegisterClasses bc) := by
  have hstart : WalksTo bc (snobolBcRegisterClasses bc) 0 [] := by
    rw [snobolBcRegisterClasses, if_neg (Nat.not_lt.mpr hlen)]
    exact ⟨bc.length, le_rfl, rfl⟩
  have hcode := hstart.code h.code
  rw [Nat.zero_add] at hcode
  rw [Blk.program, walkRows_append]
  cases hrows : walkRows (listing b 0) [] with
  | error classes =>
    rw [hrows] at hcode
    have hmask : snobolBcRegisterClasses bc = classes := hcode
    rw [hmask]
    rfl
  | ok classes =>
    rw [hrows] at hcode
    have hends : snobolBcRegisterClasses bc = classes :=
      (WalksTo.turn hcode (ofByte_of_accept h.accept)).1 rfl
    rw [hends]
    rfl

/-! ## What the walk does not see -/

/-- The classes of the registers that an instruction writes. -/
def Instr.writesClasses : Instr → List RegClass
  | .prim (.capStart _) => [.capture]
  | .prim (.capEnd _) => [.capture, .vars]
  | .prim (.assign _ _) => [.vars]
  | .repeatInit _ _ _ _ => [.counters]
  | .repeatStep _ _ => [.counters]
  | _ => []

/-- The instruction writes a register or jumps by label. -/
def Instr.concerns : Instr → Bool
  | .goto _ => true
  | instr => !instr.writesClasses.isEmpty

/-- The address is that of a row that writes a register or jumps by label, behind the
`OP_SUCCEED` or `OP_ABORT` at which the walk ends. -/
def behindWalk : List (Nat × Instr) → Nat → Bool
  | [], _ => false
  | (_, instr) :: rows, a =>
      match instr.opcode with
      | none => false
      | some op =>
          if op.endsWalk then rows.any fun row => row.1 == a && row.2.concerns
          else if op.registerOperands.isSome then behindWalk rows a
          else false

theorem Instr.concerns_of_writes {instr : Instr} {cls : RegClass}
    (h : cls ∈ instr.writesClasses) : instr.concerns = true := by
  cases instr with
  | goto label => rfl
  | _ =>
    simp only [Instr.concerns]
    rw [Bool.not_eq_true', List.isEmpty_eq_false_iff]
    exact List.ne_nil_of_mem h

theorem mem_allRegClasses (cls : RegClass) : cls ∈ allRegClasses := by
  cases cls with
  | capture | vars | counters => decide

theorem writesClasses_subset {instr : Instr} {op : OpCode} (hop : instr.opcode = some op)
    {cls : RegClass} (hcls : cls ∈ instr.writesClasses) : cls ∈ op.regClasses := by
  cases instr with
  | prim p =>
    cases p with
    | capStart r | capEnd r =>
      cases hop
      exact hcls
    | assign var r =>
      cases hop
      exact List.mem_cons_of_mem _ hcls
    | _ => cases hcls
  | repeatInit | repeatStep =>
    cases hop
    exact hcls
  | _ => cases hcls

/-- Classes that have been noted stay noted. -/
theorem walkRows_mono {rows : List (Nat × Instr)} {classes mask : List RegClass}
    (h : walkRows rows classes = .error mask) : ∀ cls ∈ classes, cls ∈ mask := by
  induction rows generalizing classes with
  | nil => cases h
  | cons row rows ih =>
    intro cls hcls
    rw [walkRows] at h
    cases hrow : walkRow row.2 classes with
    | error mask' =>
      rw [hrow] at h
      cases h
      unfold walkRow at hrow
      split at hrow
      · cases hrow
        exact mem_allRegClasses cls
      split at hrow
      · cases hrow
        exact hcls
      split at hrow
      · cases hrow
      · cases hrow
        exact mem_allRegClasses cls
    | ok classes' =>
      rw [hrow] at h
      refine ih h cls ?_
      unfold walkRow at hrow
      split at hrow
      · cases hrow
      split at hrow
      · cases hrow
      split at hrow
      · cases hrow
        exact List.mem_append_left _ hcls
      · cases hrow

theorem endsWalk_regClasses {op : OpCode} (hends : op.endsWalk = true) : op.regClasses = [] := by
  cases op <;> first | rfl | cases hends

/-- The mask has the classes of every row that is not behind the walk. -/
theorem walkRows_covers {rows : List (Nat × Instr)} {classes mask : List RegClass} {a : Nat}
    {instr : Instr} {o : OpCode} (h : walkRows rows classes = .error mask)
    (hmem : (a, instr) ∈ rows) (hseen : behindWalk rows a = false) (ho : instr.opcode = some o)
    (hconcerns : instr.concerns = true) : ∀ cls ∈ o.regClasses, cls ∈ mask := by
  induction rows generalizing classes with
  | nil => cases hmem
  | cons row rows ih =>
    obtain ⟨c, first⟩ := row
    intro cls hcls
    rw [walkRows] at h
    unfold behindWalk at hseen
    cases hop : first.opcode with
    | none =>
      rw [walkRow, hop] at h
      cases h
      exact mem_allRegClasses cls
    | some op =>
      rw [walkRow, hop] at h
      rw [hop] at hseen
      simp only at h hseen
      cases hends : op.endsWalk with
      | true =>
        rw [if_pos hends] at hseen
        obtain heq | hmem := List.mem_cons.mp hmem
        · obtain ⟨-, rfl⟩ := Prod.mk.inj heq
          obtain rfl : o = op := Option.some.inj (ho.symm.trans hop)
          rw [endsWalk_regClasses hends] at hcls
          cases hcls
        · rw [List.any_eq_false] at hseen
          exact absurd (by simp [hconcerns]) (hseen _ hmem)
      | false =>
        rw [if_neg (by simp [hends])] at h hseen
        cases hknown : op.registerOperands.isSome with
        | false =>
          rw [if_neg (by simp [hknown])] at h
          cases h
          exact mem_allRegClasses cls
        | true =>
          rw [if_pos hknown] at h hseen
          obtain heq | hmem := List.mem_cons.mp hmem
          · obtain ⟨-, rfl⟩ := Prod.mk.inj heq
            obtain rfl : o = op := Option.some.inj (ho.symm.trans hop)
            exact walkRows_mono h cls (List.mem_append_right _ hcls)
          · exact ih h hmem hseen cls hcls

/-- Behind no terminator there is no jump by label, unless the walk reports every class. -/
theorem walkRows_goto {rows : List (Nat × Instr)} {classes mask : List RegClass} {a label : Nat}
    (h : walkRows rows classes = .error mask) (hmem : (a, Instr.goto label) ∈ rows)
    (hseen : behindWalk rows a = false) : mask = allRegClasses := by
  induction rows generalizing classes with
  | nil => cases hmem
  | cons row rows ih =>
    obtain ⟨c, first⟩ := row
    rw [walkRows] at h
    unfold behindWalk at hseen
    cases hop : first.opcode with
    | none =>
      rw [walkRow, hop] at h
      cases h
      rfl
    | some op =>
      rw [walkRow, hop] at h
      rw [hop] at hseen
      simp only at h hseen
      cases hends : op.endsWalk with
      | true =>
        rw [if_pos hends] at hseen
        obtain heq | hmem := List.mem_cons.mp hmem
        · obtain ⟨-, rfl⟩ := Prod.mk.inj heq
          cases hop
          cases hends
        · rw [List.any_eq_false] at hseen
          exact absurd (by simp [Instr.concerns]) (hseen _ hmem)
      | false =>
        rw [if_neg (by simp [hends])] at h hseen
        cases hknown : op.registerOperands.isSome with
        | false =>
          rw [if_neg (by simp [hknown])] at h
          cases h
          rfl
        | true =>
          rw [if_pos hknown] at h hseen
          obtain heq | hmem := List.mem_cons.mp hmem
          · obtain ⟨-, rfl⟩ := Prod.mk.inj heq
            cases hop
            cases hknown
          · exact ih h hmem hseen

/-! ## Runs -/

/-- The trailer makes every compiled code longer than one byte. -/
theorem CompiledAs.two_le {cfg : CompilerConfig} {ast : AstNode} {st : CompilerState} {bc : Bytes}
    {b b' : Blk} (h : CompiledAs cfg ast st bc b b') : 2 ≤ bc.length := by
  obtain ⟨classes, rfl⟩ := h.body
  simp only [List.length_append, List.length_singleton, trailer, length_emitU32]
  omega

/-- The classes of the registers that the instruction at the address writes are reported. -/
def WritesReported (bc : Bytes) (ip : Nat) : Prop :=
  ∀ instr next, fetch bc ip = some (instr, next) →
    ∀ cls ∈ instr.writesClasses, cls ∈ snobolBcRegisterClasses bc

section

variable {env : VmEnv W} {b : Blk} {vm vm' : SearchVm} {mask : List RegClass}

/-- What the walk reports for a row that is not behind it. -/
theorem Blk.Runs.covers {bc : Bytes} (h : b.Runs bc) (hlen : 2 ≤ bc.length) {ip next : Nat}
    {instr : Instr} {op : OpCode} (hrow : b.IsRow ip) (hseen : behindWalk b.program ip = false)
    (hfetch : fetch bc ip = some (instr, next)) (hop : instr.opcode = some op)
    (hconcerns : instr.concerns = true) : ∀ cls ∈ op.regClasses, cls ∈ snobolBcRegisterClasses bc :=
  walkRows_covers (h.registerClasses hlen) (h.fetched hrow hfetch).1 hseen hop hconcerns

theorem Blk.Runs.writesReported {bc : Bytes} (h : b.Runs bc) (hlen : 2 ≤ bc.length) {ip : Nat}
    (hrow : b.IsRow ip) (hseen : behindWalk b.program ip = false) : WritesReported bc ip := by
  intro instr next hfetch cls hcls
  have hconcerns := Instr.concerns_of_writes hcls
  obtain ⟨op, hop⟩ : ∃ op, instr.opcode = some op := by
    cases instr with
    | unknown => cases hcls
    | _ => exact ⟨_, rfl⟩
  exact h.covers hlen hrow hseen hfetch hop hconcerns cls (writesClasses_subset hop hcls)

/-- In such a run of `vm_run` the cursor is at rows. -/
theorem Blk.Runs.within_seen (h : b.Runs env.bc) (hlen : 2 ≤ env.bc.length) {start : Vm W}
    (hip : start.ip = 0) (hall : snobolBcRegisterClasses env.bc ≠ allRegClasses)
    (hseen : ∀ vm, VmReach env start vm → behindWalk b.program vm.ip = false) {vm : Vm W}
    (hvm : VmReach env start vm) : b.IsRow vm.ip := by
  -- the walk knows no jump by label, so there is none
  have hjumps : ∀ vm, VmReach env start vm → b.IsRow vm.ip → JumpsToRow env b vm := by
    intro vm hvm hrow label next target hfetch _
    obtain ⟨hmem, -⟩ := h.fetched hrow hfetch
    exact absurd (walkRows_goto (h.registerClasses hlen) hmem (hseen vm hvm)) hall
  exact (h.within hip hjumps hvm).ip

/-! ## The search VM -/

theorem SearchVm.step_unsearchable {instr : Instr} {next : Nat}
    (hfetch : fetch env.bc vm.ip = some (instr, next)) (h : instr.searchable = false) :
    vm.step env = .unknown := by
  rw [SearchVm.step, hfetch]
  cases instr with
  | prim p =>
    cases p with
    | nop | lit | set | capStart | capEnd | assign | count | anchor => cases h
    | _ => rfl
  | goto | unknown => rfl
  | _ => cases h

theorem SearchVm.Within.running (h : vm.Within b) (hruns : b.Runs env.bc)
    (hstep : vm.step env = .running vm') : vm'.Within b := by
  obtain ⟨⟨c, instr⟩, hmem, hc⟩ := List.mem_map.mp h.ip
  obtain rfl : c = vm.ip := hc
  obtain ⟨next, hfetch, hnext⟩ := hruns.row hmem
  cases hsearchable : instr.searchable with
  | false =>
    rw [SearchVm.step_unsearchable hfetch hsearchable] at hstep
    cases hstep
  | true =>
    have hwithin := h.turn hmem hfetch hnext hsearchable
    rw [hstep] at hwithin
    cases hwithin with
    | running h => exact h

theorem SearchVm.Within.steps (h : vm.Within b) (hruns : b.Runs env.bc) {n : Nat}
    (hsteps : vm.steps env n = .running vm') : vm'.Within b := by
  induction n generalizing vm with
  | zero =>
    cases hsteps
    exact h
  | succ n ih =>
    obtain ⟨vm₁, hstep, hrest⟩ := SearchVm.steps_succ_running hsteps
    exact ih (h.running hruns hstep) hrest

/-- The registers of a class, cleared where the code uses the class. -/
def clearClass (classes : List RegClass) (c : RegClass) (regs : Nat → Nat) : Nat → Nat :=
  if c ∈ classes then fun _ => 0 else regs

/-- `search_vm_init_from_vm`; `stack` is what the registers of the search VM hold. -/
def searchVmInitFromVm (stack : Regs) (classes : List RegClass) (vm : Vm W) : SearchVm where
  ip := vm.ip
  pos := vm.pos
  regs :=
    { capStart := Store.restoreBelow vm.regs.maxCapUsed vm.regs.capStart
        (clearClass classes .capture stack.capStart)
      capEnd := Store.restoreBelow vm.regs.maxCapUsed vm.regs.capEnd
        (clearClass classes .capture stack.capEnd)
      varStart := Store.restoreBelow vm.regs.varCount vm.regs.varStart
        (clearClass classes .vars stack.varStart)
      varEnd := Store.restoreBelow vm.regs.varCount vm.regs.varEnd
        (clearClass classes .vars stack.varEnd)
      varCount := vm.regs.varCount
      maxCapUsed := vm.regs.maxCapUsed }
  counters := clearClass classes .counters vm.counters
  loopMin := clearClass classes .counters vm.loopMin
  loopMax := clearClass classes .counters vm.loopMax
  loopLastPos := clearClass classes .counters vm.loopLastPos
  maxCounterUsed := vm.maxCounterUsed
  choices := []

/-- Registers that differ in unreported classes only, and there not in the ones in use. -/
structure SameRegs (mask : List RegClass) (regs regs' : Regs) : Prop where
  maxCapUsed : regs.maxCapUsed = regs'.maxCapUsed
  varCount : regs.varCount = regs'.varCount
  captures : ∀ i, .capture ∈ mask ∨ i < regs.maxCapUsed →
    regs.capStart i = regs'.capStart i ∧ regs.capEnd i = regs'.capEnd i
  vars : ∀ i, .vars ∈ mask ∨ i < regs.varCount →
    regs.varStart i = regs'.varStart i ∧ regs.varEnd i = regs'.varEnd i

structure SameChoice (mask : List RegClass) (c c' : SearchChoice) : Prop where
  ip : c.ip = c'.ip
  pos : c.pos = c'.pos
  regs : SameRegs mask c.regs c'.regs

/-- States that differ in registers of unreported classes only. -/
structure SameUsed (mask : List RegClass) (vm vm' : SearchVm) : Prop where
  ip : vm.ip = vm'.ip
  pos : vm.pos = vm'.pos
  regs : SameRegs mask vm.regs vm'.regs
  counters : .counters ∈ mask → vm.counters = vm'.counters ∧ vm.loopMin = vm'.loopMin ∧
    vm.loopMax = vm'.loopMax ∧ vm.loopLastPos = vm'.loopLastPos
  maxCounterUsed : vm.maxCounterUsed = vm'.maxCounterUsed
  choices : List.Forall₂ (SameChoice mask) vm.choices vm'.choices

/-- Turns that end in such states. -/
inductive SameStep (mask : List RegClass) : SearchStep → SearchStep → Prop where
  | running {vm vm' : SearchVm} (h : SameUsed mask vm vm') :
      SameStep mask (.running vm) (.running vm')
  | matched {vm vm' : SearchVm} (h : SameUsed mask vm vm') :
      SameStep mask (.matched vm) (.matched vm')
  | failed {vm vm' : SearchVm} (h : SameUsed mask vm vm') : SameStep mask (.failed vm) (.failed vm')
  | aborted {vm vm' : SearchVm} (h : SameUsed mask vm vm') :
      SameStep mask (.aborted vm) (.aborted vm')
  | unknown : SameStep mask .unknown .unknown

namespace SameRegs

variable {regs regs' : Regs}

theorem capStart (h : SameRegs mask regs regs') (hmask : .capture ∈ mask) (r pos : Nat) :
    SameRegs mask (opCapStart r pos regs).1 (opCapStart r pos regs').1 := by
  unfold opCapStart
  split
  · refine ⟨congrArg (max · (r + 1)) h.maxCapUsed, h.varCount, fun i _ => ?_, h.vars⟩
    have hi := h.captures i (.inl hmask)
    refine ⟨?_, hi.2⟩
    simp only [Function.update_apply]
    rw [hi.1]
  · exact h

theorem capEnd (h : SameRegs mask regs regs') (hcapture : .capture ∈ mask) (hvars : .vars ∈ mask)
    (r pos : Nat) : SameRegs mask (opCapEnd r pos regs).1 (opCapEnd r pos regs').1 := by
  unfold opCapEnd
  split
  · refine ⟨congrArg (max · (r + 1)) h.maxCapUsed, congrArg (max · (r + 1)) h.varCount,
      fun i _ => ?_, fun i _ => ?_⟩
    · have hi := h.captures i (.inl hcapture)
      refine ⟨hi.1, ?_⟩
      simp only [Function.update_apply]
      rw [hi.2]
    · have hi := h.vars i (.inl hvars)
      simp only [Function.update_apply]
      rw [hi.1, hi.2, (h.captures r (.inl hcapture)).1]
      exact ⟨rfl, rfl⟩
  · exact h

theorem assign (h : SameRegs mask regs regs') (hcapture : .capture ∈ mask) (hvars : .vars ∈ mask)
    (var r : Nat) : SameRegs mask (opAssign var r regs).1 (opAssign var r regs').1 := by
  unfold opAssign
  split
  · refine ⟨h.maxCapUsed, congrArg (max · (var + 1)) h.varCount, h.captures, fun i _ => ?_⟩
    have hi := h.vars i (.inl hvars)
    have hr := h.captures r (.inl hcapture)
    simp only [Function.update_apply]
    rw [hi.1, hi.2, hr.1, hr.2]
    exact ⟨rfl, rfl⟩
  · exact h

end SameRegs

namespace SameUsed

theorem goto (h : SameUsed mask vm vm') (ip pos : Nat) :
    SameUsed mask { vm with ip, pos } { vm' with ip, pos } :=
  { h with ip := rfl, pos := rfl }

theorem push (h : SameUsed mask vm vm') (ip pos : Nat) :
    SameUsed mask (vm.pushChoice ip pos) (vm'.pushChoice ip pos) :=
  { h with choices := .cons ⟨rfl, rfl, h.regs⟩ h.choices }

theorem backtrack (h : SameUsed mask vm vm') : SameStep mask vm.backtrack vm'.backtrack := by
  have hchoices := h.choices
  unfold SearchVm.backtrack
  cases hc : vm.choices with
  | nil =>
    rw [hc] at hchoices
    rw [List.forall₂_nil_left_iff.mp hchoices]
    exact .failed h
  | cons c rest =>
    rw [hc] at hchoices
    obtain ⟨c', rest', hc', hrest, heq⟩ := List.forall₂_cons_left_iff.mp hchoices
    rw [heq]
    exact .running { h with ip := hc'.ip, pos := hc'.pos, regs := hc'.regs, choices := hrest }

theorem goOn (h : SameUsed mask vm vm') (next : Nat) (target : Option Nat) :
    SameStep mask (vm.goOn next target) (vm'.goOn next target) := by
  cases target with
  | none => exact h.backtrack
  | some pos => exact .running (h.goto next pos)

theorem repeatInit (h : SameUsed mask vm vm') (hmask : .counters ∈ mask) (loop min max skip : Nat) :
    SameUsed mask (vm.repeatInit loop min max skip) (vm'.repeatInit loop min max skip) := by
  obtain ⟨hcounters, hmin, hmax, hlast⟩ := h.counters hmask
  unfold SearchVm.repeatInit
  split
  · have hset : SameUsed mask
        { vm with
          counters := Function.update vm.counters loop 0
          loopMin := Function.update vm.loopMin loop min
          loopMax := Function.update vm.loopMax loop max
          loopLastPos := Function.update vm.loopLastPos loop vm.pos
          maxCounterUsed := Nat.max vm.maxCounterUsed (loop + 1) }
        { vm' with
          counters := Function.update vm'.counters loop 0
          loopMin := Function.update vm'.loopMin loop min
          loopMax := Function.update vm'.loopMax loop max
          loopLastPos := Function.update vm'.loopLastPos loop vm'.pos
          maxCounterUsed := Nat.max vm'.maxCounterUsed (loop + 1) } :=
      { h with
        counters := fun _ => by rw [hcounters, hmin, hmax, hlast, h.pos]; exact ⟨rfl, rfl, rfl, rfl⟩
        maxCounterUsed := congrArg (Nat.max · (loop + 1)) h.maxCounterUsed }
    dsimp only
    split
    · have hpush := hset.push skip vm'.pos
      rw [← h.pos] at hpush ⊢
      exact hpush
    · exact hset
  · exact h

theorem setCounters (h : SameUsed mask vm vm') (hmask : .counters ∈ mask) (loop count : Nat) :
    SameUsed mask { vm with counters := Function.update vm.counters loop count }
      { vm' with counters := Function.update vm'.counters loop count } :=
  { h with counters := fun _ => ⟨by rw [(h.counters hmask).1], (h.counters hmask).2⟩ }

theorem again (h : SameUsed mask vm vm') (hmask : .counters ∈ mask) (loop target : Nat) :
    SameUsed mask
      { vm with loopLastPos := Function.update vm.loopLastPos loop vm.pos, ip := target }
      { vm' with loopLastPos := Function.update vm'.loopLastPos loop vm'.pos, ip := target } := by
  obtain ⟨hcounters, hmin, hmax, hlast⟩ := h.counters hmask
  exact { h with
    ip := rfl
    counters := fun _ => ⟨hcounters, hmin, hmax, by rw [hlast, h.pos]⟩ }

theorem repeatStep (h : SameUsed mask vm vm') (hmask : .counters ∈ mask) (loop target : Nat) :
    SameUsed mask (vm.repeatStep loop target) (vm'.repeatStep loop target) := by
  obtain ⟨hcounters, hmin, hmax, hlast⟩ := h.counters hmask
  have hset := h.setCounters hmask loop ((vm'.counters loop + 1) % 2 ^ 32)
  unfold SearchVm.repeatStep
  dsimp only
  rw [hcounters, hmin, hmax, hlast, h.pos, h.ip] at *
  split
  · split
    · exact hset.again hmask loop target
    · split
      · split
        · exact hset
        · exact (hset.push _ _).again hmask loop target
      · exact hset
  · exact h

/-- One turn, where the instruction uses registers of reported classes only. -/
theorem step (h : SameUsed mask vm vm') (hmask : ∀ instr next op,
      fetch env.bc vm.ip = some (instr, next) → instr.opcode = some op →
        instr.concerns = true → ∀ cls ∈ op.regClasses, cls ∈ mask) :
    SameStep mask (vm.step env) (vm'.step env) := by
  rw [SearchVm.step, SearchVm.step, ← h.ip]
  cases hfetch : fetch env.bc vm.ip with
  | none => exact h.backtrack
  | some fetched =>
    obtain ⟨instr, next⟩ := fetched
    cases instr with
    | accept | succeed => exact .matched h
    | abort => exact .aborted h
    | fail => exact h.backtrack
    | goto | unknown => exact .unknown
    | jmp target =>
      have hgo := h.goto target vm'.pos
      exact .running { h with ip := rfl }
    | fence => exact .running { h with ip := rfl, choices := .nil }
    | split left right =>
      refine .running ?_
      rw [h.pos]
      exact { h.push right vm'.pos with ip := rfl }
    | repeatInit loop min max skip =>
      have hcounters := hmask _ _ _ hfetch rfl rfl .counters List.mem_cons_self
      have hgo : SameUsed mask { vm with ip := next } { vm' with ip := next } := { h with ip := rfl }
      exact .running (hgo.repeatInit hcounters loop min max skip)
    | repeatStep loop target =>
      have hcounters := hmask _ _ _ hfetch rfl rfl .counters List.mem_cons_self
      have hgo : SameUsed mask { vm with ip := next } { vm' with ip := next } := { h with ip := rfl }
      exact .running (hgo.repeatStep hcounters loop target)
    | breakx setId =>
      refine .running ?_
      unfold SearchVm.breakx
      dsimp only
      rw [h.pos]
      split
      · exact { h with ip := rfl, pos := rfl, choices := .cons ⟨rfl, rfl, h.regs⟩ h.choices }
      · exact { h with ip := rfl, pos := rfl }
    | prim p =>
      dsimp only
      cases p with
      | nop => exact .running { h with ip := rfl }
      | lit | set | count | anchor =>
        simp only [SearchVm.prim]
        rw [h.pos]
        exact h.goOn next _
      | capStart r =>
        have hcapture := hmask _ _ _ hfetch rfl rfl .capture List.mem_cons_self
        have hregs := h.regs.capStart hcapture r vm.pos
        rw [h.pos] at hregs
        refine .running { h with ip := rfl, regs := ?_ }
        rwa [h.pos]
      | capEnd r =>
        have hcapture := hmask _ _ _ hfetch rfl rfl .capture List.mem_cons_self
        have hvars := hmask _ _ _ hfetch rfl rfl .vars (List.mem_cons_of_mem _ List.mem_cons_self)
        have hregs := h.regs.capEnd hcapture hvars r vm'.pos
        refine .running { h with ip := rfl, regs := ?_ }
        rwa [h.pos]
      | assign var r =>
        have hcapture := hmask _ _ _ hfetch rfl rfl .capture List.mem_cons_self
        have hvars := hmask _ _ _ hfetch rfl rfl .vars (List.mem_cons_of_mem _ List.mem_cons_self)
        exact .running { h with ip := rfl, regs := h.regs.assign hcapture hvars var r }
      | _ => exact .unknown

/-- A run whose turns are of that kind. -/
theorem steps (h : SameUsed mask vm vm') (hmask : ∀ n vm₁, vm.steps env n = .running vm₁ →
      ∀ instr next op, fetch env.bc vm₁.ip = some (instr, next) → instr.opcode = some op →
        instr.concerns = true → ∀ cls ∈ op.regClasses, cls ∈ mask) (n : Nat) :
    SameStep mask (vm.steps env n) (vm'.steps env n) := by
  induction n generalizing vm vm' with
  | zero => exact .running h
  | succ n ih =>
    have hstep : SameStep mask (vm.step env) (vm'.step env) := h.step (hmask 0 vm rfl)
    rw [SearchVm.steps, SearchVm.steps]
    generalize hresult : vm.step env = result at hstep
    generalize vm'.step env = result' at hstep
    cases hstep with
    | running h =>
      refine ih h fun m vm₁ hm => hmask (m + 1) vm₁ ?_
      rw [SearchVm.steps_succ hresult, hm]
    | matched h => exact .matched h
    | failed h => exact .failed h
    | aborted h => exact .aborted h
    | unknown => exact .unknown

end SameUsed

theorem clearClass_all (cls : RegClass) (regs : Nat → Nat) :
    clearClass allRegClasses cls regs = fun _ => 0 := if_pos (mem_allRegClasses cls)

/-- The state that the init leaves and the one of a full reset. -/
theorem sameUsed_init (stack : Regs) (mask : List RegClass) (vm : Vm W) :
    SameUsed mask (searchVmInitFromVm stack mask vm) (searchVmInitFromVm stack allRegClasses vm) := by
  have hclear : ∀ (cls : RegClass) (regs : Nat → Nat), cls ∈ mask →
      clearClass mask cls regs = clearClass allRegClasses cls regs := by
    intro cls regs hcls
    rw [clearClass_all, clearClass, if_pos hcls]
  have hused : ∀ (cls : RegClass) (count : Nat) (from' regs : Nat → Nat) (i : Nat),
      cls ∈ mask ∨ i < count → Store.restoreBelow count from' (clearClass mask cls regs) i =
        Store.restoreBelow count from' (clearClass allRegClasses cls regs) i := by
    rintro cls count from' regs i (hcls | hlt)
    · rw [hclear cls regs hcls]
    · simp only [Store.restoreBelow, if_pos hlt]
  constructor
  · rfl
  · rfl
  · exact ⟨rfl, rfl, fun i hi => ⟨hused _ _ _ _ i hi, hused _ _ _ _ i hi⟩,
      fun i hi => ⟨hused _ _ _ _ i hi, hused _ _ _ _ i hi⟩⟩
  · exact fun hcls => ⟨hclear _ _ hcls, hclear _ _ hcls, hclear _ _ hcls, hclear _ _ hcls⟩
  · rfl
  · exact .nil

end

/-- `@r0('a') | 'b' SUCCEED` -/
def capOrSucceed : AstNode :=
  .alt (.cap 0 (.literal [0x61])) (.concat [.literal [0x62], .succeed])

/-- Its code. -/
def capOrSucceedBlk : Blk :=
  .alt (.seq (.leaf (.capStart 0)) (.seq (.leaf (.lit [0x61])) (.leaf (.capEnd 0))))
    (.seq (.leaf (.lit [0x62])) (.seq (.leaf .succeed) .skip))

def capOrSucceedCode : Bytes :=
  [3, 0, 0, 0, 9, 0, 0, 0, 28, 9, 0, 4, 0, 0, 0, 20, 0, 0, 0, 1, 97, 10, 0, 2, 0, 0, 0, 39, 4, 0, 0,
    0, 37, 0, 0, 0, 1, 98, 40, 0, 0, 0, 0, 0, 0, 0, 0, 0, 83, 78, 66, 76]

theorem compiledAs_capOrSucceed : CompiledAs .caseSensitive capOrSucceed
    ⟨capOrSucceedCode.take 40, [], 0, [], [0]⟩ capOrSucceedCode capOrSucceedBlk
      capOrSucceedBlk where
  buf := by decide +kernel
  fits := by simp [capOrSucceedBlk, Blk.Fits, Leaf.Fits]
  short := by decide +kernel
  loops := ⟨0, by decide, by simp [capOrSucceedBlk, Blk.LoopIds]⟩
  pat := by decide +kernel
  fused := .refl _
  body := ⟨[], by decide +kernel⟩

def capOrSucceedEnv : VmEnv Unit := VmEnv.ofCode capOrSucceedCode [0x61] .bare

/-- A test of the state in which a run goes on. -/
def SearchStep.all (p : SearchVm → Bool) : SearchStep → Bool
  | .running svm => p svm
  | _ => true

/-- The search VM at the start, with the reported classes cleared. -/
def capOrSucceedInit : SearchVm :=
  searchVmInitFromVm SearchVm.zero.regs (snobolBcRegisterClasses capOrSucceedCode)
    (.zero (⟨[], ()⟩ : Globals Unit))

/-- The code of `'a' SUCCEED | @r0('b')`. -/
def succeedOrCap : Bytes :=
  [3, 0, 0, 0, 9, 0, 0, 0, 25, 4, 0, 0, 0, 18, 0, 0, 0, 1, 97, 40, 2, 0, 0, 0, 39, 9, 0, 4, 0, 0, 0,
    36, 0, 0, 0, 1, 98, 10, 0, 0, 0, 0, 0, 0, 0, 0, 0, 0, 83, 78, 66, 76]

end Snobol4
