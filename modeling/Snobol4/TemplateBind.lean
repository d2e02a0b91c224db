import Snobol4.BindTables

/-!
# TemplateBind — binding the tables of a template (`compiler.c`)

`snobol_template_bind_tables` walks the bytecode with a third table of instruction lengths.
It stops where it meets an opcode that it does not know, and the result is then 0.
-/

namespace Snobol4

/-! ## The walk -/

/-- What the walk does at an instruction. -/
inductive BindStep where
  | stop
  | next (ip : Nat)
  /-- A table with this name; nothing where the walk ends behind the name. -/
  | table (name : Bytes) (next : Option Nat)

/-- The walk over the key of `OP_EMIT_TABLE`, which may end in front of it. -/
def bindKeyNext (bc : Bytes) (keyType keyAt : Nat) : Option Nat :=
  if keyType = 0 then
    if bc.length < keyAt + 2 then none else some (keyAt + 2 + (readU16 bc keyAt).1)
  else if keyType = 1 then some (keyAt + 1)
  else some keyAt

/-- The switch of `snobol_template_bind_tables`. -/
def bindStep (bc : Bytes) (ip : Nat) : BindStep :=
  let n := ip + 1
  match bc[ip]?.bind OpCode.ofByte with
  | some .emitLiteral | some .lit =>
      if bc.length < n + 8 then .stop else .next (n + 8 + (readU32 bc (n + 4)).1)
  | some .emitFormat =>
      if bc.length < n + 2 then .stop
      else if (readU8 bc (n + 1)).1 = 4 ∨ (readU8 bc (n + 1)).1 = 5 then .next (n + 5)
      else .next (n + 2)
  | some .rem | some .fence | some .dynamic | some .nop | some .fail | some .abort
  | some .succeed => .next n
  | some .emitCapture | some .capStart | some .capEnd => .next (n + 1)
  | some .emitExpr | some .any | some .notany | some .span | some .break | some .breakx
  | some .label | some .goto | some .gotoF => .next (n + 2)
  | some .assign | some .eval => .next (n + 3)
  | some .len | some .repeatStep | some .jmp | some .rpos | some .rtab | some .pos
  | some .tab => .next (n + 4)
  | some .split | some .repeatInit | some .bal => .next (n + 8)
  | some .emitTable =>
      let keyAt := n + 4 + (readU8 bc (n + 3)).1
      if bc.length < n + 4 then .stop
      else if bc.length < keyAt then .stop
      else
        .table ((bc.drop (n + 4)).take (readU8 bc (n + 3)).1)
          (bindKeyNext bc (readU8 bc (n + 2)).1 keyAt)
  | some .tableGet | some .tableSet =>
      let stop := n + 5 + (readU8 bc (n + 4)).1
      if bc.length < n + 4 then .stop
      else if bc.length < stop then .stop
      else .table ((bc.drop (n + 5)).take (readU8 bc (n + 4)).1) (some stop)
  | _ => .stop

/-- The first table of this name; a name may be a null pointer. -/
def tableNamed (tables : List (Option Bytes × UInt16)) (name : Bytes) : Option UInt16 :=
  (tables.find? fun table => table.1 == some name).map (·.2)

/-- The table instruction at `ip`: the bytecode afterwards, and whether the table is bound. -/
def bindTable (tables : List (Option Bytes × UInt16)) (bc : Bytes) (ip : Nat) (name : Bytes) :
    Bytes × Bool :=
  if (readU16 bc (ip + 1)).1 = Leaf.unboundTable then
    match tableNamed tables name with
    | some id => (writeTableId bc ip id.toNat, true)
    | none => (bc, false)
  else (bc, true)

/-- The loop of `snobol_template_bind_tables`: the bytecode afterwards, and whether the result
is 0.  Every turn goes forward, so the length bounds the fuel. -/
def bindWalk (tables : List (Option Bytes × UInt16)) : Nat → Nat → Bytes → Bool → Bytes × Bool
  | 0, _, bc, ok => (bc, ok)
  | fuel + 1, ip, bc, ok =>
      if ip < bc.length then
        match bindStep bc ip with
        | .stop => (bc, ok)
        | .next next => bindWalk tables fuel next bc ok
        | .table name next =>
            let bound := bindTable tables bc ip name
            match next with
            | none => (bound.1, ok && bound.2)
            | some next => bindWalk tables fuel next bound.1 (ok && bound.2)
      else (bc, ok)

/-- `snobol_template_bind_tables` -/
def snobolTemplateBindTables (bc : Bytes) (tables : List (Option Bytes × UInt16)) : Bytes × Bool :=
  bindWalk tables (bc.length + 1) 0 bc true

/-! ## The instructions of the machine -/

/-- Where the next instruction stands, as `vm_run` reads the operands.  The bytes of a literal
key are skipped up to a length of 1023.  No compiler emits `OP_EMIT_EXPR`, `OP_GOTO_F` and the
opcodes of arrays. -/
def vmNext (bc : Bytes) (ip : Nat) : Option Nat :=
  match bc[ip]?.bind OpCode.ofByte with
  | none => none
  | some .emitExpr | some .gotoF | some .arrayGet | some .arraySet => none
  | some .dynamic => some (ip + 1)
  | some .dynamicDef =>
      let (sourceLen, i) := readU32 bc (ip + 1)
      let (bcLen, i) := readU32 bc (i + sourceLen)
      some (i + bcLen)
  | some .emitFormat =>
      let (_, i) := readU8 bc (ip + 1)
      let (type, i) := readU8 bc i
      if type = 4 ∨ type = 5 then
        let (_, i) := readU16 bc i
        some (readU8 bc i).2
      else some i
  | some .emitTable =>
      let (_, i) := readU16 bc (ip + 1)
      let (keyType, i) := readU8 bc i
      let (nameLen, i) := readU8 bc i
      if keyType = 0 then
        let (keyLen, i) := readU16 bc (i + nameLen)
        some (if keyLen < 1024 then i + keyLen else i)
      else if keyType = 1 then some (readU8 bc (i + nameLen)).2
      else some (i + nameLen)
  | some _ => (fetch bc ip).map (·.2)

/-- The body up to `limit` decodes to the instruction at an address, over the instructions in
front of it. -/
inductive InstrPath (bc : Bytes) (limit : Nat) : Nat → List Nat → Prop where
  | start : InstrPath bc limit 0 []
  | next {ip next : Nat} {front : List Nat} (h : InstrPath bc limit ip front)
      (hnext : vmNext bc ip = some next) (hlt : next < limit) :
      InstrPath bc limit next (ip :: front)

/-- `OP_EMIT_TABLE`, `OP_TABLE_GET` and `OP_TABLE_SET` -/
def OpCode.IsTable : OpCode → Prop
  | .emitTable | .tableGet | .tableSet => True
  | _ => False

/-- A table instruction of the body, which ends with `OP_ACCEPT`, and the instructions in
front of it. -/
structure TableInstr (bc : Bytes) (limit t : Nat) (front : List Nat) : Prop where
  path : InstrPath bc limit t front
  op : ∃ op, bc[t]?.bind OpCode.ofByte = some op ∧ op.IsTable
  next : ∃ next, vmNext bc t = some next ∧ next < limit

/-- The walk takes the length of the instruction from the bytes that the machine takes it
from: the text of a literal is inline, and a literal key has less than 1024 bytes. -/
def InStep (bc : Bytes) (ip : Nat) : Prop :=
  match bc[ip]?.bind OpCode.ofByte with
  | some .accept | some .anchor | some .repeatInit | some .repeatStep
  | some .dynamicDef => False
  | some .lit | some .emitLiteral => (readU32 bc (ip + 1)).1 = ip + 9
  | some .emitTable =>
      (readU8 bc (ip + 3)).1 = 0 → (readU16 bc (ip + 5 + (readU8 bc (ip + 4)).1)).1 < 1024
  | _ => True

/-! ## Reads within the code -/

section

variable {bc : Bytes} {ip : Nat}

theorem readU8_of_lt (h : (readU8 bc ip).2 < bc.length) : (readU8 bc ip).2 = ip + 1 := by
  unfold readU8 at h ⊢
  split at h
  · rename_i a rest hdrop
    rfl
  · exact absurd h (Nat.lt_irrefl _)

theorem readU16_of_lt (h : (readU16 bc ip).2 < bc.length) : (readU16 bc ip).2 = ip + 2 := by
  unfold readU16 at h ⊢
  split at h
  · rfl
  · exact absurd h (Nat.lt_irrefl _)

theorem readU32_of_lt (h : (readU32 bc ip).2 < bc.length) : (readU32 bc ip).2 = ip + 4 := by
  unfold readU32 at h ⊢
  split at h
  · rfl
  · exact absurd h (Nat.lt_irrefl _)

variable {next : Nat}

/-- The walk at a table instruction finds the name, and goes on with the machine where the two
are in step. -/
def StepsOverTable (bc : Bytes) (ip next : Nat) : Prop :=
  ip + 3 ≤ next ∧ ∃ name next', bindStep bc ip = .table name next' ∧
    (∀ n ∈ next', ip + 3 ≤ n) ∧ (InStep bc ip → next' = some next)

theorem stepsOverTable_emitTable (hop : bc[ip]?.bind OpCode.ofByte = some .emitTable)
    (hnext : vmNext bc ip = some next) (hlt : next < bc.length) : StepsOverTable bc ip next := by
  unfold StepsOverTable
  simp only [vmNext, bindStep, InStep, hop] at hnext ⊢
  generalize hname : (readU8 bc (readU8 bc (readU16 bc (ip + 1)).2).2).1 = nameLen at hnext
  generalize hthird : (readU8 bc (readU8 bc (readU16 bc (ip + 1)).2).2).2 = third at hnext
  -- the operands in front of the key lie within the code
  have hwithin : third + nameLen ≤ next ∧ third < bc.length := by
    split at hnext
    · have hkey := Option.some.inj hnext
      by_cases hin : (readU16 bc (third + nameLen)).2 < bc.length
      · have := readU16_of_lt hin
        split at hkey
        · omega
        · omega
      · split at hkey
        · omega
        · omega
    split at hnext
    · have hreg := Option.some.inj hnext
      have := readU8_of_lt (hreg.symm ▸ hlt)
      omega
    · have := Option.some.inj hnext
      omega
  have hlen := readU8_of_lt (show (readU8 bc (readU8 bc (readU16 bc (ip + 1)).2).2).2 <
    bc.length by omega)
  have htype := readU8_of_lt (show (readU8 bc (readU16 bc (ip + 1)).2).2 < bc.length by omega)
  have hid := readU16_of_lt (show (readU16 bc (ip + 1)).2 < bc.length by omega)
  rw [hid] at htype hnext
  rw [hid, htype] at hlen hname hthird
  obtain rfl : third = ip + 5 := by omega
  rw [show ip + 1 + 2 + 1 = ip + 4 from rfl] at hname
  refine ⟨by omega, (bc.drop (ip + 5)).take nameLen,
    bindKeyNext bc (readU8 bc (ip + 3)).1 (ip + 5 + nameLen), ?_, ?_, ?_⟩
  · rw [show ip + 1 + 3 = ip + 4 from rfl, hname, if_neg (by omega), if_neg (by omega)]
  · intro n hn
    unfold bindKeyNext at hn
    split at hn
    · split at hn
      · cases hn
      · have := Option.some.inj hn
        omega
    split at hn
    · have := Option.some.inj hn
      omega
    · have := Option.some.inj hn
      omega
  · intro hshort
    rw [hname] at hshort
    rw [show ip + 1 + 2 = ip + 3 from rfl] at hnext
    unfold bindKeyNext
    by_cases hliteral : (readU8 bc (ip + 3)).1 = 0
    · rw [if_pos hliteral, if_pos (hshort hliteral)] at hnext
      have hsum := Option.some.inj hnext
      have hkey := readU16_of_lt
        (show (readU16 bc (ip + 5 + nameLen)).2 < bc.length by omega)
      rw [if_pos hliteral, if_neg (by omega), ← hnext, hkey]
    rw [if_neg hliteral] at hnext ⊢
    by_cases hcapture : (readU8 bc (ip + 3)).1 = 1
    · rw [if_pos hcapture] at hnext ⊢
      have hreg := Option.some.inj hnext
      rw [← hnext, readU8_of_lt (hreg.symm ▸ hlt)]
    · rw [if_neg hcapture] at hnext ⊢
      exact hnext

theorem stepsOverTable_tableGet {op : OpCode} (ho : op = .tableGet ∨ op = .tableSet)
    (hop : bc[ip]?.bind OpCode.ofByte = some op) (hnext : vmNext bc ip = some next)
    (hlt : next < bc.length) : StepsOverTable bc ip next := by
  obtain ⟨b, hget, hb⟩ := Option.bind_eq_some_iff.mp hop
  unfold StepsOverTable
  obtain rfl | rfl := ho
  all_goals
    simp only [vmNext, bindStep, fetch, operands, hget, hb, Option.bind_some,
      Option.map_some] at hnext ⊢
    cases hnext
    have hlen := readU8_of_lt (show (readU8 bc (readU8 bc (readU8 bc
      (readU16 bc (ip + 1)).2).2).2).2 < bc.length by omega)
    have hreg := readU8_of_lt (show (readU8 bc (readU8 bc (readU16 bc (ip + 1)).2).2).2 <
      bc.length by omega)
    have hkey := readU8_of_lt (show (readU8 bc (readU16 bc (ip + 1)).2).2 < bc.length by omega)
    have hid := readU16_of_lt (show (readU16 bc (ip + 1)).2 < bc.length by omega)
    have hname : (readU8 bc (ip + 1 + 2 + 1 + 1)).1 = (readU8 bc (ip + 1 + 4)).1 := rfl
    rw [hlen, hreg, hkey, hid] at hlt ⊢
    refine ⟨by omega, (bc.drop (ip + 6)).take (readU8 bc (ip + 5)).1,
      some (ip + 6 + (readU8 bc (ip + 5)).1), ?_, ?_, fun _ => rfl⟩
    · rw [if_neg (by omega), if_neg (by omega)]
    · intro n hn
      have := Option.some.inj hn
      omega

theorem stepsOverTable_of_op {op : OpCode} (hop : bc[ip]?.bind OpCode.ofByte = some op)
    (htable : op.IsTable) (hnext : vmNext bc ip = some next) (hlt : next < bc.length) :
    StepsOverTable bc ip next := by
  cases op with
  | emitTable => exact stepsOverTable_emitTable hop hnext hlt
  | tableGet => exact stepsOverTable_tableGet (.inl rfl) hop hnext hlt
  | tableSet => exact stepsOverTable_tableGet (.inr rfl) hop hnext hlt
  | _ => exact htable.elim

theorem StepsOverTable.inStep (h : StepsOverTable bc ip next) (hin : InStep bc ip) :
    ip < next ∧ ∃ name, bindStep bc ip = .table name (some next) ∧ ip + 3 ≤ next := by
  obtain ⟨hle, name, next', hstep, -, hsame⟩ := h
  rw [hsame hin] at hstep
  exact ⟨by omega, name, hstep, hle⟩

/-- Where the machine and the walk are in step, the walk goes on where the machine does. -/
theorem bindStep_of_inStep (h : InStep bc ip) (hnext : vmNext bc ip = some next)
    (hlt : next < bc.length) :
    ip < next ∧ (bindStep bc ip = .next next ∨
      ∃ name, bindStep bc ip = .table name (some next) ∧ ip + 3 ≤ next) := by
  cases hget : bc[ip]? with
  | none => simp [vmNext, hget] at hnext
  | some b =>
    cases hop : OpCode.ofByte b with
    | none => simp [vmNext, hget, hop] at hnext
    | some op =>
      have hbind : bc[ip]?.bind OpCode.ofByte = some op := by
        rw [hget]
        exact hop
      by_cases htable : op.IsTable
      · obtain ⟨hgt, name, hstep, hle⟩ := (stepsOverTable_of_op hbind htable hnext hlt).inStep h
        exact ⟨hgt, .inr ⟨name, hstep, hle⟩⟩
      -- each opcode on its own, so that the switches are reduced and not rewritten
      cases op
      all_goals
        simp only [InStep, vmNext, bindStep, fetch, operands, hget, hop, Option.bind_some,
          Option.map_some, reduceCtorEq] at h hnext ⊢
      case fail | fence | rem | abort | succeed | nop | dynamic =>
        cases hnext
        exact ⟨Nat.lt_succ_self ip, .inl rfl⟩
      case capStart | capEnd | emitCapture =>
        cases hnext
        rw [readU8_of_lt hlt]
        exact ⟨by omega, .inl rfl⟩
      case any | notany | span | «break» | breakx | label | goto =>
        cases hnext
        rw [readU16_of_lt hlt]
        exact ⟨by omega, .inl rfl⟩
      case len | jmp | pos | rpos | tab | rtab =>
        cases hnext
        rw [readU32_of_lt hlt]
        exact ⟨by omega, .inl rfl⟩
      case assign | eval =>
        cases hnext
        have hsecond := readU8_of_lt hlt
        have hfirst := readU16_of_lt (show (readU16 bc (ip + 1)).2 < bc.length by omega)
        rw [hsecond, hfirst]
        exact ⟨by omega, .inl rfl⟩
      case split | bal =>
        cases hnext
        have hsecond := readU32_of_lt hlt
        have hfirst := readU32_of_lt (show (readU32 bc (ip + 1)).2 < bc.length by omega)
        rw [hsecond, hfirst]
        exact ⟨by omega, .inl rfl⟩
      case lit | emitLiteral =>
        cases hnext
        have hend : (readU32 bc (readU32 bc (ip + 1)).2).2 < bc.length := by
          split at hlt
          · omega
          · exact hlt
        have hsecond := readU32_of_lt hend
        have hfirst := readU32_of_lt (show (readU32 bc (ip + 1)).2 < bc.length by omega)
        rw [hfirst] at hsecond hend
        rw [hfirst, hsecond, if_pos (by omega), if_neg (by omega)]
        exact ⟨by omega, .inl rfl⟩
      case emitFormat =>
        by_cases hpad : (readU8 bc (readU8 bc (ip + 1)).2).1 = 4 ∨
            (readU8 bc (readU8 bc (ip + 1)).2).1 = 5
        · rw [if_pos hpad] at hnext
          cases hnext
          have hfill := readU8_of_lt hlt
          have hwidth := readU16_of_lt
            (show (readU16 bc (readU8 bc (readU8 bc (ip + 1)).2).2).2 < bc.length by omega)
          have hsecond := readU8_of_lt
            (show (readU8 bc (readU8 bc (ip + 1)).2).2 < bc.length by omega)
          have hfirst := readU8_of_lt (show (readU8 bc (ip + 1)).2 < bc.length by omega)
          rw [hfirst] at hpad
          rw [hfill, hwidth, hsecond, hfirst, if_neg (by omega), if_pos hpad]
          exact ⟨by omega, .inl rfl⟩
        · rw [if_neg hpad] at hnext
          cases hnext
          have hsecond := readU8_of_lt hlt
          have hfirst := readU8_of_lt (show (readU8 bc (ip + 1)).2 < bc.length by omega)
          rw [hfirst] at hpad
          rw [hsecond, hfirst, if_neg (by omega), if_neg hpad]
          exact ⟨by omega, .inl rfl⟩
      case emitTable | tableGet | tableSet => exact (htable trivial).elim

/-- The machine goes forward. -/
theorem vmNext_lt (hnext : vmNext bc ip = some next) (hlt : next < bc.length) : ip < next := by
  by_cases hin : InStep bc ip
  · exact (bindStep_of_inStep hin hnext hlt).1
  cases hget : bc[ip]? with
  | none => simp [vmNext, hget] at hnext
  | some b =>
    cases hop : OpCode.ofByte b with
    | none => simp [vmNext, hget, hop] at hnext
    | some op =>
      have hbind : bc[ip]?.bind OpCode.ofByte = some op := by
        rw [hget]
        exact hop
      by_cases htable : op.IsTable
      · have hle := (stepsOverTable_of_op hbind htable hnext hlt).1
        omega
      cases op
      -- the instructions that may be out of step
      all_goals simp only [InStep, hbind, not_true_eq_false] at hin
      all_goals
        simp only [vmNext, fetch, operands, hget, hop, Option.bind_some, Option.map_some]
          at hnext
      case accept =>
        cases hnext
        exact Nat.lt_succ_self ip
      case anchor =>
        cases hnext
        have := readU8_of_lt hlt
        omega
      case repeatInit =>
        cases hnext
        have hskip := readU32_of_lt hlt
        have hmax := readU32_of_lt (show (readU32 bc (readU32 bc (readU8 bc (ip + 1)).2).2).2 <
          bc.length by omega)
        have hmin := readU32_of_lt (show (readU32 bc (readU8 bc (ip + 1)).2).2 < bc.length by omega)
        have hid := readU8_of_lt (show (readU8 bc (ip + 1)).2 < bc.length by omega)
        omega
      case dynamicDef =>
        have hsum := Option.some.inj hnext
        have hbytes := readU32_of_lt
          (show (readU32 bc ((readU32 bc (ip + 1)).2 + (readU32 bc (ip + 1)).1)).2 < bc.length
            by omega)
        have hsource := readU32_of_lt (show (readU32 bc (ip + 1)).2 < bc.length by omega)
        omega
      case repeatStep =>
        cases hnext
        have htarget := readU32_of_lt hlt
        have hid := readU8_of_lt (show (readU8 bc (ip + 1)).2 < bc.length by omega)
        omega
      case lit | emitLiteral =>
        cases hnext
        have hend : (readU32 bc (readU32 bc (ip + 1)).2).2 < bc.length := by
          split at hlt
          · omega
          · exact hlt
        have hsecond := readU32_of_lt hend
        have hfirst := readU32_of_lt (show (readU32 bc (ip + 1)).2 < bc.length by omega)
        split
        · omega
        · omega
      case emitTable => exact (htable trivial).elim

/-- The path to an instruction on the way, which comes first. -/
theorem InstrPath.earlier {limit t stop : Nat} {later earlier : List Nat}
    (hlimit : limit ≤ bc.length) (h : InstrPath bc limit t (later ++ stop :: earlier)) :
    InstrPath bc limit stop earlier ∧ stop < t ∧ stop < limit := by
  induction later generalizing t with
  | nil =>
    cases h with
    | next h hnext hlt =>
      have hgt := vmNext_lt hnext (Nat.lt_of_lt_of_le hlt hlimit)
      exact ⟨h, hgt, by omega⟩
  | cons i later ih =>
    cases h with
    | next h hnext hlt =>
      have hgt := vmNext_lt hnext (Nat.lt_of_lt_of_le hlt hlimit)
      obtain ⟨hpath, hbefore, hwithin⟩ := ih h
      exact ⟨hpath, by omega, hwithin⟩

end

/-! ## The walk over a path -/

/-- A turn of the walk reads the code from its address on. -/
theorem bindStep_congr {bc bc' : Bytes} {ip : Nat} (hlen : bc'.length = bc.length)
    (hdrop : bc'.drop ip = bc.drop ip) : bindStep bc' ip = bindStep bc ip := by
  have hrest : ∀ k, bc'.drop (ip + k) = bc.drop (ip + k) := by
    intro k
    rw [← List.drop_drop, hdrop, List.drop_drop]
  have hget : bc'[ip]? = bc[ip]? := by
    rw [← List.head?_drop, ← List.head?_drop, hdrop]
  have h8 : ∀ k, readU8 bc' (ip + k) = readU8 bc (ip + k) := by
    intro k
    unfold readU8
    rw [hrest, hlen]
  have h16 : ∀ k, readU16 bc' (ip + k) = readU16 bc (ip + k) := by
    intro k
    unfold readU16
    rw [hrest, hlen]
  have h32 : ∀ k, readU32 bc' (ip + k) = readU32 bc (ip + k) := by
    intro k
    unfold readU32
    rw [hrest, hlen]
  unfold bindStep bindKeyNext
  simp only [Nat.add_assoc, hget, hlen, h8, h16, h32, hrest]

/-- Where the walk goes on behind an instruction. -/
def BindStep.Ahead (ip : Nat) : BindStep → Prop
  | stop => True
  | next n => ip < n
  | table _ target => ∀ n ∈ target, ip < n

theorem bindStep_ahead (bc : Bytes) (ip : Nat) : (bindStep bc ip).Ahead ip := by
  have hkey : ∀ keyType n, ip < n → ∀ m ∈ bindKeyNext bc keyType n, ip < m := by
    intro keyType n hn m hm
    unfold bindKeyNext at hm
    split at hm
    · split at hm
      · cases hm
      · have := Option.some.inj hm
        omega
    split at hm
    · have := Option.some.inj hm
      omega
    · have := Option.some.inj hm
      omega
  unfold bindStep
  cases bc[ip]?.bind OpCode.ofByte with
  | none => trivial
  | some op =>
    cases op with
    | accept | anchor | arrayGet | arraySet | dynamicDef => trivial
    | emitLiteral | lit =>
      dsimp only
      split
      · trivial
      · show ip < _
        omega
    | emitFormat =>
      dsimp only
      split
      · trivial
      split
      · show ip < _
        omega
      · show ip < _
        omega
    | emitTable =>
      dsimp only
      split
      · trivial
      split
      · trivial
      · exact hkey _ _ (by omega)
    | tableGet | tableSet =>
      dsimp only
      split
      · trivial
      split
      · trivial
      · intro m hm
        have := Option.some.inj hm
        omega
    | _ =>
      show ip < _
      omega

section

variable {tables : List (Option Bytes × UInt16)} {bc : Bytes} {ip : Nat} {name : Bytes}

theorem length_bindTable : (bindTable tables bc ip name).1.length = bc.length := by
  unfold bindTable
  split
  · split
    · simp only [writeTableId, List.length_set]
    · rfl
  · rfl

/-- The bytes behind the id stay as they are. -/
theorem bindTable_drop {n : Nat} (h : ip + 3 ≤ n) :
    (bindTable tables bc ip name).1.drop n = bc.drop n := by
  unfold bindTable
  split
  · split
    · rw [writeTableId, List.drop_set_of_lt (by omega), List.drop_set_of_lt (by omega)]
    · rfl
  · rfl

/-- So do the bytes in front of it. -/
theorem bindTable_take {n : Nat} (h : n ≤ ip + 1) :
    (bindTable tables bc ip name).1.take n = bc.take n := by
  unfold bindTable
  split
  · split
    · rw [writeTableId, List.take_set_of_le (by omega), List.take_set_of_le (by omega)]
    · rfl
  · rfl

/-- The walk leaves the code behind it as it is. -/
theorem bindWalk_take {fuel n : Nat} {ok : Bool} (h : n ≤ ip + 1) :
    (bindWalk tables fuel ip bc ok).1.take n = bc.take n := by
  induction fuel generalizing ip bc ok with
  | zero => rfl
  | succ fuel ih =>
    rw [bindWalk]
    split
    · have hahead := bindStep_ahead bc ip
      cases hstep : bindStep bc ip with
      | stop => rfl
      | next next =>
        rw [hstep] at hahead
        have hlt : ip < next := hahead
        exact ih (by omega)
      | table name next =>
        rw [hstep] at hahead
        cases next with
        | none => exact bindTable_take h
        | some next =>
          have hlt : ip < next := hahead next rfl
          exact (ih (by omega)).trans (bindTable_take h)
    · rfl

/-- A table that is not found is reported. -/
theorem bindWalk_false (fuel : Nat) : (bindWalk tables fuel ip bc false).2 = false := by
  induction fuel generalizing ip bc with
  | zero => rfl
  | succ fuel ih =>
    rw [bindWalk]
    split
    · cases bindStep bc ip with
      | stop => rfl
      | next next => exact ih
      | table name next =>
        cases next with
        | none => rfl
        | some next => exact ih
    · rfl

/-- The table of the instruction, if it has one, is among the given ones. -/
def FindsTable (tables : List (Option Bytes × UInt16)) (bc : Bytes) (ip : Nat) : Prop :=
  ∀ name target, bindStep bc ip = .table name target → (tableNamed tables name).isSome = true

theorem bindTable_of_found (h : (tableNamed tables name).isSome = true) :
    (bindTable tables bc ip name).2 = true := by
  obtain ⟨id, hid⟩ := Option.isSome_iff_exists.mp h
  unfold bindTable
  rw [hid]
  split
  · rfl
  · rfl

/-- The walk comes to an instruction when it is in step up to there, and has changed nothing
behind that address. -/
theorem bindWalk_path {limit : Nat} {front : List Nat} (hlimit : limit ≤ bc.length)
    (h : InstrPath bc limit ip front) (hin : ∀ i ∈ front, InStep bc i) :
    ∃ fuel bc' ok, snobolTemplateBindTables bc tables = bindWalk tables fuel ip bc' ok ∧
      bc.length < fuel + ip ∧ bc'.length = bc.length ∧ bc'.drop ip = bc.drop ip ∧
      ((∀ i ∈ front, FindsTable tables bc i) → ok = true) := by
  induction h with
  | start => exact ⟨bc.length + 1, bc, true, rfl, by omega, rfl, rfl, fun _ => rfl⟩
  | @next ip next front _ hnext hlt ih =>
    obtain ⟨fuel, bc', ok, hwalk, hfuel, hlen, hdrop, hok⟩ :=
      ih fun i hi => hin i (List.mem_cons_of_mem ip hi)
    have hstep := bindStep_of_inStep (hin ip List.mem_cons_self) hnext
      (Nat.lt_of_lt_of_le hlt hlimit)
    obtain ⟨fuel, rfl⟩ : ∃ n, fuel = n + 1 := ⟨fuel - 1, by omega⟩
    -- ids are written behind the opcode, in front of the next instruction
    have hrest : ∀ n, ip ≤ n → bc'.drop n = bc.drop n := by
      intro n hn
      obtain ⟨k, rfl⟩ := Nat.le.dest hn
      rw [← List.drop_drop, hdrop, List.drop_drop]
    rw [hwalk, bindWalk, if_pos (by omega), bindStep_congr hlen hdrop]
    obtain ⟨hgt, hstep | ⟨name, hstep, hle⟩⟩ := hstep
    · rw [hstep]
      exact ⟨fuel, bc', ok, rfl, by omega, hlen, hrest next (by omega),
        fun hfinds => hok fun i hi => hfinds i (List.mem_cons_of_mem ip hi)⟩
    · rw [hstep]
      refine ⟨fuel, (bindTable tables bc' ip name).1, ok && (bindTable tables bc' ip name).2, rfl,
        by omega, length_bindTable.trans hlen, ?_, fun hfinds => ?_⟩
      · rw [bindTable_drop hle]
        exact hrest next (by omega)
      · rw [hok fun i hi => hfinds i (List.mem_cons_of_mem ip hi), Bool.true_and]
        exact bindTable_of_found (hfinds ip List.mem_cons_self name _ hstep)

/-- The id of a table instruction is in its place. -/
theorem readU16_of_take {bc bc' : Bytes} {i n : Nat} (h : bc'.take n = bc.take n) (hi : i + 2 ≤ n)
    (hlen : i + 2 ≤ bc.length) : (readU16 bc' i).1 = (readU16 bc i).1 := by
  have htake : ∀ xs : Bytes, (xs.drop i).take 2 = ((xs.take n).drop i).take 2 := by
    intro xs
    rw [List.drop_take, List.take_take, Nat.min_eq_left (by omega)]
  have hread : ∀ xs : Bytes, ∀ a b, (xs.drop i).take 2 = [a, b] →
      (readU16 xs i).1 = a.toNat * 2 ^ 8 + b.toNat := by
    intro xs a b hab
    obtain ⟨rest, hrest⟩ : ∃ rest, xs.drop i = a :: b :: rest :=
      ⟨(xs.drop i).drop 2, by rw [← List.take_append_drop 2 (xs.drop i), hab]; rfl⟩
    rw [readU16, hrest]
  obtain ⟨a, b, hab⟩ : ∃ a b, (bc.drop i).take 2 = [a, b] := by
    refine List.length_eq_two.mp ?_
    rw [List.length_take, List.length_drop]
    omega
  have hab' : (bc'.drop i).take 2 = [a, b] := by
    rw [htake bc', h, ← htake bc, hab]
  rw [hread bc a b hab, hread bc' a b hab']

theorem readU16_writeTableId {id : Nat} (hid : id < 2 ^ 16) (hlen : ip + 3 ≤ bc.length) :
    (readU16 (writeTableId bc ip id) (ip + 1)).1 = id := by
  have hdrop : (writeTableId bc ip id).drop (ip + 1) =
      UInt8.ofNat (id / 2 ^ 8) :: UInt8.ofNat id :: bc.drop (ip + 3) := by
    rw [writeTableId, List.drop_set, if_neg (by omega), List.drop_set, if_neg (by omega),
      List.drop_eq_getElem_cons (by omega), List.drop_eq_getElem_cons (by omega)]
    rw [show ip + 1 - (ip + 1) = 0 by omega, show ip + 2 - (ip + 1) = 1 by omega]
    rfl
  rw [readU16, hdrop]
  simp only [UInt8.toNat_ofNat']
  omega

end

/-! ## Bound tables -/

/-- After the result 0 no table of the body is left unbound. -/
def LeavesNoneUnbound (bc : Bytes) (limit : Nat) (tables : List (Option Bytes × UInt16)) : Prop :=
  (snobolTemplateBindTables bc tables).2 = true →
    ∀ t front, TableInstr bc limit t front →
      (readU16 (snobolTemplateBindTables bc tables).1 (t + 1)).1 ≠ Leaf.unboundTable

/-- What a turn over a table instruction that is found leaves in the place of the id. -/
theorem bindTable_bound {tables : List (Option Bytes × UInt16)} {bc name : Bytes} {ip : Nat}
    (hids : ∀ table ∈ tables, table.2.toNat ≠ Leaf.unboundTable) (hlen : ip + 3 ≤ bc.length)
    (h : (bindTable tables bc ip name).2 = true) :
    (readU16 (bindTable tables bc ip name).1 (ip + 1)).1 ≠ Leaf.unboundTable := by
  unfold bindTable at h ⊢
  by_cases hunbound : (readU16 bc (ip + 1)).1 = Leaf.unboundTable
  · rw [if_pos hunbound] at h ⊢
    cases hfind : tableNamed tables name with
    | none =>
      rw [hfind] at h
      cases h
    | some id =>
      obtain ⟨table, htable, rfl⟩ := Option.map_eq_some_iff.mp hfind
      dsimp only
      rw [readU16_writeTableId table.2.toNat_lt hlen]
      exact hids table (List.mem_of_find?_eq_some htable)
  · rw [if_neg hunbound]
    exact hunbound

/-- Where the walk is in step up to every table instruction, none is left unbound. -/
theorem leavesNoneUnbound_of_inStep {bc : Bytes} {limit : Nat}
    {tables : List (Option Bytes × UInt16)} (hlimit : limit ≤ bc.length)
    (hids : ∀ table ∈ tables, table.2.toNat ≠ Leaf.unboundTable)
    (hfront : ∀ t front, TableInstr bc limit t front → ∀ ip ∈ front, InStep bc ip) :
    LeavesNoneUnbound bc limit tables := by
  intro hok t front ht
  obtain ⟨op, hop, htable⟩ := ht.op
  obtain ⟨next, hnext, hwithin⟩ := ht.next
  obtain ⟨hle, name, target, hstep, htarget, -⟩ :=
    stepsOverTable_of_op hop htable hnext (Nat.lt_of_lt_of_le hwithin hlimit)
  obtain ⟨fuel, bc', ok, hwalk, hfuel, hlen, hdrop, -⟩ :=
    bindWalk_path hlimit ht.path (hfront t front ht)
  have hroom : t + 3 ≤ bc'.length := by omega
  obtain ⟨fuel, rfl⟩ : ∃ n, fuel = n + 1 := ⟨fuel - 1, by omega⟩
  rw [hwalk, bindWalk, if_pos (by omega), bindStep_congr hlen hdrop, hstep] at hok ⊢
  dsimp only at hok ⊢
  cases target with
  | none =>
    exact bindTable_bound hids hroom ((Bool.and_eq_true_iff.mp hok).2)
  | some target =>
    have hgt := htarget target rfl
    dsimp only at hok ⊢
    -- a table that is not found makes the result -1, whatever follows
    have hbound : (bindTable tables bc' t name).2 = true := by
      cases hb : (bindTable tables bc' t name).2 with
      | true => rfl
      | false =>
        rw [hb, Bool.and_false, bindWalk_false] at hok
        cases hok
    rw [readU16_of_take (bindWalk_take (show t + 3 ≤ target + 1 by omega)) (by omega)
      (by rw [length_bindTable]; omega)]
    exact bindTable_bound hids hroom hbound

/-- The walk ends at these instructions with the result that it has. -/
def EndsWalk (bc : Bytes) (ip : Nat) : Prop :=
  bc[ip]?.bind OpCode.ofByte = some .accept ∨ bc[ip]?.bind OpCode.ofByte = some .anchor

/-- All tables of these instructions, with the id 0. -/
def allTables (bc : Bytes) (ips : List Nat) : List (Option Bytes × UInt16) :=
  ips.filterMap fun ip =>
    match bindStep bc ip with
    | .table name _ => some (some name, 0)
    | _ => none

theorem findsTable_allTables {bc : Bytes} {ips : List Nat} {ip : Nat} (h : ip ∈ ips) :
    FindsTable (allTables bc ips) bc ip := by
  intro name target hstep
  have hmem : (some name, 0) ∈ allTables bc ips :=
    List.mem_filterMap.mpr ⟨ip, h, by rw [hstep]⟩
  rw [tableNamed, Option.isSome_map, List.find?_isSome]
  exact ⟨_, hmem, beq_self_eq_true _⟩

/-- Behind an end of the walk an unbound table stays unbound. -/
theorem not_leavesNoneUnbound {bc : Bytes} {limit t stop : Nat} {later earlier : List Nat}
    (hlimit : limit ≤ bc.length) (ht : TableInstr bc limit t (later ++ stop :: earlier))
    (hunbound : (readU16 bc (t + 1)).1 = Leaf.unboundTable)
    (hin : ∀ ip ∈ earlier, InStep bc ip) (hstop : EndsWalk bc stop) :
    ¬LeavesNoneUnbound bc limit (allTables bc earlier) := by
  obtain ⟨hpath, hbefore, hwithin⟩ := ht.path.earlier hlimit
  obtain ⟨fuel, bc', ok, hwalk, hfuel, hlen, hdrop, hok⟩ :
      ∃ fuel bc' ok, snobolTemplateBindTables bc (allTables bc earlier) =
          bindWalk (allTables bc earlier) fuel stop bc' ok ∧ bc.length < fuel + stop ∧
        bc'.length = bc.length ∧ bc'.drop stop = bc.drop stop ∧
        ((∀ i ∈ earlier, FindsTable (allTables bc earlier) bc i) → ok = true) :=
    bindWalk_path hlimit hpath hin
  have hend : bindStep bc stop = .stop := by
    unfold bindStep
    obtain hstop | hstop := hstop
    · rw [hstop]
    · rw [hstop]
  obtain ⟨fuel, rfl⟩ : ∃ n, fuel = n + 1 := ⟨fuel - 1, by omega⟩
  rw [bindWalk, if_pos (by omega), bindStep_congr hlen hdrop, hend] at hwalk
  intro hleaves
  have hid : (readU16 bc' (t + 1)).1 = Leaf.unboundTable := by
    have hrest : bc'.drop (t + 1) = bc.drop (t + 1) := by
      obtain ⟨k, hk⟩ := Nat.le.dest (show stop ≤ t + 1 by omega)
      rw [← hk, ← List.drop_drop, hdrop, List.drop_drop]
    unfold readU16 at hunbound ⊢
    rwa [hrest, hlen]
  unfold LeavesNoneUnbound at hleaves
  rw [hwalk] at hleaves
  exact hleaves (hok fun i hi => findsTable_allTables hi) t _ ht hid

/-- Where the walk is in step up to every table instruction, the result 0 says that all are
bound; where it ends in front of an unbound one, the result can be 0 all the same. -/
theorem snobolTemplateBindTables_binds (bc : Bytes) (limit : Nat) (hlimit : limit ≤ bc.length) :
    ((∀ t front, TableInstr bc limit t front → ∀ ip ∈ front, InStep bc ip) →
      ∀ tables : List (Option Bytes × UInt16),
        (∀ table ∈ tables, table.2.toNat ≠ Leaf.unboundTable) → LeavesNoneUnbound bc limit tables) ∧
    (∀ t later stop earlier, TableInstr bc limit t (later ++ stop :: earlier) →
      (readU16 bc (t + 1)).1 = Leaf.unboundTable → (∀ ip ∈ earlier, InStep bc ip) →
      EndsWalk bc stop → ∃ tables : List (Option Bytes × UInt16),
        (∀ table ∈ tables, table.2.toNat ≠ Leaf.unboundTable) ∧
          ¬LeavesNoneUnbound bc limit tables) := by
  refine ⟨fun hfront tables hids => leavesNoneUnbound_of_inStep hlimit hids hfront, ?_⟩
  intro t later stop earlier ht hunbound hin hstop
  refine ⟨allTables bc earlier, ?_, not_leavesNoneUnbound hlimit ht hunbound hin hstop⟩
  intro table htable
  obtain ⟨ip, -, hip⟩ := List.mem_filterMap.mp htable
  split at hip
  · cases hip
    show (0 : UInt16).toNat ≠ Leaf.unboundTable
    decide
  · cases hip

/-- The template `x$t['']`: a text and a table. -/
def textAndTable : Bytes :=
  [17, 0, 0, 0, 9, 0, 0, 0, 1, 120, 20, 255, 255, 0, 1, 116, 0, 0, 0]

theorem snobolTemplateBindTables_binds_text :
    snobolTemplateBindTables textAndTable [(some [116], 5)] =
        (textAndTable.take 11 ++ [0, 5] ++ textAndTable.drop 13, true) ∧
      LeavesNoneUnbound textAndTable 19 [(some [116], 5)] := by
  have hpath : ∀ t front, InstrPath textAndTable 19 t front →
      t = 0 ∧ front = [] ∨ t = 10 ∧ front = [0] ∨ t = 18 ∧ front = [10, 0] := by
    intro t front h
    have htext : vmNext textAndTable 0 = some 10 := by decide +kernel
    have htable : vmNext textAndTable 10 = some 18 := by decide +kernel
    have haccept : vmNext textAndTable 18 = some 19 := by decide +kernel
    induction h with
    | start => exact .inl ⟨rfl, rfl⟩
    | next _ hnext hlt ih =>
      obtain ⟨rfl, rfl⟩ | ⟨rfl, rfl⟩ | ⟨rfl, rfl⟩ := ih
      · rw [htext] at hnext
        cases hnext
        exact .inr (.inl ⟨rfl, rfl⟩)
      · rw [htable] at hnext
        cases hnext
        exact .inr (.inr ⟨rfl, rfl⟩)
      · rw [haccept] at hnext
        cases hnext
        exact absurd hlt (Nat.lt_irrefl 19)
  have hstep : ∀ ip ∈ [10, 0], InStep textAndTable ip := by
    intro ip hip
    simp only [List.mem_cons, List.not_mem_nil, or_false] at hip
    obtain rfl | rfl := hip
    · have hkey : (readU16 textAndTable 16).1 = 0 := by decide
      show (readU8 textAndTable 13).1 = 0 → (readU16 textAndTable 16).1 < 1024
      omega
    · show (readU32 textAndTable 1).1 = 9
      decide
  refine ⟨by decide, (snobolTemplateBindTables_binds textAndTable 19 (by decide)).1
    (fun t front ht ip hip => hstep ip ?_) [(some [116], 5)] (by decide)⟩
  obtain ⟨-, rfl⟩ | ⟨-, rfl⟩ | ⟨-, rfl⟩ := hpath t front ht.path
  · cases hip
  · exact List.mem_cons_of_mem _ hip
  · exact hip

/-- An anchor in front of a table. -/
def anchoredTable : AstNode := .concat [.anchor .anchorStart, .tableAccess [0x74] (.regRef 0)]

/-- Its code. -/
def anchoredTableCode : Bytes :=
  [14, 0, 25, 255, 255, 0, 0, 1, 116, 0, 0, 0, 0, 0, 0, 0, 0, 0, 83, 78, 66, 76]

/-- The walk stops at the anchor, and the result is 0. -/
theorem snobolTemplateBindTables_stops :
    compileAstToBytecodeC .caseSensitive anchoredTable = some anchoredTableCode ∧
      snobolTemplateBindTables anchoredTableCode [(some [0x74], 5)] = (anchoredTableCode, true) ∧
      ¬LeavesNoneUnbound anchoredTableCode (snobolBcBodyLen anchoredTableCode)
        [(some [0x74], 5)] := by
  refine ⟨by decide +kernel, by decide, fun h => ?_⟩
  have hpath : InstrPath anchoredTableCode (snobolBcBodyLen anchoredTableCode) 2 [0] :=
    .next .start rfl (by decide +kernel)
  have htable : TableInstr anchoredTableCode (snobolBcBodyLen anchoredTableCode) 2 [0] :=
    ⟨hpath, ⟨.tableGet, by decide, trivial⟩, 9, rfl, by decide +kernel⟩
  exact h (by decide) 2 [0] htable (by decide)

end Snobol4
