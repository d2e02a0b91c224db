import Mathlib.Algebra.Order.BigOperators.Group.List
import Snobol4.BoundTables
import Snobol4.LiteralPrefix
import Snobol4.MatchResult
import Snobol4.TemplateBind
import Snobol4.TemplateFormat

/-!
# Template — compiling a replacement template (`compiler.c`, `vm_exec.c`)

`compile_template_to_bytecode` goes over the template once and emits one instruction a turn.
The machine emits the text of one after the other, once `snobol_template_bind_tables` has put in
the ids of the tables.
-/

namespace Snobol4

variable {W : Type}

/-! ## Instructions -/

/-- What `OP_EMIT_TABLE` takes the key from. -/
inductive TemplateKey where
  | literal (key : Bytes)
  | capture (reg : Nat)
  deriving Repr, DecidableEq

/-- The instructions of a template. -/
inductive TemplateOp where
  | literal (text : Bytes)
  | capture (reg : Nat)
  /-- `type` is one of `SNBL_FMT_*`; only a padding has a width and a fill. -/
  | format (reg type width : Nat) (fill : UInt8)
  | table (name : Bytes) (key : TemplateKey)
  deriving Repr, DecidableEq

/-- The operands of a key. -/
def TemplateKey.encode : TemplateKey → Bytes
  | .literal key => emitU16 key.length ++ key
  | .capture reg => emitU8 reg

def TemplateKey.type : TemplateKey → Nat
  | .literal _ => 0
  | .capture _ => 1

theorem TemplateKey.type_lt (key : TemplateKey) : key.type < 2 ^ 8 := by
  cases key
  · exact Nat.two_pow_pos 8
  · exact Nat.one_lt_two_pow (by decide)

namespace TemplateOp

/-- The bytes of an instruction at an address, with the ids of the tables. -/
def encode (id : Bytes → Nat) (a : Nat) : TemplateOp → Bytes
  | literal text => [OpCode.emitLiteral.code] ++ emitU32 (a + 9) ++ emitU32 text.length ++ text
  | capture reg => [OpCode.emitCapture.code] ++ emitU8 reg
  | format reg type width fill =>
      [OpCode.emitFormat.code] ++ emitU8 reg ++ emitU8 type ++
        if type = 4 ∨ type = 5 then emitU16 width ++ emitU8 fill.toNat else []
  | table name key =>
      [OpCode.emitTable.code] ++ emitU16 (id name) ++ emitU8 key.type ++ emitU8 name.length ++
        name ++ key.encode

/-- The number of bytes of an instruction. -/
def size : TemplateOp → Nat
  | literal text => 9 + text.length
  | capture _ => 2
  | format _ type _ _ => if type = 4 ∨ type = 5 then 6 else 3
  | table name (.literal key) => 7 + name.length + key.length
  | table name (.capture _) => 6 + name.length

theorem length_encode (id : Bytes → Nat) (a : Nat) (op : TemplateOp) :
    (op.encode id a).length = op.size := by
  cases op with
  | literal text =>
    simp [encode, size]
    omega
  | capture reg => rfl
  | format reg type width fill =>
    simp only [encode, size]
    split <;> rfl
  | table name key =>
    cases key <;> simp [encode, size, TemplateKey.encode] <;> omega

end TemplateOp

/-- The bytes of the instructions from an address on. -/
def encodeOps (id : Bytes → Nat) : Nat → List TemplateOp → Bytes
  | _, [] => []
  | a, op :: ops => op.encode id a ++ encodeOps id (a + op.size) ops

theorem TemplateOp.size_pos (op : TemplateOp) : 0 < op.size := by
  rcases op with text | reg | ⟨reg, type, width, fill⟩ | ⟨name, key | reg⟩
  · exact Nat.add_pos_left (by decide) _
  · exact Nat.two_pos
  · rw [TemplateOp.size]
    split <;> decide
  · rw [TemplateOp.size]
    omega
  · rw [TemplateOp.size]
    omega

theorem length_le_encodeOps (id : Bytes → Nat) (a : Nat) (ops : List TemplateOp) :
    ops.length ≤ (encodeOps id a ops).length := by
  induction ops generalizing a with
  | nil => exact Nat.zero_le _
  | cons op ops ih =>
    have hpos := op.size_pos
    have hrest := ih (a + op.size)
    rw [encodeOps, List.length_append, TemplateOp.length_encode, List.length_cons]
    omega

/-! ## The scan -/

/-- A `$` that stands for itself. -/
def dollarSign : TemplateOp := .literal [0x24]

/-- The next byte is skipped if it is this one. -/
def skipByte (b : UInt8) (tpl : Bytes) : Bytes := if tpl.head? = some b then tpl.drop 1 else tpl

/-- The value of a run of digits. -/
def digitsValue (digits : Bytes) : Nat := digits.foldl (fun n d => n * 10 + (d.toNat - 0x30)) 0

/-- `template_emit_table_lookup` behind the bracket of the key; nothing where the key is
malformed. -/
def templateEmitTableLookup (name tpl : Bytes) : Option (TemplateOp × Bytes) :=
  if tpl.head? = some 0x27 then
    let key := (tpl.drop 1).takeWhile (· != 0x27)
    let rest := tpl.drop (1 + key.length)
    if rest.head? = some 0x27 ∧ (rest.drop 1).head? = some 0x5D then
      some (.table name (.literal key), skipByte 0x5D (rest.drop 2))
    else none
  else
    let tpl := skipByte 0x76 (skipByte 0x24 tpl)
    let digits := tpl.takeWhile isDigitByte
    let rest := tpl.drop digits.length
    if digits ≠ [] ∧ rest.head? = some 0x5D then
      some (.table name (.capture (digitsValue digits)), skipByte 0x5D (rest.drop 1))
    else none

/-- A byte of a table name. -/
def isNameByte (b : UInt8) : Bool := b != 0x2E && b != 0x5B && b != 0x5D

/-- A table from its name on, behind the `$` that `rest` follows; nothing for an overlong
name. -/
def scanTable (tpl rest : Bytes) : Option (TemplateOp × Bytes) :=
  let name := tpl.takeWhile isNameByte
  let behind := tpl.drop name.length
  if name = [] ∨ behind.head? ≠ some 0x5B then some (dollarSign, rest)
  else if 255 < name.length then none
  else some ((templateEmitTableLookup name (behind.drop 1)).getD (dollarSign, rest))

/-- The fill of a padding, a space unless it is written. -/
def scanFill (tpl : Bytes) : UInt8 × Bytes :=
  if tpl.head? ≠ some 0x2C then (0x20, tpl)
  else
    let tpl := tpl.drop 1
    if tpl.head? ≠ some 0x27 then (0x20, tpl)
    else
      match tpl.drop 1 with
      | [] => (0x20, [])
      | fill :: tpl => (fill, skipByte 0x27 tpl)

/-- The width and the fill behind `lpad` or `rpad`, and where the scan goes on in any case. -/
def scanPad (tpl : Bytes) : Option (Nat × UInt8) × Bytes :=
  if tpl.head? ≠ some 0x28 then (none, tpl)
  else
    let tpl := tpl.drop 1
    let digits := tpl.takeWhile isDigitByte
    if digits = [] ∨ digits.head? = some 0x30 then (none, tpl)
    else
      let (fill, tpl) := scanFill (tpl.drop digits.length)
      if tpl.head? = some 0x29 then (some (digitsValue digits, fill), tpl.drop 1) else (none, tpl)

def upperCall : Bytes := [0x75, 0x70, 0x70, 0x65, 0x72, 0x28, 0x29]

def lowerCall : Bytes := [0x6C, 0x6F, 0x77, 0x65, 0x72, 0x28, 0x29]

def lengthCall : Bytes := [0x6C, 0x65, 0x6E, 0x67, 0x74, 0x68, 0x28, 0x29]

def lpadName : Bytes := [0x6C, 0x70, 0x61, 0x64]

def rpadName : Bytes := [0x72, 0x70, 0x61, 0x64]

/-- The format behind a register, of type 0 if there is none. -/
def scanFormat (reg : Nat) (tpl : Bytes) : TemplateOp × Bytes :=
  if tpl.head? ≠ some 0x2E then (.capture reg, tpl)
  else
    let tpl := tpl.drop 1
    let pad (type : Nat) : TemplateOp × Bytes :=
      let (format, rest) := scanPad (tpl.drop 4)
      (format.elim (.capture reg) fun (width, fill) => .format reg type width fill, rest)
    if upperCall.isPrefixOf tpl then (.format reg 1 0 0x20, tpl.drop 7)
    else if lowerCall.isPrefixOf tpl then (.format reg 2 0 0x20, tpl.drop 7)
    else if lengthCall.isPrefixOf tpl then (.format reg 3 0 0x20, tpl.drop 8)
    else if lpadName.isPrefixOf tpl then pad 4
    else if rpadName.isPrefixOf tpl then pad 5
    else (.capture reg, tpl)

/-- The instruction for what follows a `$`, and where the scan goes on; nothing where the
compiler gives up. -/
def scanDollar (rest : Bytes) : Option (TemplateOp × Bytes) :=
  let tpl := skipByte 0x7B rest
  if tpl.head? = some 0x76 then
    let digits := (tpl.drop 1).takeWhile isDigitByte
    let tpl := tpl.drop (1 + digits.length)
    if digits = [] then some (dollarSign, rest)
    else if rest.head? = some 0x7B then
      let (op, tpl) := scanFormat (digitsValue digits) tpl
      if tpl.head? = some 0x7D then some (op, tpl.drop 1) else some (dollarSign, rest)
    else if tpl.head? = some 0x5B then scanTable (tpl.drop 1) rest
    else some (.capture (digitsValue digits), tpl)
  else scanTable tpl rest

/-- The loop of `compile_template_to_bytecode`, in at most the given number of turns. -/
def templateOps : Nat → Bytes → Option (List TemplateOp)
  | _, [] => some []
  | 0, _ :: _ => none
  | turns + 1, b :: tpl =>
      if b = 0x24 then do
        let (op, rest) ← scanDollar tpl
        let ops ← templateOps turns rest
        return op :: ops
      else do
        let text := (b :: tpl).takeWhile (· != 0x24)
        let ops ← templateOps turns ((b :: tpl).drop text.length)
        return .literal text :: ops

/-- The code of a template, with the ids of the tables. -/
def templateCode (id : Bytes → Nat) (ops : List TemplateOp) : Bytes :=
  encodeOps id 0 ops ++ [OpCode.accept.code]

/-- `compile_template_to_bytecode`; every turn takes a byte at least. -/
def compileTemplateToBytecode (tpl : Bytes) : Option Bytes :=
  (templateOps tpl.length tpl).map (templateCode fun _ => Leaf.unboundTable)

/-! ## The machine -/

/-- The text of a capture that is set. -/
def captureText (s : Bytes) (regs : Regs) (r : Nat) : Option Bytes :=
  if r < maxCaps ∧ regs.capStart r ≤ regs.capEnd r ∧ regs.capEnd r ≤ s.length then
    some (slice s (regs.capStart r) (regs.capEnd r))
  else none

/-- Emit the value of a key, if there is one. -/
def emitValue (host : Host W) (table : Nat) (key : Option Bytes) (g : Globals W) : Globals W :=
  match key.bind fun key => (host.tableGet g.world table).bind (· (cString key)) with
  | some value => emitText host (cString value) g
  | none => g

/-- `OP_EMIT_TABLE`: the address behind its operands and the state after the output. -/
def opEmitTable (host : Host W) (bc s : Bytes) (ip : Nat) (regs : Regs) (g : Globals W) :
    Nat × Globals W :=
  let (table, ip) := readU16 bc ip
  let (keyType, ip) := readU8 bc ip
  let (nameLen, ip) := readU8 bc ip
  let ip := ip + nameLen
  if keyType = 0 then
    let (keyLen, ip) := readU16 bc ip
    if 0 < keyLen ∧ keyLen < 1024 then
      (ip + keyLen, emitValue host table (some ((bc.drop ip).take keyLen)) g)
    else (ip, g)
  else if keyType = 1 then
    let (r, ip) := readU8 bc ip
    (ip, emitValue host table (captureText s regs r) g)
  else (ip, g)

/-- A turn of `vm_run`, with the handlers of the two instructions that only templates have. -/
def templateStep (env : VmEnv W) (vm : Vm W) : StepResult W :=
  match env.bc[vm.ip]?.bind OpCode.ofByte with
  | some .emitTable =>
      let (ip, globals) := opEmitTable env.host env.bc env.s (vm.ip + 1) vm.regs vm.globals
      .running { vm with ip, globals }
  | some .emitFormat =>
      let (ip, globals) := opEmitFormat env.host env.bc env.s (vm.ip + 1) vm.regs vm.globals
      .running { vm with ip, globals }
  | _ => vmStep env vm

/-- Up to `n` turns. -/
def templateSteps (env : VmEnv W) : Nat → Vm W → StepResult W
  | 0, vm => .running vm
  | n + 1, vm =>
      match templateStep env vm with
      | .running vm => templateSteps env n vm
      | .halted ok vm => .halted ok vm

/-! ## What an instruction stands for -/

/-- The register of a byte operand. -/
def regByte (reg : Nat) : Nat := reg % 2 ^ 8

/-- The key that is looked up. -/
def TemplateKey.text (s : Bytes) (regs : Regs) : TemplateKey → Option Bytes
  | .literal key => if key = [] then none else some key
  | .capture reg => captureText s regs (regByte reg)

/-- What an instruction stands for; nothing where there is nothing to emit. -/
def TemplateOp.expansion (host : Host W) (id : Bytes → Nat) (s : Bytes) (regs : Regs) (w : W) :
    TemplateOp → Option Bytes
  | .literal text => some text
  | .capture reg => captureText s regs (regByte reg)
  | .format reg type width fill =>
      (captureText s regs (regByte reg)).map (formatText type (width % 2 ^ 16) fill)
  | .table name key =>
      ((key.text s regs).bind fun key =>
        (host.tableGet w (id name)).bind (· (cString key))).map cString

/-- The state after an instruction. -/
def TemplateOp.emit (host : Host W) (id : Bytes → Nat) (s : Bytes) (regs : Regs) (g : Globals W)
    (op : TemplateOp) : Globals W :=
  (op.expansion host id s regs g.world).elim g (emitText host · g)

/-- The operands of an instruction fit their fields. -/
def TemplateOp.Fits (id : Bytes → Nat) : TemplateOp → Prop
  | .literal text => text.length < 2 ^ 32
  | .capture _ => True
  | .format _ type _ _ => 0 < type ∧ type < 6
  | .table name key => id name < 2 ^ 16 ∧ name.length < 2 ^ 8 ∧
      ∀ text, key = .literal text → text.length < 1024

section

variable {env : VmEnv W} {id : Bytes → Nat} {a : Nat}

/-- An opcode at an address. -/
theorem op_of_initial {bc x : Bytes} {o : OpCode} (h : [o.code] ++ x <+: bc.drop a) :
    bc[a]?.bind OpCode.ofByte = some o := by
  rw [opcode_of_initial h, Option.bind_some, OpCode.ofByte_code]

/-- The machine passes the instruction and emits what it stands for. -/
def GoesPast (env : VmEnv W) (vm : Vm W) (ip : Nat) (g : Globals W) : Prop :=
  ∃ vm', templateStep env vm = .running vm' ∧ vm'.ip = ip ∧ vm'.globals = g ∧ vm'.regs = vm.regs

/-- Instructions that pattern code has too. -/
theorem goesPast_leaf {l : Leaf Nat} {vm : Vm W} {g : Globals W} (hip : vm.ip = a)
    (hcode : l.encode a <+: env.bc.drop a) (hfits : l.Fits) (hshort : a + l.size < 2 ^ 32)
    {p : Prim} (hinstr : l.instr a = .prim p)
    (hexec : p.exec env vm.pos vm.regs vm.globals = .next vm.pos vm.regs [] g)
    (hop : env.bc[a]?.bind OpCode.ofByte ≠ some .emitTable)
    (hop' : env.bc[a]?.bind OpCode.ofByte ≠ some .emitFormat) :
    GoesPast env vm (a + l.size) g := by
  have hfetch := Leaf.fetch_eq hcode hfits hshort
  rw [hinstr] at hfetch
  have hstep : templateStep env vm = vmStep env vm := by
    rw [templateStep, hip]
    split
    · exact absurd ‹_› hop
    · exact absurd ‹_› hop'
    · rfl
  rw [GoesPast, hstep, vmStep, hip, hfetch]
  dsimp only
  rw [hexec]
  refine ⟨_, rfl, rfl, rfl, ?_⟩
  dsimp only [Store.record]
  split <;> rfl

theorem goesPast_literal {text : Bytes} {vm : Vm W} (hip : vm.ip = a)
    (hcode : (TemplateOp.literal text).encode id a <+: env.bc.drop a)
    (hshort : a + (9 + text.length) < 2 ^ 32) :
    GoesPast env vm (a + (9 + text.length)) (emitText env.host text vm.globals) := by
  have hleaf : (Leaf.emitLiteral text).encode a <+: env.bc.drop a := hcode
  have hop : env.bc[a]?.bind OpCode.ofByte = some .emitLiteral := by
    refine op_of_initial (x := emitU32 (a + 9) ++ (emitU32 text.length ++ text)) ?_
    simpa [TemplateOp.encode] using hcode
  refine goesPast_leaf hip hleaf trivial hshort rfl ?_ (by rw [hop]; simp) (by rw [hop]; simp)
  have hsplit : [OpCode.emitLiteral.code] ++ emitU32 (a + 9) ++ emitU32 text.length ++ text <+:
      env.bc.drop a := hcode
  have htext : (env.bc.drop (a + 9)).take text.length = text :=
    (List.prefix_iff_eq_take.mp (prefix_right hsplit rfl)).symm
  rw [Prim.exec, htext]

theorem goesPast_capture {reg : Nat} {vm : Vm W} (hip : vm.ip = a)
    (hcode : (TemplateOp.capture reg).encode id a <+: env.bc.drop a)
    (hshort : a + 2 < 2 ^ 32) :
    GoesPast env vm (a + 2)
      ((TemplateOp.capture reg).emit env.host id env.s vm.regs vm.globals) := by
  have hleaf : (Leaf.emitCapture (regByte reg)).encode a <+: env.bc.drop a := by
    rw [Leaf.encode, regByte, emitU8_mod]
    exact hcode
  have hop : env.bc[a]?.bind OpCode.ofByte = some .emitCapture := op_of_initial hcode
  refine goesPast_leaf hip hleaf (Nat.mod_lt _ (by decide)) hshort rfl ?_ (by rw [hop]; simp)
    (by rw [hop]; simp)
  rw [Prim.exec, opEmitCapture, TemplateOp.emit, TemplateOp.expansion, captureText]
  split <;> rfl

/-- The operands of a format, and the two more of a padding. -/
theorem opEmitFormat_eq {host : Host W} {bc t : Bytes} {ip reg type width : Nat} {fill : UInt8}
    {regs : Regs} {g : Globals W} (hfits : type < 6)
    (hcode : emitU8 reg ++ emitU8 type ++
      (if type = 4 ∨ type = 5 then emitU16 width ++ emitU8 fill.toNat else []) <+: bc.drop ip) :
    opEmitFormat host bc t ip regs g =
      (ip + if type = 4 ∨ type = 5 then 5 else 2,
        ((captureText t regs (regByte reg)).map (formatText type
          (if type = 4 ∨ type = 5 then width % 2 ^ 16 else 0)
          (if type = 4 ∨ type = 5 then fill else 0))).elim g (emitText host · g)) := by
  rw [← emitU8_mod reg] at hcode
  have hhead := prefix_left hcode
  have hreg := readU8_of_initial (prefix_left hhead) (Nat.mod_lt reg (by decide))
  have htype := readU8_of_initial (prefix_right hhead (n := ip + 1) rfl)
    (show type < 2 ^ 8 by omega)
  have hrest := prefix_right hcode (n := ip + 2) rfl
  have htext : ∀ width' fill' : Nat, ∀ ip' : Nat,
      (if regByte reg < maxCaps ∧ regs.capStart (regByte reg) ≤ regs.capEnd (regByte reg) ∧
          regs.capEnd (regByte reg) ≤ t.length then
        (ip', emitText host (formatText type width' (UInt8.ofNat fill')
          (slice t (regs.capStart (regByte reg)) (regs.capEnd (regByte reg)))) g)
      else (ip', g)) =
      (ip', ((captureText t regs (regByte reg)).map
        (formatText type width' (UInt8.ofNat fill'))).elim g (emitText host · g)) := by
    intro width' fill' ip'
    rw [captureText]
    split <;> rfl
  by_cases hpad : type = 4 ∨ type = 5
  · rw [if_pos hpad, ← emitU16_mod width] at hrest
    have hwidth := readU16_of_initial (prefix_left hrest) (Nat.mod_lt width (by decide))
    have hfill := readU8_of_initial (prefix_right hrest (n := ip + 4) rfl) fill.toNat_lt
    simp only [opEmitFormat, hreg, htype, if_pos hpad, hwidth, hfill]
    have hall := htext (width % 2 ^ 16) fill.toNat (ip + 5)
    rw [UInt8.ofNat_toNat] at hall ⊢
    exact hall
  · simp only [opEmitFormat, hreg, htype, if_neg hpad]
    exact htext 0 0 (ip + 2)

theorem goesPast_format {reg type width : Nat} {fill : UInt8} {vm : Vm W} (hip : vm.ip = a)
    (hcode : (TemplateOp.format reg type width fill).encode id a <+: env.bc.drop a)
    (hfits : 0 < type ∧ type < 6) :
    GoesPast env vm (a + (TemplateOp.format reg type width fill).size)
      ((TemplateOp.format reg type width fill).emit env.host id env.s vm.regs vm.globals) := by
  have hcode : [OpCode.emitFormat.code] ++ (emitU8 reg ++ emitU8 type ++
      (if type = 4 ∨ type = 5 then emitU16 width ++ emitU8 fill.toNat else [])) <+:
        env.bc.drop a := by
    simpa [TemplateOp.encode] using hcode
  have hformat := @opEmitFormat_eq W env.host env.bc env.s (a + 1) reg type width fill vm.regs
    vm.globals hfits.2 (prefix_right hcode rfl)
  have hstep : templateStep env vm = .running
      { vm with
        ip := (opEmitFormat env.host env.bc env.s (a + 1) vm.regs vm.globals).1
        globals := (opEmitFormat env.host env.bc env.s (a + 1) vm.regs vm.globals).2 } := by
    rw [templateStep, hip, op_of_initial hcode]
  refine ⟨_, hstep, ?_, ?_, rfl⟩
  · dsimp only
    rw [hformat, TemplateOp.size]
    dsimp only
    split <;> omega
  · dsimp only
    rw [hformat, TemplateOp.emit, TemplateOp.expansion]
    dsimp only
    by_cases hpad : type = 4 ∨ type = 5
    · rw [if_pos hpad, if_pos hpad]
    · -- without padding neither the width nor the fill is looked at
      have hplain : formatText type 0 0 = formatText type (width % 2 ^ 16) fill := by
        funext data
        unfold formatText
        rw [if_neg fun h => hpad (.inl h), if_neg fun h => hpad (.inr h), if_neg fun h =>
          hpad (.inl h), if_neg fun h => hpad (.inr h)]
      rw [if_neg hpad, if_neg hpad, hplain]

theorem emit_table {host : Host W} {t : Bytes} {regs : Regs} {g : Globals W} (name : Bytes)
    (key : TemplateKey) : (TemplateOp.table name key).emit host id t regs g =
      emitValue host (id name) (key.text t regs) g := by
  rw [TemplateOp.emit, TemplateOp.expansion, emitValue]
  split
  · rename_i value hvalue
    rw [hvalue]
    rfl
  · rename_i hvalue
    rw [hvalue]
    rfl

theorem goesPast_table {name : Bytes} {key : TemplateKey} {vm : Vm W} (hip : vm.ip = a)
    (hcode : (TemplateOp.table name key).encode id a <+: env.bc.drop a)
    (hfits : (TemplateOp.table name key).Fits id) :
    GoesPast env vm (a + (TemplateOp.table name key).size)
      ((TemplateOp.table name key).emit env.host id env.s vm.regs vm.globals) := by
  obtain ⟨hid, hname, hkey⟩ := hfits
  have hcode : [OpCode.emitTable.code] ++ (emitU16 (id name) ++ (emitU8 key.type ++
      (emitU8 name.length ++ (name ++ key.encode)))) <+: env.bc.drop a := by
    simpa [TemplateOp.encode] using hcode
  have hops := prefix_right hcode (n := a + 1) rfl
  have htable := readU16_of_initial (prefix_left hops) hid
  have hops := prefix_right hops (n := a + 3) rfl
  have htype := readU8_of_initial (prefix_left hops) key.type_lt
  have hops := prefix_right hops (n := a + 4) rfl
  have hlen := readU8_of_initial (prefix_left hops) hname
  have hops := prefix_right (prefix_right hops (n := a + 5) rfl) (n := a + 5 + name.length) rfl
  have hemit : opEmitTable env.host env.bc env.s (a + 1) vm.regs vm.globals =
      (a + (TemplateOp.table name key).size,
        (TemplateOp.table name key).emit env.host id env.s vm.regs vm.globals) := by
    rw [opEmitTable, htable]
    dsimp only
    rw [show a + 1 + 2 = a + 3 from rfl, htype]
    dsimp only
    rw [show a + 3 + 1 = a + 4 from rfl, hlen]
    dsimp only
    rw [show a + 4 + 1 = a + 5 from rfl]
    cases key with
    | literal text =>
      have hshort := hkey text rfl
      have hops : emitU16 text.length ++ text <+: env.bc.drop (a + 5 + name.length) := hops
      have hkeyLen := readU16_of_initial (prefix_left hops) (show text.length < 2 ^ 16 by omega)
      have htext : (env.bc.drop (a + 5 + name.length + 2)).take text.length = text :=
        (List.prefix_iff_eq_take.mp (prefix_right hops rfl)).symm
      rw [show TemplateKey.type (.literal text) = 0 from rfl, if_pos rfl, hkeyLen]
      dsimp only
      rw [htext, emit_table, TemplateKey.text, TemplateOp.size]
      by_cases hnil : text = []
      · subst hnil
        rw [if_neg (by simp), if_pos rfl]
        refine Prod.ext ?_ rfl
        simp
        omega
      · have hpos := List.length_pos_of_ne_nil hnil
        rw [if_pos ⟨hpos, hshort⟩, if_neg hnil]
        refine Prod.ext ?_ rfl
        dsimp only
        omega
    | capture reg =>
      have hops : emitU8 reg <+: env.bc.drop (a + 5 + name.length) := hops
      rw [← emitU8_mod] at hops
      have hreg := readU8_of_initial hops (Nat.mod_lt reg (by decide))
      rw [show TemplateKey.type (.capture reg) = 1 from rfl, if_neg (by decide), if_pos rfl, hreg,
        emit_table, TemplateKey.text, TemplateOp.size]
      refine Prod.ext ?_ rfl
      dsimp only
      omega
  have hstep : templateStep env vm = .running
      { vm with
        ip := (opEmitTable env.host env.bc env.s (a + 1) vm.regs vm.globals).1
        globals := (opEmitTable env.host env.bc env.s (a + 1) vm.regs vm.globals).2 } := by
    rw [templateStep, hip, op_of_initial hcode]
  refine ⟨_, hstep, ?_, ?_, rfl⟩
  · exact congrArg Prod.fst hemit
  · exact congrArg Prod.snd hemit

/-- Every instruction of a template is passed. -/
theorem goesPast {op : TemplateOp} {vm : Vm W} (hip : vm.ip = a)
    (hcode : op.encode id a <+: env.bc.drop a) (hfits : op.Fits id)
    (hshort : a + op.size < 2 ^ 32) :
    GoesPast env vm (a + op.size) (op.emit env.host id env.s vm.regs vm.globals) := by
  cases op with
  | literal text => exact goesPast_literal hip hcode hshort
  | capture reg => exact goesPast_capture hip hcode hshort
  | format reg type width fill => exact goesPast_format hip hcode hfits
  | table name key => exact goesPast_table hip hcode hfits

/-- The code of a template emits its instructions one after the other. -/
theorem templateSteps_ops {ops : List TemplateOp} {vm : Vm W} (hip : vm.ip = a)
    (hcode : encodeOps id a ops ++ [OpCode.accept.code] <+: env.bc.drop a)
    (hfits : ∀ op ∈ ops, op.Fits id) (hshort : a + (ops.map TemplateOp.size).sum < 2 ^ 32) :
    ∃ final, templateSteps env (ops.length + 1) vm = .halted true final ∧
      final.regs = vm.regs ∧
      final.globals =
        ops.foldl (fun g op => op.emit env.host id env.s vm.regs g) vm.globals := by
  induction ops generalizing a vm with
  | nil =>
    have hop : env.bc[vm.ip]?.bind OpCode.ofByte = some .accept := by
      rw [hip]
      exact op_of_initial (x := []) hcode
    obtain ⟨b, hb, hfetch⟩ := fetch_of_op hop
    have hstep : templateStep env vm = .halted true { vm with ip := vm.ip + 1 } := by
      rw [templateStep, hop]
      dsimp only
      rw [vmStep, hfetch]
      simp only [operands, hb]
    refine ⟨{ vm with ip := vm.ip + 1 }, ?_, rfl, rfl⟩
    rw [List.length_nil, templateSteps, hstep]
  | cons op ops ih =>
    rw [encodeOps, List.append_assoc] at hcode
    rw [List.map_cons, List.sum_cons] at hshort
    obtain ⟨vm', hstep, hip', hglobals, hregs⟩ := goesPast hip (prefix_left hcode)
      (hfits op List.mem_cons_self) (by omega)
    obtain ⟨final, hrun, hregs', hfinal⟩ := ih hip'
      (prefix_right hcode (by rw [TemplateOp.length_encode]))
      (fun op' hop' => hfits op' (List.mem_cons_of_mem _ hop')) (by omega)
    refine ⟨final, ?_, hregs'.trans hregs, ?_⟩
    · rw [List.length_cons, templateSteps, hstep]
      exact hrun
    · rw [hfinal, hglobals, hregs, List.foldl_cons]

end

/-! ## Binding -/

/-- The id of a name once the tables are bound. -/
def boundId (tables : List (Option Bytes × UInt16)) (name : Bytes) : Nat :=
  (tableNamed tables name).elim Leaf.unboundTable UInt16.toNat

/-- The table of an instruction is among these. -/
def TemplateOp.found (tables : List (Option Bytes × UInt16)) : TemplateOp → Bool
  | .table name _ => (tableNamed tables name).isSome
  | _ => true

theorem boundId_lt (tables : List (Option Bytes × UInt16)) (name : Bytes) :
    boundId tables name < 2 ^ 16 := by
  unfold boundId
  cases tableNamed tables name with
  | none => decide
  | some id => exact id.toNat_lt

theorem TemplateOp.Fits.of_id {id id' : Bytes → Nat} {op : TemplateOp} (h : op.Fits id)
    (hid : ∀ name, id' name < 2 ^ 16) : op.Fits id' := by
  cases op with
  | table name key => exact ⟨hid name, h.2⟩
  | _ => exact h

section

variable {tables : List (Option Bytes × UInt16)} {id : Bytes → Nat}

/-- The walk steps over what is not a table. -/
theorem bindStep_plain {op : TemplateOp} {bc : Bytes} {a : Nat}
    (hcode : op.encode id a <+: bc.drop a) (hfits : op.Fits id)
    (htable : ∀ name key, op ≠ .table name key) : bindStep bc a = .next (a + op.size) := by
  have hlen := hcode.length_le
  rw [TemplateOp.length_encode, List.length_drop] at hlen
  cases op with
  | literal text =>
    simp only [TemplateOp.encode, List.append_assoc] at hcode
    have hops := prefix_right (prefix_right hcode (n := a + 1) rfl) (n := a + 1 + 4) (by simp)
    have htext := readU32_of_initial (prefix_left hops) hfits
    rw [TemplateOp.size] at hlen ⊢
    simp only [bindStep, op_of_initial hcode, htext]
    rw [if_neg (by omega)]
    congr 1
    omega
  | capture reg =>
    simp only [bindStep, op_of_initial hcode]
    rfl
  | format reg type width fill =>
    simp only [TemplateOp.encode, List.append_assoc] at hcode
    have hops := prefix_right (prefix_right hcode (n := a + 1) rfl) (n := a + 1 + 1) rfl
    have htype := readU8_of_initial (prefix_left hops) (Nat.lt_trans hfits.2 (by decide))
    simp only [bindStep, op_of_initial hcode, htype]
    rw [TemplateOp.size] at hlen ⊢
    have hroom : ¬bc.length < a + 1 + 2 := by
      split at hlen <;> omega
    rw [if_neg hroom]
    by_cases hpad : type = 4 ∨ type = 5
    · rw [if_pos hpad, if_pos hpad]
    · rw [if_neg hpad, if_neg hpad]
  | table name key => exact absurd rfl (htable name key)

/-- At a table it finds the name. -/
theorem bindStep_table {name : Bytes} {key : TemplateKey} {bc : Bytes} {a : Nat}
    (hcode : (TemplateOp.table name key).encode id a <+: bc.drop a)
    (hfits : (TemplateOp.table name key).Fits id) :
    bindStep bc a = .table name (some (a + (TemplateOp.table name key).size)) := by
  have hroom := hcode.length_le
  rw [TemplateOp.length_encode, List.length_drop] at hroom
  obtain ⟨hid, hname, hkey⟩ := hfits
  simp only [TemplateOp.encode, List.append_assoc] at hcode
  have hops := prefix_right (prefix_right hcode (n := a + 1) rfl) (n := a + 1 + 2) rfl
  have htype := readU8_of_initial (prefix_left hops) key.type_lt
  have hops := prefix_right hops (n := a + 1 + 3) rfl
  have hlen := readU8_of_initial (prefix_left hops) hname
  have hops := prefix_right hops (n := a + 1 + 4) rfl
  have htext : (bc.drop (a + 1 + 4)).take name.length = name :=
    (List.prefix_iff_eq_take.mp (prefix_left hops)).symm
  have hops := prefix_right hops (n := a + 1 + 4 + name.length) rfl
  simp only [bindStep, op_of_initial hcode, htype, hlen, htext]
  cases key with
  | literal text =>
    rw [TemplateOp.size] at hroom ⊢
    have hshort := hkey text rfl
    have hlength : emitU16 text.length <+: bc.drop (a + 1 + 4 + name.length) := prefix_left hops
    have hkeyLen := readU16_of_initial hlength (show text.length < 2 ^ 16 by omega)
    rw [if_neg (by omega), if_neg (by omega), bindKeyNext, TemplateKey.type, if_pos rfl,
      if_neg (by omega), hkeyLen]
    congr 2
    omega
  | capture reg =>
    rw [TemplateOp.size] at hroom ⊢
    rw [if_neg (by omega), if_neg (by omega), bindKeyNext, TemplateKey.type, if_neg (by decide),
      if_pos rfl]
    congr 2
    omega

/-- The table instruction afterwards. -/
theorem bindTable_op {name : Bytes} {key : TemplateKey} {pre post : Bytes} :
    bindTable tables (pre ++ ((TemplateOp.table name key).encode (fun _ => Leaf.unboundTable)
        pre.length ++ post)) pre.length name =
      (pre ++ ((TemplateOp.table name key).encode (boundId tables) pre.length ++ post),
        (TemplateOp.table name key).found tables) := by
  simp only [TemplateOp.encode, List.append_assoc]
  generalize hrest : emitU8 key.type ++ (emitU8 name.length ++ (name ++ (key.encode ++ post))) =
    rest
  have hcode := drop_pre pre ([OpCode.emitTable.code] ++ (emitU16 Leaf.unboundTable ++ rest)) rfl
  have hid := readU16_of_initial
    (prefix_left (prefix_right (prefix_of_drop hcode) (n := pre.length + 1) rfl)) (by decide)
  rw [bindTable, hid, if_pos rfl, boundId, TemplateOp.found]
  cases tableNamed tables name with
  | none => rfl
  | some id =>
    dsimp only
    rw [writeTableId_eq]
    rfl

/-- Binding a template puts in the ids and looks at every name. -/
theorem bindWalk_ops {ops : List TemplateOp} {pre : Bytes} {fuel : Nat} {ok : Bool}
    (hfits : ∀ op ∈ ops, op.Fits fun _ => Leaf.unboundTable) (hfuel : ops.length < fuel) :
    bindWalk tables fuel pre.length
        (pre ++ (encodeOps (fun _ => Leaf.unboundTable) pre.length ops ++
          [OpCode.accept.code])) ok =
      (pre ++ (encodeOps (boundId tables) pre.length ops ++ [OpCode.accept.code]),
        ok && ops.all (TemplateOp.found tables)) := by
  induction ops generalizing pre fuel ok with
  | nil =>
    obtain ⟨fuel, rfl⟩ : ∃ n, fuel = n + 1 := ⟨fuel - 1, by omega⟩
    have hop := op_of_initial (x := [])
      (prefix_of_drop (drop_pre pre ([OpCode.accept.code] ++ []) rfl))
    simp only [encodeOps, List.nil_append, List.append_nil, List.all_nil, Bool.and_true]
      at hop ⊢
    rw [bindWalk, if_pos (by simp), bindStep, hop]
  | cons op ops ih =>
    obtain ⟨fuel, rfl⟩ : ∃ n, fuel = n + 1 := ⟨fuel - 1, by omega⟩
    rw [List.length_cons] at hfuel
    have hop := hfits op List.mem_cons_self
    have hrest := fun op' hop' => hfits op' (List.mem_cons_of_mem op hop')
    -- what stands behind the instruction, with the instruction in front of it
    have hnext : ∀ id (ok : Bool), bindWalk tables fuel (pre.length + op.size)
        (pre ++ (op.encode id pre.length ++ (encodeOps (fun _ => Leaf.unboundTable)
          (pre.length + op.size) ops ++ [OpCode.accept.code]))) ok =
        (pre ++ (op.encode id pre.length ++ (encodeOps (boundId tables)
          (pre.length + op.size) ops ++ [OpCode.accept.code])),
          ok && ops.all (TemplateOp.found tables)) := by
      intro id ok
      have hlen : (pre ++ op.encode id pre.length).length = pre.length + op.size := by
        rw [List.length_append, TemplateOp.length_encode]
      have hwalk := @ih (pre ++ op.encode id pre.length) fuel ok hrest
        (Nat.lt_of_succ_lt_succ hfuel)
      rw [hlen] at hwalk
      simpa only [List.append_assoc] using hwalk
    have hcode : ∀ id : Bytes → Nat, op.encode id pre.length <+: (pre ++ (op.encode id pre.length ++
        (encodeOps (fun _ => Leaf.unboundTable) (pre.length + op.size) ops ++
          [OpCode.accept.code]))).drop pre.length := by
      intro id
      exact prefix_left (prefix_of_drop (drop_pre pre _ rfl))
    simp only [encodeOps, List.append_assoc]
    rw [bindWalk, if_pos (by
      have hsize := TemplateOp.length_encode (fun _ => Leaf.unboundTable) pre.length op
      simp)]
    cases op with
    | table name key =>
      rw [bindStep_table (hcode _) hop]
      dsimp only
      rw [bindTable_op, hnext, List.all_cons, Bool.and_assoc]
    | literal text =>
      rw [bindStep_plain (hcode _) hop fun _ _ h => by cases h]
      exact hnext _ ok
    | capture reg =>
      rw [bindStep_plain (hcode _) hop fun _ _ h => by cases h]
      exact hnext _ ok
    | format reg type width fill =>
      rw [bindStep_plain (hcode _) hop fun _ _ h => by cases h]
      exact hnext _ ok

end

/-! ## What the scan yields -/

/-- The instructions that the scan makes: a text is not empty, the type of a format is known and
a name has its length in a byte. -/
def TemplateOp.Scanned : TemplateOp → Prop
  | .literal text => text ≠ []
  | .capture _ => True
  | .format _ type _ _ => 0 < type ∧ type < 6
  | .table name _ => name ≠ [] ∧ name.length < 2 ^ 8

/-- Such an instruction, with the rest of the template behind it. -/
def Yields (tpl : Bytes) (found : TemplateOp × Bytes) : Prop :=
  found.1.Scanned ∧ found.2.length ≤ tpl.length

section

variable {tpl rest name : Bytes} {found : TemplateOp × Bytes}

theorem Yields.mono {tpl' : Bytes} (h : Yields tpl' found) (hle : tpl'.length ≤ tpl.length) :
    Yields tpl found :=
  ⟨h.1, h.2.trans hle⟩

theorem yields_dollarSign (h : rest.length ≤ tpl.length) : Yields tpl (dollarSign, rest) :=
  ⟨List.cons_ne_nil _ _, h⟩

theorem length_skipByte (b : UInt8) (tpl : Bytes) : (skipByte b tpl).length ≤ tpl.length := by
  unfold skipByte
  split
  · rw [List.length_drop]
    exact Nat.sub_le _ _
  · exact Nat.le_refl _

theorem length_drop_le (n : Nat) (tpl : Bytes) : (tpl.drop n).length ≤ tpl.length := by
  rw [List.length_drop]
  exact Nat.sub_le _ _

theorem templateEmitTableLookup_yields (hname : name ≠ [] ∧ name.length < 2 ^ 8)
    (h : templateEmitTableLookup name tpl = some found) : Yields tpl found := by
  unfold templateEmitTableLookup at h
  split at h
  · dsimp only at h
    split at h
    · cases h
      refine ⟨hname, (length_skipByte _ _).trans ?_⟩
      exact (length_drop_le _ _).trans (length_drop_le _ _)
    · cases h
  · dsimp only at h
    split at h
    · cases h
      refine ⟨hname, (length_skipByte _ _).trans ((length_drop_le _ _).trans ?_)⟩
      exact (length_drop_le _ _).trans ((length_skipByte _ _).trans (length_skipByte _ _))
    · cases h

theorem scanTable_yields {whole : Bytes} (htpl : tpl.length ≤ whole.length)
    (hrest : rest.length ≤ whole.length) (h : scanTable tpl rest = some found) :
    Yields whole found := by
  unfold scanTable at h
  dsimp only at h
  split at h
  · cases h
    exact yields_dollarSign hrest
  · rename_i hname
    split at h
    · cases h
    · rename_i hshort
      cases hlook : templateEmitTableLookup
          (tpl.takeWhile isNameByte)
          ((tpl.drop (tpl.takeWhile isNameByte).length).drop 1) with
      | none =>
        rw [hlook] at h
        cases h
        exact yields_dollarSign hrest
      | some found' =>
        rw [hlook] at h
        cases h
        have hyields :=
          templateEmitTableLookup_yields ⟨fun hnil => hname (.inl hnil), by omega⟩ hlook
        refine hyields.mono ?_
        exact ((length_drop_le _ _).trans (length_drop_le _ _)).trans htpl

theorem length_scanFill (tpl : Bytes) : (scanFill tpl).2.length ≤ tpl.length := by
  unfold scanFill
  split
  · exact Nat.le_refl _
  dsimp only
  split
  · exact length_drop_le 1 tpl
  · split
    · exact Nat.zero_le _
    · rename_i fill rest hdrop
      have hlen := congrArg List.length hdrop
      rw [List.length_cons, List.drop_drop, List.length_drop] at hlen
      refine (length_skipByte _ _).trans ?_
      omega

theorem length_scanPad (tpl : Bytes) : (scanPad tpl).2.length ≤ tpl.length := by
  unfold scanPad
  split
  · exact Nat.le_refl _
  dsimp only
  have hdrop := length_drop_le 1 tpl
  split
  · exact hdrop
  · have hfill := (length_scanFill ((tpl.drop 1).drop
      ((tpl.drop 1).takeWhile isDigitByte).length)).trans (length_drop_le _ _)
    split
    · exact (length_drop_le _ _).trans (hfill.trans hdrop)
    · exact hfill.trans hdrop

theorem scanFormat_yields (reg : Nat) (tpl : Bytes) : Yields tpl (scanFormat reg tpl) := by
  have hpad : ∀ type, 0 < type → type < 6 → ∀ rest : Bytes, rest.length ≤ tpl.length →
      Yields tpl ((scanPad rest).1.elim (.capture reg) fun (width, fill) =>
        .format reg type width fill, (scanPad rest).2) := by
    intro type hpos hlt rest hrest
    refine ⟨?_, (length_scanPad rest).trans hrest⟩
    cases (scanPad rest).1 with
    | none => exact trivial
    | some format => exact ⟨hpos, hlt⟩
  have hdrop : ∀ n, ((tpl.drop 1).drop n).length ≤ tpl.length := fun n =>
    (length_drop_le _ _).trans (length_drop_le _ _)
  unfold scanFormat
  split
  · exact ⟨trivial, Nat.le_refl _⟩
  dsimp only
  split
  · exact ⟨⟨by decide, by decide⟩, hdrop 7⟩
  split
  · exact ⟨⟨by decide, by decide⟩, hdrop 7⟩
  split
  · exact ⟨⟨by decide, by decide⟩, hdrop 8⟩
  split
  · exact hpad 4 (by decide) (by decide) _ (hdrop 4)
  split
  · exact hpad 5 (by decide) (by decide) _ (hdrop 4)
  · exact ⟨trivial, length_drop_le 1 tpl⟩

/-- What follows a `$` takes no bytes back. -/
theorem scanDollar_yields (h : scanDollar rest = some found) : Yields rest found := by
  unfold scanDollar at h
  dsimp only at h
  have hskip := length_skipByte 0x7B rest
  generalize skipByte 0x7B rest = tpl at h hskip
  split at h
  · split at h
    · cases h
      exact yields_dollarSign (Nat.le_refl _)
    · have hbehind := (length_drop_le (1 + ((tpl.drop 1).takeWhile isDigitByte).length)
        tpl).trans hskip
      split at h
      · have hformat := scanFormat_yields (digitsValue ((tpl.drop 1).takeWhile isDigitByte))
          (tpl.drop (1 + ((tpl.drop 1).takeWhile isDigitByte).length))
        split at h
        · cases h
          exact ⟨hformat.1, ((length_drop_le _ _).trans hformat.2).trans hbehind⟩
        · cases h
          exact yields_dollarSign (Nat.le_refl _)
      split at h
      · exact scanTable_yields ((length_drop_le _ _).trans hbehind) (Nat.le_refl _) h
      · cases h
        exact ⟨trivial, hbehind⟩
  · exact scanTable_yields hskip (Nat.le_refl _) h

/-- The instructions of a template are such instructions. -/
theorem templateOps_scanned {turns : Nat} {ops : List TemplateOp}
    (h : templateOps turns tpl = some ops) : ∀ op ∈ ops, op.Scanned := by
  induction turns generalizing tpl ops with
  | zero =>
    cases tpl with
    | nil =>
      cases h
      exact fun op hop => absurd hop List.not_mem_nil
    | cons b tpl => cases h
  | succ turns ih =>
    cases tpl with
    | nil =>
      cases h
      exact fun op hop => absurd hop List.not_mem_nil
    | cons b tpl =>
      rw [templateOps] at h
      split at h
      · obtain ⟨found, hfound, h⟩ := Option.bind_eq_some_iff.mp h
        obtain ⟨ops', hops', h⟩ := Option.bind_eq_some_iff.mp h
        cases h
        exact List.forall_mem_cons.mpr ⟨(scanDollar_yields hfound).1, ih hops'⟩
      · rename_i hb
        obtain ⟨ops', hops', h⟩ := Option.bind_eq_some_iff.mp h
        cases h
        refine List.forall_mem_cons.mpr ⟨?_, ih hops'⟩
        show List.takeWhile (· != 0x24) (b :: tpl) ≠ []
        rw [List.takeWhile_cons, if_pos (bne_iff_ne.mpr hb)]
        exact List.cons_ne_nil _ _

end

/-! ## From the template to the output -/

section

variable {env : VmEnv W} {id : Bytes → Nat}

/-- The state after some instructions. -/
def emitOps (env : VmEnv W) (id : Bytes → Nat) (regs : Regs) (ops : List TemplateOp)
    (g : Globals W) : Globals W :=
  ops.foldl (fun g op => op.emit env.host id env.s regs g) g

/-- Without a callback the texts come one after the other into the buffer. -/
theorem emitOps_out {regs : Regs} {ops : List TemplateOp} {g : Globals W}
    (hemit : env.host.emitFn = none) (hout : env.host.hasOut = true) :
    emitOps env id regs ops g =
      { g with out := g.out ++ ops.flatMap fun op =>
          (op.expansion env.host id env.s regs g.world).getD [] } := by
  induction ops generalizing g with
  | nil =>
    rw [emitOps, List.foldl_nil, List.flatMap_nil, List.append_nil]
  | cons op ops ih =>
    have hone : op.emit env.host id env.s regs g =
        { g with out := g.out ++ (op.expansion env.host id env.s regs g.world).getD [] } := by
      rw [TemplateOp.emit]
      cases op.expansion env.host id env.s regs g.world with
      | none => rw [Option.elim_none, Option.getD_none, List.append_nil]
      | some text =>
        simp only [Option.elim_some, Option.elim_none, Option.getD_some, emitText, hemit, hout,
          if_pos]
    have hrest := @ih { g with
      out := g.out ++ (op.expansion env.host id env.s regs g.world).getD [] }
    rw [emitOps] at hrest
    rw [emitOps, List.foldl_cons, hone, hrest, List.flatMap_cons, List.append_assoc]

end

theorem fits_of_scanned {op : TemplateOp} (h : op.Scanned) (hsize : op.size < 2 ^ 32)
    (hkey : ∀ name text, op = .table name (.literal text) → text.length < 1024) :
    op.Fits fun _ => Leaf.unboundTable := by
  cases op with
  | literal text =>
    rw [TemplateOp.size] at hsize
    show text.length < 2 ^ 32
    omega
  | capture reg => trivial
  | format reg type width fill => exact h
  | table name key =>
    refine ⟨show Leaf.unboundTable < 2 ^ 16 by decide, h.2, ?_⟩
    rintro text rfl
    exact hkey name text rfl

/-- The code of a template, once its tables are bound, runs to its end over any capture
registers and leaves them, and what it emits is what the instructions of the template stand for, one after the
other; binding succeeds if and only if every name is known. -/
theorem compileTemplate_expands {tpl : Bytes} {ops : List TemplateOp}
    (hops : templateOps tpl.length tpl = some ops)
    (hkeys : ∀ name text, .table name (.literal text) ∈ ops → text.length < 1024)
    (hshort : (ops.map TemplateOp.size).sum < 2 ^ 32) (tables : List (Option Bytes × UInt16)) :
    ∃ bc, compileTemplateToBytecode tpl = some bc ∧
      (snobolTemplateBindTables bc tables).2 = ops.all (TemplateOp.found tables) ∧
      ∀ (env : VmEnv W) (vm : Vm W), env.bc = (snobolTemplateBindTables bc tables).1 → vm.ip = 0 →
        ∃ final, templateSteps env (ops.length + 1) vm = .halted true final ∧
          final.regs = vm.regs ∧ final.globals = emitOps env (boundId tables) vm.regs ops vm.globals ∧
          (env.host.emitFn = none → env.host.hasOut = true →
            final.globals.world = vm.globals.world ∧
            final.globals.out = vm.globals.out ++ ops.flatMap fun op =>
              (op.expansion env.host (boundId tables) env.s vm.regs vm.globals.world).getD []) := by
  have hfits : ∀ op ∈ ops, op.Fits fun _ => Leaf.unboundTable := by
    intro op hop
    have hsize : op.size ≤ (ops.map TemplateOp.size).sum :=
      List.le_sum_of_mem (List.mem_map_of_mem hop)
    refine fits_of_scanned (templateOps_scanned hops op hop) (by omega) ?_
    rintro name text rfl
    exact hkeys name text hop
  have hcode : compileTemplateToBytecode tpl =
      some (templateCode (fun _ => Leaf.unboundTable) ops) := by
    rw [compileTemplateToBytecode, hops, Option.map_some]
  have hlength : ops.length < (templateCode (fun _ => Leaf.unboundTable) ops).length + 1 := by
    have hcount := length_le_encodeOps (fun _ => Leaf.unboundTable) 0 ops
    rw [templateCode, List.length_append]
    omega
  have hbound : snobolTemplateBindTables (templateCode (fun _ => Leaf.unboundTable) ops) tables =
      (templateCode (boundId tables) ops, ops.all (TemplateOp.found tables)) :=
    @bindWalk_ops tables ops [] _ true hfits hlength
  refine ⟨_, hcode, by rw [hbound], ?_⟩
  intro env vm hbc hip
  rw [hbound] at hbc
  have hinitial : encodeOps (boundId tables) 0 ops ++ [OpCode.accept.code] <+: env.bc.drop 0 := by
    rw [hbc]
    exact List.prefix_rfl
  obtain ⟨final, hrun, hregs, hglobals⟩ := templateSteps_ops hip hinitial
    (fun op hop => (hfits op hop).of_id (boundId_lt tables)) (by omega)
  refine ⟨final, hrun, hregs, hglobals, ?_⟩
  intro hemit hout
  have hglobals : final.globals = emitOps env (boundId tables) vm.regs ops vm.globals := hglobals
  rw [emitOps_out hemit hout] at hglobals
  rw [hglobals]
  exact ⟨rfl, rfl⟩

/-- A host with a table under the id 5, in which `ab` has the value `x`. -/
def oneTableHost : Host Unit where
  __ := Host.bare
  tableGet _ id :=
    if id = 5 then some fun key => if key = ascii "ab" then some (ascii "x") else none else none

/-- The registers of a match of the whole subject `ab` in the capture 0. -/
def wholeCapture : Regs where
  capStart _ := 0
  capEnd r := if r = 0 then 2 else 0
  varStart _ := 0
  varEnd _ := 0
  varCount := 0
  maxCapUsed := 1

/-- A template with a text, a format, a table and a `$` for itself. -/
theorem compileTemplate_expands_table :
    ∃ bc, compileTemplateToBytecode (ascii "<$\x7bv0.upper()\x7d$t[$v0]$") = some bc ∧
      ∀ (env : VmEnv Unit) (vm : Vm Unit), env.host = oneTableHost → env.s = ascii "ab" →
        env.bc = (snobolTemplateBindTables bc [(some (ascii "t"), 5)]).1 → vm.ip = 0 →
        vm.regs = wholeCapture → vm.globals.out = [] →
        ∃ final, templateSteps env 5 vm = .halted true final ∧
          final.globals.out = ascii "<ABx$" := by
  have hops : templateOps (ascii "<$\x7bv0.upper()\x7d$t[$v0]$").length
      (ascii "<$\x7bv0.upper()\x7d$t[$v0]$") =
      some [.literal (ascii "<"), .format 0 1 0 0x20, .table (ascii "t") (.capture 0),
        dollarSign] := by decide
  obtain ⟨bc, hbc, -, hrun⟩ := @compileTemplate_expands Unit _ _ hops (by
    intro name text hmem
    simp [dollarSign] at hmem) (by decide) [(some (ascii "t"), 5)]
  refine ⟨bc, hbc, ?_⟩
  intro env vm hhost hsubject hcode hip hregs hempty
  obtain ⟨final, hsteps, -, -, hout⟩ := hrun env vm hcode hip
  refine ⟨final, hsteps, ?_⟩
  rw [(hout (by rw [hhost]; rfl) (by rw [hhost]; rfl)).2, hempty, hhost, hsubject, hregs]
  rfl

end Snobol4
