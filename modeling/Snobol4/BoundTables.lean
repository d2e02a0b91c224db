import Snobol4.VmPath
import Mathlib.Data.List.TakeWhile
import Snobol4.TableMap

/-!
# BoundTables — the tables that a pattern reads and writes (`vm_exec.c`, `table.c`)

`OP_TABLE_GET` and `OP_TABLE_SET` copy the captured texts into buffers and hand them to
`table_get` and `table_set`, which measure them with `strlen`.  The same run over a host
whose tables are finite maps says what the pattern asks for.
-/

namespace Snobol4

/-- The bytes before the first NUL. -/
def cString (s : Bytes) : Bytes := s.takeWhile (· != 0)

/-- `table_get` -/
def tableGet (t : SnobolTable) (key : Bytes) : Option (Option Bytes) := tableGetEx t (cString key)

/-- `table_set` with a value -/
def tableSet (t : SnobolTable) (key value : Bytes) : Option SnobolTable :=
  tableSetEx t (cString key) (some (cString value))

theorem cString_eq_self {s : Bytes} (h : 0 ∉ s) : cString s = s := by
  refine List.takeWhile_eq_self_iff.mpr fun b hb => ?_
  rw [bne_iff_ne]
  rintro rfl
  exact h hb

/-! ## Hosts with tables -/

/-- The tables of a program by object, beside the rest of its state. -/
structure WithTables (T W : Type) where
  world : W
  tables : Nat → T

variable {T T' W : Type}

/-- `vm_get_table`: the object that is registered under an id. -/
def vmGetTable (registered : List (Option Nat)) (id : Nat) : Option Nat := registered[id]?.join

/-- The host with the tables registered in the VM; its callbacks leave them alone. -/
def Host.withTables (host : Host W) (registered : List (Option Nat)) (get : T → Bytes → Option Bytes)
    (set : T → Bytes → Bytes → Option T) : Host (WithTables T W) where
  evalFn := host.evalFn.map fun f fn start stop w =>
    ((f fn start stop w.world).1, { w with world := (f fn start stop w.world).2 })
  emitFn := host.emitFn.map fun f text w => { w with world := f text w.world }
  hasOut := host.hasOut
  tableGet w id := (vmGetTable registered id).map fun obj => get (w.tables obj)
  tableSet w id := (vmGetTable registered id).map fun obj key value =>
    (set (w.tables obj) key value).map fun t => { w with tables := Function.update w.tables obj t }
  trim := host.trim
  reverse := host.reverse
  upper := host.upper
  lower := host.lower
  integer := host.integer
  real := host.real
  numeric := host.numeric

/-- The host with the tables of `table.c`. -/
def Host.withSnobolTables (host : Host W) (registered : List (Option Nat)) :
    Host (WithTables SnobolTable W) :=
  host.withTables registered (fun t key => (Snobol4.tableGet t key).join)
    Snobol4.tableSet

/-- The host whose tables are finite maps. -/
def Host.withMaps (host : Host W) (registered : List (Option Nat)) : Host (WithTables ByteMap W) :=
  host.withTables registered (fun m key => m.lookup key) fun m key value =>
    some (m.insert key value)

/-- The environment with another host. -/
def VmEnv.withHost (env : VmEnv W) (host : Host T) : VmEnv T where
  bc := env.bc
  s := env.s
  rangeMeta := env.rangeMeta
  rangeMeta_eq := env.rangeMeta_eq
  compact := env.compact
  labelOffsets := env.labelOffsets
  host

/-- The state of the VM with other globals. -/
def Vm.withGlobals (vm : Vm W) (g : Globals T) : Vm T where
  toStore := vm.toStore
  ip := vm.ip
  pos := vm.pos
  loopMin := vm.loopMin
  loopMax := vm.loopMax
  loopSpanGreedy := vm.loopSpanGreedy
  globals := g
  inGotoFail := vm.inGotoFail
  abortFlag := vm.abortFlag
  choices := vm.choices

section

variable (env : VmEnv W) (host : Host T) (vm : Vm W) (g : Globals T)

theorem opRepeatInit_withGlobals (loop min max skip : Nat) :
    opRepeatInit (env.withHost host) loop min max skip (vm.withGlobals g) =
      (opRepeatInit env loop min max skip vm).withGlobals g := by
  unfold opRepeatInit
  split
  · split <;> rfl
  · rfl

theorem greedyExtend_withGlobals (loop target : Nat) :
    greedyExtend (env.withHost host) loop target (vm.withGlobals g) =
      (greedyExtend env loop target vm).withGlobals g := by
  have hrun : greedyRunEnd (env.withHost host) target (vm.withGlobals g).pos =
      greedyRunEnd env target vm.pos := rfl
  unfold greedyExtend
  rw [hrun]
  split <;> rfl

theorem opRepeatGreedy_withGlobals (loop target : Nat) :
    opRepeatGreedy (env.withHost host) loop target (vm.withGlobals g) =
      (opRepeatGreedy env loop target vm).withGlobals g := by
  unfold opRepeatGreedy
  rw [greedyExtend_withGlobals]
  generalize greedyExtend env loop target vm = ext
  have hbehind : (ext.withGlobals g).loopLastPos loop < (ext.withGlobals g).pos ↔
      ext.loopLastPos loop < ext.pos := Iff.rfl
  by_cases hpos : ext.loopLastPos loop < ext.pos
  · simp only [if_pos hpos, if_pos (hbehind.mpr hpos)]
    rfl
  · simp only [if_neg hpos, if_neg (mt hbehind.mp hpos)]
    rfl

theorem opRepeatIterate_withGlobals (loop target : Nat) :
    opRepeatIterate (env.withHost host) loop target (vm.withGlobals g) =
      (opRepeatIterate env loop target vm).withGlobals g := by
  unfold opRepeatIterate
  simp only [apply_ite fun v : Vm W => v.withGlobals g]
  rfl

theorem opRepeatStep_withGlobals (loop target : Nat) :
    opRepeatStep (env.withHost host) loop target (vm.withGlobals g) =
      (opRepeatStep env loop target vm).withGlobals g := by
  have htakes : takesGreedy (env.withHost host) loop target (vm.withGlobals g) =
      takesGreedy env loop target vm := rfl
  unfold opRepeatStep
  rw [htakes]
  split
  · split
    · exact opRepeatGreedy_withGlobals env host
        { vm with loopSpanGreedy := Function.update vm.loopSpanGreedy loop true } g loop target
    · exact opRepeatIterate_withGlobals env host vm g loop target
  · rfl

theorem opBreakx_withGlobals (setId here : Nat) :
    opBreakx (env.withHost host) setId here (vm.withGlobals g) =
      (opBreakx env setId here vm).withGlobals g := by
  have hranges : (env.withHost host).ranges setId = env.ranges setId := rfl
  unfold opBreakx
  rw [hranges]
  simp only [apply_ite fun v : Vm W => v.withGlobals g]
  rfl

theorem opRepeatInit_globals (loop min max skip : Nat) :
    (opRepeatInit env loop min max skip vm).globals = vm.globals := by
  have hframe := congrArg Vm.globals (opRepeatInit_withGlobals env env.host vm vm.globals loop min max skip)
  exact hframe

theorem opRepeatStep_globals (loop target : Nat) :
    (opRepeatStep env loop target vm).globals = vm.globals := by
  have hframe := congrArg Vm.globals (opRepeatStep_withGlobals env env.host vm vm.globals loop target)
  exact hframe

theorem opBreakx_globals (setId here : Nat) : (opBreakx env setId here vm).globals = vm.globals := by
  have hframe := congrArg Vm.globals (opBreakx_withGlobals env env.host vm vm.globals setId here)
  exact hframe

end

/-! ## Two runs side by side -/

/-- The table stores the map. -/
def SnobolTable.Holds (t : SnobolTable) (m : ByteMap) : Prop := t.toOpen.Represents tableKeying m 1

/-- The same output, host state and table contents. -/
structure Globals.Mirrors (g : Globals (WithTables SnobolTable W)) (g' : Globals (WithTables ByteMap W)) :
    Prop where
  out : g.out = g'.out
  world : g.world.world = g'.world.world
  tables : ∀ obj, (g.world.tables obj).Holds (g'.world.tables obj)

/-- The same outcome of an instruction, but for the globals. -/
inductive PrimResult.Mirrors :
    PrimResult (WithTables SnobolTable W) → PrimResult (WithTables ByteMap W) → Prop where
  | next {g : Globals (WithTables SnobolTable W)} {g' : Globals (WithTables ByteMap W)} (pos : Nat)
      (regs : Regs) (undo : List UndoRecord) (h : g.Mirrors g') :
      Mirrors (.next pos regs undo g) (.next pos regs undo g')
  | fail {g : Globals (WithTables SnobolTable W)} {g' : Globals (WithTables ByteMap W)}
      (h : g.Mirrors g') : Mirrors (.fail g) (.fail g')
  | leave {g : Globals (WithTables SnobolTable W)} {g' : Globals (WithTables ByteMap W)}
      (h : g.Mirrors g') : Mirrors (.leave g) (.leave g')

/-- The same turn of the loop, but for the globals. -/
inductive StepResult.Mirrors :
    StepResult (WithTables SnobolTable W) → StepResult (WithTables ByteMap W) → Prop where
  | running {v : Vm (WithTables SnobolTable W)} {g' : Globals (WithTables ByteMap W)}
      (h : v.globals.Mirrors g') : Mirrors (.running v) (.running (v.withGlobals g'))
  | halted {v : Vm (WithTables SnobolTable W)} {g' : Globals (WithTables ByteMap W)} (ok : Bool)
      (h : v.globals.Mirrors g') : Mirrors (.halted ok v) (.halted ok (v.withGlobals g'))

/-- No text that a table instruction passes on has a NUL, and a table that it writes has
room for the key. -/
def Prim.TextsWhole (env : VmEnv (WithTables SnobolTable W)) (registered : List (Option Nat))
    (regs : Regs) (tables : Nat → SnobolTable) : Prim → Prop
  | .tableGet _ key _ => ∀ text ∈ keyText env.s regs key, 0 ∉ text
  | .tableSet table key value =>
      ∀ text ∈ keyText env.s regs key, ∀ stored ∈ keyText env.s regs value,
        0 ∉ text ∧ 0 ∉ stored ∧
          ∀ obj ∈ vmGetTable registered table, (tables obj).Safe (.set text (some stored))
  | _ => True

/-- The instruction at the cursor, if it is a table instruction, passes on whole texts. -/
def Vm.TextsWhole (env : VmEnv (WithTables SnobolTable W)) (registered : List (Option Nat))
    (vm : Vm (WithTables SnobolTable W)) : Prop :=
  ∀ p next, fetch env.bc vm.ip = some (.prim p, next) →
    p.TextsWhole env registered vm.regs vm.globals.world.tables

theorem SnobolTable.Holds.tableGet {t : SnobolTable} {m : ByteMap} (h : t.Holds m) (key : Bytes) :
    Snobol4.tableGet t key = some (m.lookup (cString key)) :=
  (tableGetEx_eq t (cString key)).trans (h.get_eq (cString key))

theorem SnobolTable.Holds.tableSet {t : SnobolTable} {m : ByteMap} (h : t.Holds m) {key value : Bytes}
    (hsafe : t.Safe (.set (cString key) (some (cString value)))) :
    ∃ t', Snobol4.tableSet t key value = some t' ∧
      t'.Holds (m.insert (cString key) (cString value)) := by
  obtain ⟨u, hrun, hholds, -⟩ := OpenTable.Represents.setSome h (cString key) (cString value)
  have hset := (tableSetEx_eq t (cString key) (some (cString value))).trans hrun
  obtain ⟨t', ht', rfl⟩ := Option.map_eq_some_iff.mp hset
  exact ⟨t', ht', hholds ((tableSafe_iff t _).mp hsafe)⟩

section

variable {host : Host W} {registered : List (Option Nat)}
  {g : Globals (WithTables SnobolTable W)} {g' : Globals (WithTables ByteMap W)}

theorem Globals.Mirrors.emitText (h : g.Mirrors g') (text : Bytes) :
    (Snobol4.emitText (host.withSnobolTables registered) text g).Mirrors
      (Snobol4.emitText (host.withMaps registered) text g') := by
  cases hf : host.emitFn with
  | none =>
    simp only [Snobol4.emitText, Host.withSnobolTables, Host.withMaps, Host.withTables, hf]
    exact ⟨by rw [h.out], h.world, h.tables⟩
  | some f =>
    simp only [Snobol4.emitText, Host.withSnobolTables, Host.withMaps, Host.withTables, hf]
    exact ⟨by rw [h.out], congrArg (f text) h.world, h.tables⟩

/-- The library functions print the same text. -/
theorem Globals.Mirrors.evalText (h : g.Mirrors g') (text : Option Bytes) :
    (Snobol4.evalText (host.withSnobolTables registered) text g).1 =
        (Snobol4.evalText (host.withMaps registered) text g').1 ∧
      (Snobol4.evalText (host.withSnobolTables registered) text g).2.Mirrors
        (Snobol4.evalText (host.withMaps registered) text g').2 := by
  cases text with
  | none => exact ⟨rfl, h⟩
  | some text => exact ⟨rfl, h.emitText text⟩

variable (host registered) in
theorem Globals.Mirrors.evalCall (h : g.Mirrors g') (s : Bytes) (fn start stop : Nat) :
    (Snobol4.evalCall (host.withSnobolTables registered) s fn start stop g).1 =
        (Snobol4.evalCall (host.withMaps registered) s fn start stop g').1 ∧
      (Snobol4.evalCall (host.withSnobolTables registered) s fn start stop g).2.Mirrors
        (Snobol4.evalCall (host.withMaps registered) s fn start stop g').2 := by
  unfold Snobol4.evalCall
  split
  · exact ⟨rfl, h⟩
  · exact h.evalText _
  · exact h.evalText _
  · exact h.evalText _
  · exact h.evalText _
  · exact ⟨rfl, h⟩
  · exact ⟨rfl, h⟩
  · exact ⟨rfl, h⟩
  · cases hf : host.evalFn with
    | none =>
      simp only [Host.withSnobolTables, Host.withMaps, Host.withTables, hf]
      exact ⟨rfl, h⟩
    | some f =>
      simp only [Host.withSnobolTables, Host.withMaps, Host.withTables, hf, Option.map_some, h.world]
      exact ⟨trivial, h.out, rfl, h.tables⟩

theorem PrimResult.Mirrors.moveTo (h : g.Mirrors g') (regs : Regs) (target : Option Nat) :
    (Snobol4.moveTo regs g target).Mirrors (Snobol4.moveTo regs g' target) := by
  cases target with
  | none => exact .fail h
  | some pos => exact .next pos regs [] h

theorem PrimResult.Mirrors.eval (h : g.Mirrors g') (s : Bytes) (fn r pos : Nat) (regs : Regs) :
    (opEval (host.withSnobolTables registered) s fn r pos regs g).Mirrors
      (opEval (host.withMaps registered) s fn r pos regs g') := by
  unfold opEval
  split
  · exact .fail h
  · split
    · obtain ⟨hok, hg⟩ := h.evalCall host registered s fn (regs.capStart r) (regs.capEnd r)
      generalize Snobol4.evalCall (host.withSnobolTables registered) s fn (regs.capStart r)
        (regs.capEnd r) g = res at hok hg
      generalize Snobol4.evalCall (host.withMaps registered) s fn (regs.capStart r)
        (regs.capEnd r) g' = res' at hok hg
      obtain ⟨ok, g₁⟩ := res
      obtain ⟨ok', g₁'⟩ := res'
      obtain rfl : ok = ok' := hok
      cases ok with
      | true => exact .next pos regs [] hg
      | false => exact .fail hg
    · exact .fail h

theorem PrimResult.Mirrors.tableGet (h : g.Mirrors g') {s : Bytes} {regs : Regs} {key : Nat}
    (hkey : ∀ text ∈ keyText s regs key, 0 ∉ text) (table pos : Nat) :
    (opTableGet (host.withSnobolTables registered) s table key pos regs g).Mirrors
      (opTableGet (host.withMaps registered) s table key pos regs g') := by
  unfold opTableGet
  simp only [Host.withSnobolTables, Host.withMaps, Host.withTables]
  cases vmGetTable registered table with
  | none => exact .leave h
  | some obj =>
    simp only [Option.map_some]
    cases htext : keyText s regs key with
    | none => exact .leave h
    | some text =>
      have hwhole := cString_eq_self (hkey text htext)
      have hfound := (h.tables obj).tableGet text
      rw [hwhole] at hfound
      simp only [hfound, Option.join_some]
      cases (g'.world.tables obj).lookup text with
      | none => exact .leave h
      | some value => exact .next pos regs [] h

theorem PrimResult.Mirrors.tableSet (h : g.Mirrors g') {s : Bytes} {regs : Regs} {table key value : Nat}
    (hwhole : ∀ text ∈ keyText s regs key, ∀ stored ∈ keyText s regs value,
      0 ∉ text ∧ 0 ∉ stored ∧
        ∀ obj ∈ vmGetTable registered table, (g.world.tables obj).Safe (.set text (some stored)))
    (pos : Nat) :
    (opTableSet (host.withSnobolTables registered) s table key value pos regs g).Mirrors
      (opTableSet (host.withMaps registered) s table key value pos regs g') := by
  unfold opTableSet
  simp only [Host.withSnobolTables, Host.withMaps, Host.withTables]
  cases hobj : vmGetTable registered table with
  | none => exact .leave h
  | some obj =>
    simp only [Option.map_some]
    cases htext : keyText s regs key with
    | none => exact .leave h
    | some text =>
      cases hstored : keyText s regs value with
      | none => exact .leave h
      | some stored =>
        obtain ⟨hk, hv, hsafe⟩ := hwhole text htext stored hstored
        have hkey := cString_eq_self hk
        have hvalue := cString_eq_self hv
        have hroom := hsafe obj hobj
        rw [← hkey, ← hvalue] at hroom
        obtain ⟨t, hset, hholds⟩ := (h.tables obj).tableSet hroom
        rw [hkey, hvalue] at hholds
        simp only [hset, Option.map_some]
        refine .next pos regs [] ⟨h.out, h.world, fun o => ?_⟩
        by_cases ho : o = obj
        · subst ho
          simpa only [Function.update_self] using hholds
        · simpa only [Function.update_of_ne ho] using h.tables o

theorem PrimResult.Mirrors.emitCapture (h : g.Mirrors g') (s : Bytes) (r pos : Nat) (regs : Regs) :
    (opEmitCapture (host.withSnobolTables registered) s r pos regs g).Mirrors
      (opEmitCapture (host.withMaps registered) s r pos regs g') := by
  unfold opEmitCapture
  split
  · exact .next pos regs [] (h.emitText _)
  · exact .next pos regs [] h

theorem PrimResult.Mirrors.bal (h : g.Mirrors g') (s : Bytes) (openCp closeCp pos : Nat)
    (regs : Regs) :
    (opBal s openCp closeCp pos regs g).Mirrors (opBal s openCp closeCp pos regs g') := by
  unfold opBal
  split
  · exact .leave h
  · split
    · exact .moveTo h regs _
    · exact .leave h

variable {env : VmEnv W}

theorem Prim.exec_mirrors (h : g.Mirrors g') {p : Prim} {regs : Regs}
    (hwhole : p.TextsWhole (env.withHost (host.withSnobolTables registered)) registered regs
      g.world.tables) (pos : Nat) :
    (p.exec (env.withHost (host.withSnobolTables registered)) pos regs g).Mirrors
      (p.exec (env.withHost (host.withMaps registered)) pos regs g') := by
  cases p with
  | nop => exact .next pos regs [] h
  | lit off len => exact .moveTo h regs _
  | set op id => exact .moveTo h regs _
  | capStart r => exact .next pos _ _ h
  | capEnd r => exact .next pos _ _ h
  | assign var r => exact .next pos _ _ h
  | count op n => exact .moveTo h regs _
  | eval fn r => exact .eval h env.s fn r pos regs
  | anchor type => exact .moveTo h regs _
  | emitLiteral off len => exact .next pos regs [] (h.emitText _)
  | emitCapture r => exact .emitCapture h env.s r pos regs
  | label id => exact .next pos regs [] h
  | tableGet table key reg => exact .tableGet h hwhole table pos
  | tableSet table key value => exact .tableSet h hwhole pos
  | bal openCp closeCp => exact .bal h env.s openCp closeCp pos regs
  | rem => exact .next _ regs [] h

variable {v : Vm (WithTables SnobolTable W)}

theorem StepResult.Mirrors.backtrack (h : v.globals.Mirrors g') :
    v.backtrack.Mirrors (v.withGlobals g').backtrack := by
  unfold Vm.backtrack
  have hchoices : (v.withGlobals g').choices = v.choices := rfl
  rw [hchoices]
  cases v.choices with
  | nil => exact .halted false h
  | cons c rest => exact .running (v := v.restore c rest) h

theorem StepResult.Mirrors.leave (h : v.globals.Mirrors g') :
    v.leave.Mirrors (v.withGlobals g').leave := by
  unfold Vm.leave
  have hchoices : (v.withGlobals g').choices = v.choices := rfl
  rw [hchoices]
  cases v.choices with
  | nil => exact .halted false h
  | cons c rest => exact .halted (v := v.restore c rest) false h

theorem StepResult.Mirrors.apply {r : PrimResult (WithTables SnobolTable W)}
    {r' : PrimResult (WithTables ByteMap W)} (hr : r.Mirrors r') :
    (v.apply (env.withHost (host.withSnobolTables registered)) r).Mirrors
      ((v.withGlobals g').apply (env.withHost (host.withMaps registered)) r') := by
  cases hr with
  | next pos regs undo h =>
    exact .running (v := { v with
      toStore := { v.toStore with regs }.record (env.withHost (host.withSnobolTables registered)) undo
      pos
      globals := _ }) h
  | fail h => exact .backtrack (v := { v with globals := _ }) h
  | leave h => exact .leave (v := { v with globals := _ }) h

theorem StepResult.Mirrors.moved (h : v.globals.Mirrors g') {vm₁ : Vm (WithTables SnobolTable W)}
    {vm₁' : Vm (WithTables ByteMap W)} (hglobals : vm₁.globals = v.globals)
    (heq : vm₁' = vm₁.withGlobals g') : Mirrors (.running vm₁) (.running vm₁') := by
  subst heq
  refine .running ?_
  rwa [hglobals]

/-- One turn of the loop. -/
theorem vmStep_mirrors (h : v.globals.Mirrors g')
    (hwhole : v.TextsWhole (env.withHost (host.withSnobolTables registered)) registered) :
    (vmStep (env.withHost (host.withSnobolTables registered)) v).Mirrors
      (vmStep (env.withHost (host.withMaps registered)) (v.withGlobals g')) := by
  let envT := env.withHost (host.withSnobolTables registered)
  have hfetch : fetch (env.withHost (host.withMaps registered)).bc (v.withGlobals g').ip =
      fetch (env.withHost (host.withSnobolTables registered)).bc v.ip := rfl
  unfold vmStep
  rw [hfetch]
  cases hinstr : fetch (env.withHost (host.withSnobolTables registered)).bc v.ip with
  | none => exact .backtrack h
  | some found =>
    obtain ⟨instr, next⟩ := found
    cases instr with
    | prim p =>
      exact .apply (v := { v with ip := next })
        (Prim.exec_mirrors h (hwhole p next hinstr) v.pos)
    | accept => exact .halted (v := { v with ip := next }) true h
    | fail => exact .backtrack (v := { v with ip := next }) h
    | jmp target => exact .running (v := { v with ip := target }) h
    | split a b => exact .moved h rfl rfl
    | repeatInit loop min max skip =>
      exact .moved h (opRepeatInit_globals _ _ loop min max skip)
        (opRepeatInit_withGlobals envT _ { v with ip := next } g' loop min max skip)
    | repeatStep loop target =>
      exact .moved h (opRepeatStep_globals _ _ loop target)
        (opRepeatStep_withGlobals envT _ { v with ip := next } g' loop target)
    | goto label =>
      have hlabels : (env.withHost (host.withMaps registered)).labelOffsets =
          (env.withHost (host.withSnobolTables registered)).labelOffsets := rfl
      simp only [hlabels]
      cases (env.withHost (host.withSnobolTables registered)).labelOffsets[label]? with
      | none => exact .backtrack (v := { v with ip := next, inGotoFail := true }) h
      | some target => exact .running (v := { v with ip := target }) h
    | breakx setId =>
      exact .moved h (opBreakx_globals _ _ setId v.ip)
        (opBreakx_withGlobals envT _ { v with ip := next } g' setId v.ip)
    | fence => exact .running (v := { v with ip := next, choices := [] }) h
    | abort =>
      exact .halted (v := { v with ip := next, abortFlag := true, choices := [] }) false h
    | succeed => exact .halted (v := { v with ip := next }) true h
    | unknown op => exact .backtrack (v := { v with ip := next }) h

end

/-- A run whose table instructions all pass on whole texts is, turn by turn, the run over maps. -/
theorem vmSteps_mirrors {W : Type} {env : VmEnv W} {host : Host W}
    {registered : List (Option Nat)} {start : Vm (WithTables SnobolTable W)} {maps : Nat → ByteMap}
    (hstart : ∀ obj, (start.globals.world.tables obj).Holds (maps obj))
    (hwhole : ∀ vm, VmReach (env.withHost (host.withSnobolTables registered)) start vm →
      vm.TextsWhole (env.withHost (host.withSnobolTables registered)) registered) (n : Nat) :
    (vmSteps (env.withHost (host.withSnobolTables registered)) n (vmRunStart start)).Mirrors
      (vmSteps (env.withHost (host.withMaps registered)) n
        (vmRunStart (start.withGlobals ⟨start.globals.out, start.globals.world.world, maps⟩))) := by
  -- by induction on the number of turns, from any state of the run
  suffices hgen : ∀ vm g', VmReach (env.withHost (host.withSnobolTables registered)) start vm →
      vm.globals.Mirrors g' →
        (vmSteps (env.withHost (host.withSnobolTables registered)) n vm).Mirrors
          (vmSteps (env.withHost (host.withMaps registered)) n (vm.withGlobals g')) from
    hgen (vmRunStart start) ⟨start.globals.out, start.globals.world.world, maps⟩ .start
      ⟨rfl, rfl, hstart⟩
  induction n with
  | zero =>
    intro vm g' _ h
    exact .running h
  | succ n ih =>
    intro vm g' hreach h
    have hturn := vmStep_mirrors h (hwhole vm hreach)
    rw [vmSteps, vmSteps]
    cases hstep : vmStep (env.withHost (host.withSnobolTables registered)) vm with
    | running vm₁ =>
      rw [hstep] at hturn
      cases hstep' : vmStep (env.withHost (host.withMaps registered)) (vm.withGlobals g') with
      | running vm₁' =>
        rw [hstep'] at hturn
        cases hturn with
        | running h₁ => exact ih vm₁ _ (hreach.step hstep) h₁
      | halted ok vm₁' =>
        rw [hstep'] at hturn
        cases hturn
    | halted ok vm₁ =>
      rw [hstep] at hturn
      cases hstep' : vmStep (env.withHost (host.withMaps registered)) (vm.withGlobals g') with
      | running vm₁' =>
        rw [hstep'] at hturn
        cases hturn
      | halted ok' vm₁' =>
        rw [hstep'] at hturn
        exact hturn

/-! ## What was captured for a key and a value -/

/-- The newest turn of an instruction on a path: the number of turns in front of it, which tells
it from the others, and its position. -/
def newest (instr : Instr) : List Visit → Option (Nat × Nat)
  | [] => none
  | t :: path => if t.instr = instr then some (path.length, t.pos) else newest instr path

/-- The `OP_CAP_START` of the capture around the newest turn, in which `depth` further captures
are open to the left. -/
def opening : Nat → List Visit → Option (Nat × Nat)
  | _, [] => none
  | depth, t :: path =>
      match t.instr with
      | .prim (.capEnd _) => opening (depth + 1) path
      | .prim (.capStart _) =>
          match depth with
          | 0 => some (path.length, t.pos)
          | depth + 1 => opening depth path
      | _ => opening depth path

/-- The two turns of a capture. -/
structure PathCapture where
  opened : Nat × Nat
  closed : Nat × Nat
  deriving Repr, DecidableEq

/-- The capture into register `r` that was closed last, whatever was captured inside it. -/
def captureOf (r : Nat) : List Visit → Option PathCapture
  | [] => none
  | t :: path =>
      if t.instr = .prim (.capEnd r) then
        (opening 0 path).map fun opened => ⟨opened, (path.length, t.pos)⟩
      else captureOf r path

namespace PathCapture

/-- The path in front of a capture. -/
def front (c : PathCapture) (path : List Visit) : List Visit := path.drop (path.length - c.opened.1)

/-- The text of a capture; an empty one counts as none. -/
def text (c : PathCapture) (s : Bytes) : Option Bytes :=
  if c.closed.2 ≤ c.opened.2 then none else some (slice s c.opened.2 c.closed.2)

/-- No other capture into register `r` has been opened or closed since. -/
def Undisturbed (c : PathCapture) (r : Nat) (path : List Visit) : Prop :=
  newest (.prim (.capStart r)) path = some c.opened ∧
    newest (.prim (.capEnd r)) path = some c.closed

instance (c : PathCapture) (r : Nat) (path : List Visit) : Decidable (c.Undisturbed r path) :=
  inferInstanceAs (Decidable (_ ∧ _))

end PathCapture

/-- What was captured for the value of a table instruction. -/
def Prim.valueCapture (path : List Visit) : Prim → Option PathCapture
  | .tableSet _ _ value => captureOf value path
  | _ => none

/-- What was captured for its key, which is in front of the value. -/
def Prim.keyCapture (path : List Visit) : Prim → Option PathCapture
  | .tableGet _ key _ => captureOf key path
  | .tableSet _ key value => (captureOf value path).bind fun v => captureOf key (v.front path)
  | _ => none

/-- Behind the captures for the key and the value of a table instruction the path captures into
neither register again. -/
def Prim.OwnCaptures (path : List Visit) (p : Prim) : Prop :=
  match p with
  | .tableGet _ key _ =>
      key < maxCaps ∧ ∃ c, p.keyCapture path = some c ∧ c.Undisturbed key path
  | .tableSet _ key value =>
      (key < maxCaps ∧ value < maxCaps) ∧ (∃ c, p.keyCapture path = some c ∧ c.Undisturbed key path) ∧
        ∃ c, p.valueCapture path = some c ∧ c.Undisturbed value path
  | _ => True

/-- The texts that a table instruction passes on are those captured for its key and its value. -/
def Prim.PassesCaptured (s : Bytes) (regs : Regs) (path : List Visit) (p : Prim) : Prop :=
  match p with
  | .tableGet _ key _ => ∃ c, p.keyCapture path = some c ∧ keyText s regs key = c.text s
  | .tableSet _ key value =>
      (∃ c, p.keyCapture path = some c ∧ keyText s regs key = c.text s) ∧
        ∃ c, p.valueCapture path = some c ∧ keyText s regs value = c.text s
  | _ => True

section

variable {path : List Visit} {regs : Regs} {r n pos : Nat}

theorem regsAlong_capStart_newest (hr : r < maxCaps)
    (h : newest (.prim (.capStart r)) path = some (n, pos)) :
    (regsAlong regs path).capStart r = pos := by
  induction path with
  | nil => cases h
  | cons t path ih =>
    rw [regsAlong, Visit.write_capStart hr]
    rw [newest] at h
    split at h
    · rename_i hstart
      rw [if_pos hstart]
      exact congrArg Prod.snd (Option.some_inj.mp h)
    · rename_i hstart
      rw [if_neg hstart]
      exact ih h

theorem regsAlong_capEnd_newest (hr : r < maxCaps)
    (h : newest (.prim (.capEnd r)) path = some (n, pos)) :
    (regsAlong regs path).capEnd r = pos := by
  induction path with
  | nil => cases h
  | cons t path ih =>
    rw [regsAlong, Visit.write_capEnd hr]
    rw [newest] at h
    split at h
    · rename_i hend
      rw [if_pos hend]
      exact congrArg Prod.snd (Option.some_inj.mp h)
    · rename_i hend
      rw [if_neg hend]
      exact ih h

/-- The register holds a capture that has not been disturbed. -/
theorem PathCapture.Undisturbed.keyText {c : PathCapture} (h : c.Undisturbed r path)
    (hr : r < maxCaps) (s : Bytes) : keyText s (regsAlong regs path) r = c.text s := by
  obtain ⟨⟨n, start⟩, ⟨m, stop⟩⟩ := c
  rw [Snobol4.keyText, regsAlong_capStart_newest hr h.1, regsAlong_capEnd_newest hr h.2, text]
  simp only [Nat.not_le_of_lt hr, false_or]

theorem Prim.OwnCaptures.passesCaptured {p : Prim} (h : p.OwnCaptures path) (s : Bytes) :
    p.PassesCaptured s (regsAlong regs path) path := by
  cases p with
  | tableGet table key dest =>
    obtain ⟨hkey, c, hc, hundisturbed⟩ := h
    exact ⟨c, hc, hundisturbed.keyText hkey s⟩
  | tableSet table key value =>
    obtain ⟨⟨hkey, hvalue⟩, ⟨c, hc, hundisturbed⟩, ⟨v, hv, hvundisturbed⟩⟩ := h
    exact ⟨⟨c, hc, hundisturbed.keyText hkey s⟩, v, hv, hvundisturbed.keyText hvalue s⟩
  | _ => trivial

end

/-- In a run, with compact choice records and an undo log below 2³² records, whose table instructions
all pass on whole texts and find the captures for their key and value undisturbed, each of them
passes on what was captured for it, and turn by turn the run is the one over maps: it stores each
value under exactly the captured key and looks up exactly the captured key. -/
theorem vmSteps_tables_exact {W : Type} {env : VmEnv W} {host : Host W}
    {registered : List (Option Nat)} {start : Vm (WithTables SnobolTable W)} {maps : Nat → ByteMap}
    (hstart : ∀ obj, (start.globals.world.tables obj).Holds (maps obj))
    (hcompact : env.compact = true)
    (hfits : ∀ vm, VmReach (env.withHost (host.withSnobolTables registered)) start vm →
      vm.toStore.TrailFits (env.withHost (host.withSnobolTables registered)))
    (hwhole : ∀ vm, VmReach (env.withHost (host.withSnobolTables registered)) start vm →
      vm.TextsWhole (env.withHost (host.withSnobolTables registered)) registered)
    (hown : ∀ w, Walk (env.withHost (host.withSnobolTables registered)) start w → ∀ p next,
      fetch env.bc w.vm.ip = some (.prim p, next) → p.OwnCaptures w.path) :
    (∀ w, Walk (env.withHost (host.withSnobolTables registered)) start w → ∀ p next,
      fetch env.bc w.vm.ip = some (.prim p, next) → p.PassesCaptured env.s w.vm.regs w.path) ∧
    ∀ n, (vmSteps (env.withHost (host.withSnobolTables registered)) n (vmRunStart start)).Mirrors
      (vmSteps (env.withHost (host.withMaps registered)) n
        (vmRunStart (start.withGlobals ⟨start.globals.out, start.globals.world.world, maps⟩))) := by
  refine ⟨fun w hw p next hfetch => ?_, fun n => vmSteps_mirrors hstart hwhole n⟩
  have hcompact' : (env.withHost (host.withSnobolTables registered)).compact = true := hcompact
  rw [(hw.recalls hcompact' hfits).regs]
  exact (hown w hw p next hfetch).passesCaptured env.s

/-- The check for `Vm.TextsWhole`. -/
def Vm.textsWhole (env : VmEnv (WithTables SnobolTable W)) (registered : List (Option Nat))
    (vm : Vm (WithTables SnobolTable W)) : Bool :=
  match fetch env.bc vm.ip with
  | some (.prim (.tableGet _ key _), _) => (keyText env.s vm.regs key).all fun text => !text.contains 0
  | some (.prim (.tableSet table key value), _) =>
      (keyText env.s vm.regs key).all fun text =>
        (keyText env.s vm.regs value).all fun stored =>
          !text.contains 0 && !stored.contains 0 &&
            (vmGetTable registered table).all fun obj =>
              decide ((vm.globals.world.tables obj).size + 1 < 2 ^ 32)
  | _ => true

theorem Vm.TextsWhole.of_textsWhole {env : VmEnv (WithTables SnobolTable W)}
    {registered : List (Option Nat)} {vm : Vm (WithTables SnobolTable W)}
    (h : vm.textsWhole env registered = true) : vm.TextsWhole env registered := by
  intro p next hfetch
  unfold Vm.textsWhole at h
  rw [hfetch] at h
  cases p with
  | tableGet table key reg =>
    intro text htext
    simp only [Option.mem_def.mp htext, Option.all_some] at h
    simpa using h
  | tableSet table key value =>
    intro text htext stored hstored
    simp only [Option.mem_def.mp htext, Option.mem_def.mp hstored, Option.all_some, Bool.and_eq_true]
      at h
    obtain ⟨⟨hkey, hvalue⟩, hroom⟩ := h
    refine ⟨by simpa using hkey, by simpa using hvalue, fun obj hobj => .inr ?_⟩
    rw [Option.mem_def.mp hobj] at hroom
    simpa using hroom
  | _ => trivial

/-- The check for `Prim.OwnCaptures`. -/
def Prim.ownCaptures (path : List Visit) (p : Prim) : Bool :=
  match p with
  | .tableGet _ key _ =>
      decide (key < maxCaps) && (p.keyCapture path).any fun c => decide (c.Undisturbed key path)
  | .tableSet _ key value =>
      decide (key < maxCaps ∧ value < maxCaps) &&
        (p.keyCapture path).any (fun c => decide (c.Undisturbed key path)) &&
          (p.valueCapture path).any fun c => decide (c.Undisturbed value path)
  | _ => true

theorem Prim.OwnCaptures.of_ownCaptures {path : List Visit} {p : Prim}
    (h : p.ownCaptures path = true) : p.OwnCaptures path := by
  cases p with
  | tableGet table key dest =>
    simpa [Prim.ownCaptures, Prim.OwnCaptures, Option.any_eq_true] using h
  | tableSet table key value =>
    simpa [Prim.ownCaptures, Prim.OwnCaptures, Option.any_eq_true, and_assoc] using h
  | _ => trivial

/-- The same for the instruction at the cursor. -/
def Walked.ownCaptures (bc : Bytes) (w : Walked W) : Bool :=
  match fetch bc w.vm.ip with
  | some (.prim p, _) => p.ownCaptures w.path
  | _ => true

/-- The code of `@r2(LEN(2)) T[$v2] = LEN(1)` bound to a table. -/
def storeThird : Bytes :=
  [9, 2, 12, 0, 0, 0, 2, 10, 2, 9, 1, 12, 0, 0, 0, 1, 10, 1, 26, 0, 0, 2, 1, 1, 84, 0, 0, 0, 0, 0,
   0, 0, 0, 0, 83, 78, 66, 76]

/-- The state in which it starts, with an empty table. -/
def storeThirdStart : Vm (WithTables SnobolTable Unit) := .zero ⟨[], ⟨(), fun _ => tableCreate⟩⟩

/-- Over "abc", with the table bound. -/
def storeThirdEnv : VmEnv (WithTables SnobolTable Unit) :=
  (VmEnv.ofCode storeThird [0x61, 0x62, 0x63] Host.bare).withHost
    (Host.bare.withSnobolTables [some 0])

/-- On "abc" the run stores "c" under "ab". -/
theorem vmSteps_tables_exact_abc :
    (∀ w, Walk storeThirdEnv storeThirdStart w → ∀ p next,
      fetch storeThird w.vm.ip = some (.prim p, next) →
        p.PassesCaptured [0x61, 0x62, 0x63] w.vm.regs w.path) ∧
    (vmSteps storeThirdEnv 8 (vmRunStart storeThirdStart)).Mirrors
      (vmSteps ((VmEnv.ofCode storeThird [0x61, 0x62, 0x63] Host.bare).withHost
        (Host.bare.withMaps [some 0])) 8
        (vmRunStart (storeThirdStart.withGlobals ⟨[], ⟨(), fun _ => ∅⟩⟩))) := by
  have hstart : ∀ obj, (storeThirdStart.globals.world.tables obj).Holds ((fun _ => ∅ : Nat → ByteMap) obj) :=
    fun _ => tableCreate_represents
  have hend : vmSteps storeThirdEnv 8 (vmRunStart storeThirdStart) = .halted true _ :=
    StepResult.eq_halted (by decide +kernel)
  have hwhole : ∀ vm, VmReach storeThirdEnv storeThirdStart vm →
      vm.TextsWhole storeThirdEnv [some 0] := by
    have hall : ∀ m < 8, (vmSteps storeThirdEnv m (vmRunStart storeThirdStart)).All
        (Vm.textsWhole storeThirdEnv [some 0]) = true := by decide +kernel
    refine VmReach.forall_of_steps hend fun m hm vm hvm => .of_textsWhole ?_
    have hstate := hall m hm
    rwa [hvm] at hstate
  have hown : ∀ w, Walk storeThirdEnv storeThirdStart w → ∀ p next,
      fetch storeThird w.vm.ip = some (.prim p, next) → p.OwnCaptures w.path := by
    have hall : ∀ m < 8, (walkSteps storeThirdEnv m
        ⟨vmRunStart storeThirdStart, [], []⟩).ownCaptures storeThird = true := by decide +kernel
    refine Walk.forall_of_steps hend fun m hm p next hfetch => .of_ownCaptures ?_
    have hstate := hall m hm
    rwa [Walked.ownCaptures, hfetch] at hstate
  obtain ⟨hpasses, hmirrors⟩ := vmSteps_tables_exact hstart rfl
    (VmReach.trailFits hend (by decide +kernel)) hwhole hown
  exact ⟨hpasses, hmirrors 8⟩

/-- On the bytes "a", NUL, "c" the run stores the value under "a": the key that was captured
is not in the table, and one that was not is. -/
theorem vmRun_table_key_cut :
    ∃ final, VmRun ((VmEnv.ofCode storeThird [0x61, 0, 0x63] Host.bare).withHost
        (Host.bare.withSnobolTables [some 0])) storeThirdStart true final ∧
      keyText [0x61, 0, 0x63] final.regs 2 = some [0x61, 0] ∧
      keyText [0x61, 0, 0x63] final.regs 1 = some [0x63] ∧
      tableGetEx (final.globals.world.tables 0) [0x61, 0] = some none ∧
      tableGetEx (final.globals.world.tables 0) [0x61] = some (some [0x63]) := by
  let env := (VmEnv.ofCode storeThird [0x61, 0, 0x63] Host.bare).withHost
    (Host.bare.withSnobolTables [some 0])
  refine ⟨(vmSteps env 8 (vmRunStart storeThirdStart)).vm,
    ⟨8, StepResult.eq_halted (by decide +kernel)⟩, ?_, ?_, ?_, ?_⟩ <;> decide +kernel

end Snobol4
