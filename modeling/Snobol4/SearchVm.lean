import Snobol4.Vm

/-!
# SearchVm — the interpreter of the search tier (`search_tiers.c`)

`search_vm_exec` is a second interpreter for the bytecode.  Its dispatch table has no entries
for the instructions with side effects; a byte without an entry is a jump to nowhere.  It reads
operands as `vm_run` does and looks classes up in a table of at most 64 entries, which it fills
from `range_meta`.
-/

namespace Snobol4

variable {W : Type}

/-! ## States -/

/-- `search_choice_t` -/
structure SearchChoice where
  ip : Nat
  pos : Nat
  regs : Regs

/-- The fields of `search_vm_t` that a run changes. -/
structure SearchVm where
  ip : Nat
  pos : Nat
  regs : Regs
  counters : Nat → Nat
  loopMin : Nat → Nat
  loopMax : Nat → Nat
  loopLastPos : Nat → Nat
  maxCounterUsed : Nat
  choices : List SearchChoice

/-- What a turn of the loop of `search_vm_exec` ends in; `unknown` is a byte without an entry
in the dispatch table. -/
inductive SearchStep where
  | running (vm : SearchVm)
  | matched (vm : SearchVm)
  | failed (vm : SearchVm)
  | aborted (vm : SearchVm)
  | unknown

namespace SearchVm

/-- `search_vm_push_choice` -/
def pushChoice (ip pos : Nat) (vm : SearchVm) : SearchVm :=
  { vm with choices := ⟨ip, pos, vm.regs⟩ :: vm.choices }

/-- `search_vm_pop_choice`, or the end of the run. -/
def backtrack (vm : SearchVm) : SearchStep :=
  match vm.choices with
  | [] => .failed vm
  | c :: rest => .running { vm with ip := c.ip, pos := c.pos, regs := c.regs, choices := rest }

/-- Go on at `next` with a new cursor, or backtrack. -/
def goOn (next : Nat) (target : Option Nat) (vm : SearchVm) : SearchStep :=
  match target with
  | some pos => .running { vm with ip := next, pos }
  | none => vm.backtrack

end SearchVm

/-! ## Classes -/

/-- `SEARCH_VM_MAX_RANGES` -/
def searchVmMaxRanges : Nat := 64

/-- The entry of the class in the table filled from `range_meta`. -/
def VmEnv.srange (env : VmEnv W) (setId : Nat) : Option (Option (List CpRange)) :=
  env.rangeMeta.bind fun table =>
    if 0 < setId ∧ setId - 1 < min table.length searchVmMaxRanges then
      some ((table[setId - 1]?).join.map (·.ranges))
    else none

/-- The class of an id: its entry, or else the bytecode trailer. -/
def VmEnv.searchRanges (env : VmEnv W) (setId : Nat) : Option (List CpRange) :=
  match env.srange setId with
  | some ranges => ranges
  | none => if 0 < setId then env.ranges setId else none

/-- The character at the cursor is in the class: by the map of the entry where it has one,
else by a map built on the spot or as a codepoint. -/
def VmEnv.searchInClass (env : VmEnv W) (setId : Nat) (ranges : List CpRange) (pos : Nat) : Bool :=
  (env.s[pos]?).any fun c =>
    match (env.srange setId).join.bind (rangesToBitmap 127) with
    | some map => map c
    | none =>
        (rangesToBitmap 127 ranges).any (fun map => map c) ||
          (peekCp env.s pos).any fun (cp, _) => rangeContains ranges cp

/-- One codepoint on. -/
def nextCp (s : Bytes) (pos : Nat) : Option Nat := (peekCp s pos).map fun (_, bytes) => pos + bytes

/-- The scan of `OP_BREAK`, one codepoint at a time. -/
def searchBreak (env : VmEnv W) (setId : Nat) (ranges : Option (List CpRange)) : Nat → Nat → Nat
  | 0, pos => pos
  | fuel + 1, pos =>
      if pos < env.s.length then
        if ranges.any fun ranges => env.searchInClass setId ranges pos then pos
        else
          match nextCp env.s pos with
          | some pos => searchBreak env setId ranges fuel pos
          | none => pos
      else pos

/-- The scan of `OP_BREAKX`, one byte at a time. -/
def searchBreakx (env : VmEnv W) (setId : Nat) (ranges : Option (List CpRange)) : Nat → Nat → Nat
  | 0, pos => pos
  | fuel + 1, pos =>
      if pos < env.s.length then
        if ranges.any fun ranges => env.searchInClass setId ranges pos then pos
        else searchBreakx env setId ranges fuel (pos + 1)
      else pos

/-- `OP_ANY`, `OP_NOTANY`, `OP_SPAN`, `OP_BREAK`; `OP_NOTANY` knows only the classes with an
entry. -/
def searchSet (env : VmEnv W) (setId pos : Nat) : SetOp → Option Nat
  | .any =>
      if (env.searchRanges setId).any fun ranges => env.searchInClass setId ranges pos then
        nextCp env.s pos
      else none
  | .notany =>
      if (env.srange setId).join.any fun ranges => env.searchInClass setId ranges pos then none
      else nextCp env.s pos
  | .span => matchSpan env.s (env.searchRanges setId) pos
  | .break => some (searchBreak env setId (env.searchRanges setId) env.s.length pos)

/-- The number of codepoints from `pos` on. -/
def countCps (s : Bytes) : Nat → Nat → Nat
  | 0, _ => 0
  | fuel + 1, pos =>
      match nextCp s pos with
      | some pos => countCps s fuel pos + 1
      | none => 0

/-- `OP_LEN`, `OP_POS`, `OP_RPOS`, `OP_TAB`, `OP_RTAB`; the position of `OP_POS` is in bytes. -/
def searchCount (s : Bytes) (pos : Nat) : CountOp → Nat → Option Nat
  | .len, n => skipCps s n pos
  | .pos, n => if pos = n then some pos else none
  | .rpos, n => if countCps s s.length pos % 2 ^ 32 = n then some pos else none
  | .tab, n => (skipCps s n 0).filter fun p => decide (p ≤ s.length)
  | .rtab, n =>
      let total := countCps s s.length 0 % 2 ^ 32
      if total < n then none else skipCps s (total - n) 0

/-! ## The dispatch loop -/

namespace SearchVm

/-- `svm_repeat_init`; `vm.ip` is the address after it. -/
def repeatInit (loop min max skip : Nat) (vm : SearchVm) : SearchVm :=
  if loop < maxLoops then
    let vm :=
      { vm with
        counters := Function.update vm.counters loop 0
        loopMin := Function.update vm.loopMin loop min
        loopMax := Function.update vm.loopMax loop max
        loopLastPos := Function.update vm.loopLastPos loop vm.pos
        maxCounterUsed := Nat.max vm.maxCounterUsed (loop + 1) }
    if min = 0 then vm.pushChoice skip vm.pos else vm
  else vm

/-- `svm_repeat_step`; `vm.ip` is the address after it. -/
def repeatStep (loop target : Nat) (vm : SearchVm) : SearchVm :=
  if loop < maxLoops then
    let count := (vm.counters loop + 1) % 2 ^ 32
    let min := vm.loopMin loop
    let max := vm.loopMax loop
    let vm := { vm with counters := Function.update vm.counters loop count }
    let again (vm : SearchVm) : SearchVm :=
      { vm with loopLastPos := Function.update vm.loopLastPos loop vm.pos, ip := target }
    if count < min then again vm
    else if max = unbounded ∨ count < max then
      if max = unbounded ∧ vm.pos = vm.loopLastPos loop then vm
      else again (vm.pushChoice vm.ip vm.pos)
    else vm
  else vm

/-- `svm_breakx` at the address `here`; `vm.ip` is the address after it. -/
def breakx (env : VmEnv W) (setId here : Nat) (vm : SearchVm) : SearchVm :=
  let stop := searchBreakx env setId (env.searchRanges setId) env.s.length vm.pos
  let vm := { vm with pos := stop }
  if stop < env.s.length then
    vm.pushChoice here (stop + (peekCp env.s stop).elim 1 (·.2))
  else vm

/-- The instructions that neither jump nor save or discard a choice point. -/
def prim (env : VmEnv W) (next : Nat) (vm : SearchVm) : Prim → SearchStep
  | .nop => .running { vm with ip := next }
  | .lit off len => vm.goOn next (matchLit env.s ((env.bc.drop off).take len) len vm.pos)
  | .set op id => vm.goOn next (searchSet env id vm.pos op)
  | .capStart r => .running { vm with ip := next, regs := (opCapStart r vm.pos vm.regs).1 }
  | .capEnd r => .running { vm with ip := next, regs := (opCapEnd r vm.pos vm.regs).1 }
  | .assign var r => .running { vm with ip := next, regs := (opAssign var r vm.regs).1 }
  | .count op n => vm.goOn next (searchCount env.s vm.pos op n)
  | .anchor type => vm.goOn next (matchAnchor env.s vm.pos type)
  | _ => .unknown

/-- One turn of the loop of `search_vm_exec`. -/
def step (env : VmEnv W) (vm : SearchVm) : SearchStep :=
  match fetch env.bc vm.ip with
  | none => vm.backtrack
  | some (instr, next) =>
      match instr with
      | .prim p => vm.prim env next p
      | .accept => .matched vm
      | .succeed => .matched vm
      | .abort => .aborted vm
      | .fail => vm.backtrack
      | .jmp target => .running { vm with ip := target }
      | .split a b => .running { vm.pushChoice b vm.pos with ip := a }
      | .repeatInit loop min max skip => .running (repeatInit loop min max skip { vm with ip := next })
      | .repeatStep loop target => .running (repeatStep loop target { vm with ip := next })
      | .breakx setId => .running (breakx env setId vm.ip { vm with ip := next })
      | .fence => .running { vm with ip := next, choices := [] }
      | .goto _ => .unknown
      | .unknown _ => .unknown

/-- Up to `n` turns of the loop. -/
def steps (env : VmEnv W) : Nat → SearchVm → SearchStep
  | 0, vm => .running vm
  | n + 1, vm =>
      match vm.step env with
      | .running vm => steps env n vm
      | last => last

/-- The states of a run of `search_vm_exec` that starts at the start of the code. -/
inductive Reach (env : VmEnv W) : SearchVm → Prop where
  | start {vm : SearchVm} (hip : vm.ip = 0) (hchoices : vm.choices = []) : Reach env vm
  | step {vm vm' : SearchVm} (h : Reach env vm) (hstep : vm.step env = .running vm') : Reach env vm'

/-- The first turn of a run that goes on. -/
theorem steps_succ_running {env : VmEnv W} {n : Nat} {vm vm' : SearchVm}
    (h : steps env (n + 1) vm = .running vm') :
    ∃ vm₁, vm.step env = .running vm₁ ∧ steps env n vm₁ = .running vm' := by
  rw [steps] at h
  cases hstep : vm.step env with
  | running vm₁ =>
    rw [hstep] at h
    exact ⟨vm₁, rfl, h⟩
  | unknown | matched | failed | aborted =>
    rw [hstep] at h
    cases h

theorem steps_succ {env : VmEnv W} {vm vm₁ : SearchVm} (h : vm.step env = .running vm₁) (n : Nat) :
    steps env (n + 1) vm = steps env n vm₁ := by
  rw [steps, h]

/-- A run that goes on after `m + n` turns goes on after `m`. -/
theorem steps_of_steps_add {env : VmEnv W} {m n : Nat} {vm vm' : SearchVm}
    (h : steps env (m + n) vm = .running vm') : ∃ vm₁, steps env m vm = .running vm₁ := by
  induction m generalizing vm with
  | zero => exact ⟨vm, rfl⟩
  | succ m ih =>
    rw [Nat.add_right_comm] at h
    obtain ⟨vm₁, hstep, hrest⟩ := steps_succ_running h
    rw [steps_succ hstep]
    exact ih hrest

/-- A run that comes to a byte without an entry. -/
theorem Reach.unknown_of_steps {env : VmEnv W} {n : Nat} {vm : SearchVm} (h : Reach env vm)
    (hsteps : steps env n vm = .unknown) : ∃ last, Reach env last ∧ last.step env = .unknown := by
  induction n generalizing vm with
  | zero => cases hsteps
  | succ n ih =>
    rw [steps] at hsteps
    cases hstep : vm.step env with
    | running vm' =>
      rw [hstep] at hsteps
      exact ih (h.step hstep) hsteps
    | unknown => exact ⟨vm, h, hstep⟩
    | matched | failed | aborted =>
      rw [hstep] at hsteps
      cases hsteps

/-- The state in which a search of cleared registers starts. -/
def zero : SearchVm where
  ip := 0
  pos := 0
  regs := ⟨fun _ => 0, fun _ => 0, fun _ => 0, fun _ => 0, 0, 0⟩
  counters := fun _ => 0
  loopMin := fun _ => 0
  loopMax := fun _ => 0
  loopLastPos := fun _ => 0
  maxCounterUsed := 0
  choices := []

end SearchVm

/-- The run comes to a byte without an entry. -/
def SearchStep.isUnknown : SearchStep → Bool
  | .unknown => true
  | _ => false

theorem SearchStep.eq_unknown {result : SearchStep} (h : result.isUnknown = true) :
    result = .unknown := by
  cases result with
  | unknown => rfl
  | _ => cases h

/-- The dispatch table has an entry for the instruction. -/
def Instr.searchable : Instr → Bool
  | .prim p =>
      match p with
      | .nop | .lit .. | .set .. | .capStart _ | .capEnd _ | .assign .. | .count .. | .anchor _ => true
      | _ => false
  | .goto _ => false
  | .unknown _ => false
  | _ => true

end Snobol4
