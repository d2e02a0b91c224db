import Snobol4.ReferenceSearch

/-!
# StraightLine — code without choices

Code that only tests and moves the cursor, instruction after instruction, until it ends
the run.  On such code `vm_exec` computes a function of the subject: it goes through the
tests in order and fails at the first that fails, since no choice point is ever saved.
-/

namespace Snobol4

variable {W : Type}

/-! ## Lines -/

/-- An instruction that only moves the cursor or fails. -/
inductive LineOp where
  | lit (off len : Nat)
  | set (op : SetOp) (id : Nat)
  | count (op : CountOp) (n : Nat)
  | anchor (type : Nat)
  deriving Repr, DecidableEq

def LineOp.prim : LineOp → Prim
  | lit off len => .lit off len
  | set op id => .set op id
  | count op n => .count op n
  | anchor type => .anchor type

/-- Where the instruction moves the cursor. -/
def LineOp.target (env : VmEnv W) (pos : Nat) : LineOp → Option Nat
  | lit off len => matchLit env.s ((env.bc.drop off).take len) len pos
  | set op id => matchSet env.s (env.ranges id) pos op
  | count op n => matchCount env.s pos op n
  | anchor type => matchAnchor env.s pos type

theorem LineOp.exec_prim (op : LineOp) (env : VmEnv W) (pos : Nat) (regs : Regs) (g : Globals W) :
    op.prim.exec env pos regs g = moveTo regs g (op.target env pos) := by
  cases op with
  | lit | set | count | anchor => rfl

/-- How a line ends. -/
inductive LineEnd where
  | accepted
  | failed
  | aborted
  deriving Repr, DecidableEq

def Instr.lineEnd : Instr → Option LineEnd
  | .accept => some .accepted
  | .succeed => some .accepted
  | .fail => some .failed
  | .abort => some .aborted
  | _ => none

/-- The instruction does nothing on a line. -/
def Instr.idle : Instr → Bool
  | .prim .nop => true
  | .fence => true
  | _ => false

/-- The code at an address is the line of the given instructions. -/
inductive StraightLine (bc : Bytes) : Nat → List LineOp → LineEnd → Prop where
  | stop {ip next : Nat} {instr : Instr} {fin : LineEnd} (hfetch : fetch bc ip = some (instr, next))
      (hend : instr.lineEnd = some fin) : StraightLine bc ip [] fin
  | skip {ip next : Nat} {instr : Instr} {ops : List LineOp} {fin : LineEnd}
      (hfetch : fetch bc ip = some (instr, next)) (hidle : instr.idle = true)
      (h : StraightLine bc next ops fin) : StraightLine bc ip ops fin
  | op {ip next : Nat} {op : LineOp} {ops : List LineOp} {fin : LineEnd}
      (hfetch : fetch bc ip = some (.prim op.prim, next)) (h : StraightLine bc next ops fin) :
      StraightLine bc ip (op :: ops) fin

/-- The code between two addresses is the given instructions. -/
inductive LineTo (bc : Bytes) : Nat → List LineOp → Nat → Prop where
  | refl (ip : Nat) : LineTo bc ip [] ip
  | skip {ip next stop : Nat} {instr : Instr} {ops : List LineOp}
      (hfetch : fetch bc ip = some (instr, next)) (hidle : instr.idle = true)
      (h : LineTo bc next ops stop) : LineTo bc ip ops stop
  | op {ip next stop : Nat} {op : LineOp} {ops : List LineOp}
      (hfetch : fetch bc ip = some (.prim op.prim, next)) (h : LineTo bc next ops stop) :
      LineTo bc ip (op :: ops) stop

theorem LineTo.append {bc : Bytes} {ip stop : Nat} {ops ops' : List LineOp} {fin : LineEnd}
    (h : LineTo bc ip ops stop) (h' : StraightLine bc stop ops' fin) :
    StraightLine bc ip (ops ++ ops') fin := by
  induction h with
  | refl ip => exact h'
  | skip hfetch hidle _ ih => exact .skip hfetch hidle (ih h')
  | op hfetch _ ih => exact .op hfetch (ih h')

/-- The cursor after a line. -/
def lineTarget (env : VmEnv W) : List LineOp → Nat → Option Nat
  | [], pos => some pos
  | op :: ops, pos => (op.target env pos).bind (lineTarget env ops)

theorem lineTarget_append (env : VmEnv W) (ops ops' : List LineOp) (pos : Nat) :
    lineTarget env (ops ++ ops') pos = (lineTarget env ops pos).bind (lineTarget env ops') := by
  induction ops generalizing pos with
  | nil => rfl
  | cons op ops ih =>
    rw [List.cons_append, lineTarget, lineTarget]
    cases op.target env pos with
    | none => rfl
    | some pos' => exact ih pos'

/-- The attempt of a line whose cursor comes to a position. -/
def LineEnd.attempt : LineEnd → Option Nat → Attempt
  | _, none => .failed
  | .accepted, some stop => .found stop
  | .failed, some _ => .failed
  | .aborted, some _ => .aborted

/-! ## Running a line -/

/-- The loop of `vm_run` comes to its end as an attempt says. -/
def Ends (env : VmEnv W) (vm : Vm W) : Attempt → Prop
  | .found stop => ∃ n final, vmSteps env n vm = .halted true final ∧ final.pos = stop
  | .failed => ∃ n final, vmSteps env n vm = .halted false final ∧ final.abortFlag = false
  | .aborted => ∃ n final, vmSteps env n vm = .halted false final ∧ final.abortFlag = true

theorem Ends.step {env : VmEnv W} {vm vm' : Vm W} {attempt : Attempt}
    (hstep : vmStep env vm = .running vm') (h : Ends env vm' attempt) : Ends env vm attempt := by
  cases attempt with
  | found stop =>
    obtain ⟨n, final, hn, hpos⟩ := h
    refine ⟨n + 1, final, ?_, hpos⟩
    rw [vmSteps, hstep]
    exact hn
  | failed =>
    obtain ⟨n, final, hn, hflag⟩ := h
    refine ⟨n + 1, final, ?_, hflag⟩
    rw [vmSteps, hstep]
    exact hn
  | aborted =>
    obtain ⟨n, final, hn, hflag⟩ := h
    refine ⟨n + 1, final, ?_, hflag⟩
    rw [vmSteps, hstep]
    exact hn

/-- The VM on a line: nothing to go back to. -/
structure OnLine (ip pos : Nat) (vm : Vm W) : Prop where
  ip : vm.ip = ip
  pos : vm.pos = pos
  choices : vm.choices = []
  abortFlag : vm.abortFlag = false

namespace OnLine

variable {env : VmEnv W} {vm : Vm W} {ip next pos : Nat}

theorem goto (h : OnLine ip pos vm) (next : Nat) : OnLine next pos { vm with ip := next } :=
  ⟨rfl, h.pos, h.choices, h.abortFlag⟩

/-- Failing on a line ends the run. -/
theorem fails {vm' : Vm W} (h : OnLine next pos vm') (hstep : vmStep env vm = vm'.backtrack) :
    Ends env vm .failed := by
  refine ⟨1, vm', ?_, h.abortFlag⟩
  rw [vmSteps, hstep]
  simp only [Vm.backtrack, h.choices]

theorem step_op (h : OnLine ip pos vm) {op : LineOp}
    (hfetch : fetch env.bc ip = some (.prim op.prim, next)) :
    vmStep env vm =
      { vm with ip := next }.apply env (moveTo vm.regs vm.globals (op.target env pos)) := by
  rw [vmStep, h.ip, hfetch]
  simp only
  rw [LineOp.exec_prim, h.pos]

/-- An instruction of a line that fails. -/
theorem op_fails (h : OnLine ip pos vm) {op : LineOp}
    (hfetch : fetch env.bc ip = some (.prim op.prim, next)) (htarget : op.target env pos = none) :
    Ends env vm .failed := by
  have hstep := h.step_op hfetch
  rw [htarget] at hstep
  exact (h.goto next).fails hstep

/-- An instruction of a line that moves the cursor. -/
theorem op_moves (h : OnLine ip pos vm) {op : LineOp} {pos' : Nat}
    (hfetch : fetch env.bc ip = some (.prim op.prim, next)) (htarget : op.target env pos = some pos') :
    ∃ vm', vmStep env vm = .running vm' ∧ OnLine next pos' vm' := by
  have hstep := h.step_op hfetch
  rw [htarget] at hstep
  exact ⟨_, hstep, rfl, rfl, h.choices, h.abortFlag⟩

/-- An instruction of a line that does nothing. -/
theorem step_idle (h : OnLine ip pos vm) {instr : Instr}
    (hfetch : fetch env.bc ip = some (instr, next)) (hidle : instr.idle = true) :
    ∃ vm', vmStep env vm = .running vm' ∧ OnLine next pos vm' := by
  cases instr with
  | prim p =>
    cases p with
    | nop =>
      have hstep : vmStep env vm = .running { vm with
          toStore := { vm.toStore with regs := vm.regs }.record env []
          ip := next } := by
        rw [vmStep, h.ip, hfetch]
        rfl
      exact ⟨_, hstep, rfl, h.pos, h.choices, h.abortFlag⟩
    | _ => cases hidle
  | fence =>
    have hstep : vmStep env vm = .running { vm with ip := next, choices := [] } := by
      rw [vmStep, h.ip, hfetch]
    exact ⟨_, hstep, rfl, h.pos, rfl, h.abortFlag⟩
  | accept | fail | jmp | split | repeatInit | repeatStep | goto | breakx | abort | succeed
  | unknown => cases hidle

/-- The run of a line. -/
theorem ends {ops : List LineOp} {fin : LineEnd} (h : OnLine ip pos vm)
    (hline : StraightLine env.bc ip ops fin) :
    Ends env vm (fin.attempt (lineTarget env ops pos)) := by
  induction hline generalizing pos vm with
  | @stop ip next instr fin hfetch hend =>
    cases instr with
    | accept =>
      cases hend
      refine ⟨1, { vm with ip := next }, ?_, h.pos⟩
      rw [vmSteps, vmStep, h.ip, hfetch]
    | succeed =>
      cases hend
      refine ⟨1, { vm with ip := next }, ?_, h.pos⟩
      rw [vmSteps, vmStep, h.ip, hfetch]
    | fail =>
      cases hend
      refine (h.goto next).fails ?_
      rw [vmStep, h.ip, hfetch]
    | abort =>
      cases hend
      refine ⟨1, { vm with ip := next, abortFlag := true, choices := [] }, ?_, rfl⟩
      rw [vmSteps, vmStep, h.ip, hfetch]
    | prim | jmp | split | repeatInit | repeatStep | goto | breakx | fence | unknown => cases hend
  | skip hfetch hidle _ ih =>
    obtain ⟨vm', hstep, hvm'⟩ := h.step_idle hfetch hidle
    exact Ends.step hstep (ih hvm')
  | @op ip next op ops fin hfetch hline ih =>
    rw [lineTarget]
    cases htarget : op.target env pos with
    | none =>
      have hattempt : fin.attempt (Option.bind none (lineTarget env ops)) = .failed := by
        cases fin with
        | accepted | failed | aborted => rfl
      rw [hattempt]
      exact h.op_fails hfetch htarget
    | some pos' =>
      obtain ⟨vm', hstep, hvm'⟩ := h.op_moves hfetch htarget
      exact Ends.step hstep (ih hvm')

/-- The run of a line in front of code that fails from wherever the line leaves the cursor. -/
theorem fails_behind {ops : List LineOp} {stop : Nat} (h : OnLine ip pos vm)
    (hline : LineTo env.bc ip ops stop)
    (hstop : ∀ pos' vm', lineTarget env ops pos = some pos' → OnLine stop pos' vm' →
      Ends env vm' .failed) : Ends env vm .failed := by
  induction hline generalizing pos vm with
  | refl ip => exact hstop pos vm rfl h
  | skip hfetch hidle _ ih =>
    obtain ⟨vm', hstep, hvm'⟩ := h.step_idle hfetch hidle
    exact Ends.step hstep (ih hvm' hstop)
  | @op ip next stop op ops hfetch _ ih =>
    cases htarget : op.target env pos with
    | none => exact h.op_fails hfetch htarget
    | some pos' =>
      obtain ⟨vm', hstep, hvm'⟩ := h.op_moves hfetch htarget
      refine Ends.step hstep (ih hvm' ?_)
      intro pos'' vm'' hops
      refine hstop pos'' vm'' ?_
      rw [lineTarget, htarget]
      exact hops

end OnLine

/-- The attempt on the window at an offset, for the whole subject. -/
def Attempt.shift (offset : Nat) : Attempt → Attempt
  | .found stop => .found (offset + stop)
  | .failed => .failed
  | .aborted => .aborted

/-- Runs on the windows that end as known. -/
theorem VmAttempts.of_ends {env : VmEnv W} {attempt : Nat → Attempt}
    (h : ∀ offset vm, Ends (env.window offset) (vmRunStart (vmExecStart (searchResetVm vm)))
      (attempt offset)) : VmAttempts env fun offset => (attempt offset).shift offset := by
  constructor
  · intro offset stop _ hfound vm
    have hends := h offset vm
    cases hattempt : attempt offset with
    | found pos =>
      rw [hattempt] at hfound hends
      cases hfound
      obtain ⟨n, final, hn, hpos⟩ := hends
      exact ⟨final, ⟨n, hn⟩, congrArg (offset + ·) hpos.symm⟩
    | failed | aborted =>
      rw [hattempt] at hfound
      cases hfound
  · intro offset _ hfailed vm
    have hends := h offset vm
    cases hattempt : attempt offset with
    | failed =>
      rw [hattempt] at hends
      obtain ⟨n, final, hn, hflag⟩ := hends
      exact ⟨final, ⟨n, hn⟩, hflag⟩
    | found pos | aborted =>
      rw [hattempt] at hfailed
      cases hfailed
  · intro offset _ haborted vm
    have hends := h offset vm
    cases hattempt : attempt offset with
    | aborted =>
      rw [hattempt] at hends
      obtain ⟨n, final, hn, hflag⟩ := hends
      exact ⟨final, ⟨n, hn⟩, hflag⟩
    | found pos | failed =>
      rw [hattempt] at haborted
      cases haborted

/-- The attempt at an offset: the line over the window there. -/
def lineAttempt (env : VmEnv W) (ops : List LineOp) (fin : LineEnd) (offset : Nat) : Attempt :=
  (fin.attempt (lineTarget (env.window offset) ops 0)).shift offset

/-- A search for a line. -/
theorem StraightLine.vmAttempts {env : VmEnv W} {ops : List LineOp} {fin : LineEnd}
    (h : StraightLine env.bc 0 ops fin) : VmAttempts env (lineAttempt env ops fin) :=
  .of_ends fun _ _ => OnLine.ends ⟨rfl, rfl, rfl, rfl⟩ h

end Snobol4
