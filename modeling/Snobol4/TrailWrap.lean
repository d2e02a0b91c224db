import Snobol4.VmTrail

/-!
# TrailWrap — a trail that its records cannot count (`vm_choice.c`)

`vm_push_choice` writes the length of the trail into a `uint32_t`.  A record that is pushed over
2³² undo records holds the base 0, and its pop undoes what the run wrote before the push.
-/

namespace Snobol4

/-- `'a' repeat(@r0(''), 2^30, 2^30) ('b' | '')` -/
def farPattern : AstNode :=
  .concat [.literal [0x61], .repetition (.cap 0 (.literal [])) 1073741824 1073741824,
    .alt (.literal [0x62]) (.literal [])]

def farCode : Bytes :=
  [4, 0, 0, 0, 9, 0, 0, 0, 1, 97, 15, 0, 64, 0, 0, 0, 64, 0, 0, 0, 0, 0, 0, 43, 9, 0, 4, 0, 0,
    0, 35, 0, 0, 0, 0, 10, 0, 16, 0, 0, 0, 0, 24, 3, 0, 0, 0, 52, 0, 0, 0, 67, 4, 0, 0, 0, 61,
    0, 0, 0, 1, 98, 2, 0, 0, 0, 76, 4, 0, 0, 0, 76, 0, 0, 0, 0, 0, 0, 0, 0, 0, 0, 0, 0, 0, 83,
    78, 66, 76]

def farEnv : VmEnv Unit := .ofCode farCode [0x61] .bare

def farStart : Vm Unit := .zero ⟨[], ()⟩

theorem farCode_compiled : compileAstToBytecodeC .caseSensitive farPattern = some farCode := by
  decide +kernel

/-- In front of the body, behind `n` iterations. -/
structure FarAhead (n : Nat) (vm : Vm Unit) : Prop where
  reach : VmReach farEnv farStart vm
  ip : vm.ip = 24
  pos : vm.pos = 1
  count : vm.counters 0 = n
  min : vm.loopMin 0 = 2 ^ 30
  max : vm.loopMax 0 = 2 ^ 30
  plain : vm.loopSpanGreedy 0 = false
  choices : vm.choices = []
  length : vm.trail.length = 4 * n
  oldest : vm.trail.getLast? = some (.capWrite 0 0 0 0)

/-- Behind the first iteration. -/
theorem farAhead_one : ∃ vm, FarAhead 1 vm := by
  have hsteps : vmSteps farEnv 6 (vmRunStart farStart) =
      .running (vmSteps farEnv 6 (vmRunStart farStart)).vm :=
    StepResult.eq_running (by decide +kernel)
  refine ⟨_, VmReach.steps .start hsteps, ?_, ?_, ?_, ?_, ?_, ?_, rfl, ?_, ?_⟩
  all_goals decide +kernel

/-- The three instructions of the body. -/
def farBody (vm : Vm Unit) : Vm Unit :=
  { vm with
    toStore :=
      { vm.toStore with
        regs := (opCapEnd 0 1 (opCapStart 0 1 vm.regs).1).1
        trail := (opCapEnd 0 1 (opCapStart 0 1 vm.regs).1).2 ++
          ((opCapStart 0 1 vm.regs).2 ++ vm.trail) }
    ip := 37
    pos := 1 }

section

variable {n : Nat} {vm : Vm Unit}

theorem FarAhead.body (h : FarAhead n vm) : vmSteps farEnv 3 vm = .running (farBody vm) := by
  have hstart : fetch farEnv.bc 24 = some (.prim (.capStart 0), 26) := by decide +kernel
  have hlit : fetch farEnv.bc 26 = some (.prim (.lit 35 0), 35) := by decide +kernel
  have hend : fetch farEnv.bc 35 = some (.prim (.capEnd 0), 37) := by decide +kernel
  have hmatch : matchLit farEnv.s ((farEnv.bc.drop 35).take 0) 0 1 = some 1 := by decide +kernel
  simp only [vmSteps, vmStep, h.ip, hstart, hlit, hend, Prim.exec, writeRegs, Vm.apply, h.pos, hmatch,
    moveTo]
  rfl

/-- The count of the iteration. -/
theorem FarAhead.counts (h : FarAhead n vm) (hlt : n + 1 ≤ 2 ^ 30) :
    vmStep farEnv (farBody vm) =
      .running (opRepeatIterate farEnv 0 24 { farBody vm with ip := 43 }) ∧
    ((farBody vm).counters 0 + 1) % 2 ^ 32 = n + 1 := by
  have hstep : fetch farEnv.bc 37 = some (.repeatStep 0 24, 43) := by decide +kernel
  have hgreedy : takesGreedy farEnv 0 24 { farBody vm with ip := 43 } = false := by
    simp [takesGreedy, farBody, h.plain, h.max, unbounded]
  constructor
  · simp only [vmStep, show (farBody vm).ip = 37 from rfl, hstep, opRepeatStep,
      if_pos (show 0 < maxLoops by decide), hgreedy, Bool.false_eq_true, if_false]
  · rw [show (farBody vm).counters 0 = n from h.count]
    omega

/-- The trail behind the count. -/
theorem FarAhead.trail (h : FarAhead n vm) (k : Nat) :
    ((farBody vm).toStore.count farEnv 0 k).trail.length = 4 * (n + 1) ∧
      ((farBody vm).toStore.count farEnv 0 k).trail.getLast? = some (.capWrite 0 0 0 0) := by
  have htrail : ∃ newer, ((farBody vm).toStore.count farEnv 0 k).trail = newer ++ vm.trail ∧
      newer.length = 4 := ⟨[_, _, _, _], rfl, rfl⟩
  obtain ⟨newer, htrail, hlen⟩ := htrail
  have holdest := h.oldest
  rw [htrail]
  constructor
  · rw [List.length_append, h.length, hlen]
    omega
  · rw [List.getLast?_append, holdest]
    rfl

/-- One more iteration. -/
theorem FarAhead.next (h : FarAhead n vm) (hlt : n + 1 < 2 ^ 30) : ∃ vm', FarAhead (n + 1) vm' := by
  obtain ⟨hstep, hcount⟩ := h.counts hlt.le
  obtain ⟨hlength, holdest⟩ := h.trail (n + 1)
  have hmin : (farBody vm).loopMin 0 = 2 ^ 30 := h.min
  simp only [opRepeatIterate, hcount, hmin, if_pos hlt] at hstep
  refine ⟨_, ((h.reach.steps h.body).step hstep), rfl, rfl, ?_, h.min, h.max, h.plain, h.choices,
    hlength, holdest⟩
  simp [Store.setLoop]

theorem farAhead (n : Nat) (hn : n + 1 < 2 ^ 30) : ∃ vm, FarAhead (n + 1) vm := by
  induction n with
  | zero => exact farAhead_one
  | succ n ih =>
    obtain ⟨vm, h⟩ := ih (by omega)
    exact h.next hn

/-- In front of the `OP_SPLIT` the trail holds 2³² records. -/
theorem far_full : ∃ vm, VmReach farEnv farStart vm ∧ vm.ip = 43 ∧ vm.pos = 1 ∧
    vm.trail.length = 2 ^ 32 ∧ vm.trail.getLast? = some (.capWrite 0 0 0 0) ∧
    vm.regs.capStart 0 = 1 := by
  obtain ⟨vm, h⟩ := farAhead (2 ^ 30 - 2) (by decide)
  obtain ⟨hstep, hcount⟩ := h.counts (by decide)
  obtain ⟨hlength, holdest⟩ := h.trail (2 ^ 30 - 2 + 1 + 1)
  have hmin : (farBody vm).loopMin 0 = 2 ^ 30 := h.min
  have hmax : (farBody vm).loopMax 0 = 2 ^ 30 := h.max
  simp only [opRepeatIterate, hcount, hmin, hmax] at hstep
  rw [if_neg (by decide), if_neg (by decide)] at hstep
  refine ⟨_, (h.reach.steps h.body).step hstep, rfl, rfl, hlength, holdest, rfl⟩

end

/-- The records down to an oldest one that restores a start. -/
theorem Store.replay_zero_capStart {trail : List UndoRecord}
    (h : trail.getLast? = some (.capWrite 0 0 0 0)) (st : Store) :
    (replay 0 trail st).regs.capStart 0 = 0 := by
  obtain ⟨newer, rfl⟩ := List.getLast?_eq_some_iff.mp h
  rw [replay_append (Nat.zero_le _), replay]
  rfl

/-- The pop of the choice point that the `OP_SPLIT` saves brings capture 0 back as the run found
it at its start, although it was 1 at the push. -/
theorem vmRun_pop_loses_capture :
    compileAstToBytecodeC .caseSensitive farPattern = some farEnv.bc ∧ farEnv.compact = true ∧
      ∃ vm vm₁ vm₂ c, VmReach farEnv farStart vm ∧ vmStep farEnv vm = .running vm₁ ∧
        vm₁.choices = c :: vm.choices ∧ vmStep farEnv vm₁ = .running vm₂ ∧
        vm₂ = vm₁.restore c vm.choices ∧
        vm.regs.capStart 0 = 1 ∧ vm₂.regs.capStart 0 = 0 := by
  obtain ⟨vm, hreach, hip, hpos, hlength, holdest, hstart⟩ := far_full
  have hsplit : fetch farEnv.bc 43 = some (.split 52 67, 52) := by decide +kernel
  have hlit : fetch farEnv.bc 52 = some (.prim (.lit 61 1), 62) := by decide +kernel
  have hmatch : matchLit farEnv.s ((farEnv.bc.drop 61).take 1) 1 1 = none := by decide +kernel
  let c : Choice := vm.toStore.choice farEnv 67 vm.pos
  let vm₁ : Vm Unit := { vm.pushChoice farEnv 67 vm.pos with ip := 52 }
  have hpush : vmStep farEnv vm = .running vm₁ := by
    simp only [vmStep, hip, hsplit]
    rfl
  have hfail : vmStep farEnv vm₁ = .running (vm₁.restore c vm.choices) := by
    have hpos₁ : vm₁.pos = 1 := hpos
    simp only [vmStep, show vm₁.ip = 52 from rfl, hlit, Prim.exec, hpos₁, hmatch, moveTo, Vm.apply,
      Vm.backtrack]
    rfl
  have hbase : c.saved = .trailBase 0 := by
    have hsaved : c.saved = .trailBase (vm.trail.length % 2 ^ 32) := rfl
    rw [hsaved, hlength, Nat.mod_self]
  refine ⟨farCode_compiled, rfl, vm, vm₁, _, c, hreach, hpush, rfl, hfail, rfl, hstart, ?_⟩
  show ((vm.toStore.restore c).regs).capStart 0 = 0
  rw [Store.restore_trailBase hbase]
  exact Store.replay_zero_capStart holdest _

end Snobol4
