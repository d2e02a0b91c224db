import Snobol4.Compiler
import Snobol4.VmPoison

/-!
# SearchCaptures — what a search reports

`search_reset_vm` clears the counts of the registers and not the registers, so an attempt
may report what a failed attempt wrote.  It reports what a fresh VM would as long as it
reads and reports only registers that it has written, or that no earlier attempt changed.
-/

namespace Snobol4

variable {W : Type} {p : Nat}

/-- Poison for everything that a zeroed VM does not hold. -/
def markStale (p : Nat) (f : Nat → Nat) : Nat → Nat := fun i => if f i = 0 then 0 else p

theorem markStale_below (f : Nat → Nat) (i : Nat) : Below p (markStale p f i) (f i) := by
  unfold markStale
  split
  · rename_i hzero
    exact .inr hzero.symm
  · exact .inl rfl

theorem markStale_zero_below (f : Nat → Nat) (i : Nat) : Below p (markStale p f i) 0 := by
  unfold markStale
  split
  · exact .refl 0
  · exact .inl rfl

/-- The VM with poison in the registers that hold something from earlier attempts. -/
def Vm.poisoned (p : Nat) (vm : Vm W) : Vm W :=
  { vm with
    regs :=
      { vm.regs with
        capStart := markStale p vm.regs.capStart
        capEnd := markStale p vm.regs.capEnd
        varStart := markStale p vm.regs.varStart
        varEnd := markStale p vm.regs.varEnd }
    loopLastPos := markStale p vm.loopLastPos
    loopMin := markStale p vm.loopMin
    loopMax := markStale p vm.loopMax
    loopSpanGreedy := fun _ => false }

/-- The start of an attempt on the poisoned VM. -/
def Vm.poisonedStart (p : Nat) (vm : Vm W) : Vm W :=
  vmExecStart (searchResetVm (vm.poisoned p))

/-- The attempt on the VM as it is. -/
theorem poisonedStart_below (p : Nat) (vm : Vm W) :
    (vmRunStart (vm.poisonedStart p)).Below p none vm.loopSpanGreedy
      (vmRunStart (vmExecStart (searchResetVm vm))) where
  store :=
    { regs :=
        { capStart := markStale_below _
          capEnd := markStale_below _
          varStart := markStale_below _
          varEnd := markStale_below _
          varCount := rfl
          maxCapUsed := rfl }
      counters := fun _ => .refl _
      loopLastPos := markStale_below _
      maxCounterUsed := rfl
      trail := .nil }
  ip := rfl
  pos := rfl
  globals := rfl
  inGotoFail := rfl
  abortFlag := rfl
  loopMin := markStale_below _
  loopMax := markStale_below _
  flag i hi := by cases hi
  flagged _ hi := .inr hi
  choices := .nil

/-- The attempt on a fresh VM. -/
theorem poisonedStart_below_zero (p : Nat) (vm : Vm W) :
    (vmRunStart (vm.poisonedStart p)).Below p none vm.loopSpanGreedy
      (vmRunStart (vmExecStart (.zero vm.globals))) where
  store :=
    { regs :=
        { capStart := markStale_zero_below _
          capEnd := markStale_zero_below _
          varStart := markStale_zero_below _
          varEnd := markStale_zero_below _
          varCount := rfl
          maxCapUsed := rfl }
      counters := fun _ => .refl _
      loopLastPos := markStale_zero_below _
      maxCounterUsed := rfl
      trail := .nil }
  ip := rfl
  pos := rfl
  globals := rfl
  inGotoFail := rfl
  abortFlag := rfl
  loopMin := markStale_zero_below _
  loopMax := markStale_zero_below _
  flag i hi := by cases hi
  flagged i hi := by cases hi
  choices := .nil

/-- The registers that a successful attempt reports hold no poison. -/
structure ReportsWritten (p : Nat) (final : Vm W) : Prop where
  vars : ∀ i < final.regs.varCount, final.regs.varStart i ≠ p ∧ final.regs.varEnd i ≠ p
  caps : ∀ i < final.regs.maxCapUsed, final.regs.capStart i ≠ p ∧ final.regs.capEnd i ≠ p

/-- Two final states report the same. -/
structure SameReport (final final' : Vm W) : Prop where
  pos : final.pos = final'.pos
  varCount : final.regs.varCount = final'.regs.varCount
  vars : ∀ i < final.regs.varCount,
    final.regs.varStart i = final'.regs.varStart i ∧ final.regs.varEnd i = final'.regs.varEnd i
  maxCapUsed : final.regs.maxCapUsed = final'.regs.maxCapUsed
  caps : ∀ i < final.regs.maxCapUsed,
    final.regs.capStart i = final'.regs.capStart i ∧ final.regs.capEnd i = final'.regs.capEnd i

theorem Vm.Below.sameReport {cp cp' : Option Nat} {flagged flagged' : Nat → Bool}
    {u u' final final' : Vm W} (h : u.Below p cp flagged final)
    (h' : u'.Below p cp' flagged' final') (hpos : u.pos = u'.pos) (hregs : u.regs = u'.regs)
    (hu : ReportsWritten p u) : SameReport final final' := by
  have hbelow := h.store.regs
  have hbelow' := h'.store.regs
  rw [← hregs] at hbelow'
  constructor
  · rw [← h.pos, hpos, h'.pos]
  · rw [← hbelow.varCount, hbelow'.varCount]
  · intro i hi
    obtain ⟨hstart, hend⟩ := hu.vars i (hbelow.varCount ▸ hi)
    exact ⟨((hbelow.varStart i).eq hstart).symm.trans ((hbelow'.varStart i).eq hstart),
      ((hbelow.varEnd i).eq hend).symm.trans ((hbelow'.varEnd i).eq hend)⟩
  · rw [← hbelow.maxCapUsed, hbelow'.maxCapUsed]
  · intro i hi
    obtain ⟨hstart, hend⟩ := hu.caps i (hbelow.maxCapUsed ▸ hi)
    exact ⟨((hbelow.capStart i).eq hstart).symm.trans ((hbelow'.capStart i).eq hstart),
      ((hbelow.capEnd i).eq hend).symm.trans ((hbelow'.capEnd i).eq hend)⟩

/-- A run below another one that ends ends with it. -/
theorem VmRun.of_below {env : VmEnv W} {flagged : Nat → Bool} {start start' final' : Vm W}
    {ok : Bool} (h : (vmRunStart start).Below p none flagged (vmRunStart start'))
    (hreads : ∀ u, VmReach env start u → ReadsWritten env p flagged u)
    (hrun : VmRun env start' ok final') :
    ∃ u, VmRun env start ok u ∧ u.Below p none flagged final' := by
  obtain ⟨n, hn⟩ := hrun
  have hsteps := h.steps (n := n) fun m u hu => hreads u (VmReach.steps .start hu)
  rw [hn] at hsteps
  generalize hu : vmSteps env n (vmRunStart start) = r at hsteps
  cases hsteps with
  | halted _ hbelow => exact ⟨_, ⟨n, hu⟩, hbelow⟩

/-- A run above another one that ends ends with it. -/
theorem VmRun.below {env : VmEnv W} {flagged : Nat → Bool} {start start' u : Vm W} {ok : Bool}
    (h : (vmRunStart start).Below p none flagged (vmRunStart start'))
    (hreads : ∀ u, VmReach env start u → ReadsWritten env p flagged u)
    (hrun : VmRun env start ok u) :
    ∃ final', VmRun env start' ok final' ∧ u.Below p none flagged final' := by
  obtain ⟨n, hn⟩ := hrun
  have hsteps := h.steps (n := n) fun m u hu => hreads u (VmReach.steps .start hu)
  rw [hn] at hsteps
  generalize hu : vmSteps env n (vmRunStart start') = r at hsteps
  cases hsteps with
  | halted _ hbelow => exact ⟨_, ⟨n, hu⟩, hbelow⟩

/-- A search reports what a fresh VM reports at the winning offset, where the attempt on
the poisoned VM reads and reports no poison. -/
theorem search_captures_fresh (env : VmEnv W) (info : SearchMeta) (anchored : Bool)
    (start offset p : Nat) (vm₀ vm final : Vm W)
    (h : SearchFound env info anchored start vm₀ offset vm final)
    (hreads : ∀ u, VmReach (env.window offset) (vm.poisonedStart p) u →
      ReadsWritten (env.window offset) p vm.loopSpanGreedy u)
    (hreports : ∀ u, VmRun (env.window offset) (vm.poisonedStart p) true u →
      ReportsWritten p u) :
    ∃ final', VmExec (env.window offset) (.zero vm.globals) true final' ∧
      SameReport final final' := by
  obtain ⟨u, hu, hbelow⟩ := VmRun.of_below (poisonedStart_below p vm) hreads h.exec
  obtain ⟨final', hfinal', hbelow'⟩ := VmRun.below (poisonedStart_below_zero p vm) hreads hu
  exact ⟨final', hfinal', hbelow.sameReport hbelow' rfl rfl (hreports u hu)⟩

/-! ## Reused registers -/

instance (p : Nat) (q : Prim) (regs : Regs) : Decidable (q.ReadsWritten p regs) :=
  inferInstanceAs (Decidable ((∀ r ∈ _, _ → _) ∧ ∀ r ∈ _, _ → _))

/-- `ReadsWritten` as a test. -/
def readsWritten (env : VmEnv W) (p : Nat) (flagged : Nat → Bool) (vm : Vm W) : Bool :=
  match fetch env.bc vm.ip with
  | some (.prim q, _) => decide (q.ReadsWritten p vm.regs)
  | some (.repeatStep id target, _) =>
      vm.loopMin id != p && vm.loopMax id != p && vm.loopLastPos id != p &&
        (!flagged id || takesGreedy env id target vm)
  | _ => true

theorem ReadsWritten.of_readsWritten {env : VmEnv W} {flagged : Nat → Bool} {vm : Vm W}
    (h : readsWritten env p flagged vm = true) : ReadsWritten env p flagged vm := by
  unfold readsWritten at h
  constructor
  · intro q next hfetch
    rw [hfetch] at h
    simpa using h
  · intro loop target next hfetch _
    rw [hfetch] at h
    simp only [Bool.and_eq_true, bne_iff_ne, ne_eq, Bool.or_eq_true, Bool.not_eq_true'] at h
    obtain ⟨⟨⟨hmin, hmax⟩, hlast⟩, hflag⟩ := h
    refine ⟨hmin, hmax, hlast, fun hflagged => ?_⟩
    rw [hflagged] at hflag
    simpa using hflag

/-- A search with the code `bc` over "ab". -/
def overLetters (bc : Bytes) : VmEnv Unit := .ofCode bc [0x61, 0x62] .bare

/-- The start byte is one of the two letters, and every match has one byte. -/
def lettersMeta : SearchMeta := ⟨some fun b => b == 0x61 || b == 0x62, 1, none⟩

/-- The VM after `n` turns of the attempt at offset 0. -/
def afterFirst (bc : Bytes) (n : Nat) : Vm Unit :=
  (vmSteps ((overLetters bc).window 0) n
    (vmRunStart (vmExecStart (searchResetVm (.zero ⟨[], ()⟩))))).vm

/-- The VM after `n` turns of the attempt at offset 1 behind `m` turns of the first. -/
def afterSecond (bc : Bytes) (m n : Nat) : Vm Unit :=
  (vmSteps ((overLetters bc).window 1) n
    (vmRunStart (vmExecStart (searchResetVm (afterFirst bc m))))).vm

/-- `@r0('a') 'x' REM | @r0('b')` -/
def sameCapture : Bytes :=
  [3, 0, 0, 0, 9, 0, 0, 0, 39, 9, 0, 4, 0, 0, 0, 20, 0, 0, 0, 1, 97, 10, 0, 4, 0, 0, 0, 32, 0, 0,
    0, 1, 120, 34, 2, 0, 0, 0, 53, 9, 0, 4, 0, 0, 0, 50, 0, 0, 0, 1, 98, 10, 0, 0, 0, 0, 0, 0, 0,
    0, 0, 0, 0, 83, 78, 66, 76]

private theorem sameCapture_found :
    SearchFound (overLetters sameCapture) lettersMeta false 0 (.zero ⟨[], ()⟩) 1
      (afterFirst sameCapture 7) (afterSecond sameCapture 7 7) where
  reach :=
    .failed .start ⟨by decide, by decide, by decide⟩
      ⟨7, StepResult.eq_failed (by decide +kernel)⟩ (by decide +kernel) (by decide) rfl
  tries := ⟨by decide, by decide, by decide⟩
  exec := ⟨7, StepResult.eq_halted (by decide +kernel)⟩

/-- The search on "ab": the failed attempt has written the capture that the match
reports. -/
theorem search_captures_fresh_sameCapture :
    ∃ final', VmExec ((overLetters sameCapture).window 1)
        (.zero (afterFirst sameCapture 7).globals) true final' ∧
      SameReport (afterSecond sameCapture 7 7) final' := by
  have hend : vmSteps ((overLetters sameCapture).window 1) 7
      (vmRunStart ((afterFirst sameCapture 7).poisonedStart 3)) = .halted true
        (vmSteps ((overLetters sameCapture).window 1) 7
          (vmRunStart ((afterFirst sameCapture 7).poisonedStart 3))).vm :=
    StepResult.eq_halted (by decide +kernel)
  refine search_captures_fresh _ _ _ _ _ 3 _ _ _ sameCapture_found ?_ ?_
  · refine VmReach.forall_of_steps hend fun m hm vm hvm => .of_readsWritten ?_
    have hall : ∀ m < 7, (vmSteps ((overLetters sameCapture).window 1) m
        (vmRunStart ((afterFirst sameCapture 7).poisonedStart 3))).All
          (readsWritten ((overLetters sameCapture).window 1) 3
            (afterFirst sameCapture 7).loopSpanGreedy) := by
      decide +kernel
    have hm := hall m hm
    rw [hvm] at hm
    exact hm
  · intro u hu
    obtain ⟨-, rfl⟩ := VmRun.unique hu ⟨7, hend⟩
    exact ⟨by decide +kernel, by decide +kernel⟩

/-- `@r1('b') | @r0('a') 'x' REM` -/
def otherCapture : Bytes :=
  [3, 0, 0, 0, 9, 0, 0, 0, 28, 9, 1, 4, 0, 0, 0, 20, 0, 0, 0, 1, 98, 10, 1, 2, 0, 0, 0, 53, 9, 0,
    4, 0, 0, 0, 39, 0, 0, 0, 1, 97, 10, 0, 4, 0, 0, 0, 51, 0, 0, 0, 1, 120, 34, 0, 0, 0, 0, 0, 0,
    0, 0, 0, 83, 78, 66, 76]

/-- The search on "ab" matches "b" with capture 1; it also reports capture 0, which the
failed attempt wrote and the match did not. -/
theorem search_captures_stale :
    compileAstToBytecodeC .caseSensitive
        (.alt (.cap 1 (.literal [0x62])) (.concat [.cap 0 (.literal [0x61]), .literal [0x78], .rem]))
        = some otherCapture ∧
      SearchFound (overLetters otherCapture) lettersMeta false 0 (.zero ⟨[], ()⟩) 1
        (afterFirst otherCapture 7) (afterSecond otherCapture 7 6) ∧
      ¬∃ final', VmExec ((overLetters otherCapture).window 1)
          (.zero (afterFirst otherCapture 7).globals) true final' ∧
        SameReport (afterSecond otherCapture 7 6) final' := by
  refine ⟨by decide +kernel, ?_, ?_⟩
  · exact
      { reach :=
          .failed .start ⟨by decide, by decide, by decide⟩
            ⟨7, StepResult.eq_failed (by decide +kernel)⟩ (by decide +kernel) (by decide) rfl
        tries := ⟨by decide, by decide, by decide⟩
        exec := ⟨6, StepResult.eq_halted (by decide +kernel)⟩ }
  · rintro ⟨final', hfinal', hsame⟩
    have hfresh : vmSteps ((overLetters otherCapture).window 1) 6
        (vmRunStart (vmExecStart (.zero (afterFirst otherCapture 7).globals))) = .halted true
          (vmSteps ((overLetters otherCapture).window 1) 6
            (vmRunStart (vmExecStart (.zero (afterFirst otherCapture 7).globals)))).vm :=
      StepResult.eq_halted (by decide +kernel)
    obtain ⟨-, rfl⟩ := VmRun.unique hfinal' ⟨6, hfresh⟩
    have hend := (hsame.vars 0 (by decide +kernel)).2
    revert hend
    decide +kernel

end Snobol4
