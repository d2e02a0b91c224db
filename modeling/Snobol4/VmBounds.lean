import Snobol4.VmInvariant

/-!
# VmBounds — the bounds of the variables (`vm_exec.c`)

`OP_CAP_END` and `OP_ASSIGN` copy the two bounds of a register to a variable.  The bounds
of a register are written one at a time: while a capture is open, its register holds the
new start and the old end.
-/

namespace Snobol4

variable {W : Type}

/-- Every end is in the subject, and the bounds of a variable are in order. -/
structure Regs.Bounded (n : Nat) (regs : Regs) : Prop where
  capEnd : ∀ r, regs.capEnd r ≤ n
  var : ∀ v, regs.varStart v ≤ regs.varEnd v ∧ regs.varEnd v ≤ n

/-- The cursor is in a subject of `n` bytes, and the registers are bounded. -/
def Invariant.bounds (n : Nat) : Invariant where
  pos p := p ≤ n
  regs := Regs.Bounded n
  undo
    | .counterDec _ _ _ => True
    | .capWrite _ _ _ stop => stop ≤ n
    | .varWrite _ start stop => start ≤ stop ∧ stop ≤ n
  saved
    | .trailBase _ => True
    | .snapshot _ capEnd _ _ => ∀ r, capEnd r ≤ n

/-- The next turn copies bounds that are in order, and the run of a greedy shortcut is
shorter than the `int32_t` it is cast to. -/
structure InOrder (env : VmEnv W) (vm : Vm W) : Prop where
  capEnd : ∀ r next, fetch env.bc vm.ip = some (.prim (.capEnd r), next) → r < maxCaps →
    vm.regs.capStart r ≤ vm.pos
  assign : ∀ var r next, fetch env.bc vm.ip = some (.prim (.assign var r), next) →
    var < maxCaps → r < maxCaps → vm.regs.capStart r ≤ vm.regs.capEnd r
  greedy : ∀ loop target next, fetch env.bc vm.ip = some (.repeatStep loop target, next) →
    loop < maxLoops → takesGreedy env loop target vm = true →
      ∀ stop ∈ greedyRunEnd env target vm.pos, stop - vm.pos < 2 ^ 31

section

variable {n : Nat} {regs : Regs} {st : Store}

/-- Both bounds of one variable are written. -/
theorem Regs.Bounded.update_var (h : regs.Bounded n) {var start stop : Nat}
    (hpair : start ≤ stop ∧ stop ≤ n) (v : Nat) :
    Function.update regs.varStart var start v ≤ Function.update regs.varEnd var stop v ∧
      Function.update regs.varEnd var stop v ≤ n := by
  by_cases hv : v = var
  · subst hv
    simpa using hpair
  · simpa [Function.update_of_ne hv] using h.var v

/-- The end of one register is written. -/
theorem Regs.Bounded.update_capEnd (h : regs.Bounded n) {reg stop : Nat} (hstop : stop ≤ n)
    (r : Nat) : Function.update regs.capEnd reg stop r ≤ n :=
  (Function.forall_update_iff _ fun _ x => x ≤ n).mpr ⟨hstop, fun r _ => h.capEnd r⟩ r

/-! ## Undoing -/

theorem Regs.Bounded.undone {e : UndoRecord} (h : st.regs.Bounded n)
    (he : (Invariant.bounds n).undo e) : (st.undo e).regs.Bounded n := by
  cases e with
  | counterDec loop count lastPos =>
    simp only [Store.undo]
    split
    · exact h
    · exact h
  | capWrite reg sub start stop =>
    simp only [Store.undo]
    split
    · split
      · exact ⟨h.capEnd, h.var⟩
      split
      · exact ⟨h.update_capEnd he, h.var⟩
      · exact ⟨h.update_capEnd he, h.var⟩
    · exact h
  | varWrite var start stop =>
    simp only [Store.undo]
    split
    · exact ⟨h.capEnd, h.update_var he⟩
    · exact h

theorem Invariant.bounds_stable (n : Nat) : (Invariant.bounds n).Stable where
  used _ _ _ h := ⟨h.capEnd, h.var⟩
  counterDec _ _ _ := trivial
  undone _ _ h he := h.undone he
  trailBase _ := trivial
  snapshot _ _ _ h := h.capEnd
  copied regs used capStart capEnd _ _ h hcopy := by
    refine ⟨?_, h.var⟩
    intro r
    simp only [Store.restoreBelow]
    split
    · exact hcopy r
    · exact h.capEnd r

/-! ## The handlers -/

variable {env : VmEnv W} {pos : Nat} {g : Globals W}

theorem opCapStart_bounds (h : regs.Bounded n) (hpos : pos ≤ n) (r : Nat) :
    (writeRegs pos g (opCapStart r pos regs)).Keeps (.bounds n) := by
  unfold opCapStart
  split
  · refine ⟨hpos, ⟨h.capEnd, h.var⟩, ?_⟩
    intro e he
    obtain rfl := List.mem_singleton.mp he
    exact h.capEnd r
  · exact .stay hpos h g

theorem opCapEnd_bounds (h : regs.Bounded n) (hpos : pos ≤ n) {r : Nat}
    (horder : r < maxCaps → regs.capStart r ≤ pos) :
    (writeRegs pos g (opCapEnd r pos regs)).Keeps (.bounds n) := by
  unfold opCapEnd
  split
  · rename_i hr
    refine ⟨hpos, ⟨h.update_capEnd hpos, h.update_var ⟨horder hr, hpos⟩⟩, ?_⟩
    intro e he
    simp only [List.mem_cons, List.not_mem_nil, or_false] at he
    rcases he with rfl | rfl
    · exact h.var r
    · exact h.capEnd r
  · exact .stay hpos h g

theorem opAssign_bounds (h : regs.Bounded n) (hpos : pos ≤ n) {var r : Nat}
    (horder : var < maxCaps → r < maxCaps → regs.capStart r ≤ regs.capEnd r) :
    (writeRegs pos g (opAssign var r regs)).Keeps (.bounds n) := by
  unfold opAssign
  split
  · rename_i hlt
    refine ⟨hpos, ⟨h.capEnd, h.update_var ⟨horder hlt.1 hlt.2, h.capEnd r⟩⟩, ?_⟩
    intro e he
    obtain rfl := List.mem_singleton.mp he
    exact h.var var
  · exact .stay hpos h g

/-- A plain instruction keeps the bounds when what it copies is in order. -/
theorem Prim.exec_bounds (p : Prim) (h : regs.Bounded env.s.length)
    (hpos : pos ≤ env.s.length)
    (hend : ∀ r, p = .capEnd r → r < maxCaps → regs.capStart r ≤ pos)
    (hassign : ∀ var r, p = .assign var r → var < maxCaps → r < maxCaps →
      regs.capStart r ≤ regs.capEnd r) :
    (p.exec env pos regs g).Keeps (.bounds env.s.length) := by
  cases p with
  | nop | label | emitLiteral => exact .stay hpos h _
  | lit off len => exact moveTo_keeps h (fun pos' hlit => (matchLit_bounds hpos hlit).2) g
  | set op id => exact moveTo_keeps h (fun pos' hset => (matchSet_bounds hpos hset).2) g
  | capStart r => exact opCapStart_bounds h hpos r
  | capEnd r => exact opCapEnd_bounds h hpos (hend r rfl)
  | assign var r => exact opAssign_bounds h hpos (hassign var r rfl)
  | count op n => exact moveTo_keeps h (fun pos' hcount => (matchCount_bounds hpos hcount).2) g
  | eval fn r => exact opEval_keeps hpos h fn r
  | anchor type =>
    refine moveTo_keeps h (fun pos' hanchor => ?_) g
    simp only [matchAnchor, Option.ite_none_right_eq_some, Option.some.injEq] at hanchor
    obtain ⟨-, rfl⟩ := hanchor
    exact hpos
  | emitCapture r =>
    simp only [Prim.exec, opEmitCapture]
    split
    · exact .stay hpos h _
    · exact .stay hpos h _
  | tableGet table key reg => exact opTableGet_keeps hpos h table key
  | tableSet table key value => exact opTableSet_keeps hpos h table key value
  | bal openCp closeCp => exact opBal_keeps h fun fuel pos' hscan => (balScan_bounds hscan).2
  | rem => exact .stay le_rfl h g

end

/-! ## Runs -/

variable {env : VmEnv W}

/-- The greedy shortcut stays in the subject. -/
theorem greedyKeeps_bounds {vm : Vm W} {loop target : Nat} (h : vm.pos ≤ env.s.length)
    (hshort : ∀ stop ∈ greedyRunEnd env target vm.pos, stop - vm.pos < 2 ^ 31) :
    GreedyKeeps (.bounds env.s.length) env loop target vm := by
  have hstop := (greedyStop_bounds env target h).2
  refine ⟨hshort, hstop, ?_⟩
  intro _
  exact (Nat.sub_le _ 1).trans hstop

/-- A turn that copies bounds in order. -/
theorem Vm.Keeps.step_bounds {vm : Vm W} (h : vm.Keeps (.bounds env.s.length))
    (horder : InOrder env vm) : (vmStep env vm).vm.Keeps (.bounds env.s.length) := by
  have hpos : vm.pos ≤ env.s.length := h.pos
  refine h.step (Invariant.bounds_stable _) hpos ?_ ?_ ?_ ?_
  · intro p next hfetch
    refine p.exec_bounds h.store.regs hpos ?_ ?_
    · rintro r rfl
      exact horder.capEnd r next hfetch
    · rintro var r rfl
      exact horder.assign var r next hfetch
  · intro loop target next hfetch hloop htakes
    exact greedyKeeps_bounds hpos (horder.greedy loop target next hfetch hloop htakes)
  · intro ranges
    exact (breakTarget_bounds env.s ranges hpos).2
  · intro ranges hlt
    cases hpeek : peekCp env.s (breakTarget env.s ranges vm.pos) with
    | some step => exact (peekCp_bounds hpeek).2
    | none => exact hlt

/-- In a run on a zeroed VM whose turns copy bounds in order, the bounds of every variable
are in order and in the subject, in every state and at the end. -/
theorem vmRun_vars_bounded (env : VmEnv W) (g : Globals W)
    (horder : ∀ vm, VmReach env (.zero g) vm → InOrder env vm) :
    (∀ vm, VmReach env (.zero g) vm → vm.regs.Bounded env.s.length) ∧
      ∀ ok final, VmRun env (.zero g) ok final → ∀ i < final.regs.varCount,
        final.regs.varStart i ≤ final.regs.varEnd i ∧ final.regs.varEnd i ≤ env.s.length := by
  have hzero : (Vm.zero g).regs.Bounded env.s.length :=
    ⟨fun _ => Nat.zero_le _, fun _ => ⟨le_rfl, Nat.zero_le _⟩⟩
  have hstart : (vmRunStart (Vm.zero g)).Keeps (.bounds env.s.length) :=
    ⟨Nat.zero_le env.s.length, ⟨hzero, nofun⟩, nofun⟩
  obtain ⟨hreach, hfinal⟩ := vmRun_keeps hstart fun vm hvm h => h.step_bounds (horder vm hvm)
  refine ⟨fun vm hvm => (hreach vm hvm).store.regs, ?_⟩
  intro ok final hrun i _
  exact (hfinal ok final hrun).store.regs.var i

/-! ## A register that is opened again -/

/-- `InOrder` as a test. -/
def inOrder (env : VmEnv W) (vm : Vm W) : Bool :=
  match fetch env.bc vm.ip with
  | some (.prim (.capEnd r), _) => vm.regs.capStart r ≤ vm.pos
  | some (.prim (.assign _ r), _) => vm.regs.capStart r ≤ vm.regs.capEnd r
  | some (.repeatStep _ target, _) =>
      (greedyRunEnd env target vm.pos).all (· - vm.pos < 2 ^ 31)
  | _ => true

theorem InOrder.of_inOrder {vm : Vm W} (h : inOrder env vm = true) : InOrder env vm := by
  unfold inOrder at h
  constructor
  · intro r next hfetch _
    rw [hfetch] at h
    simpa using h
  · intro var r next hfetch _ _
    rw [hfetch] at h
    simpa using h
  · intro loop target next hfetch _ _ stop hstop
    rw [hfetch] at h
    simp only [Option.mem_def.mp hstop] at h
    simpa using h

/-- `@r0('a') 'x' @r0('b') ASSIGN(1, 0)` -/
def assignBehind : Bytes :=
  [9, 0, 4, 0, 0, 0, 11, 0, 0, 0, 1, 97, 10, 0, 4, 0, 0, 0, 23, 0, 0, 0, 1, 120, 9, 0, 4, 0, 0, 0,
    35, 0, 0, 0, 1, 98, 10, 0, 11, 0, 1, 0, 0, 0, 0, 0, 0, 0, 0, 0, 0, 83, 78, 66, 76]

/-- Over "axb". -/
theorem vmRun_vars_bounded_assignBehind :
    ∃ final, VmRun (VmEnv.ofCode assignBehind [0x61, 0x78, 0x62] .bare) (.zero ⟨[], ()⟩) true
      final ∧ ∀ i < final.regs.varCount,
        final.regs.varStart i ≤ final.regs.varEnd i ∧ final.regs.varEnd i ≤ 3 := by
  have hend := StepResult.eq_halted
    (show (vmSteps (VmEnv.ofCode assignBehind [0x61, 0x78, 0x62] .bare) 9
      (vmRunStart (.zero ⟨[], ()⟩))).isAccepted = true by decide +kernel)
  have hall : ∀ m < 9, (vmSteps (VmEnv.ofCode assignBehind [0x61, 0x78, 0x62] .bare) m
      (vmRunStart (.zero ⟨[], ()⟩))).All
        (inOrder (VmEnv.ofCode assignBehind [0x61, 0x78, 0x62] .bare)) = true := by decide +kernel
  have horder : ∀ vm, VmReach (VmEnv.ofCode assignBehind [0x61, 0x78, 0x62] .bare)
      (.zero ⟨[], ()⟩) vm → InOrder (VmEnv.ofCode assignBehind [0x61, 0x78, 0x62] .bare) vm := by
    refine VmReach.forall_of_steps hend fun m hm vm hvm => .of_inOrder ?_
    have hturn := hall m hm
    rw [hvm] at hturn
    exact hturn
  exact ⟨_, ⟨9, hend⟩, (vmRun_vars_bounded _ ⟨[], ()⟩ horder).2 true _ ⟨9, hend⟩⟩

/-- `@r0('a') 'x' @r0('b' ASSIGN(1, 0))` -/
def assignInside : Bytes :=
  [9, 0, 4, 0, 0, 0, 11, 0, 0, 0, 1, 97, 10, 0, 4, 0, 0, 0, 23, 0, 0, 0, 1, 120, 9, 0, 4, 0, 0, 0,
    35, 0, 0, 0, 1, 98, 11, 0, 1, 0, 10, 0, 0, 0, 0, 0, 0, 0, 0, 0, 0, 83, 78, 66, 76]

/-- Over "axb" the assignment sees the start of the second capture and the end of the
first: variable 1 is `[2, 1)`. -/
theorem vmRun_vars_crossed :
    compileAstToBytecodeC .caseSensitive (.concat [.cap 0 (.literal [0x61]), .literal [0x78],
      .cap 0 (.concat [.literal [0x62], .assign 1 0])]) = some assignInside ∧
      ∃ final, VmRun (VmEnv.ofCode assignInside [0x61, 0x78, 0x62] .bare) (.zero ⟨[], ()⟩) true
        final ∧ 1 < final.regs.varCount ∧
          final.regs.varStart 1 = 2 ∧ final.regs.varEnd 1 = 1 := by
  have hend := StepResult.eq_halted
    (show (vmSteps (VmEnv.ofCode assignInside [0x61, 0x78, 0x62] .bare) 9
      (vmRunStart (.zero ⟨[], ()⟩))).isAccepted = true by decide +kernel)
  refine ⟨by decide +kernel, _, ⟨9, hend⟩, ?_, ?_, ?_⟩
  · decide +kernel
  · decide +kernel
  · decide +kernel

end Snobol4
