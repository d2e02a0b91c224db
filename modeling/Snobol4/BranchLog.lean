import Snobol4.VmPath

/-!
# BranchLog — the undo records of a branch (`vm_choice.c`)

The records above the base of a choice point are those of the branch behind it.  A pop gives a
register back what the oldest of these holds, and leaves a register without one as it is.  The
registers of a loop are also set without a record: by `OP_REPEAT_INIT`, and by the step of a loop
behind its push.
-/

namespace Snobol4

variable {W : Type}

/-! ## Whose record it is -/

/-- The record brings back the start of capture `r`. -/
def UndoRecord.ofStart (r : Nat) : UndoRecord → Bool
  | .capWrite reg sub _ _ => reg == r && sub != 1
  | _ => false

/-- The record brings back the end of capture `r`. -/
def UndoRecord.ofEnd (r : Nat) : UndoRecord → Bool
  | .capWrite reg sub _ _ => reg == r && sub != 0
  | _ => false

/-- The record brings back variable `v`. -/
def UndoRecord.ofVar (v : Nat) : UndoRecord → Bool
  | .varWrite var _ _ => var == v
  | _ => false

/-- The record brings back loop `i`. -/
def UndoRecord.ofLoop (i : Nat) : UndoRecord → Bool
  | .counterDec loop _ _ => loop == i && decide (loop < maxLoops)
  | _ => false

namespace Store

/-- The undo records of the branch behind a choice record. -/
def branchLog (st : Store) (c : Choice) : List UndoRecord :=
  match c.saved with
  | .trailBase base => st.trail.take (st.trail.length - base)
  | .snapshot .. => []

section

variable {c : Choice} {base : Nat} {st st' : Store}

theorem branchLog_eq (hc : BaseIs c base) (st : Store) :
    st.branchLog c = st.trail.take (st.trail.length - base) := by
  rw [branchLog, hc]

theorem branchLog_append (hc : BaseIs c base) (hle : base ≤ st.trail.length)
    (new : List UndoRecord) (h : st'.trail = new ++ st.trail) :
    st'.branchLog c = new ++ st.branchLog c := by
  rw [branchLog_eq hc, branchLog_eq hc, h, List.length_append, Nat.add_sub_assoc hle,
    List.take_length_add_append]

/-- A record just saved has no branch yet. -/
theorem branchLog_nil (hc : BaseIs c st.trail.length) : st.branchLog c = [] := by
  rw [branchLog_eq hc, Nat.sub_self, List.take_zero]

end

/-! ## What a pop leaves as it is -/

/-- A pop leaves the registers without a record on the branch. -/
theorem replay_untouched (base : Nat) (trail : List UndoRecord) (st : Store) (i : Nat) :
    ((trail.take (trail.length - base)).any (·.ofStart i) = false →
      (replay base trail st).regs.capStart i = st.regs.capStart i) ∧
    ((trail.take (trail.length - base)).any (·.ofEnd i) = false →
      (replay base trail st).regs.capEnd i = st.regs.capEnd i) ∧
    ((trail.take (trail.length - base)).any (·.ofVar i) = false →
      (replay base trail st).regs.varStart i = st.regs.varStart i ∧
        (replay base trail st).regs.varEnd i = st.regs.varEnd i) := by
  induction trail generalizing st with
  | nil => exact ⟨fun _ => rfl, fun _ => rfl, fun _ => ⟨rfl, rfl⟩⟩
  | cons e trail ih =>
    rw [replay]
    by_cases hle : base ≤ trail.length
    · rw [if_pos hle, List.length_cons, Nat.succ_sub hle, List.take_succ_cons]
      simp only [List.any_cons, Bool.or_eq_false_iff]
      obtain ⟨hstart, hend, hvar⟩ := ih (st.undo e)
      have hundo : (e.ofStart i = false → (st.undo e).regs.capStart i = st.regs.capStart i) ∧
          (e.ofEnd i = false → (st.undo e).regs.capEnd i = st.regs.capEnd i) ∧
          (e.ofVar i = false → (st.undo e).regs.varStart i = st.regs.varStart i ∧
            (st.undo e).regs.varEnd i = st.regs.varEnd i) := by
        cases e with
        | counterDec loop count lastPos =>
          simp only [undo]
          split
          · exact ⟨fun _ => rfl, fun _ => rfl, fun _ => ⟨rfl, rfl⟩⟩
          · exact ⟨fun _ => rfl, fun _ => rfl, fun _ => ⟨rfl, rfl⟩⟩
        | capWrite reg sub start stop =>
          simp only [undo, UndoRecord.ofStart, UndoRecord.ofEnd]
          by_cases heq : reg = i
          · subst heq
            split
            · split
              · simp_all
              split
              · simp_all
              · simp_all
            · simp
          · have hne : i ≠ reg := fun h => heq h.symm
            split
            · split
              · simp [Function.update_of_ne hne]
              split
              · simp [Function.update_of_ne hne]
              · simp [Function.update_of_ne hne]
            · simp
        | varWrite var start stop =>
          simp only [undo, UndoRecord.ofVar]
          split
          · refine ⟨fun _ => rfl, fun _ => rfl, fun hother => ?_⟩
            have hne : i ≠ var := by
              rintro rfl
              simp at hother
            exact ⟨Function.update_of_ne hne .., Function.update_of_ne hne ..⟩
          · exact ⟨fun _ => rfl, fun _ => rfl, fun _ => ⟨rfl, rfl⟩⟩
      refine ⟨fun h => (hstart h.2).trans (hundo.1 h.1), fun h => (hend h.2).trans (hundo.2.1 h.1),
        fun h => ?_⟩
      obtain ⟨hs, he⟩ := hvar h.2
      obtain ⟨hs', he'⟩ := hundo.2.2 h.1
      exact ⟨hs.trans hs', he.trans he'⟩
    · rw [if_neg hle]
      exact ⟨fun _ => rfl, fun _ => rfl, fun _ => ⟨rfl, rfl⟩⟩

/-! ## Loops -/

/-- Count and last position of a loop. -/
def loop (st : Store) (i : Nat) : Nat × Nat := (st.counters i, st.loopLastPos i)

/-- Count and last position of loop `i` after the undo records, newest first. -/
def undoLoop (i : Nat) : List UndoRecord → Nat × Nat → Nat × Nat
  | [], x => x
  | .counterDec l count lastPos :: log, x =>
      undoLoop i log (if l = i ∧ l < maxLoops then (count, lastPos) else x)
  | _ :: log, x => undoLoop i log x

section

variable {i : Nat} {log log' : List UndoRecord} {x y : Nat × Nat}

theorem undoLoop_append : undoLoop i (log ++ log') x = undoLoop i log' (undoLoop i log x) := by
  induction log generalizing x with
  | nil => rfl
  | cons e log ih => cases e <;> exact ih

theorem undoLoop_of_none (h : log.any (·.ofLoop i) = false) : undoLoop i log x = x := by
  induction log generalizing x with
  | nil => rfl
  | cons e log ih =>
    rw [List.any_cons, Bool.or_eq_false_iff] at h
    cases e with
    | counterDec l count lastPos =>
      have hne : ¬(l = i ∧ l < maxLoops) := by
        rintro ⟨rfl, hl⟩
        simp [UndoRecord.ofLoop, hl] at h
      rw [undoLoop, if_neg hne]
      exact ih h.2
    | capWrite | varWrite => exact ih h.2

/-- With a record of the loop, what is undone does not matter. -/
theorem undoLoop_of_any (h : log.any (·.ofLoop i) = true) :
    undoLoop i log x = undoLoop i log y := by
  induction log generalizing x y with
  | nil => cases h
  | cons e log ih =>
    rw [List.any_cons, Bool.or_eq_true] at h
    cases e with
    | counterDec l count lastPos =>
      by_cases hof : l = i ∧ l < maxLoops
      · rw [undoLoop, undoLoop, if_pos hof, if_pos hof]
      · have hlog : log.any (·.ofLoop i) = true :=
          h.resolve_left (by simpa [UndoRecord.ofLoop] using hof)
        exact ih hlog
    | capWrite | varWrite => exact ih (h.resolve_left Bool.false_ne_true)

theorem undo_loop (st : Store) (e : UndoRecord) (i : Nat) :
    (st.undo e).loop i = undoLoop i [e] (st.loop i) := by
  cases e with
  | counterDec l count lastPos =>
    simp only [undo, undoLoop]
    by_cases hl : l < maxLoops
    · by_cases heq : l = i
      · subst heq
        simp [hl, loop, setLoop]
      · simp [hl, heq, loop, setLoop, Function.update_of_ne (Ne.symm heq)]
    · simp [hl]
  | capWrite reg sub start stop =>
    simp only [undo]
    split
    · split
      · rfl
      split <;> rfl
    · rfl
  | varWrite var start stop =>
    simp only [undo]
    split <;> rfl

theorem replay_loop (base : Nat) (trail : List UndoRecord) (st : Store) (i : Nat) :
    (replay base trail st).loop i =
      undoLoop i (trail.take (trail.length - base)) (st.loop i) := by
  induction trail generalizing st with
  | nil =>
    rw [List.take_nil]
    rfl
  | cons e trail ih =>
    rw [replay]
    by_cases hle : base ≤ trail.length
    · rw [if_pos hle, List.length_cons, Nat.succ_sub hle, List.take_succ_cons, ih, undo_loop,
        ← undoLoop_append]
      rfl
    · rw [if_neg hle, List.length_cons, Nat.sub_eq_zero_of_le (by omega)]
      rfl

/-- A pop undoes the branch. -/
theorem restore_loop {c : Choice} {base : Nat} (hc : BaseIs c base) (st : Store) (i : Nat) :
    (st.restore c).loop i = undoLoop i (st.branchLog c) (st.loop i) := by
  rw [restore_trailBase hc, replay_loop, branchLog_eq hc]
  rfl

end

end Store

/-! ## What a turn does to a loop -/

/-- The turn is the start or the step of loop `i`. -/
def setsLoop (env : VmEnv W) (vm : Vm W) (i : Nat) : Bool :=
  match fetch env.bc vm.ip with
  | some (.repeatInit loop _ _ _, _) | some (.repeatStep loop _, _) => loop == i
  | _ => false

/-- A turn that pops nothing leaves loop `i`, or is the start or the step of this loop, which
counts with an undo record or has none. -/
inductive LoopEffect (env : VmEnv W) (vm vm' : Vm W) (i : Nat) : Prop
  | kept (new : List UndoRecord) (htrail : vm'.trail = new ++ vm.trail)
      (hnone : new.any (·.ofLoop i) = false) (hloop : vm'.toStore.loop i = vm.toStore.loop i)
  | counted (hi : i < maxLoops) (hsets : setsLoop env vm i = true)
      (htrail : vm'.trail = .counterDec i (vm.counters i) (vm.loopLastPos i) :: vm.trail)
  | unlogged (hi : i < maxLoops) (hsets : setsLoop env vm i = true) (htrail : vm'.trail = vm.trail)

section

variable {env : VmEnv W} {vm vm' : Vm W} {i : Nat}

/-- The pop of a record that stays is the same after the turn, unless the branch has no record of
the loop that was set. -/
theorem LoopEffect.restore (h : LoopEffect env vm vm' i) {c : Choice} {base : Nat}
    (hc : Store.BaseIs c base) (hle : base ≤ vm.trail.length)
    (hlogged : setsLoop env vm i = true → (vm'.toStore.branchLog c).any (·.ofLoop i) = true) :
    (vm'.toStore.restore c).loop i = (vm.toStore.restore c).loop i := by
  rw [Store.restore_loop hc, Store.restore_loop hc]
  cases h with
  | kept new htrail hnone hloop =>
    rw [Store.branchLog_append hc hle new htrail, Store.undoLoop_append,
      Store.undoLoop_of_none hnone, hloop]
  | counted hi hsets htrail =>
    rw [Store.branchLog_append hc hle [_] htrail, Store.undoLoop_append,
      Store.undoLoop, if_pos ⟨rfl, hi⟩]
    rfl
  | unlogged hi hsets htrail =>
    have hsame : vm'.toStore.branchLog c = vm.toStore.branchLog c :=
      Store.branchLog_append hc hle [] htrail
    rw [hsame]
    exact Store.undoLoop_of_any (hsame ▸ hlogged hsets)

/-- A handler of loop `loop` changes no other loop and saves one undo record or none. -/
structure LoopFrame (loop : Nat) (vm vm' : Vm W) : Prop where
  trail : vm'.trail = vm.trail ∨
    vm'.trail = .counterDec loop (vm.counters loop) (vm.loopLastPos loop) :: vm.trail
  others : ∀ i, i ≠ loop → vm'.toStore.loop i = vm.toStore.loop i

theorem Store.setLoop_loop {loop : Nat} (st : Store) (n p : Nat) (h : i ≠ loop) :
    (st.setLoop loop n p).loop i = st.loop i := by
  simp [Store.loop, Store.setLoop, Function.update_of_ne h]

theorem Store.count_loop {loop : Nat} (env : VmEnv W) (st : Store) (n : Nat) (h : i ≠ loop) :
    (st.count env loop n).loop i = st.loop i := by
  have hrecord : (st.count env loop n).loop i =
      (st.setLoop loop n (st.loopLastPos loop)).loop i := by
    unfold Store.count Store.record
    split <;> rfl
  rw [hrecord, Store.setLoop_loop st _ _ h]

/-- What a turn saves: nothing, or a record of the registers that it leaves, before it sets a
loop. -/
inductive Saves (env : VmEnv W) (sets : Nat → Bool) (vm vm' : Vm W) : Prop
  | none (h : vm'.choices = vm.choices)
  | pushed (st : Store) (ip pos : Nat) (h : vm'.choices = st.choice env ip pos :: vm.choices)
      (hregs : st.regs = vm'.regs) (htrail : st.trail = vm'.trail)
      (hloop : ∀ i, sets i = false → st.loop i = vm'.toStore.loop i)

/-- A loop other than the one that the turn sets. -/
theorem ne_of_beq_eq_false {loop : Nat} (h : (loop == i) = false) : i ≠ loop := by
  rintro rfl
  simp at h

theorem Saves.congr {sets sets' : Nat → Bool} {vm₁ : Vm W} (h : Saves env sets vm₁ vm')
    (hsets : ∀ i, sets' i = false → sets i = false) (hchoices : vm₁.choices = vm.choices) :
    Saves env sets' vm vm' := by
  cases h with
  | none h => exact .none (h.trans hchoices)
  | pushed st ip pos h hregs htrail hloop =>
    exact .pushed st ip pos (h.trans (by rw [hchoices])) hregs htrail fun i hi =>
      hloop i (hsets i hi)

theorem Saves.length_le {sets : Nat → Bool} (h : Saves env sets vm vm') :
    vm.choices.length ≤ vm'.choices.length := by
  cases h with
  | none h => rw [h]
  | pushed st ip pos h _ _ _ =>
    rw [h]
    exact Nat.le_succ _

theorem opRepeatInit_frame (env : VmEnv W) (loop min max skip : Nat) (vm : Vm W) :
    LoopFrame loop vm (opRepeatInit env loop min max skip vm) ∧
      Saves env (fun i => loop == i) vm (opRepeatInit env loop min max skip vm) := by
  unfold opRepeatInit
  split
  · dsimp only
    split
    · exact ⟨⟨.inl rfl, fun i hi => Store.setLoop_loop vm.toStore 0 vm.pos hi⟩,
        .pushed _ _ _ rfl rfl rfl fun _ _ => rfl⟩
    · exact ⟨⟨.inl rfl, fun i hi => Store.setLoop_loop vm.toStore 0 vm.pos hi⟩, .none rfl⟩
  · exact ⟨⟨.inl rfl, fun _ _ => rfl⟩, .none rfl⟩

theorem greedyExtend_frame (hcompact : env.compact = true) (loop target : Nat) (vm : Vm W) :
    LoopFrame loop vm (greedyExtend env loop target vm) := by
  unfold greedyExtend
  split
  · exact ⟨.inl rfl, fun _ _ => rfl⟩
  · exact ⟨.inr (by rw [Store.count_trail, if_pos hcompact]),
      fun i hi => Store.count_loop env _ _ hi⟩

theorem LoopFrame.setLoop {loop : Nat} {vm₁ : Vm W} (h : LoopFrame loop vm vm₁) {st : Store}
    (htrail : st.trail = vm₁.trail) (hloop : ∀ i, i ≠ loop → st.loop i = vm₁.toStore.loop i)
    (n p : Nat) (hvm : vm'.toStore = st.setLoop loop n p) : LoopFrame loop vm vm' where
  trail := by
    rw [hvm]
    show st.trail = _ ∨ st.trail = _
    rw [htrail]
    exact h.trail
  others i hi := by
    rw [hvm, Store.setLoop_loop st n p hi, hloop i hi, h.others i hi]

theorem opRepeatGreedy_frame (hcompact : env.compact = true) (loop target : Nat) (vm : Vm W) :
    LoopFrame loop vm (opRepeatGreedy env loop target vm) := by
  have hextend := greedyExtend_frame hcompact loop target vm
  unfold opRepeatGreedy
  dsimp only
  split
  · exact hextend.setLoop rfl (fun _ _ => rfl) _ _ rfl
  · exact hextend.setLoop rfl (fun _ _ => rfl) _ _ rfl

theorem opRepeatGreedy_saves (env : VmEnv W) (loop target : Nat) (vm : Vm W) :
    Saves env (fun i => loop == i) vm (opRepeatGreedy env loop target vm) := by
  have hchoices : (greedyExtend env loop target vm).choices = vm.choices := by
    unfold greedyExtend
    split <;> rfl
  suffices hsaves : Saves env (fun i => loop == i) (greedyExtend env loop target vm)
      (opRepeatGreedy env loop target vm) from hsaves.congr (fun _ hi => hi) hchoices
  unfold opRepeatGreedy
  dsimp only
  split
  · exact .pushed _ _ _ rfl rfl rfl fun i hi =>
      (Store.setLoop_loop _ _ _ (ne_of_beq_eq_false hi)).symm
  · exact .none rfl

theorem opRepeatIterate_frame (hcompact : env.compact = true) (loop target : Nat) (vm : Vm W) :
    LoopFrame loop vm (opRepeatIterate env loop target vm) := by
  have hcount : LoopFrame loop vm
      { vm with
        toStore := vm.toStore.count env loop ((vm.counters loop + 1) % 2 ^ 32) } :=
    ⟨.inr (by rw [Store.count_trail, if_pos hcompact]), fun i hi => Store.count_loop env _ _ hi⟩
  unfold opRepeatIterate
  dsimp only
  split
  · exact hcount.setLoop rfl (fun _ _ => rfl) _ _ rfl
  split
  · split
    · exact hcount
    split
    · exact hcount
    · exact hcount.setLoop rfl (fun _ _ => rfl) _ _ rfl
  · exact hcount

theorem opRepeatIterate_saves (env : VmEnv W) (loop target : Nat) (vm : Vm W) :
    Saves env (fun i => loop == i) vm (opRepeatIterate env loop target vm) := by
  unfold opRepeatIterate
  dsimp only
  split
  · exact .none rfl
  split
  · split
    · exact .none rfl
    split
    · exact .none rfl
    · exact .pushed _ _ _ rfl rfl rfl fun i hi =>
        (Store.setLoop_loop _ _ _ (ne_of_beq_eq_false hi)).symm
  · exact .none rfl

theorem opRepeatStep_frame (hcompact : env.compact = true) (loop target : Nat) (vm : Vm W)
    (hloop : loop < maxLoops) : LoopFrame loop vm (opRepeatStep env loop target vm) := by
  unfold opRepeatStep
  rw [if_pos hloop]
  split
  · obtain ⟨htrail, hothers⟩ := opRepeatGreedy_frame hcompact loop target
      { vm with loopSpanGreedy := Function.update vm.loopSpanGreedy loop true }
    exact ⟨htrail, hothers⟩
  · exact opRepeatIterate_frame hcompact loop target vm

theorem opRepeatStep_saves (env : VmEnv W) (loop target : Nat) (vm : Vm W) :
    Saves env (fun i => loop == i) vm (opRepeatStep env loop target vm) := by
  unfold opRepeatStep
  split
  · split
    · exact (opRepeatGreedy_saves env loop target
        { vm with loopSpanGreedy := Function.update vm.loopSpanGreedy loop true }).congr
          (fun _ hi => hi) rfl
    · exact opRepeatIterate_saves env loop target vm
  · exact .none rfl

theorem opBreakx_saves (env : VmEnv W) (setId here : Nat) (vm : Vm W) :
    Saves env (fun _ => false) vm (opBreakx env setId here vm) := by
  unfold opBreakx
  dsimp only
  split
  · exact .pushed _ _ _ rfl rfl rfl fun _ _ => rfl
  · exact .none rfl

/-- The start and the step of a loop frame the other loops. -/
theorem LoopFrame.effect {loop : Nat} (h : LoopFrame loop vm vm') (hloop : loop < maxLoops)
    (hsets : setsLoop env vm loop = true) (i : Nat) : LoopEffect env vm vm' i := by
  by_cases heq : i = loop
  · subst heq
    obtain hsame | hcount := h.trail
    · exact .unlogged hloop hsets hsame
    · exact .counted hloop hsets hcount
  · obtain hsame | hcount := h.trail
    · exact .kept [] hsame rfl (h.others i heq)
    · refine .kept [_] hcount ?_ (h.others i heq)
      simp [UndoRecord.ofLoop, Ne.symm heq]

theorem LoopEffect.of_same (h : vm'.toStore = vm.toStore) (i : Nat) : LoopEffect env vm vm' i :=
  .kept [] (congrArg Store.trail h) rfl (by rw [h])

/-- A turn that pops nothing and cuts nothing. -/
structure Forward (env : VmEnv W) (vm vm' : Vm W) : Prop where
  loops : env.compact = true → ∀ i, LoopEffect env vm vm' i
  saves : Saves env (setsLoop env vm) vm vm'

/-- No plain instruction has an undo record of a loop. -/
theorem Prim.exec_ofLoop {q : Prim} {pos pos' : Nat} {regs regs' : Regs} {g g' : Globals W}
    {undone : List UndoRecord} (h : q.exec env pos regs g = .next pos' regs' undone g') (i : Nat) :
    undone.any (·.ofLoop i) = false := by
  have hmove : ∀ target : Option Nat, moveTo regs g target = .next pos' regs' undone g' →
      undone.any (·.ofLoop i) = false := by
    intro target h
    cases target with
    | none => cases h
    | some pos =>
      cases h
      rfl
  cases q with
  | lit | set | count | anchor => exact hmove _ h
  | nop | label | rem | emitLiteral =>
    cases h
    rfl
  | capStart r =>
    cases h
    unfold opCapStart
    split <;> rfl
  | capEnd r =>
    cases h
    unfold opCapEnd
    split <;> rfl
  | assign var r =>
    cases h
    unfold opAssign
    split <;> rfl
  | emitCapture r =>
    simp only [exec, opEmitCapture] at h
    split at h <;> cases h <;> rfl
  | eval fn r =>
    simp only [exec, opEval] at h
    split at h
    · cases h
    split at h
    · split at h
      · cases h
        rfl
      · cases h
    · cases h
  | tableGet table key dest =>
    simp only [exec, opTableGet] at h
    split at h
    · cases h
    split at h
    · cases h
    split at h
    · cases h
    · cases h
      rfl
  | tableSet table key value =>
    simp only [exec, opTableSet] at h
    split at h
    · cases h
    split at h
    · cases h
    split at h
    · cases h
    split at h
    · cases h
    · cases h
      rfl
  | bal openCp closeCp =>
    simp only [exec, opBal] at h
    split at h
    · cases h
    split at h
    · exact hmove _ h
    · cases h

theorem vmStep_forward (h : vmStep env vm = .running vm') :
    Popped vm vm' ∨ (∃ next, fetch env.bc vm.ip = some (.fence, next)) ∨ Forward env vm vm' := by
  unfold vmStep at h
  cases hfetch : fetch env.bc vm.ip with
  | none =>
    simp only [hfetch] at h
    exact .inl (popped_of_backtrack h rfl rfl)
  | some fetched =>
    obtain ⟨instr, next⟩ := fetched
    simp only [hfetch] at h
    cases instr with
    | prim q =>
      cases hexec : q.exec env vm.pos vm.regs vm.globals with
      | next pos regs undone g =>
        simp only [hexec, Vm.apply] at h
        cases h
        refine .inr (.inr ⟨fun hcompact i => ?_, .none rfl⟩)
        exact .kept undone (by simp [Store.record, hcompact]) (Prim.exec_ofLoop hexec i)
          (by simp [Store.record, hcompact, Store.loop])
      | fail g =>
        simp only [hexec, Vm.apply] at h
        exact .inl (popped_of_backtrack h rfl rfl)
      | leave g =>
        simp only [hexec, Vm.apply, Vm.leave] at h
        split at h <;> cases h
    | fail | unknown b => exact .inl (popped_of_backtrack h rfl rfl)
    | goto label =>
      simp only at h
      split at h
      · cases h
        exact .inr (.inr ⟨fun _ => LoopEffect.of_same rfl, .none rfl⟩)
      · exact .inl (popped_of_backtrack h rfl rfl)
    | accept | abort | succeed => cases h
    | jmp target =>
      cases h
      exact .inr (.inr ⟨fun _ => LoopEffect.of_same rfl, .none rfl⟩)
    | split a b =>
      cases h
      refine .inr (.inr ⟨fun _ => LoopEffect.of_same rfl, ?_⟩)
      exact .pushed vm.toStore b vm.pos rfl rfl rfl fun _ _ => rfl
    | repeatInit loop min max skip =>
      cases h
      have hsets : setsLoop env vm = fun i => loop == i := by
        funext i
        simp only [setsLoop, hfetch]
      obtain ⟨hframe, hsaves⟩ := opRepeatInit_frame env loop min max skip { vm with ip := next }
      refine .inr (.inr ⟨fun _ => ?_, hsaves.congr (by simp [hsets]) rfl⟩)
      by_cases hloop : loop < maxLoops
      · exact LoopFrame.effect ⟨hframe.trail, hframe.others⟩ hloop (by simp [hsets])
      · unfold opRepeatInit
        rw [if_neg hloop]
        exact LoopEffect.of_same rfl
    | repeatStep loop target =>
      cases h
      have hsets : setsLoop env vm = fun i => loop == i := by
        funext i
        simp only [setsLoop, hfetch]
      have hsaves := opRepeatStep_saves env loop target { vm with ip := next }
      refine .inr (.inr ⟨fun hcompact => ?_, hsaves.congr (by simp [hsets]) rfl⟩)
      by_cases hloop : loop < maxLoops
      · have hframe := opRepeatStep_frame hcompact loop target { vm with ip := next } hloop
        exact LoopFrame.effect ⟨hframe.trail, hframe.others⟩ hloop (by simp [hsets])
      · unfold opRepeatStep
        rw [if_neg hloop]
        exact LoopEffect.of_same rfl
    | breakx setId =>
      cases h
      have hsaves := opBreakx_saves env setId vm.ip { vm with ip := next }
      refine .inr (.inr ⟨fun _ => .of_same ?_, hsaves.congr (by simp) rfl⟩)
      unfold opBreakx
      dsimp only
      split <;> rfl
    | fence => exact .inr (.inl ⟨next, rfl⟩)

/-- `OP_FENCE` and `OP_ABORT` drop the choice records. -/
def cutsChoices (env : VmEnv W) (ip : Nat) : Bool :=
  match fetch env.bc ip with
  | some (.fence, _) | some (.abort, _) => true
  | _ => false

/-- A turn that pops nothing takes no capture out of use. -/
theorem maxCapUsed_le_step (hcompact : env.compact = true) (h : vmStep env vm = .running vm')
    (hfits : vm'.toStore.TrailFits env) (hlen : vm.choices.length ≤ vm'.choices.length) :
    vm.regs.maxCapUsed ≤ vm'.regs.maxCapUsed := by
  cases vmStep_path h with
  | fence _ hregs _ => rw [hregs]
  | pop _ hpopped =>
    obtain ⟨c, rest, hchoices, -, -, -, hrest⟩ := hpopped
    rw [hchoices, hrest] at hlen
    exact absurd hlen (Nat.not_succ_le_self _)
  | push _ _ _ hpush =>
    obtain ⟨c, hc⟩ := hpush
    rw [(vmStep_pushes hcompact h hfits hc).regs]
  | stay _ _ hregs _ =>
    rw [hregs]
    exact Visit.maxCapUsed_le_write _ _

/-- A turn that pops and cuts nothing goes forward. -/
theorem forward_of_length (hstep : vmStep env vm = .running vm')
    (hcuts : cutsChoices env vm.ip = false) (hlen : vm.choices.length ≤ vm'.choices.length) :
    Forward env vm vm' := by
  obtain ⟨c, rest, hchoices, -, -, -, hrest⟩ | ⟨next, hfence⟩ | hforward := vmStep_forward hstep
  · rw [hchoices, hrest] at hlen
    exact absurd hlen (Nat.not_succ_le_self _)
  · simp [cutsChoices, hfence] at hcuts
  · exact hforward

end

end Snobol4
