import Snobol4.Vm

/-!
# VmFlow — where a turn goes on

Behind an instruction the VM goes on at one of its successors, or at a choice point.
-/

namespace Snobol4

variable {W : Type}

/-- The addresses at which the VM can go on behind an instruction, now or after a pop of
the choice point that the instruction pushes. -/
def Instr.successors (labels : List Nat) (here next : Nat) : Instr → List Nat
  | .prim _ => [next]
  | .jmp target => [target]
  | .split a b => [a, b]
  | .repeatInit loop min _ skip => if loop < maxLoops ∧ min = 0 then [next, skip] else [next]
  | .repeatStep loop target => if loop < maxLoops then [next, target, next - 6] else [next]
  | .goto label => (labels[label]?).toList
  | .breakx _ => [next, here]
  | .fence => [next]
  | .accept | .fail | .abort | .succeed | .unknown _ => []

/-- The cursor in the code and every choice point stand at addresses of the set. -/
structure Vm.Within (allowed : Nat → Prop) (vm : Vm W) : Prop where
  ip : allowed vm.ip
  choices : ∀ c ∈ vm.choices, allowed c.ip

section

variable {env : VmEnv W} {allowed : Nat → Prop} {vm : Vm W}

theorem Vm.Within.pushChoice (h : vm.Within allowed) (env : VmEnv W) {ip : Nat}
    (hip : allowed ip) (pos : Nat) :
    (vm.pushChoice env ip pos).Within allowed := by
  refine ⟨h.ip, ?_⟩
  intro c hc
  obtain rfl | hc := List.mem_cons.mp hc
  · exact hip
  · exact h.choices c hc

theorem Vm.Within.goto (h : vm.Within allowed) {ip : Nat} (hip : allowed ip) :
    Vm.Within allowed { vm with ip } := ⟨hip, h.choices⟩

theorem Vm.Within.repeatInit (h : vm.Within allowed) (loop min max skip : Nat)
    (hskip : loop < maxLoops → min = 0 → allowed skip) :
    (opRepeatInit env loop min max skip vm).Within allowed := by
  unfold opRepeatInit
  split
  · rename_i hloop
    simp only
    split
    · rename_i hmin
      refine Vm.Within.pushChoice ?_ env (hskip hloop hmin) vm.pos
      exact ⟨h.ip, h.choices⟩
    · exact ⟨h.ip, h.choices⟩
  · exact h

theorem Vm.Within.greedyExtend (h : vm.Within allowed) (env : VmEnv W) (loop target : Nat) :
    (greedyExtend env loop target vm).Within allowed ∧ (greedyExtend env loop target vm).ip = vm.ip := by
  unfold Snobol4.greedyExtend
  split
  · exact ⟨h, rfl⟩
  · exact ⟨⟨h.ip, h.choices⟩, rfl⟩

theorem Vm.Within.repeatGreedy (h : vm.Within allowed) (env : VmEnv W) (loop target : Nat)
    (hhere : allowed (vm.ip - 6)) : (opRepeatGreedy env loop target vm).Within allowed := by
  obtain ⟨hextend, hip⟩ := h.greedyExtend env loop target
  unfold opRepeatGreedy
  rw [← hip] at hhere
  have hpush := hextend.pushChoice env hhere ((Snobol4.greedyExtend env loop target vm).pos - 1)
  simp only
  split
  · exact ⟨hpush.ip, hpush.choices⟩
  · exact ⟨hextend.ip, hextend.choices⟩

theorem Vm.Within.repeatIterate (h : vm.Within allowed) (env : VmEnv W) (loop target : Nat)
    (htarget : allowed target) : (opRepeatIterate env loop target vm).Within allowed := by
  have hcount : Vm.Within allowed
      { vm with toStore := vm.toStore.count env loop ((vm.counters loop + 1) % 2 ^ 32) } :=
    ⟨h.ip, h.choices⟩
  have hpush := hcount.pushChoice env h.ip vm.pos
  simp only [opRepeatIterate]
  split
  · exact ⟨htarget, h.choices⟩
  split
  · split
    · exact hcount
    split
    · exact hcount
    · exact ⟨htarget, hpush.choices⟩
  · exact hcount

theorem Vm.Within.repeatStep (h : vm.Within allowed) (env : VmEnv W) (loop target : Nat)
    (htarget : loop < maxLoops → allowed target ∧ allowed (vm.ip - 6)) :
    (opRepeatStep env loop target vm).Within allowed := by
  unfold opRepeatStep
  split
  · rename_i hloop
    obtain ⟨htarget, hhere⟩ := htarget hloop
    split
    · refine Vm.Within.repeatGreedy ?_ env loop target hhere
      exact ⟨h.ip, h.choices⟩
    · exact h.repeatIterate env loop target htarget
  · exact h

theorem Vm.Within.breakx (h : vm.Within allowed) (env : VmEnv W) (setId : Nat) {here : Nat}
    (hhere : allowed here) : (opBreakx env setId here vm).Within allowed := by
  unfold opBreakx
  simp only
  split
  · refine Vm.Within.pushChoice ?_ env hhere _
    exact ⟨h.ip, h.choices⟩
  · exact ⟨h.ip, h.choices⟩

/-- The outcome of a turn at `ip`: it stays within the set or ends the run, with success
only at `OP_ACCEPT` or `OP_SUCCEED`. -/
inductive Keeps (bc : Bytes) (ip : Nat) (allowed : Nat → Prop) : StepResult W → Prop where
  | running {vm : Vm W} (h : vm.Within allowed) : Keeps bc ip allowed (.running vm)
  | failed (vm : Vm W) : Keeps bc ip allowed (.halted false vm)
  | accepted {instr : Instr} {next : Nat} (vm : Vm W) (hfetch : fetch bc ip = some (instr, next))
      (h : instr = .accept ∨ instr = .succeed) : Keeps bc ip allowed (.halted true vm)

theorem Keeps.backtrack {bc : Bytes} {ip : Nat} (h : ∀ c ∈ vm.choices, allowed c.ip) :
    Keeps bc ip allowed vm.backtrack := by
  unfold Vm.backtrack
  split
  · exact .failed vm
  · rename_i c rest hchoices
    rw [hchoices] at h
    exact .running ⟨h c List.mem_cons_self, fun c' hc' => h c' (List.mem_cons_of_mem _ hc')⟩

theorem Keeps.leave {bc : Bytes} {ip : Nat} : Keeps bc ip allowed vm.leave := by
  unfold Vm.leave
  split <;> exact .failed _

/-- A turn goes on at a successor of its instruction, or at a choice point. -/
theorem Vm.Within.step (h : vm.Within allowed)
    (hnext : ∀ instr next target, fetch env.bc vm.ip = some (instr, next) →
      (∀ q, instr = .prim q → ∃ pos regs undo g,
        q.exec env vm.pos vm.regs vm.globals = .next pos regs undo g) →
      target ∈ instr.successors env.labelOffsets vm.ip next → allowed target) :
    Keeps env.bc vm.ip allowed (vmStep env vm) := by
  -- a turn goes to a successor or to a choice that is saved
  unfold vmStep
  cases hfetch : fetch env.bc vm.ip with
  | none => exact .backtrack h.choices
  | some fetched =>
    obtain ⟨instr, next⟩ := fetched
    have hgoes := hnext instr next
    cases instr with
    | prim q =>
      simp only
      cases hexec : q.exec env vm.pos vm.regs vm.globals with
      | next pos regs undo g =>
        refine .running ⟨hgoes next hfetch ?_ List.mem_cons_self, h.choices⟩
        intro q' hq'
        cases hq'
        exact ⟨pos, regs, undo, g, hexec⟩
      | fail g => exact .backtrack h.choices
      | leave g => exact .leave
    | accept => exact .accepted _ hfetch (.inl rfl)
    | succeed => exact .accepted _ hfetch (.inr rfl)
    | abort => exact .failed _
    | fail | unknown b => exact .backtrack h.choices
    | jmp target =>
      exact .running (h.goto (hgoes target hfetch nofun List.mem_cons_self))
    | split a b =>
      have ha := hgoes a hfetch nofun List.mem_cons_self
      have hb := hgoes b hfetch nofun (by simp [Instr.successors])
      exact .running (Vm.Within.goto (Vm.Within.pushChoice (h.goto ha) env hb vm.pos) ha)
    | repeatInit loop min max skip =>
      have hat : allowed next := by
        refine hgoes next hfetch nofun ?_
        simp only [Instr.successors]
        split <;> exact List.mem_cons_self
      refine .running ((h.goto hat).repeatInit loop min max skip ?_)
      intro hloop hmin
      exact hgoes skip hfetch nofun (by simp [Instr.successors, hloop, hmin])
    | repeatStep loop target =>
      have hat : allowed next := by
        refine hgoes next hfetch nofun ?_
        simp only [Instr.successors]
        split <;> exact List.mem_cons_self
      refine .running ((h.goto hat).repeatStep env loop target ?_)
      intro hloop
      exact ⟨hgoes target hfetch nofun (by simp [Instr.successors, hloop]),
        hgoes (next - 6) hfetch nofun (by simp [Instr.successors, hloop])⟩
    | goto label =>
      simp only
      cases hlabel : env.labelOffsets[label]? with
      | none => exact .backtrack h.choices
      | some target =>
        exact .running (h.goto (hgoes target hfetch nofun (by simp [Instr.successors, hlabel])))
    | breakx setId =>
      have hat := hgoes next hfetch nofun List.mem_cons_self
      exact .running ((h.goto hat).breakx env setId
        (hgoes vm.ip hfetch nofun (by simp [Instr.successors])))
    | fence =>
      exact .running ⟨hgoes next hfetch nofun List.mem_cons_self, by simp⟩

end

end Snobol4
