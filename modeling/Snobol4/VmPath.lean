import Mathlib.Logic.Relation
import Snobol4.VmFailure
import Snobol4.VmTrail

/-!
# VmPath — what the captures of a run stand for (`vm_exec.c`)

The path to a state of a run is the list of instructions that have led there: those of the
branches that were given up are not on it.  With compact choice records the registers are, in
every state, what the writes of the path leave.
-/

namespace Snobol4

variable {W : Type}

/-! ## The path of a run -/

/-- A turn of the loop: the instruction, its address and the position. -/
structure Visit where
  ip : Nat
  instr : Instr
  pos : Nat
  deriving Repr, DecidableEq

/-- The VM with the path to its state, newest turn first, and the path at the push of each choice
point. -/
structure Walked (W : Type) where
  vm : Vm W
  path : List Visit
  saved : List (List Visit)

/-- The path after a turn that leads to `vm'`: a pop goes back to the path at the push. -/
def Walked.follow (env : VmEnv W) (w : Walked W) (vm' : Vm W) : Walked W :=
  match fetch env.bc w.vm.ip with
  | none => ⟨vm', w.saved.headD [], w.saved.tail⟩
  | some (instr, _) =>
      let path := ⟨w.vm.ip, instr, w.vm.pos⟩ :: w.path
      if instr = .fence then ⟨vm', path, []⟩
      else if vm'.choices.length < w.vm.choices.length then ⟨vm', w.saved.headD [], w.saved.tail⟩
      else if w.vm.choices.length < vm'.choices.length then ⟨vm', path, path :: w.saved⟩
      else ⟨vm', path, w.saved⟩

/-- One turn, with the path. -/
def Walked.Step (env : VmEnv W) (w w' : Walked W) : Prop :=
  ∃ vm', vmStep env w.vm = .running vm' ∧ w' = w.follow env vm'

/-- The states of the run of `vm_run`, with their paths. -/
def Walk (env : VmEnv W) (start : Vm W) : Walked W → Prop :=
  Relation.ReflTransGen (Walked.Step env) ⟨vmRunStart start, [], []⟩

/-- The run accepts in the state `final`, at the end of the path. -/
def AcceptingPath (env : VmEnv W) (start final : Vm W) (path : List Visit) : Prop :=
  ∃ w, Walk env start w ∧ w.path = path ∧ vmStep env w.vm = .halted true final

/-! ## What is written on a path -/

/-- What a turn makes of the registers. -/
def Visit.write (t : Visit) (regs : Regs) : Regs :=
  match t.instr with
  | .prim (.capStart r) => (opCapStart r t.pos regs).1
  | .prim (.capEnd r) => (opCapEnd r t.pos regs).1
  | .prim (.assign var r) => (opAssign var r regs).1
  | _ => regs

/-- The registers that the turns of a path leave, one after the other. -/
def regsAlong (regs : Regs) : List Visit → Regs
  | [] => regs
  | t :: path => t.write (regsAlong regs path)

/-- Where register `r` was last opened. -/
def lastOpened (r : Nat) : List Visit → Option Nat
  | [] => none
  | t :: path => if t.instr = .prim (.capStart r) then some t.pos else lastOpened r path

/-- The bounds of the last capture into register `r`. -/
def lastCapture (r : Nat) : List Visit → Option (Nat × Nat)
  | [] => none
  | t :: path =>
      if t.instr = .prim (.capEnd r) then (lastOpened r path).map fun start => (start, t.pos)
      else lastCapture r path

/-- The instruction assigns to variable `v`. -/
def Instr.assigns (v : Nat) : Instr → Bool
  | .prim (.assign var _) => var == v
  | _ => false

/-- Behind the last capture into register `r` the path assigns to the variable of that number. -/
def reassigned (r : Nat) : List Visit → Bool
  | [] => false
  | t :: path =>
      if t.instr = .prim (.capEnd r) then false else t.instr.assigns r || reassigned r path

section

variable {t : Visit} {regs : Regs} {r start stop : Nat} {path : List Visit}

theorem Visit.write_capStart (hr : r < maxCaps) : (t.write regs).capStart r =
    if t.instr = .prim (.capStart r) then t.pos else regs.capStart r := by
  unfold Visit.write
  split
  · rename_i r' hinstr
    unfold opCapStart
    rw [hinstr]
    by_cases heq : r' = r
    · subst heq
      simp [hr]
    · split <;> simp [heq, Function.update_of_ne (Ne.symm heq)]
  · rename_i r' hinstr
    unfold opCapEnd
    rw [hinstr]
    split <;> simp
  · rename_i var r' hinstr
    unfold opAssign
    rw [hinstr]
    split <;> simp
  · rename_i hstart _ _
    rw [if_neg fun heq => hstart r heq]

theorem Visit.write_capEnd (hr : r < maxCaps) : (t.write regs).capEnd r =
    if t.instr = .prim (.capEnd r) then t.pos else regs.capEnd r := by
  unfold Visit.write
  split
  · rename_i r' hinstr
    unfold opCapStart
    rw [hinstr]
    split <;> simp
  · rename_i r' hinstr
    unfold opCapEnd
    rw [hinstr]
    by_cases heq : r' = r
    · subst heq
      simp [hr]
    · split <;> simp [heq, Function.update_of_ne (Ne.symm heq)]
  · rename_i var r' hinstr
    unfold opAssign
    rw [hinstr]
    split <;> simp
  · rename_i _ hend _
    rw [if_neg fun heq => hend r heq]

/-- A turn that neither closes register `r` nor assigns to its variable leaves the variable. -/
theorem Visit.write_var_of_ne (hend : t.instr ≠ .prim (.capEnd r))
    (hassign : t.instr.assigns r = false) :
    (t.write regs).varStart r = regs.varStart r ∧ (t.write regs).varEnd r = regs.varEnd r := by
  unfold Visit.write
  split
  · unfold opCapStart
    split <;> exact ⟨rfl, rfl⟩
  · rename_i r' hinstr
    have hne : r ≠ r' := by
      rintro rfl
      exact hend hinstr
    unfold opCapEnd
    split
    · exact ⟨Function.update_of_ne hne .., Function.update_of_ne hne ..⟩
    · exact ⟨rfl, rfl⟩
  · rename_i var r' hinstr
    have hne : r ≠ var := by
      rintro rfl
      simp [hinstr, Instr.assigns] at hassign
    unfold opAssign
    split
    · exact ⟨Function.update_of_ne hne .., Function.update_of_ne hne ..⟩
    · exact ⟨rfl, rfl⟩
  · exact ⟨rfl, rfl⟩

/-- A turn that closes register `r` sets its variable. -/
theorem Visit.write_var_of_capEnd (hr : r < maxCaps) (hend : t.instr = .prim (.capEnd r)) :
    (t.write regs).varStart r = regs.capStart r ∧ (t.write regs).varEnd r = t.pos := by
  unfold Visit.write
  rw [hend]
  simp [opCapEnd, hr]

theorem Visit.write_of_not_prim (h : ∀ p, t.instr ≠ .prim p) : t.write regs = regs := by
  unfold Visit.write
  split
  · rename_i hinstr
    exact absurd hinstr (h _)
  · rename_i hinstr
    exact absurd hinstr (h _)
  · rename_i hinstr
    exact absurd hinstr (h _)
  · rfl

/-- No turn takes a variable out of use. -/
theorem Visit.varCount_le_write (t : Visit) (regs : Regs) :
    regs.varCount ≤ (t.write regs).varCount := by
  unfold Visit.write
  split
  · unfold opCapStart
    split <;> exact le_rfl
  · unfold opCapEnd
    split
    · exact le_max_left _ _
    · exact le_rfl
  · unfold opAssign
    split
    · exact le_max_left _ _
    · exact le_rfl
  · exact le_rfl

/-- No turn takes a capture out of use. -/
theorem Visit.maxCapUsed_le_write (t : Visit) (regs : Regs) :
    regs.maxCapUsed ≤ (t.write regs).maxCapUsed := by
  unfold Visit.write
  split
  · unfold opCapStart
    split
    · exact le_max_left _ _
    · exact le_rfl
  · unfold opCapEnd
    split
    · exact le_max_left _ _
    · exact le_rfl
  · unfold opAssign
    split <;> exact le_rfl
  · exact le_rfl

theorem regsAlong_capStart (hr : r < maxCaps) (h : lastOpened r path = some start) :
    (regsAlong regs path).capStart r = start := by
  induction path with
  | nil => cases h
  | cons t path ih =>
    rw [regsAlong, Visit.write_capStart hr]
    rw [lastOpened] at h
    split at h
    · rename_i hstart
      rw [if_pos hstart]
      exact Option.some_inj.mp h
    · rename_i hstart
      rw [if_neg hstart]
      exact ih h

/-- A register that is captured on the path is a variable in use. -/
theorem lt_varCount_of_lastCapture (hr : r < maxCaps) (h : lastCapture r path = some (start, stop)) :
    r < (regsAlong regs path).varCount := by
  induction path with
  | nil => cases h
  | cons t path ih =>
    rw [lastCapture] at h
    split at h
    · rename_i hend
      rw [regsAlong, Visit.write, hend]
      simp [opCapEnd, hr]
    · exact (ih h).trans_le (t.varCount_le_write _)

/-- A capture stays in its variable unless the path assigns to that. -/
theorem regsAlong_variable (hr : r < maxCaps) (h : lastCapture r path = some (start, stop))
    (hown : reassigned r path = false) :
    (regsAlong regs path).varStart r = start ∧ (regsAlong regs path).varEnd r = stop := by
  induction path with
  | nil => cases h
  | cons t path ih =>
    rw [lastCapture] at h
    rw [reassigned] at hown
    split at h
    · rename_i hend
      obtain ⟨opened, hopened, heq⟩ := Option.map_eq_some_iff.mp h
      cases heq
      obtain ⟨hstart, hstop⟩ := @Visit.write_var_of_capEnd t (regsAlong regs path) r hr hend
      exact ⟨hstart.trans (regsAlong_capStart hr hopened), hstop⟩
    · rename_i hend
      rw [if_neg hend, Bool.or_eq_false_iff] at hown
      obtain ⟨hstart, hstop⟩ := @Visit.write_var_of_ne t (regsAlong regs path) r hend hown.1
      obtain ⟨ihstart, ihstop⟩ := ih h hown.2
      exact ⟨hstart.trans ihstart, hstop.trans ihstop⟩

end

/-! ## One turn -/

/-- What a turn that does not end the run does to the path. -/
inductive PathEffect (env : VmEnv W) (vm vm' : Vm W) : Prop where
  | fence {next : Nat} (hfetch : fetch env.bc vm.ip = some (.fence, next))
      (hregs : vm'.regs = vm.regs) (hchoices : vm'.choices = [])
  | pop (hfence : ∀ next, fetch env.bc vm.ip ≠ some (.fence, next)) (hpopped : Popped vm vm')
  | push {instr : Instr} {next : Nat} (hfetch : fetch env.bc vm.ip = some (instr, next))
      (hfence : instr ≠ .fence) (hplain : ∀ p, instr ≠ .prim p)
      (hchoices : ∃ c, vm'.choices = c :: vm.choices)
  | stay {instr : Instr} {next : Nat} (hfetch : fetch env.bc vm.ip = some (instr, next))
      (hfence : instr ≠ .fence) (hregs : vm'.regs = (Visit.mk vm.ip instr vm.pos).write vm.regs)
      (hchoices : vm'.choices = vm.choices)

section

variable {env : VmEnv W} {vm vm' : Vm W}

/-- A plain instruction leaves what its turn writes. -/
theorem Prim.exec_write {p : Prim} {ip pos pos' : Nat} {regs regs' : Regs} {g g' : Globals W}
    {undone : List UndoRecord} (h : p.exec env pos regs g = .next pos' regs' undone g') :
    regs' = (Visit.mk ip (.prim p) pos).write regs := by
  have hmove : ∀ target : Option Nat, moveTo regs g target = .next pos' regs' undone g' →
      regs' = regs := by
    intro target h
    cases target with
    | none => cases h
    | some pos =>
      cases h
      rfl
  cases p with
  | lit | set | count | anchor => exact hmove _ h
  | nop | label | rem | emitLiteral | capStart | capEnd | assign =>
    cases h
    rfl
  | emitCapture r =>
    simp only [exec, opEmitCapture] at h
    split at h <;> cases h <;> rfl
  | eval fn r =>
    simp only [exec, opEval] at h
    split at h
    · cases h
    split at h
    · split at h
      · cases h
        rfl
      · cases h
    · cases h
  | tableGet table key dest =>
    simp only [exec, opTableGet] at h
    split at h
    · cases h
    split at h
    · cases h
    split at h
    · cases h
    · cases h
      rfl
  | tableSet table key value =>
    simp only [exec, opTableSet] at h
    split at h
    · cases h
    split at h
    · cases h
    split at h
    · cases h
    split at h
    · cases h
    · cases h
      rfl
  | bal openCp closeCp =>
    simp only [exec, opBal] at h
    split at h
    · cases h
    split at h
    · exact hmove _ h
    · cases h

theorem opRepeatInit_pushed (env : VmEnv W) (loop min max skip : Nat) (vm : Vm W) :
    (opRepeatInit env loop min max skip vm).regs = vm.regs ∧
      ((opRepeatInit env loop min max skip vm).choices = vm.choices ∨
        ∃ c, (opRepeatInit env loop min max skip vm).choices = c :: vm.choices) := by
  unfold opRepeatInit
  split
  · dsimp only
    split
    · exact ⟨rfl, .inr ⟨_, rfl⟩⟩
    · exact ⟨rfl, .inl rfl⟩
  · exact ⟨rfl, .inl rfl⟩

theorem opRepeatGreedy_pushed (env : VmEnv W) (loop target : Nat) (vm : Vm W) :
    (opRepeatGreedy env loop target vm).regs = vm.regs ∧
      ((opRepeatGreedy env loop target vm).choices = vm.choices ∨
        ∃ c, (opRepeatGreedy env loop target vm).choices = c :: vm.choices) := by
  have hextend : (greedyExtend env loop target vm).regs = vm.regs ∧
      (greedyExtend env loop target vm).choices = vm.choices := by
    unfold greedyExtend
    split
    · exact ⟨rfl, rfl⟩
    · exact ⟨Store.count_regs .., rfl⟩
  obtain ⟨hregs, hchoices⟩ := hextend
  unfold opRepeatGreedy
  dsimp only
  rw [← hchoices]
  split
  · exact ⟨hregs, .inr ⟨_, rfl⟩⟩
  · exact ⟨hregs, .inl rfl⟩

theorem opRepeatIterate_pushed (env : VmEnv W) (loop target : Nat) (vm : Vm W) :
    (opRepeatIterate env loop target vm).regs = vm.regs ∧
      ((opRepeatIterate env loop target vm).choices = vm.choices ∨
        ∃ c, (opRepeatIterate env loop target vm).choices = c :: vm.choices) := by
  have hcount : ∀ n, (vm.toStore.count env loop n).regs = vm.regs := fun n => Store.count_regs ..
  unfold opRepeatIterate
  dsimp only
  split
  · exact ⟨hcount _, .inl rfl⟩
  split
  · split
    · exact ⟨hcount _, .inl rfl⟩
    split
    · exact ⟨hcount _, .inl rfl⟩
    · exact ⟨hcount _, .inr ⟨_, rfl⟩⟩
  · exact ⟨hcount _, .inl rfl⟩

theorem opRepeatStep_pushed (env : VmEnv W) (loop target : Nat) (vm : Vm W) :
    (opRepeatStep env loop target vm).regs = vm.regs ∧
      ((opRepeatStep env loop target vm).choices = vm.choices ∨
        ∃ c, (opRepeatStep env loop target vm).choices = c :: vm.choices) := by
  unfold opRepeatStep
  split
  · split
    · exact opRepeatGreedy_pushed env loop target
        { vm with loopSpanGreedy := Function.update vm.loopSpanGreedy loop true }
    · exact opRepeatIterate_pushed env loop target vm
  · exact ⟨rfl, .inl rfl⟩

theorem opBreakx_pushed (env : VmEnv W) (setId here : Nat) (vm : Vm W) :
    (opBreakx env setId here vm).regs = vm.regs ∧
      ((opBreakx env setId here vm).choices = vm.choices ∨
        ∃ c, (opBreakx env setId here vm).choices = c :: vm.choices) := by
  unfold opBreakx
  dsimp only
  split
  · exact ⟨rfl, .inr ⟨_, rfl⟩⟩
  · exact ⟨rfl, .inl rfl⟩

/-- A turn of a loop or a scan, which saves a choice point or none. -/
theorem PathEffect.of_pushed {instr : Instr} {next : Nat}
    (hfetch : fetch env.bc vm.ip = some (instr, next)) (hfence : instr ≠ .fence)
    (hplain : ∀ p, instr ≠ .prim p) (hregs : vm'.regs = vm.regs)
    (hchoices : vm'.choices = vm.choices ∨ ∃ c, vm'.choices = c :: vm.choices) :
    PathEffect env vm vm' := by
  obtain hsame | hpush := hchoices
  · refine .stay hfetch hfence ?_ hsame
    rw [Visit.write_of_not_prim hplain]
    exact hregs
  · exact .push hfetch hfence hplain hpush

theorem vmStep_path (h : vmStep env vm = .running vm') : PathEffect env vm vm' := by
  have hpop : ∀ vm₁ : Vm W, (∀ next, fetch env.bc vm.ip ≠ some (.fence, next)) →
      vm₁.backtrack = .running vm' → vm₁.toStore = vm.toStore → vm₁.choices = vm.choices →
        PathEffect env vm vm' :=
    fun vm₁ hfence h hstore hchoices => .pop hfence (popped_of_backtrack h hstore hchoices)
  unfold vmStep at h
  cases hfetch : fetch env.bc vm.ip with
  | none =>
    simp only [hfetch] at h
    exact hpop _ (by simp [hfetch]) h rfl rfl
  | some fetched =>
    obtain ⟨instr, next⟩ := fetched
    simp only [hfetch] at h
    cases instr with
    | prim p =>
      cases hexec : p.exec env vm.pos vm.regs vm.globals with
      | next pos regs undone g =>
        simp only [hexec, Vm.apply] at h
        cases h
        have hregs : regs = (Visit.mk vm.ip (.prim p) vm.pos).write vm.regs := Prim.exec_write hexec
        refine .stay hfetch (by simp) ?_ rfl
        rw [← hregs]
        exact Store.record_regs ..
      | fail g =>
        simp only [hexec, Vm.apply] at h
        exact hpop _ (by simp [hfetch]) h rfl rfl
      | leave g =>
        simp only [hexec, Vm.apply, Vm.leave] at h
        split at h <;> cases h
    | fail | unknown b => exact hpop _ (by simp [hfetch]) h rfl rfl
    | goto label =>
      simp only at h
      split at h
      · cases h
        exact .stay hfetch (by simp) rfl rfl
      · exact hpop _ (by simp [hfetch]) h rfl rfl
    | accept | abort | succeed => cases h
    | jmp target =>
      cases h
      exact .stay hfetch (by simp) rfl rfl
    | split a b =>
      cases h
      exact .push hfetch (by simp) (by simp) ⟨_, rfl⟩
    | repeatInit loop min max skip =>
      cases h
      obtain ⟨hregs, hchoices⟩ := opRepeatInit_pushed env loop min max skip { vm with ip := next }
      exact .of_pushed hfetch (by simp) (by simp) hregs hchoices
    | repeatStep loop target =>
      cases h
      obtain ⟨hregs, hchoices⟩ := opRepeatStep_pushed env loop target { vm with ip := next }
      exact .of_pushed hfetch (by simp) (by simp) hregs hchoices
    | breakx setId =>
      cases h
      obtain ⟨hregs, hchoices⟩ := opBreakx_pushed env setId vm.ip { vm with ip := next }
      exact .of_pushed hfetch (by simp) (by simp) hregs hchoices
    | fence =>
      cases h
      exact .fence hfetch rfl rfl

/-- The run ends with success in the registers of its last turn. -/
theorem regs_of_accept {final : Vm W} (h : vmStep env vm = .halted true final) :
    final.regs = vm.regs := by
  have hback : ∀ vm₁ : Vm W, vm₁.backtrack ≠ .halted true final := by
    intro vm₁ h
    cases (backtrack_halts h).1
  unfold vmStep at h
  cases hfetch : fetch env.bc vm.ip with
  | none =>
    simp only [hfetch] at h
    exact absurd h (hback _)
  | some fetched =>
    obtain ⟨instr, next⟩ := fetched
    simp only [hfetch] at h
    cases instr with
    | accept | succeed =>
      cases h
      rfl
    | prim p =>
      cases hexec : p.exec env vm.pos vm.regs vm.globals with
      | next pos regs undone g =>
        simp only [hexec, Vm.apply] at h
        cases h
      | fail g =>
        simp only [hexec, Vm.apply] at h
        exact absurd h (hback _)
      | leave g =>
        simp only [hexec, Vm.apply, Vm.leave] at h
        split at h <;> cases h
    | fail | unknown b => exact absurd h (hback _)
    | goto label =>
      simp only at h
      split at h
      · cases h
      · exact absurd h (hback _)
    | abort | jmp | split | repeatInit | repeatStep | breakx | fence => cases h

end

/-! ## The registers of a path -/

/-- The registers are what the path has written, and a pop brings back what the path to its choice
point had. -/
structure Walked.Recalls (w : Walked W) (before : Regs) : Prop where
  regs : w.vm.regs = regsAlong before w.path
  length : w.saved.length = w.vm.choices.length
  saved : ∀ (i : Nat) (c : Choice) (back : List Visit), w.vm.choices[i]? = some c →
    w.saved[i]? = some back → (w.vm.toStore.restore c).regs = regsAlong before back

section

variable {env : VmEnv W} {start : Vm W} {w : Walked W} {vm vm' : Vm W}

theorem Walked.follow_vm (env : VmEnv W) (w : Walked W) (vm' : Vm W) :
    (w.follow env vm').vm = vm' := by
  unfold Walked.follow
  split
  · rfl
  · dsimp only
    split
    · rfl
    split
    · rfl
    split
    · rfl
    · rfl

theorem Walk.vmReach (h : Walk env start w) : VmReach env start w.vm := by
  induction h with
  | refl => exact .start
  | tail _ hstep ih =>
    obtain ⟨vm', hstep, rfl⟩ := hstep
    rw [Walked.follow_vm]
    exact ih.step hstep

/-- Every state is the end of a path. -/
theorem VmReach.walk (h : VmReach env start vm) : ∃ w, Walk env start w ∧ w.vm = vm := by
  induction h with
  | start => exact ⟨_, .refl, rfl⟩
  | @step vm vm' hvm hstep ih =>
    obtain ⟨w, hwalk, rfl⟩ := ih
    exact ⟨_, .tail hwalk ⟨vm', hstep, rfl⟩, w.follow_vm env vm'⟩

theorem Walked.follow_fence {next : Nat} (h : fetch env.bc w.vm.ip = some (.fence, next))
    (vm' : Vm W) : w.follow env vm' = ⟨vm', ⟨w.vm.ip, .fence, w.vm.pos⟩ :: w.path, []⟩ := by
  simp only [follow, h, if_true]

theorem Walked.follow_pop (hfence : ∀ next, fetch env.bc w.vm.ip ≠ some (.fence, next))
    (h : vm'.choices.length < w.vm.choices.length) :
    w.follow env vm' = ⟨vm', w.saved.headD [], w.saved.tail⟩ := by
  unfold follow
  split
  · rfl
  · rename_i instr next hfetch
    have hinstr : instr ≠ .fence := by
      rintro rfl
      exact hfence next hfetch
    simp only [if_neg hinstr, if_pos h]

theorem Walked.follow_push {instr : Instr} {next : Nat}
    (hfetch : fetch env.bc w.vm.ip = some (instr, next)) (hfence : instr ≠ .fence)
    (h : w.vm.choices.length < vm'.choices.length) :
    w.follow env vm' = ⟨vm', ⟨w.vm.ip, instr, w.vm.pos⟩ :: w.path,
      (⟨w.vm.ip, instr, w.vm.pos⟩ :: w.path) :: w.saved⟩ := by
  simp only [follow, hfetch, if_neg hfence, if_neg (Nat.not_lt_of_lt h), if_pos h]

theorem Walked.follow_stay {instr : Instr} {next : Nat}
    (hfetch : fetch env.bc w.vm.ip = some (instr, next)) (hfence : instr ≠ .fence)
    (h : vm'.choices.length = w.vm.choices.length) :
    w.follow env vm' = ⟨vm', ⟨w.vm.ip, instr, w.vm.pos⟩ :: w.path, w.saved⟩ := by
  simp only [follow, hfetch, if_neg hfence, h, Nat.lt_irrefl, if_false]

/-- A turn that pops nothing is not seen by the registers of the records that stay. -/
theorem restore_of_not_popped (hcompact : env.compact = true) (hstep : vmStep env vm = .running vm')
    (hfits : vm'.toStore.TrailFits env) (hstacked : Stacked vm.choices vm.trail.length)
    (hle : vm.choices.length ≤ vm'.choices.length) {c : Choice} (hc : c ∈ vm.choices) :
    (vm'.toStore.restore c).regs = (vm.toStore.restore c).regs := by
  obtain ⟨above, rest, habove⟩ := List.append_of_mem hc
  obtain hgrows | ⟨c', rest', hchoices, -, -, -, hrest⟩ | ⟨-, hstore⟩ := vmStep_effect hstep
  · exact (Grows.regs hcompact hgrows hfits hstacked habove).1
  · rw [hrest, hchoices, List.length_cons] at hle
    omega
  · rw [hstore]

/-- A pop is not seen by the registers of the records that stay. -/
theorem restore_of_popped {c c' : Choice} {rest : List Choice}
    (hstacked : Stacked (c :: rest) vm.trail.length) (hstore : vm'.toStore = vm.toStore.restore c)
    (hc' : c' ∈ rest) : (vm'.toStore.restore c').regs = (vm.toStore.restore c').regs := by
  obtain ⟨above, rest', rfl⟩ := List.append_of_mem hc'
  cases hstacked with
  | cons hc hle hrest =>
    obtain ⟨base, hbase, hle'⟩ := hrest.mem
    rw [hstore, Store.restore_restore hbase hc hle']

/-- One turn. -/
theorem Walked.Recalls.turn (hcompact : env.compact = true) {before : Regs}
    (h : w.Recalls before) (hstep : vmStep env w.vm = .running vm')
    (hfits : vm'.toStore.TrailFits env) (hstacked : Stacked w.vm.choices w.vm.trail.length) :
    (w.follow env vm').Recalls before := by
  cases vmStep_path hstep with
  | fence hfetch hregs hchoices =>
    rw [Walked.follow_fence hfetch]
    refine ⟨hregs.trans h.regs, by simp [hchoices], ?_⟩
    intro i c back hc
    rw [hchoices] at hc
    cases hc
  | pop hfence hpopped =>
    obtain ⟨c, rest, hchoices, -, -, hstore, hrest⟩ := hpopped
    have hlength := h.length
    rw [hchoices, List.length_cons] at hlength
    obtain ⟨back, more, hsaved⟩ := List.exists_cons_of_length_eq_add_one hlength
    rw [Walked.follow_pop hfence (by rw [hrest, hchoices]; exact Nat.lt_succ_self _), hsaved]
    refine ⟨?_, ?_, ?_⟩
    · calc vm'.regs = (w.vm.toStore.restore c).regs := congrArg Store.regs hstore
        _ = regsAlong before back := h.saved 0 c back (by rw [hchoices]; rfl) (by rw [hsaved]; rfl)
    · rw [hsaved, List.length_cons, Nat.add_right_cancel_iff] at hlength
      rw [hrest]
      exact hlength
    · intro i c' back' hc' hback'
      have hbelow := h.saved (i + 1) c' back' (by rw [hchoices, ← hrest]; exact hc')
        (by rw [hsaved]; exact hback')
      rw [← hbelow]
      rw [hchoices] at hstacked
      exact restore_of_popped hstacked hstore (hrest ▸ List.mem_of_getElem? hc')
  | @push instr next hfetch hfence hplain hpush =>
    obtain ⟨c, hc⟩ := hpush
    have hlt : w.vm.choices.length < vm'.choices.length := by
      rw [hc]
      exact Nat.lt_succ_self _
    obtain ⟨-, hregs, hrestore⟩ := vmStep_pushes hcompact hstep hfits hc
    rw [Walked.follow_push hfetch hfence hlt]
    have hpath : regsAlong before (⟨w.vm.ip, instr, w.vm.pos⟩ :: w.path) = w.vm.regs := by
      rw [regsAlong, Visit.write_of_not_prim hplain, h.regs]
    refine ⟨hregs.trans hpath.symm, by simp [hc, h.length], ?_⟩
    intro i c' back hc' hback
    cases i with
    | zero =>
      rw [hc] at hc'
      cases hc'
      cases hback
      exact hrestore.trans hpath.symm
    | succ i =>
      rw [hc] at hc'
      rw [← h.saved i c' back hc' hback]
      exact restore_of_not_popped hcompact hstep hfits hstacked (Nat.le_of_lt hlt)
        (List.mem_of_getElem? hc')
  | stay hfetch hfence hregs hchoices =>
    have hlength := congrArg List.length hchoices
    rw [Walked.follow_stay hfetch hfence hlength]
    refine ⟨?_, by rw [hchoices]; exact h.length, ?_⟩
    · rw [hregs, h.regs]
      rfl
    · intro i c back hc hback
      rw [hchoices] at hc
      rw [← h.saved i c back hc hback]
      exact restore_of_not_popped hcompact hstep hfits hstacked hlength.ge (List.mem_of_getElem? hc)

/-- In a run whose undo log stays below 2³² records, with compact choice records, the registers
are what the path to the state has written. -/
theorem Walk.recalls (hcompact : env.compact = true)
    (hfits : ∀ vm, VmReach env start vm → vm.toStore.TrailFits env) (h : Walk env start w) :
    w.Recalls start.regs := by
  induction h with
  | refl => exact ⟨rfl, rfl, fun i c back hc => by cases hc⟩
  | tail hsteps hstep ih =>
    obtain ⟨vm', hstep, rfl⟩ := hstep
    have hreach := Walk.vmReach hsteps
    exact ih.turn hcompact hstep (hfits _ (hreach.step hstep))
      (VmReach.stacked hcompact hfits hreach)

/-- A run that accepts does so at the end of a path. -/
theorem VmRun.acceptingPath {final : Vm W} (h : VmRun env start true final) :
    ∃ path, AcceptingPath env start final path := by
  obtain ⟨vm, hvm, hlast⟩ := h.last
  obtain ⟨w, hwalk, rfl⟩ := hvm.walk
  exact ⟨w.path, w, hwalk, rfl, hlast⟩

theorem AcceptingPath.vmRun {final : Vm W} {path : List Visit}
    (h : AcceptingPath env start final path) : VmRun env start true final := by
  obtain ⟨w, hwalk, -, hlast⟩ := h
  obtain ⟨n, hn⟩ := hwalk.vmReach.exists_steps
  exact ⟨n + 1, by rw [vmSteps_add hn, vmSteps_last hlast]⟩

/-- The registers at the end are those that the accepting path has written. -/
theorem AcceptingPath.regs {final : Vm W} {path : List Visit} (hcompact : env.compact = true)
    (hfits : ∀ vm, VmReach env start vm → vm.toStore.TrailFits env)
    (h : AcceptingPath env start final path) : final.regs = regsAlong start.regs path := by
  obtain ⟨w, hwalk, rfl, hlast⟩ := h
  exact (regs_of_accept hlast).trans (hwalk.recalls hcompact hfits).regs

end

/-! ## Paths of fixed runs -/

/-- The path after `n` turns. -/
def walkSteps (env : VmEnv W) : Nat → Walked W → Walked W
  | 0, w => w
  | n + 1, w =>
      match vmStep env w.vm with
      | .running vm => walkSteps env n (w.follow env vm)
      | .halted _ _ => w

/-- Every state with its path is reached after some number of turns. -/
theorem Walk.exists_steps {env : VmEnv W} {start : Vm W} {w : Walked W} (h : Walk env start w) :
    ∃ n, walkSteps env n ⟨vmRunStart start, [], []⟩ = w ∧
      vmSteps env n (vmRunStart start) = .running w.vm := by
  suffices hgen : ∀ w₀ : Walked W, Relation.ReflTransGen (Walked.Step env) w₀ w →
      ∃ n, walkSteps env n w₀ = w ∧ vmSteps env n w₀.vm = .running w.vm from hgen _ h
  intro w₀ h
  induction h using Relation.ReflTransGen.head_induction_on with
  | refl => exact ⟨0, rfl, rfl⟩
  | @head w₁ _ hstep _ ih =>
    obtain ⟨vm', hstep, rfl⟩ := hstep
    obtain ⟨n, hn, hrun⟩ := ih
    refine ⟨n + 1, ?_, ?_⟩
    · rw [walkSteps, hstep]
      exact hn
    · rw [vmSteps_running hstep]
      rwa [Walked.follow_vm] at hrun

/-- The states of a run that ends after `n` turns, with their paths. -/
theorem Walk.forall_of_steps {env : VmEnv W} {start final : Vm W} {ok : Bool} {n : Nat}
    {P : Walked W → Prop} (hend : vmSteps env n (vmRunStart start) = .halted ok final)
    (h : ∀ m < n, P (walkSteps env m ⟨vmRunStart start, [], []⟩)) (w : Walked W)
    (hw : Walk env start w) : P w := by
  obtain ⟨m, rfl, hm⟩ := hw.exists_steps
  by_cases hlt : m < n
  · exact h m hlt
  · have hhalt := vmSteps_halted hend (m - n)
    rw [Nat.add_sub_cancel' (Nat.le_of_not_lt hlt), hm] at hhalt
    cases hhalt

theorem Walk.steps {env : VmEnv W} {start : Vm W} {w : Walked W} (n : Nat) (h : Walk env start w) :
    Walk env start (walkSteps env n w) := by
  induction n generalizing w with
  | zero => exact h
  | succ n ih =>
    unfold walkSteps
    split
    · rename_i vm hstep
      exact ih (.tail h ⟨vm, hstep, rfl⟩)
    · exact h

end Snobol4
