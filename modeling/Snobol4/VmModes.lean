import Snobol4.BranchLog

/-!
# VmModes — compact and legacy choice records

A VM with trail records and one with snapshots, whose registers hold the same, take the same turn
up to what a pop brings back.
-/

namespace Snobol4

variable {W : Type}

/-- The environment of a run with trail records, or with snapshots. -/
def VmEnv.mode (env : VmEnv W) (compact : Bool) : VmEnv W := { env with compact }

section

variable (env : VmEnv W) (compact : Bool)

@[simp] theorem VmEnv.mode_bc : (env.mode compact).bc = env.bc := rfl

@[simp] theorem VmEnv.mode_s : (env.mode compact).s = env.s := rfl

@[simp] theorem VmEnv.mode_labelOffsets : (env.mode compact).labelOffsets = env.labelOffsets := rfl

@[simp] theorem VmEnv.mode_ranges (setId : Nat) :
    (env.mode compact).ranges setId = env.ranges setId := rfl

/-- The plain instructions do not see the mode. -/
@[simp] theorem Prim.exec_mode (q : Prim) (pos : Nat) (regs : Regs) (g : Globals W) :
    q.exec (env.mode compact) pos regs g = q.exec env pos regs g := by
  cases q <;> rfl

@[simp] theorem greedyRunEnd_mode (target pos : Nat) :
    greedyRunEnd (env.mode compact) target pos = greedyRunEnd env target pos := rfl

@[simp] theorem takesGreedy_mode (loop target : Nat) (vm : Vm W) :
    takesGreedy (env.mode compact) loop target vm = takesGreedy env loop target vm := rfl

end

/-! ## The two modes move the cursor alike -/

/-- A pop brings the marks of the record back, whatever the kind of record. -/
theorem Store.restore_scalars (c : Choice) (st : Store) :
    (st.restore c).regs.varCount = c.varCount ∧ (st.restore c).regs.maxCapUsed = c.maxCapUsed ∧
      (st.restore c).maxCounterUsed = c.maxCounterUsed := by
  cases hsaved : c.saved with
  | trailBase base =>
    rw [restore_trailBase hsaved, ← replay_withScalars]
    exact ⟨rfl, rfl, rfl⟩
  | snapshot capStart capEnd counters loopLastPos =>
    simp [restore, hsaved]

/-- Two choice records with the same cursor and marks. -/
structure Choice.SameCursor (c c' : Choice) : Prop where
  ip : c.ip = c'.ip
  pos : c.pos = c'.pos
  varCount : c.varCount = c'.varCount
  maxCapUsed : c.maxCapUsed = c'.maxCapUsed
  maxCounterUsed : c.maxCounterUsed = c'.maxCounterUsed

/-- The VM with other choice records and another trail. -/
def Vm.withRecords (vm : Vm W) (trail : List UndoRecord) (choices : List Choice) : Vm W :=
  { vm with trail, choices }

/-- Two VMs that differ in their records only. -/
inductive Vm.InStep : Vm W → Vm W → Prop where
  | mk (vm : Vm W) (trail : List UndoRecord) {choices : List Choice}
      (h : List.Forall₂ Choice.SameCursor vm.choices choices) :
      InStep vm (vm.withRecords trail choices)

/-- Two VMs that may hold different values in their registers as well. -/
structure Vm.Alike (vm vm' : Vm W) : Prop where
  ip : vm.ip = vm'.ip
  pos : vm.pos = vm'.pos
  varCount : vm.regs.varCount = vm'.regs.varCount
  maxCapUsed : vm.regs.maxCapUsed = vm'.regs.maxCapUsed
  maxCounterUsed : vm.maxCounterUsed = vm'.maxCounterUsed
  loopMin : vm.loopMin = vm'.loopMin
  loopMax : vm.loopMax = vm'.loopMax
  loopSpanGreedy : vm.loopSpanGreedy = vm'.loopSpanGreedy
  globals : vm.globals = vm'.globals
  inGotoFail : vm.inGotoFail = vm'.inGotoFail
  abortFlag : vm.abortFlag = vm'.abortFlag
  choices : List.Forall₂ Choice.SameCursor vm.choices vm'.choices

/-- Outcomes of a turn in both modes: the registers stay the same, or the newest records are
popped. -/
inductive ModeTurn (vm vm' : Vm W) (cuts : Bool) : StepResult W → StepResult W → Prop where
  | running {u u' : Vm W} (h : u.InStep u')
      (hlen : cuts = true ∧ u.choices = [] ∨ cuts = false ∧ vm.choices.length ≤ u.choices.length) :
      ModeTurn vm vm' cuts (.running u) (.running u')
  | halted (ok : Bool) {u u' : Vm W} (h : u.InStep u')
      (hlen : cuts = true ∨ vm.choices.length ≤ u.choices.length) :
      ModeTurn vm vm' cuts (.halted ok u) (.halted ok u')
  | popped {u u' : Vm W} {c c' : Choice} {rest rest' : List Choice} (hcuts : cuts = false)
      (h : u.InStep u') (hstore : u.toStore = vm.toStore) (hc : vm.choices = c :: rest)
      (hc' : vm'.choices = c' :: rest') (hstore' : u'.toStore = vm'.toStore) :
      ModeTurn vm vm' cuts (.running (u.restore c rest)) (.running (u'.restore c' rest'))
  | left {u u' : Vm W} {c c' : Choice} {rest rest' : List Choice} (hcuts : cuts = false)
      (h : u.InStep u') (hstore : u.toStore = vm.toStore) (hc : vm.choices = c :: rest)
      (hc' : vm'.choices = c' :: rest') (hstore' : u'.toStore = vm'.toStore) :
      ModeTurn vm vm' cuts (.halted false (u.restore c rest))
        (.halted false (u'.restore c' rest'))

theorem Regs.eq_of {r r' : Regs} (hstart : r.capStart = r'.capStart) (hend : r.capEnd = r'.capEnd)
    (hvarStart : r.varStart = r'.varStart) (hvarEnd : r.varEnd = r'.varEnd)
    (hvars : r.varCount = r'.varCount) (hcaps : r.maxCapUsed = r'.maxCapUsed) : r = r' := by
  cases r
  cases r'
  subst hstart hend hvarStart hvarEnd hvars hcaps
  rfl

/-- VMs of which all registers are the same. -/
theorem Vm.Alike.inStep {u u' : Vm W} (h : u.Alike u') (hstart : u.regs.capStart = u'.regs.capStart)
    (hend : u.regs.capEnd = u'.regs.capEnd) (hvarStart : u.regs.varStart = u'.regs.varStart)
    (hvarEnd : u.regs.varEnd = u'.regs.varEnd) (hloop : u.toStore.loop = u'.toStore.loop) :
    u.InStep u' := by
  have hcounters : u.counters = u'.counters := funext fun i => congrArg Prod.fst (congrFun hloop i)
  have hlast : u.loopLastPos = u'.loopLastPos :=
    funext fun i => congrArg Prod.snd (congrFun hloop i)
  have heq : u' = u.withRecords u'.trail u'.choices := by
    have hregs : u.regs = u'.regs :=
      Regs.eq_of hstart hend hvarStart hvarEnd h.varCount h.maxCapUsed
    simp only [Vm.withRecords, hregs, hcounters, hlast, h.maxCounterUsed, h.ip, h.pos, h.loopMin,
      h.loopMax, h.loopSpanGreedy, h.globals, h.inGotoFail, h.abortFlag]
  rw [heq]
  exact .mk u u'.trail h.choices

namespace Vm.InStep

variable {env : VmEnv W} {vm vm' : Vm W}

theorem alike (h : vm.InStep vm') : vm.Alike vm' := by
  cases h with
  | mk trail h => exact ⟨rfl, rfl, rfl, rfl, rfl, rfl, rfl, rfl, rfl, rfl, rfl, h⟩

theorem length_choices (h : vm.InStep vm') : vm.choices.length = vm'.choices.length :=
  h.alike.choices.length_eq

theorem goto (h : vm.InStep vm') (ip : Nat) : Vm.InStep { vm with ip } { vm' with ip } := by
  cases h with
  | mk trail h => exact .mk { vm with ip } trail h

theorem pushChoice (h : vm.InStep vm') (env : VmEnv W) (ip : Nat) {pos pos' : Nat}
    (hpos : pos = pos') :
    (vm.pushChoice (env.mode true) ip pos).InStep (vm'.pushChoice (env.mode false) ip pos') := by
  subst hpos
  cases h with
  | mk trail h =>
    exact .mk (vm.pushChoice (env.mode true) ip pos) trail (.cons ⟨rfl, rfl, rfl, rfl, rfl⟩ h)

theorem counters (h : vm.InStep vm') : vm.counters = vm'.counters := by
  cases h with
  | mk => rfl

theorem loopLastPos (h : vm.InStep vm') : vm.loopLastPos = vm'.loopLastPos := by
  cases h with
  | mk => rfl

theorem regs (h : vm.InStep vm') : vm.regs = vm'.regs := by
  cases h with
  | mk => rfl

theorem setLoop (h : vm.InStep vm') (i : Nat) {n n' last last' : Nat} (hn : n = n')
    (hlast : last = last') :
    Vm.InStep { vm with toStore := vm.toStore.setLoop i n last }
      { vm' with toStore := vm'.toStore.setLoop i n' last' } := by
  subst hn hlast
  cases h with
  | mk trail h => exact .mk { vm with toStore := vm.toStore.setLoop i n last } trail h

/-- A test on the length of the subject, which each mode decides in its own environment. -/
theorem cond {c : Prop} {dec dec' : Decidable c} {u u' v v' : Vm W} (hu : u.InStep u')
    (hv : v.InStep v') : (@ite _ c dec u v).InStep (@ite _ c dec' u' v') := by
  by_cases hc : c
  · rw [if_pos hc, if_pos hc]
    exact hu
  · rw [if_neg hc, if_neg hc]
    exact hv

/-- Only the compact mode records the count. -/
theorem count (h : vm.InStep vm') (env : VmEnv W) (i n : Nat) :
    Vm.InStep { vm with toStore := vm.toStore.count (env.mode true) i n }
      { vm' with toStore := vm'.toStore.count (env.mode false) i n } := by
  cases h with
  | mk trail h =>
    exact .mk { vm with toStore := vm.toStore.count (env.mode true) i n } trail h

/-- The two records may bring back different registers. -/
theorem restore (h : vm.InStep vm') {c c' : Choice} (hc : c.SameCursor c')
    {cs cs' : List Choice} (hcs : List.Forall₂ Choice.SameCursor cs cs') :
    (vm.restore c cs).Alike (vm'.restore c' cs') := by
  obtain ⟨hvar, hcap, hcounter⟩ := Store.restore_scalars c vm.toStore
  obtain ⟨hvar', hcap', hcounter'⟩ := Store.restore_scalars c' vm'.toStore
  exact
    { h.alike with
      ip := hc.ip
      pos := hc.pos
      varCount := hvar.trans (hc.varCount.trans hvar'.symm)
      maxCapUsed := hcap.trans (hc.maxCapUsed.trans hcap'.symm)
      maxCounterUsed := hcounter.trans (hc.maxCounterUsed.trans hcounter'.symm)
      choices := hcs }

section

variable {u u' : Vm W} (h : u.InStep u') (hstore : u.toStore = vm.toStore)
  (hchoices : u.choices = vm.choices) (hstore' : u'.toStore = vm'.toStore)
  (hchoices' : u'.choices = vm'.choices)
include h hstore hchoices hstore' hchoices'

theorem backtrack : ModeTurn vm vm' false u.backtrack u'.backtrack := by
  have hsame := h.alike.choices
  unfold Vm.backtrack
  rw [hchoices, hchoices'] at hsame ⊢
  cases hc : vm.choices with
  | nil =>
    rw [hc] at hsame hchoices
    cases hc' : vm'.choices with
    | nil => exact .halted false h (.inr (by rw [hc]; exact Nat.zero_le _))
    | cons c' rest' =>
      rw [hc'] at hsame
      cases hsame
  | cons c rest =>
    rw [hc] at hsame
    cases hc' : vm'.choices with
    | nil =>
      rw [hc'] at hsame
      cases hsame
    | cons c' rest' => exact .popped rfl h hstore hc hc' hstore'

theorem leave : ModeTurn vm vm' false u.leave u'.leave := by
  have hsame := h.alike.choices
  unfold Vm.leave
  rw [hchoices, hchoices'] at hsame ⊢
  cases hc : vm.choices with
  | nil =>
    rw [hc] at hsame hchoices
    cases hc' : vm'.choices with
    | nil => exact .halted false h (.inr (by rw [hc]; exact Nat.zero_le _))
    | cons c' rest' =>
      rw [hc'] at hsame
      cases hsame
  | cons c rest =>
    rw [hc] at hsame
    cases hc' : vm'.choices with
    | nil =>
      rw [hc'] at hsame
      cases hsame
    | cons c' rest' => exact .left rfl h hstore hc hc' hstore'

end

theorem globals (h : vm.InStep vm') (globals : Globals W) :
    Vm.InStep { vm with globals } { vm' with globals } := by
  cases h with
  | mk trail h => exact .mk { vm with globals } trail h

theorem apply (h : vm.InStep vm') (env : VmEnv W) (next : Nat) (r : PrimResult W) :
    ModeTurn vm vm' false (Vm.apply (env.mode true) { vm with ip := next } r)
      (Vm.apply (env.mode false) { vm' with ip := next } r) := by
  cases r with
  | next pos regs undo globals =>
    refine .running ?_ (.inr ⟨rfl, le_rfl⟩)
    cases h with
    | mk trail h => exact .mk _ trail h
  | fail g => exact ((h.goto next).globals g).backtrack rfl rfl rfl rfl
  | leave g => exact ((h.goto next).globals g).leave rfl rfl rfl rfl

theorem repeatInit (h : vm.InStep vm') (env : VmEnv W) (loop min max skip : Nat) :
    (opRepeatInit (env.mode true) loop min max skip vm).InStep
      (opRepeatInit (env.mode false) loop min max skip vm') := by
  unfold opRepeatInit
  split
  · have hinit : Vm.InStep
        { vm with
          toStore :=
            { vm.toStore.setLoop loop 0 vm.pos with
              maxCounterUsed := Nat.max vm.maxCounterUsed (loop + 1) }
          loopMin := Function.update vm.loopMin loop min
          loopMax := Function.update vm.loopMax loop max }
        { vm' with
          toStore :=
            { vm'.toStore.setLoop loop 0 vm'.pos with
              maxCounterUsed := Nat.max vm'.maxCounterUsed (loop + 1) }
          loopMin := Function.update vm'.loopMin loop min
          loopMax := Function.update vm'.loopMax loop max } := by
      cases h with
      | mk trail h => exact .mk _ trail h
    simp only [← h.alike.pos] at hinit ⊢
    split
    · exact hinit.pushChoice env skip rfl
    · exact hinit
  · exact h

theorem greedyExtend (h : vm.InStep vm') (env : VmEnv W) (loop target : Nat) :
    (greedyExtend (env.mode true) loop target vm).InStep
      (greedyExtend (env.mode false) loop target vm') := by
  unfold Snobol4.greedyExtend
  rw [greedyRunEnd_mode, greedyRunEnd_mode, ← h.alike.pos]
  cases greedyRunEnd env target vm.pos with
  | none => exact h
  | some runEnd =>
    cases h with
    | mk trail h => exact .mk _ trail h

theorem repeatGreedy (h : vm.InStep vm') (env : VmEnv W) (loop target : Nat) :
    (opRepeatGreedy (env.mode true) loop target vm).InStep
      (opRepeatGreedy (env.mode false) loop target vm') := by
  have hextend := h.greedyExtend env loop target
  simp only [opRepeatGreedy, ← hextend.loopLastPos, ← hextend.alike.pos, ← hextend.alike.ip]
  split
  · have hpush := hextend.pushChoice env
      ((Snobol4.greedyExtend (env.mode true) loop target vm).ip - 6)
      (Eq.refl ((Snobol4.greedyExtend (env.mode true) loop target vm).pos - 1))
    exact hpush.setLoop loop (congrFun hpush.counters loop) hpush.alike.pos
  · exact hextend.setLoop loop (congrFun hextend.counters loop) hextend.alike.pos

theorem repeatIterate (h : vm.InStep vm') (env : VmEnv W) (loop target : Nat) :
    (opRepeatIterate (env.mode true) loop target vm).InStep
      (opRepeatIterate (env.mode false) loop target vm') := by
  have hcount := h.count env loop ((vm.counters loop + 1) % 2 ^ 32)
  have hpush := hcount.pushChoice env vm.ip (Eq.refl vm.pos)
  have hagain : ∀ {u u' : Vm W}, u.InStep u' → Vm.InStep
      { u with
        toStore := u.toStore.setLoop loop ((vm.counters loop + 1) % 2 ^ 32) u.pos
        ip := target }
      { u' with
        toStore := u'.toStore.setLoop loop ((vm.counters loop + 1) % 2 ^ 32) u'.pos
        ip := target } := by
    intro u u' hu
    exact (hu.setLoop loop rfl hu.alike.pos).goto target
  simp only [opRepeatIterate, VmEnv.mode_s, ← h.alike.loopMin, ← h.alike.loopMax,
    ← h.counters, ← h.loopLastPos, ← h.alike.pos, ← h.alike.ip]
  have hagain₁ := hagain hcount
  have hagain₂ := hagain hpush
  simp only [← h.alike.loopMin, ← h.alike.loopMax, ← h.alike.pos, ← h.alike.ip]
    at hcount hagain₁ hagain₂
  split
  · exact hagain₁
  split
  · split
    · exact hcount
    exact .cond hcount hagain₂
  · exact hcount

theorem repeatStep (h : vm.InStep vm') (env : VmEnv W) (loop target : Nat) :
    (opRepeatStep (env.mode true) loop target vm).InStep
      (opRepeatStep (env.mode false) loop target vm') := by
  have hsame : takesGreedy env loop target vm' = takesGreedy env loop target vm := by
    unfold takesGreedy
    rw [h.alike.loopSpanGreedy, h.alike.loopMax]
  unfold opRepeatStep
  rw [takesGreedy_mode, takesGreedy_mode, hsame]
  split
  · split
    · have hflag : Vm.InStep
          { vm with loopSpanGreedy := Function.update vm.loopSpanGreedy loop true }
          { vm' with loopSpanGreedy := Function.update vm'.loopSpanGreedy loop true } := by
        cases h with
        | mk trail h => exact .mk _ trail h
      exact hflag.repeatGreedy env loop target
    · exact h.repeatIterate env loop target
  · exact h

theorem breakx (h : vm.InStep vm') (env : VmEnv W) (setId here : Nat) :
    (opBreakx (env.mode true) setId here vm).InStep
      (opBreakx (env.mode false) setId here vm') := by
  have hstop : Vm.InStep { vm with pos := breakTarget env.s (env.ranges setId) vm.pos }
      { vm' with pos := breakTarget env.s (env.ranges setId) vm.pos } := by
    cases h with
    | mk trail h => exact .mk _ trail h
  unfold opBreakx
  simp only [VmEnv.mode_s, VmEnv.mode_ranges, ← h.alike.pos]
  exact .cond (hstop.pushChoice env here rfl) hstop

/-- One turn from the same registers. -/
theorem step (h : vm.InStep vm') (env : VmEnv W) :
    ModeTurn vm vm' (cutsChoices env vm.ip) (vmStep (env.mode true) vm)
      (vmStep (env.mode false) vm') := by
  unfold vmStep cutsChoices
  rw [← h.alike.ip, VmEnv.mode_bc, VmEnv.mode_bc]
  cases hfetch : fetch env.bc vm.ip with
  | none => exact h.backtrack rfl rfl rfl rfl
  | some fetched =>
    obtain ⟨instr, next⟩ := fetched
    have hnext := h.goto next
    cases instr with
    | prim q =>
      have hexec : q.exec (env.mode false) vm'.pos vm'.regs vm'.globals =
          q.exec (env.mode true) vm.pos vm.regs vm.globals := by
        rw [Prim.exec_mode, Prim.exec_mode, h.alike.pos, h.regs, h.alike.globals]
      simp only [hexec]
      exact h.apply env next _
    | accept | succeed => exact .halted true hnext (.inr le_rfl)
    | fail | unknown b => exact hnext.backtrack rfl rfl rfl rfl
    | jmp target => exact .running (h.goto target) (.inr ⟨rfl, le_rfl⟩)
    | split a b =>
      exact .running ((hnext.pushChoice env b h.alike.pos).goto a) (.inr ⟨rfl, Nat.le_succ _⟩)
    | repeatInit loop min max skip =>
      have hsaves := (opRepeatInit_frame (env.mode true) loop min max skip { vm with ip := next }).2
      exact .running (hnext.repeatInit env loop min max skip) (.inr ⟨rfl, hsaves.length_le⟩)
    | repeatStep loop target =>
      have hsaves := opRepeatStep_saves (env.mode true) loop target { vm with ip := next }
      exact .running (hnext.repeatStep env loop target) (.inr ⟨rfl, hsaves.length_le⟩)
    | goto label =>
      simp only [VmEnv.mode_labelOffsets]
      cases hlabel : env.labelOffsets[label]? with
      | none =>
        have hfail : Vm.InStep { vm with ip := next, inGotoFail := true }
            { vm' with ip := next, inGotoFail := true } := by
          cases h with
          | mk trail h => exact .mk _ trail h
        exact hfail.backtrack rfl rfl rfl rfl
      | some target => exact .running (h.goto target) (.inr ⟨rfl, le_rfl⟩)
    | breakx setId =>
      have hsaves := opBreakx_saves (env.mode true) setId vm.ip { vm with ip := next }
      exact .running (hnext.breakx env setId vm.ip) (.inr ⟨rfl, hsaves.length_le⟩)
    | fence =>
      refine .running ?_ (.inl ⟨rfl, rfl⟩)
      cases h with
      | mk trail h => exact .mk { vm with ip := next, choices := [] } trail .nil
    | abort =>
      refine .halted false ?_ (.inl rfl)
      cases h with
      | mk trail h =>
        exact .mk { vm with ip := next, abortFlag := true, choices := [] } trail .nil

end Vm.InStep

end Snobol4
