import Snobol4.VmStore
import Snobol4.Compiler

/-!
# VmTrail — the undo trail over a run

The bases of the choice records lie one above the other within the trail, and between
the push of a record and its pop every write of a capture or variable register has an
undo record above the base.  So the pop brings back the registers of the push.
-/

namespace Snobol4

variable {W : Type}

namespace Store

/-! ## Popping twice -/

/-- The undo records do not touch the scalars. -/
theorem undo_withScalars (c : Choice) (st : Store) (e : UndoRecord) :
    (st.undo e).withScalars c = (st.withScalars c).undo e := by
  cases e with
  | counterDec loop count lastPos =>
    simp only [undo]
    split <;> rfl
  | capWrite reg sub start stop =>
    simp only [undo]
    split
    · split
      · rfl
      split <;> rfl
    · rfl
  | varWrite var start stop =>
    simp only [undo]
    split <;> rfl

theorem replay_withScalars (c : Choice) (base : Nat) (trail : List UndoRecord) (st : Store) :
    (replay base trail st).withScalars c = replay base trail (st.withScalars c) := by
  induction trail generalizing st with
  | nil => rfl
  | cons e trail ih =>
    simp only [replay]
    split
    · rw [ih, undo_withScalars]
    · rfl

/-- Undo down to one base and from there to a lower one. -/
theorem replay_replay {base base' : Nat} (h : base ≤ base') (trail : List UndoRecord) (st : Store) :
    replay base (trail.drop (trail.length - base')) (replay base' trail st) =
      replay base trail st := by
  induction trail generalizing st with
  | nil => simp [replay]
  | cons e trail ih =>
    rw [replay.eq_def base' (e :: trail)]
    simp only
    split
    · rename_i hle
      rw [List.length_cons, Nat.succ_sub hle, List.drop_succ_cons, ih, replay,
        if_pos (h.trans hle)]
    · rename_i hlt
      rw [List.length_cons, Nat.sub_eq_zero_of_le (by omega), List.drop_zero, replay_setTrail]

/-- The base of a compact record. -/
def BaseIs (c : Choice) (base : Nat) : Prop := c.saved = .trailBase base

/-- A pop above a record is not seen by it. -/
theorem restore_restore {c c' : Choice} {base base' : Nat} (hc : BaseIs c base)
    (hc' : BaseIs c' base') (hle : base ≤ base') (st : Store) :
    (st.restore c').restore c = st.restore c := by
  have htrail : (replay base' st.trail (st.withScalars c')).trail =
      st.trail.drop (st.trail.length - base') := replay_trail ..
  rw [restore_trailBase hc, restore_trailBase hc', restore_trailBase hc, htrail,
    replay_withScalars, replay_replay hle]
  rfl

end Store

/-! ## What a turn does to registers and choice points -/

/-- One write or push of a handler. -/
inductive Grow (env : VmEnv W) : Store × List Choice → Store × List Choice → Prop where
  | write {st : Store} {cs : List Choice} {regs : Regs} {undone : List UndoRecord}
      (h : Store.Reverts st.regs regs undone) :
      Grow env (st, cs) ({ st with regs }.record env undone, cs)
  | count (st : Store) (cs : List Choice) (loop n : Nat) :
      Grow env (st, cs) (st.count env loop n, cs)
  | loop (st : Store) (cs : List Choice) (i n p : Nat) : Grow env (st, cs) (st.setLoop i n p, cs)
  | used (st : Store) (cs : List Choice) (n : Nat) :
      Grow env (st, cs) ({ st with maxCounterUsed := n }, cs)
  | push (st : Store) (cs : List Choice) (ip pos : Nat) :
      Grow env (st, cs) (st, st.choice env ip pos :: cs)

/-- Several of them. -/
abbrev Grows (env : VmEnv W) := Relation.ReflTransGen (Grow env)

/-- The state after a pop of the newest record. -/
def Popped (vm vm' : Vm W) : Prop :=
  ∃ c rest, vm.choices = c :: rest ∧ vm'.ip = c.ip ∧ vm'.pos = c.pos ∧
    vm'.toStore = vm.toStore.restore c ∧ vm'.choices = rest

theorem popped_of_backtrack {vm vm₁ vm' : Vm W} (h : vm₁.backtrack = .running vm')
    (hstore : vm₁.toStore = vm.toStore) (hchoices : vm₁.choices = vm.choices) : Popped vm vm' := by
  unfold Vm.backtrack at h
  split at h
  · cases h
  · rename_i c rest hc
    cases h
    refine ⟨c, rest, hchoices ▸ hc, rfl, rfl, ?_, rfl⟩
    rw [← hstore]
    rfl

section

variable {env : VmEnv W} {vm vm' : Vm W}

theorem opRepeatInit_grows (env : VmEnv W) (loop min max skip : Nat) (vm : Vm W) :
    Grows env (vm.toStore, vm.choices)
      ((opRepeatInit env loop min max skip vm).toStore,
        (opRepeatInit env loop min max skip vm).choices) := by
  unfold opRepeatInit
  split
  · simp only
    split
    · exact .tail (.tail (.tail .refl (.loop _ _ loop 0 vm.pos)) (.used _ _ _)) (.push _ _ skip _)
    · exact .tail (.tail .refl (.loop _ _ loop 0 vm.pos)) (.used _ _ _)
  · exact .refl

theorem greedyExtend_grows (env : VmEnv W) (loop target : Nat) (vm : Vm W) :
    Grows env (vm.toStore, vm.choices)
      ((greedyExtend env loop target vm).toStore, (greedyExtend env loop target vm).choices) := by
  unfold greedyExtend
  split
  · exact .refl
  · exact .single (.count _ _ loop _)

theorem opRepeatGreedy_grows (env : VmEnv W) (loop target : Nat) (vm : Vm W) :
    Grows env (vm.toStore, vm.choices)
      ((opRepeatGreedy env loop target vm).toStore,
        (opRepeatGreedy env loop target vm).choices) := by
  unfold opRepeatGreedy
  simp only
  split
  · exact .tail (.tail (greedyExtend_grows env loop target vm) (.push _ _ _ _)) (.loop _ _ loop _ _)
  · exact .tail (greedyExtend_grows env loop target vm) (.loop _ _ loop _ _)

theorem opRepeatIterate_grows (env : VmEnv W) (loop target : Nat) (vm : Vm W) :
    Grows env (vm.toStore, vm.choices)
      ((opRepeatIterate env loop target vm).toStore,
        (opRepeatIterate env loop target vm).choices) := by
  have hcount : Grows env (vm.toStore, vm.choices)
      (vm.toStore.count env loop ((vm.counters loop + 1) % 2 ^ 32), vm.choices) :=
    .single (.count _ _ loop _)
  simp only [opRepeatIterate]
  split
  · exact .tail hcount (.loop _ _ loop _ _)
  split
  · split
    · exact hcount
    split
    · exact hcount
    · exact .tail (.tail hcount (.push _ _ _ _)) (.loop _ _ loop _ _)
  · exact hcount

theorem opRepeatStep_grows (env : VmEnv W) (loop target : Nat) (vm : Vm W) :
    Grows env (vm.toStore, vm.choices)
      ((opRepeatStep env loop target vm).toStore, (opRepeatStep env loop target vm).choices) := by
  unfold opRepeatStep
  split
  · split
    · exact opRepeatGreedy_grows env loop target
        { vm with loopSpanGreedy := Function.update vm.loopSpanGreedy loop true }
    · exact opRepeatIterate_grows env loop target vm
  · exact .refl

theorem opBreakx_grows (env : VmEnv W) (setId here : Nat) (vm : Vm W) :
    Grows env (vm.toStore, vm.choices)
      ((opBreakx env setId here vm).toStore, (opBreakx env setId here vm).choices) := by
  unfold opBreakx
  simp only
  split
  · exact .single (.push _ _ here _)
  · exact .refl

/-- A turn writes and pushes, or pops, or cuts the choice stack. -/
theorem vmStep_effect (h : vmStep env vm = .running vm') :
    Grows env (vm.toStore, vm.choices) (vm'.toStore, vm'.choices) ∨ Popped vm vm' ∨
      vm'.choices = [] ∧ vm'.toStore = vm.toStore := by
  unfold vmStep at h
  cases hfetch : fetch env.bc vm.ip with
  | none =>
    simp only [hfetch] at h
    exact .inr (.inl (popped_of_backtrack h rfl rfl))
  | some fetched =>
    obtain ⟨instr, next⟩ := fetched
    simp only [hfetch] at h
    cases instr with
    | prim p =>
      have hundo := Prim.exec_undoable env p vm.pos vm.regs vm.globals
      cases hexec : p.exec env vm.pos vm.regs vm.globals with
      | next pos regs undone g =>
        rw [hexec] at hundo
        simp only [hexec, Vm.apply] at h
        cases h
        exact .inl (.single (.write hundo))
      | fail g =>
        simp only [hexec, Vm.apply] at h
        exact .inr (.inl (popped_of_backtrack h rfl rfl))
      | leave g =>
        simp only [hexec, Vm.apply, Vm.leave] at h
        split at h <;> cases h
    | fail | unknown b =>
      exact .inr (.inl (popped_of_backtrack h rfl rfl))
    | goto label =>
      simp only at h
      split at h
      · cases h
        exact .inl .refl
      · exact .inr (.inl (popped_of_backtrack h rfl rfl))
    | accept | abort | succeed => cases h
    | jmp target =>
      cases h
      exact .inl .refl
    | split a b =>
      cases h
      exact .inl (.single (.push _ _ b vm.pos))
    | repeatInit loop min max skip =>
      cases h
      exact .inl (opRepeatInit_grows env loop min max skip { vm with ip := next })
    | repeatStep loop target =>
      cases h
      exact .inl (opRepeatStep_grows env loop target { vm with ip := next })
    | breakx setId =>
      cases h
      exact .inl (opBreakx_grows env setId vm.ip { vm with ip := next })
    | fence =>
      cases h
      exact .inr (.inr ⟨rfl, rfl⟩)

end

/-! ## The records below a turn -/

namespace Store

/-- The replay of the registers does not read the loop counters. -/
theorem replay_regs_congr (base : Nat) (trail : List UndoRecord) {st st' : Store}
    (h : st'.regs = st.regs) : (replay base trail st').regs = (replay base trail st).regs := by
  induction trail generalizing st st' with
  | nil => exact h
  | cons e trail ih =>
    simp only [replay]
    split
    · refine ih ?_
      cases e with
      | counterDec loop count lastPos =>
        simp only [undo]
        split <;> exact h
      | capWrite reg sub start stop =>
        simp only [undo]
        split
        · split
          · simp only [h]
          split <;> simp only [h]
        · exact h
      | varWrite var start stop =>
        simp only [undo]
        split
        · simp only [h]
        · exact h
    · exact h

theorem restore_regs_congr {c : Choice} {base : Nat} (hc : BaseIs c base) {st st' : Store}
    (hregs : st'.regs = st.regs) (htrail : st'.trail = st.trail) :
    (st'.restore c).regs = (st.restore c).regs := by
  rw [restore_trailBase hc, restore_trailBase hc, htrail]
  refine replay_regs_congr base st.trail ?_
  simp only [withScalars, hregs]

/-- A recorded write of capture and variable registers is not seen below. -/
theorem restore_write {env : VmEnv W} (hcompact : env.compact = true) {c : Choice} {base : Nat}
    (hc : BaseIs c base) {st : Store} (hle : base ≤ st.trail.length) {regs : Regs}
    {undone : List UndoRecord} (h : Reverts st.regs regs undone) :
    ({ st with regs }.record env undone).restore c = st.restore c := by
  have hrecord : { st with regs }.record env undone =
      { st with regs, trail := undone ++ st.trail } := by simp [record, hcompact]
  have hfits : Fits env c st.trail := by
    rw [Fits, hc]
    exact ⟨hcompact, hle⟩
  rw [hrecord]
  refine restore_of_undoes hcompact hfits rfl ?_
  rw [h c _ rfl]
  rfl

/-- A counted iteration is not seen by the registers below. -/
theorem restore_count_regs {env : VmEnv W} (hcompact : env.compact = true) {c : Choice}
    {base : Nat} (hc : BaseIs c base) {st : Store} (hle : base ≤ st.trail.length) (loop n : Nat) :
    ((st.count env loop n).restore c).regs = (st.restore c).regs := by
  have htrail : (st.count env loop n).trail =
      .counterDec loop (st.counters loop) (st.loopLastPos loop) :: st.trail := by
    simp [count, record, hcompact, setLoop]
  have hregs : (st.count env loop n).regs = st.regs := by
    simp [count, record, hcompact, setLoop]
  rw [restore_trailBase hc, restore_trailBase hc, htrail, replay, if_pos hle]
  refine replay_regs_congr base st.trail ?_
  simp only [undo, withScalars]
  split <;> simp only [setLoop, hregs]

end Store

/-- The bases of the records lie one above the other, all of them within a trail of
`n` records. -/
inductive Stacked : List Choice → Nat → Prop where
  | nil (n : Nat) : Stacked [] n
  | cons {c : Choice} {rest : List Choice} {base n : Nat} (hc : Store.BaseIs c base)
      (hle : base ≤ n) (h : Stacked rest base) : Stacked (c :: rest) n

theorem Stacked.mono {cs : List Choice} {n n' : Nat} (h : Stacked cs n) (hle : n ≤ n') :
    Stacked cs n' := by
  cases h with
  | nil => exact .nil n'
  | cons hc hbase hrest => exact .cons hc (hbase.trans hle) hrest

/-- Every record of the stack has a base within the trail. -/
theorem Stacked.mem {above rest : List Choice} {c : Choice} {n : Nat}
    (h : Stacked (above ++ c :: rest) n) : ∃ base, Store.BaseIs c base ∧ base ≤ n := by
  induction above generalizing n with
  | nil =>
    cases h with
    | cons hc hle _ => exact ⟨_, hc, hle⟩
  | cons c' above ih =>
    cases h with
    | cons _ hle hrest =>
      obtain ⟨base, hc, hbase⟩ := ih hrest
      exact ⟨base, hc, hbase.trans hle⟩

section

variable {env : VmEnv W} (hcompact : env.compact = true)
include hcompact

omit hcompact in
/-- The trail grows. -/
theorem Grow.trail_le {x y : Store × List Choice} (h : Grow env x y) :
    x.1.trail.length ≤ y.1.trail.length := by
  cases h with
  | write _ =>
    simp only [Store.record]
    split
    · simp
    · exact le_rfl
  | count st cs loop n =>
    simp only [Store.count, Store.record]
    split
    · simp [Store.setLoop]
    · exact le_rfl
  | loop | used | push => exact le_rfl

omit hcompact in
theorem Grow.fits {x y : Store × List Choice} (h : Grow env x y) (hfits : y.1.TrailFits env) :
    x.1.TrailFits env := fun hcompact => h.trail_le.trans_lt (hfits hcompact)

/-- One write or push keeps the stack in order and adds records at its top only. -/
theorem Grow.stacked {x y : Store × List Choice} (h : Grow env x y) (hfits : y.1.TrailFits env)
    (hx : Stacked x.2 x.1.trail.length) : Stacked y.2 y.1.trail.length := by
  cases h with
  | write _ =>
    refine hx.mono ?_
    simp [Store.record, hcompact]
  | count st cs loop n =>
    refine hx.mono ?_
    simp [Store.count, Store.record, hcompact, Store.setLoop]
  | loop | used => exact hx
  | push st cs ip pos =>
    exact .cons (Store.choice_base hcompact hfits ip pos) le_rfl hx

/-- One write or push is not seen by the registers of a record that stays. -/
theorem Grow.regs {x y : Store × List Choice} (h : Grow env x y) {above rest : List Choice}
    {c : Choice} (hx : Stacked x.2 x.1.trail.length) (habove : x.2 = above ++ c :: rest) :
    (y.1.restore c).regs = (x.1.restore c).regs ∧ ∃ above, y.2 = above ++ c :: rest := by
  obtain ⟨base, hc, hle⟩ := Stacked.mem (habove ▸ hx)
  cases h with
  | write hrev => exact ⟨by rw [Store.restore_write hcompact hc hle hrev], above, habove⟩
  | count st cs loop n => exact ⟨Store.restore_count_regs hcompact hc hle loop n, above, habove⟩
  | loop | used => exact ⟨Store.restore_regs_congr hc rfl rfl, above, habove⟩
  | push st cs ip pos => exact ⟨rfl, _ :: above, congrArg (List.cons _) habove⟩

theorem Grows.stacked {x y : Store × List Choice} (h : Grows env x y) (hfits : y.1.TrailFits env)
    (hx : Stacked x.2 x.1.trail.length) : Stacked y.2 y.1.trail.length := by
  induction h with
  | refl => exact hx
  | tail _ hstep ih =>
    have hfits' := hstep.fits hfits
    exact hstep.stacked hcompact hfits (ih hfits')

theorem Grows.regs {x y : Store × List Choice} (h : Grows env x y) (hfits : y.1.TrailFits env)
    {above rest : List Choice} {c : Choice} (hx : Stacked x.2 x.1.trail.length) (habove : x.2 = above ++ c :: rest) :
    (y.1.restore c).regs = (x.1.restore c).regs ∧ ∃ above, y.2 = above ++ c :: rest := by
  induction h with
  | refl => exact ⟨rfl, above, habove⟩
  | tail hsteps hstep ih =>
    have hfits' := hstep.fits hfits
    obtain ⟨hregs, above', habove'⟩ := ih hfits'
    obtain ⟨hregs', hstays⟩ :=
      hstep.regs hcompact (Grows.stacked hcompact hsteps hfits' hx) habove'
    exact ⟨hregs'.trans hregs, hstays⟩

omit hcompact in
/-- A pop cuts the trail to the base of the record. -/
theorem Popped.stacked {vm vm' : Vm W} (h : Popped vm vm')
    (hx : Stacked vm.choices vm.trail.length) : Stacked vm'.choices vm'.trail.length := by
  obtain ⟨c, rest, hchoices, -, -, hstore, hrest⟩ := h
  rw [hchoices] at hx
  cases hx with
  | cons hc hle hstacked =>
    rename_i base
    have hlen : vm'.trail.length = base := by
      rw [hstore, Store.restore_trail, Store.cutTrail, hc, List.length_drop]
      omega
    rw [hrest, hlen]
    exact hstacked

/-- A turn keeps the records in order. -/
theorem vmStep_stacked {vm vm' : Vm W} (h : vmStep env vm = .running vm')
    (hfits : vm'.toStore.TrailFits env) (hstacked : Stacked vm.choices vm.trail.length) :
    Stacked vm'.choices vm'.trail.length := by
  obtain hgrows | hpopped | ⟨hnil, -⟩ := vmStep_effect h
  · exact Grows.stacked hcompact hgrows hfits hstacked
  · exact hpopped.stacked hstacked
  · rw [hnil]
    exact .nil _

/-- The records of a reached state lie one above the other. -/
theorem VmReach.stacked {start vm : Vm W} (hfits : ∀ vm, VmReach env start vm →
    vm.toStore.TrailFits env) (h : VmReach env start vm) :
    Stacked vm.choices vm.trail.length := by
  induction h with
  | start => exact .nil _
  | step h hstep ih => exact vmStep_stacked hcompact hstep (hfits _ (h.step hstep)) ih

end

/-! ## From the push to the pop -/

/-- The run goes from `vm` to a later state while the record `c` over `rest` stays on
the choice stack. -/
inductive Above (env : VmEnv W) (c : Choice) (rest : List Choice) (vm : Vm W) : Vm W → Prop where
  | refl : Above env c rest vm vm
  | step {vm₁ vm₂ : Vm W} (h : Above env c rest vm vm₁) (hstep : vmStep env vm₁ = .running vm₂)
      (hstays : ∃ above, vm₂.choices = above ++ c :: rest) : Above env c rest vm vm₂

/-- What stands above a record does not change the registers it brings back. -/
theorem Above.regs {env : VmEnv W} (hcompact : env.compact = true) {c : Choice}
    {rest : List Choice} {start vm vm' : Vm W}
    (hfits : ∀ vm, VmReach env start vm → vm.toStore.TrailFits env) (hreach : VmReach env start vm)
    (hc : vm.choices = c :: rest) (h : Above env c rest vm vm') :
    VmReach env start vm' ∧ (∃ above, vm'.choices = above ++ c :: rest) ∧
      (vm'.toStore.restore c).regs = (vm.toStore.restore c).regs := by
  induction h with
  | refl => exact ⟨hreach, ⟨[], hc⟩, rfl⟩
  | step h hstep hstays ih =>
    obtain ⟨hreach₁, ⟨above, habove⟩, hregs⟩ := ih
    refine ⟨hreach₁.step hstep, hstays, ?_⟩
    have hstacked := VmReach.stacked hcompact hfits hreach₁
    obtain hgrows | ⟨c', rest', hchoices, -, -, hstore, hrest⟩ | ⟨hnil, -⟩ := vmStep_effect hstep
    · exact (Grows.regs hcompact hgrows (hfits _ (hreach₁.step hstep)) hstacked habove).1.trans hregs
    · -- the popped record stands above `c`
      obtain ⟨above', habove'⟩ := hstays
      rw [hstore, ← hregs]
      rw [hchoices] at hstacked habove
      obtain - | ⟨hc', hle', hstacked'⟩ := hstacked
      rw [← hrest, habove'] at hstacked'
      obtain ⟨base, hcbase, hbase⟩ := hstacked'.mem
      exact congrArg Store.regs (Store.restore_restore hcbase hc' hbase _)
    · obtain ⟨above', habove'⟩ := hstays
      rw [hnil] at habove'
      simp at habove'

/-- The position that the handler of the next instruction hands to `vm_push_choice`. -/
def pushPos (env : VmEnv W) (vm : Vm W) : Nat :=
  match fetch env.bc vm.ip with
  | some (.repeatStep loop target, _) =>
      if takesGreedy env loop target vm then (greedyExtend env loop target vm).pos - 1 else vm.pos
  | some (.breakx setId, _) =>
      let stop := breakTarget env.s (env.ranges setId) vm.pos
      stop + (peekCp env.s stop).elim 1 (·.2)
  | _ => vm.pos

/-- What a turn that pushes `c` saves. -/
structure Pushes (env : VmEnv W) (c : Choice) (vm vm₁ : Vm W) : Prop where
  pos : c.pos = pushPos env vm
  regs : vm₁.regs = vm.regs
  restore : (vm₁.toStore.restore c).regs = vm.regs

section

variable {env : VmEnv W} {vm vm₁ : Vm W} {c : Choice}

theorem opRepeatInit_pushes {loop min max skip next : Nat}
    (hfetch : fetch env.bc vm.ip = some (.repeatInit loop min max skip, next))
    (hfits : vm.toStore.TrailFits env)
    (hc : (opRepeatInit env loop min max skip { vm with ip := next }).choices = c :: vm.choices) :
    Pushes env c vm (opRepeatInit env loop min max skip { vm with ip := next }) := by
  have hpos : pushPos env vm = vm.pos := by simp only [pushPos, hfetch]
  unfold opRepeatInit at hc ⊢
  by_cases hloop : loop < maxLoops
  · by_cases hmin : min = 0
    · simp only [if_pos hloop, if_pos hmin, Vm.pushChoice, List.cons.injEq, and_true] at hc ⊢
      subst hc
      refine ⟨hpos.symm, rfl, ?_⟩
      let st : Store :=
        { vm.toStore.setLoop loop 0 vm.pos with
          maxCounterUsed := Nat.max vm.maxCounterUsed (loop + 1) }
      have hst : st.TrailFits env := hfits
      change (st.restore (st.choice env skip vm.pos)).regs = _
      rw [Store.restore_choice hst]
      rfl
    · simp [if_pos hloop, if_neg hmin] at hc
  · simp [if_neg hloop] at hc

/-- A pop of the record just pushed, with a loop register written behind the push. -/
theorem Store.restore_setLoop_choice (hcompact : env.compact = true) {st : Store}
    (hfits : st.TrailFits env) (ip pos i n p : Nat) : ((st.setLoop i n p).restore (st.choice env ip pos)).regs = st.regs := by
  have hbase : Store.BaseIs (st.choice env ip pos) st.trail.length :=
    Store.choice_base hcompact hfits ip pos
  calc ((st.setLoop i n p).restore (st.choice env ip pos)).regs
      = (st.restore (st.choice env ip pos)).regs := Store.restore_regs_congr hbase rfl rfl
    _ = st.regs := by rw [Store.restore_choice hfits]

theorem opRepeatStep_pushes (hcompact : env.compact = true) {loop target next : Nat}
    (hfetch : fetch env.bc vm.ip = some (.repeatStep loop target, next))
    (hfits : (opRepeatStep env loop target { vm with ip := next }).toStore.TrailFits env)
    (hc : (opRepeatStep env loop target { vm with ip := next }).choices = c :: vm.choices) :
    Pushes env c vm (opRepeatStep env loop target { vm with ip := next }) := by
  unfold opRepeatStep at hfits hc ⊢
  by_cases hloop : loop < maxLoops
  · have hgreedy : takesGreedy env loop target { vm with ip := next } =
        takesGreedy env loop target vm := rfl
    rw [if_pos hloop, hgreedy] at hfits hc ⊢
    by_cases htakes : takesGreedy env loop target vm = true
    -- the shortcut saves one choice, behind what it has counted
    · have hpos : pushPos env vm = (greedyExtend env loop target vm).pos - 1 := by
        simp only [pushPos, hfetch, htakes, if_true]
      rw [if_pos htakes] at hfits hc ⊢
      unfold opRepeatGreedy greedyExtend at hfits hc ⊢
      cases hrun : greedyRunEnd env target vm.pos with
      | none =>
        simp only [hrun] at hfits hc ⊢
        split at hc
        · rename_i hlt
          simp only [Vm.pushChoice, List.cons.injEq, and_true] at hc
          subst hc
          rw [if_pos hlt] at hfits ⊢
          refine ⟨?_, rfl, ?_⟩
          · simp only [hpos, greedyExtend, hrun]
            rfl
          · refine Store.restore_setLoop_choice hcompact ?_ ..
            exact hfits
        · simp at hc
      | some runEnd =>
        simp only [hrun] at hfits hc ⊢
        split at hc
        · rename_i hlt
          simp only [Vm.pushChoice, List.cons.injEq, and_true] at hc
          subst hc
          rw [if_pos hlt] at hfits ⊢
          refine ⟨?_, Store.count_regs .., ?_⟩
          · simp only [hpos, greedyExtend, hrun]
            rfl
          · refine (Store.restore_setLoop_choice hcompact ?_ ..).trans (Store.count_regs ..)
            exact hfits
        · simp at hc
    · have hpos : pushPos env vm = vm.pos := by
        simp only [pushPos, hfetch, htakes, if_false, Bool.false_eq_true]
      rw [if_neg htakes] at hfits hc ⊢
      unfold opRepeatIterate at hfits hc ⊢
      simp only at hfits hc ⊢
      split at hc
      · simp at hc
      split at hc
      · split at hc
        · simp at hc
        split at hc
        · simp at hc
        rename_i hmin hmore hmoved hlimit
        simp only [Vm.pushChoice, List.cons.injEq, and_true] at hc
        subst hc
        rw [if_neg hmin, if_pos hmore, if_neg hmoved, if_neg hlimit] at hfits ⊢
        refine ⟨hpos.symm, Store.count_regs .., ?_⟩
        refine (Store.restore_setLoop_choice hcompact ?_ ..).trans (Store.count_regs ..)
        exact hfits
      · simp at hc
  · simp [if_neg hloop] at hc

theorem opRepeatInit_fits {loop min max skip next : Nat}
    (h : (opRepeatInit env loop min max skip { vm with ip := next }).toStore.TrailFits env) :
    vm.toStore.TrailFits env := by
  unfold opRepeatInit at h
  split at h
  · dsimp only at h
    split at h <;> exact h
  · exact h

theorem opBreakx_fits {setId here next : Nat}
    (h : (opBreakx env setId here { vm with ip := next }).toStore.TrailFits env) :
    vm.toStore.TrailFits env := by
  unfold opBreakx at h
  dsimp only at h
  split at h <;> exact h

theorem opBreakx_pushes {setId next : Nat}
    (hfetch : fetch env.bc vm.ip = some (.breakx setId, next)) (hfits : vm.toStore.TrailFits env)
    (hc : (opBreakx env setId vm.ip { vm with ip := next }).choices = c :: vm.choices) :
    Pushes env c vm (opBreakx env setId vm.ip { vm with ip := next }) := by
  unfold opBreakx at hc ⊢
  simp only at hc ⊢
  split at hc
  · rename_i hlt
    simp only [Vm.pushChoice, List.cons.injEq, and_true] at hc
    subst hc
    rw [if_pos hlt]
    refine ⟨?_, rfl, ?_⟩
    · simp only [pushPos, hfetch]
      rfl
    · exact congrArg Store.regs (Store.restore_choice hfits ..)
  · simp at hc

/-- A pop leaves fewer records. -/
theorem Popped.not_push (h : Popped vm vm₁) : vm₁.choices ≠ c :: vm.choices := by
  obtain ⟨c', rest, hchoices, -, -, -, hrest⟩ := h
  intro hc
  have := congrArg List.length hc
  rw [hrest, hchoices] at this
  simp at this
  omega

/-- Every handler that pushes saves the registers it found. -/
theorem vmStep_pushes (hcompact : env.compact = true) (h : vmStep env vm = .running vm₁)
    (hfits : vm₁.toStore.TrailFits env) (hc : vm₁.choices = c :: vm.choices) : Pushes env c vm vm₁ := by
  have hpopped : ∀ vm₂ : Vm W, vm₂.backtrack = .running vm₁ → vm₂.toStore = vm.toStore →
      vm₂.choices = vm.choices → Pushes env c vm vm₁ := by
    intro vm₂ h hstore hchoices
    exact absurd hc (popped_of_backtrack h hstore hchoices).not_push
  unfold vmStep at h
  cases hfetch : fetch env.bc vm.ip with
  | none =>
    simp only [hfetch] at h
    exact hpopped _ h rfl rfl
  | some fetched =>
    obtain ⟨instr, next⟩ := fetched
    simp only [hfetch] at h
    cases instr with
    | prim p =>
      cases hexec : p.exec env vm.pos vm.regs vm.globals with
      | next pos regs undone g =>
        simp only [hexec, Vm.apply] at h
        cases h
        simp at hc
      | fail g =>
        simp only [hexec, Vm.apply] at h
        exact hpopped _ h rfl rfl
      | leave g =>
        simp only [hexec, Vm.apply, Vm.leave] at h
        split at h <;> cases h
    | fail | unknown b => exact hpopped _ h rfl rfl
    | goto label =>
      simp only at h
      split at h
      · cases h
        simp at hc
      · exact hpopped _ h rfl rfl
    | accept | abort | succeed => cases h
    | jmp target =>
      cases h
      simp at hc
    | split a b =>
      cases h
      simp only [Vm.pushChoice, List.cons.injEq, and_true] at hc
      subst hc
      refine ⟨?_, rfl, ?_⟩
      · simp only [pushPos, hfetch]
        rfl
      · refine congrArg Store.regs (Store.restore_choice ?_ ..)
        exact hfits
    | repeatInit loop min max skip =>
      cases h
      exact opRepeatInit_pushes hfetch (opRepeatInit_fits hfits) hc
    | repeatStep loop target =>
      cases h
      exact opRepeatStep_pushes hcompact hfetch hfits hc
    | breakx setId =>
      cases h
      exact opBreakx_pushes hfetch (opBreakx_fits hfits) hc
    | fence =>
      cases h
      simp at hc

end

/-- In a run whose trail stays below 2³² records, `vm_pop_choice` on a record pushed in the run
brings back the position handed to the push and every capture and variable register as the push
found it, whatever the run does in between. -/
theorem vmRun_pop_restores {env : VmEnv W} (hcompact : env.compact = true)
    {start vm vm₁ vm₂ : Vm W} {c : Choice}
    (hfits : ∀ vm, VmReach env start vm → vm.toStore.TrailFits env) (hreach : VmReach env start vm)
    (hpush : vmStep env vm = .running vm₁) (hc : vm₁.choices = c :: vm.choices)
    (habove : Above env c vm.choices vm₁ vm₂) :
    (vm₂.restore c vm.choices).pos = pushPos env vm ∧
      (vm₂.restore c vm.choices).regs = vm.regs := by
  obtain ⟨hpos, -, hregs⟩ := vmStep_pushes hcompact hpush (hfits _ (hreach.step hpush)) hc
  obtain ⟨-, -, hkept⟩ := Above.regs hcompact hfits (hreach.step hpush) hc habove
  exact ⟨hpos, hkept.trans hregs⟩

/-- The code of `@a('a') 'x' | 'ab'`, with the capture in register 0. -/
def captureOrPair : Bytes :=
  [3, 0, 0, 0, 9, 0, 0, 0, 38, 9, 0, 4, 0, 0, 0, 20, 0, 0, 0, 1, 97, 10, 0, 4, 0, 0, 0, 32,
   0, 0, 0, 1, 120, 2, 0, 0, 0, 49, 4, 0, 0, 0, 47, 0, 0, 0, 2, 97, 98, 0, 0, 0, 0, 0, 0, 0, 0,
   83, 78, 66, 76]

/-- The run on "ab" after `n` turns. -/
def captureOrPairAt : Nat → Vm Unit
  | 0 => vmRunStart (.zero ⟨[], ()⟩)
  | n + 1 => (vmStep (VmEnv.ofCode captureOrPair [0x61, 0x62] .bare) (captureOrPairAt n)).vm

/-- On "ab" the capture is closed when 'x' fails, and the pop undoes it. -/
theorem vmRun_pop_restores_capture :
    (captureOrPairAt 4).regs.capEnd 0 = 1 ∧
      ((captureOrPairAt 4).restore ⟨38, 0, 0, 0, 0, .trailBase 0⟩ []).pos = 0 ∧
      ((captureOrPairAt 4).restore ⟨38, 0, 0, 0, 0, .trailBase 0⟩ []).regs.capEnd 0 = 0 := by
  let env := VmEnv.ofCode captureOrPair [0x61, 0x62] .bare
  have hpush : vmStep env (captureOrPairAt 0) = .running (captureOrPairAt 1) :=
    StepResult.eq_running (by decide +kernel)
  have hstart : vmStep env (captureOrPairAt 1) = .running (captureOrPairAt 2) :=
    StepResult.eq_running (by decide +kernel)
  have hlit : vmStep env (captureOrPairAt 2) = .running (captureOrPairAt 3) :=
    StepResult.eq_running (by decide +kernel)
  have hend : vmStep env (captureOrPairAt 3) = .running (captureOrPairAt 4) :=
    StepResult.eq_running (by decide +kernel)
  have habove : Above env ⟨38, 0, 0, 0, 0, .trailBase 0⟩ [] (captureOrPairAt 1)
      (captureOrPairAt 4) :=
    .step (.step (.step .refl hstart ⟨[], rfl⟩) hlit ⟨[], rfl⟩) hend ⟨[], rfl⟩
  have hend : vmSteps env 7 (vmRunStart (.zero ⟨[], ()⟩)) = .halted true _ :=
    StepResult.eq_halted (by decide +kernel)
  have hrestores := vmRun_pop_restores rfl (VmReach.trailFits hend (by decide +kernel)) .start hpush
    rfl habove
  refine ⟨by decide +kernel, hrestores.1, ?_⟩
  exact congrArg (fun regs : Regs => regs.capEnd 0) hrestores.2

end Snobol4
