import Snobol4.SearchCaptures
import Snobol4.VmModes

/-!
# NotedRun — where compact and legacy choice records agree

A pop on a trail record brings back every register that the branch has written with an undo
record, a pop on a snapshot the captures and loops that were in use at the push.  A run with trail
records that notes what the branches wrote tells which registers a snapshot may not have brought
back alike; where no instruction reads such a register, the two modes agree.
-/

namespace Snobol4

variable {W : Type} {p : Nat}

/-! ## What the two records bring back -/

/-- Poison in the registers that are marked. -/
def poisonAt (p : Nat) (marked : Nat → Bool) (f : Nat → Nat) : Nat → Nat :=
  fun i => if marked i then p else f i

/-- The loops that a pop of `c` may not bring back alike: those in use at the push that the branch
set without an undo record (`lost`), and the others that it counted. -/
def lostLoops (c : Choice) (lost : Nat → Bool) (log : List UndoRecord) : Nat → Bool :=
  fun i => if i < c.maxCounterUsed then lost i else log.any (·.ofLoop i)

/-- The VM after a pop of `c`, with poison in the registers that the two kinds of records may not
bring back alike: the loops, the captures not in use at the push and the variables that the branch
has written. -/
def Vm.forget (p : Nat) (c : Choice) (lost : Nat → Bool) (log : List UndoRecord) (vm : Vm W) :
    Vm W :=
  { vm with
    regs :=
      { vm.regs with
        capStart :=
          poisonAt p (fun r => decide (c.maxCapUsed ≤ r) && log.any (·.ofStart r)) vm.regs.capStart
        capEnd :=
          poisonAt p (fun r => decide (c.maxCapUsed ≤ r) && log.any (·.ofEnd r)) vm.regs.capEnd
        varStart := poisonAt p (fun v => log.any (·.ofVar v)) vm.regs.varStart
        varEnd := poisonAt p (fun v => log.any (·.ofVar v)) vm.regs.varEnd }
    counters := poisonAt p (lostLoops c lost log) vm.counters
    loopLastPos := poisonAt p (lostLoops c lost log) vm.loopLastPos }

/-- The VM, and for each choice record the loops that the branch behind it set first without an
undo record. -/
structure Noted (W : Type) where
  vm : Vm W
  lost : List (Nat → Bool)

/-- Note the loops that are set, for the records whose branch has not counted them. -/
def noteLost (st : Store) (sets : Nat → Bool) (choices : List Choice) (lost : List (Nat → Bool)) :
    List (Nat → Bool) :=
  List.zipWith (fun c lost i => lost i || (sets i && !(st.branchLog c).any (·.ofLoop i))) choices
    lost

/-- The notes after a turn that leads to `vm'`. -/
def Noted.follow (env : VmEnv W) (p : Nat) (w : Noted W) (vm' : Vm W) : Noted W :=
  if cutsChoices env w.vm.ip then ⟨vm', []⟩
  else if vm'.choices.length < w.vm.choices.length then
    match w.vm.choices, w.lost with
    | c :: _, lost :: rest =>
        let log := w.vm.toStore.branchLog c
        ⟨vm'.forget p c lost log, noteLost vm'.toStore (lostLoops c lost log) vm'.choices rest⟩
    | _, _ => ⟨vm', []⟩
  else
    let lost :=
      if w.vm.choices.length < vm'.choices.length then (fun _ => false) :: w.lost else w.lost
    ⟨vm', noteLost vm'.toStore (setsLoop env w.vm) vm'.choices lost⟩

/-- One turn with trail records. -/
def Noted.Step (env : VmEnv W) (p : Nat) (w w' : Noted W) : Prop :=
  ∃ vm', vmStep (env.mode true) w.vm = .running vm' ∧ w' = w.follow env p vm'

/-- The states of the run with trail records and notes. -/
def NotedReach (env : VmEnv W) (p : Nat) (start : Vm W) : Noted W → Prop :=
  Relation.ReflTransGen (Noted.Step env p) ⟨vmRunStart start, []⟩

/-- The run with trail records and notes ends in state `final`. -/
def NotedRun (env : VmEnv W) (p : Nat) (start : Vm W) (ok : Bool) (final : Vm W) : Prop :=
  ∃ w vm', NotedReach env p start w ∧ vmStep (env.mode true) w.vm = .halted ok vm' ∧
    final = (w.follow env p vm').vm

/-! ## What a snapshot keeps of a record -/

namespace Store

/-- Two stores with the same bounds of capture `r`. -/
def SameCapture (r : Nat) (st st' : Store) : Prop :=
  st.regs.capStart r = st'.regs.capStart r ∧ st.regs.capEnd r = st'.regs.capEnd r

theorem SameCapture.undo {r : Nat} {st st' : Store} (h : SameCapture r st st') (e : UndoRecord) :
    SameCapture r (st.undo e) (st'.undo e) := by
  have hupdate : ∀ {f g : Nat → Nat} (k x : Nat), f r = g r →
      Function.update f k x r = Function.update g k x r := by
    intro f g k x hfg
    by_cases heq : r = k
    · rw [heq, Function.update_self, Function.update_self]
    · rw [Function.update_of_ne heq, Function.update_of_ne heq, hfg]
  cases e with
  | counterDec loop count lastPos =>
    simp only [Store.undo]
    split
    · exact h
    · exact h
  | capWrite reg sub start stop =>
    simp only [Store.undo]
    split
    · split
      · exact ⟨hupdate reg start h.1, h.2⟩
      split
      · exact ⟨h.1, hupdate reg stop h.2⟩
      · exact ⟨hupdate reg start h.1, hupdate reg stop h.2⟩
    · exact h
  | varWrite var start stop =>
    simp only [Store.undo]
    split
    · exact h
    · exact h

theorem SameCapture.replay {r : Nat} {st st' : Store} (h : SameCapture r st st') (base : Nat)
    (trail : List UndoRecord) : SameCapture r (replay base trail st) (replay base trail st') := by
  induction trail generalizing st st' with
  | nil => exact h
  | cons e trail ih =>
    rw [Store.replay, Store.replay]
    split
    · exact ih (h.undo e)
    · exact h

theorem SameCapture.restore {r : Nat} {st st' : Store} (h : SameCapture r st st')
    (htrail : st.trail = st'.trail) {c : Choice} {base : Nat} (hc : BaseIs c base) :
    SameCapture r (st.restore c) (st'.restore c) := by
  have hscalars : SameCapture r (st.withScalars c) (st'.withScalars c) := h
  rw [restore_trailBase hc, restore_trailBase hc, htrail]
  exact hscalars.replay base st'.trail

end Store

/-- The snapshot holds what a pop of the trail record brings back: the captures in use, and the
loops in use that are not noted as lost. -/
structure RecordKept (st : Store) (c c' : Choice) (lost : Nat → Bool) : Prop where
  saved : ∃ capStart capEnd counters loopLastPos,
    c'.saved = .snapshot capStart capEnd counters loopLastPos ∧
      (∀ r < c.maxCapUsed, (st.restore c).regs.capStart r = capStart r ∧
        (st.restore c).regs.capEnd r = capEnd r) ∧
      ∀ i < c.maxCounterUsed, lost i = false →
        (st.restore c).loop i = (counters i, loopLastPos i)

/-- So it is for every record of the stack; fewer captures were in use at an older push. -/
inductive SnapshotsKept (st : Store) :
    Nat → List Choice → List Choice → List (Nat → Bool) → Prop where
  | nil (n : Nat) : SnapshotsKept st n [] [] []
  | cons {n : Nat} {c c' : Choice} {cs cs' : List Choice} {lost : Nat → Bool}
      {ls : List (Nat → Bool)} (h : RecordKept st c c' lost) (hle : c.maxCapUsed ≤ n)
      (hrest : SnapshotsKept st c.maxCapUsed cs cs' ls) :
      SnapshotsKept st n (c :: cs) (c' :: cs') (lost :: ls)

namespace SnapshotsKept

variable {st st' : Store} {n n' : Nat} {cs cs' : List Choice} {ls : List (Nat → Bool)}

theorem max_le (h : SnapshotsKept st n cs cs' ls) {c : Choice} (hc : c ∈ cs) :
    c.maxCapUsed ≤ n := by
  induction h with
  | nil => cases hc
  | cons _ hle _ ih =>
    obtain rfl | hc := List.mem_cons.mp hc
    · exact hle
    · exact (ih hc).trans hle

/-- A turn keeps the records that stay, with the loops noted that it sets. -/
theorem carry (h : SnapshotsKept st n cs cs' ls) (hle : n ≤ n') (sets : Nat → Bool)
    (hcaps : ∀ c ∈ cs, ∀ r < c.maxCapUsed, Store.SameCapture r (st'.restore c) (st.restore c))
    (hloops : ∀ c ∈ cs, ∀ i,
      (sets i = true → (st'.branchLog c).any (·.ofLoop i) = true) →
        (st'.restore c).loop i = (st.restore c).loop i) :
    SnapshotsKept st' n' cs cs' (noteLost st' sets cs ls) := by
  induction h generalizing n' with
  | nil => exact .nil n'
  | @cons n c c' cs cs' lost ls h hmax hrest ih =>
    refine .cons ⟨?_⟩ (hmax.trans hle) (ih le_rfl (fun c hc => hcaps c (List.mem_cons_of_mem _ hc))
      fun c hc => hloops c (List.mem_cons_of_mem _ hc))
    obtain ⟨capStart, capEnd, counters, loopLastPos, hsaved, hkept, hkept'⟩ := h.saved
    refine ⟨capStart, capEnd, counters, loopLastPos, hsaved, fun r hr => ?_, fun i hi hlost => ?_⟩
    · obtain ⟨hstart, hend⟩ := hcaps c List.mem_cons_self r hr
      exact ⟨hstart.trans (hkept r hr).1, hend.trans (hkept r hr).2⟩
    · rw [Bool.or_eq_false_iff] at hlost
      refine (hloops c List.mem_cons_self i fun hsets => ?_).trans (hkept' i hi hlost.1)
      have hlog := hlost.2
      rw [hsets, Bool.true_and, Bool.not_eq_false'] at hlog
      exact hlog

end SnapshotsKept

/-! ## The noted run and a run with snapshots -/

/-- The noted run in step with a run with snapshots, in which the same registers are poisoned. -/
structure Tracked (w : Noted W) (u : Vm W) : Prop where
  inStep : w.vm.InStep u
  stacked : Stacked w.vm.choices w.vm.trail.length
  kept : SnapshotsKept w.vm.toStore w.vm.regs.maxCapUsed w.vm.choices u.choices w.lost

section

variable {env : VmEnv W} {w : Noted W} {vm vm' u u' : Vm W}

/-- The snapshot of the record that a turn pushes. -/
theorem recordKept_of_pushed {sets : Nat → Bool} {st st' : Store} {ip pos ip' pos' : Nat}
    (hsync : vm.InStep vm') (hregs : st'.regs = vm'.regs)
    (hloop : ∀ i, sets i = false → st'.loop i = vm'.toStore.loop i)
    (hbase : Store.BaseIs (st.choice (env.mode true) ip pos) vm.trail.length)
    (hrestore : (vm.toStore.restore (st.choice (env.mode true) ip pos)).regs = vm.regs) :
    RecordKept vm.toStore (st.choice (env.mode true) ip pos) (st'.choice (env.mode false) ip' pos')
      fun i => false || (sets i &&
        !(vm.toStore.branchLog (st.choice (env.mode true) ip pos)).any (·.ofLoop i)) := by
  refine ⟨st'.regs.capStart, st'.regs.capEnd, st'.counters, st'.loopLastPos, rfl, ?_, ?_⟩
  · intro r _
    rw [hrestore, hregs, hsync.regs]
    exact ⟨rfl, rfl⟩
  · intro i _ hlost
    have hlog := Store.branchLog_nil hbase
    simp only [hlog, List.any_nil, Bool.not_false, Bool.and_true, Bool.false_or] at hlost
    have hsame : vm.toStore.loop i = vm'.toStore.loop i := by
      rw [Store.loop, Store.loop, hsync.counters, hsync.loopLastPos]
    calc (vm.toStore.restore (st.choice (env.mode true) ip pos)).loop i
        = vm.toStore.loop i := by rw [Store.restore_loop hbase, hlog, Store.undoLoop]
      _ = vm'.toStore.loop i := hsame
      _ = st'.loop i := (hloop i hlost).symm

/-- Off the poison, a pop of the trail record and one of the snapshot bring back the same. -/
theorem RecordKept.forget {st st' : Store} {c c' : Choice} {lost : Nat → Bool} {base : Nat}
    (h : RecordKept st c c' lost) (hbase : Store.BaseIs c base) (hsame : c.SameCursor c')
    (hregs : st.regs = st'.regs) (hloop : st.loop = st'.loop) (p : Nat) (v v' : Vm W)
    (hv : v.toStore = st.restore c) (hv' : v'.toStore = st'.restore c') :
    (v.forget p c lost (st.branchLog c)).regs.capStart =
        (v'.forget p c lost (st.branchLog c)).regs.capStart ∧
      (v.forget p c lost (st.branchLog c)).regs.capEnd =
        (v'.forget p c lost (st.branchLog c)).regs.capEnd ∧
      (v.forget p c lost (st.branchLog c)).regs.varStart =
        (v'.forget p c lost (st.branchLog c)).regs.varStart ∧
      (v.forget p c lost (st.branchLog c)).regs.varEnd =
        (v'.forget p c lost (st.branchLog c)).regs.varEnd ∧
      (v.forget p c lost (st.branchLog c)).toStore.loop =
        (v'.forget p c lost (st.branchLog c)).toStore.loop := by
  obtain ⟨capStart, capEnd, counters, loopLastPos, hsaved, hcaps, hloops⟩ := h.saved
  have hpoison : ∀ (marked : Nat → Bool) (f g : Nat → Nat), (∀ i, marked i = false → f i = g i) →
      poisonAt p marked f = poisonAt p marked g := by
    intro marked f g hfg
    funext i
    unfold poisonAt
    split
    · rfl
    · rename_i hmarked
      exact hfg i (Bool.not_eq_true _ ▸ hmarked)
  have huntouched := fun i => Store.replay_untouched base st.trail (st.withScalars c) i
  rw [← Store.branchLog_eq hbase, ← Store.restore_trailBase hbase] at huntouched
  have hcap : ∀ (i : Nat) {q : Bool}, (decide (c.maxCapUsed ≤ i) && q) = false →
      i < c.maxCapUsed ∨ q = false := by
    intro i q hq
    rw [Bool.and_eq_false_iff, decide_eq_false_iff_not, Nat.not_le] at hq
    exact hq
  have hlost : ∀ i, lostLoops c lost (st.branchLog c) i = false →
      v.toStore.loop i = v'.toStore.loop i := by
    intro i hi
    have hv'loop : v'.toStore.loop i =
        (Store.restoreBelow c'.maxCounterUsed counters st'.counters i,
          Store.restoreBelow c'.maxCounterUsed loopLastPos st'.loopLastPos i) := by
      rw [hv', Store.loop]
      simp only [Store.restore, hsaved]
    rw [hv'loop, hv, Store.restoreBelow, Store.restoreBelow, ← hsame.maxCounterUsed]
    rw [lostLoops] at hi
    split at hi
    · rename_i hlt
      rw [if_pos hlt, if_pos hlt, hloops i hlt hi]
    · rename_i hlt
      rw [if_neg hlt, if_neg hlt, Store.restore_loop hbase, Store.undoLoop_of_none hi, hloop]
      rfl
  have hvregs : v.regs = (st.restore c).regs := congrArg Store.regs hv
  have hv'start : v'.regs.capStart =
      Store.restoreBelow c'.maxCapUsed capStart st'.regs.capStart := by
    rw [show v'.regs = (st'.restore c').regs from congrArg Store.regs hv']
    simp only [Store.restore, hsaved]
  have hv'end : v'.regs.capEnd = Store.restoreBelow c'.maxCapUsed capEnd st'.regs.capEnd := by
    rw [show v'.regs = (st'.restore c').regs from congrArg Store.regs hv']
    simp only [Store.restore, hsaved]
  have hv'vars : v'.regs.varStart = st'.regs.varStart ∧ v'.regs.varEnd = st'.regs.varEnd := by
    rw [show v'.regs = (st'.restore c').regs from congrArg Store.regs hv']
    constructor
    · simp only [Store.restore, hsaved]
    · simp only [Store.restore, hsaved]
  refine ⟨hpoison _ _ _ fun i hi => ?_, hpoison _ _ _ fun i hi => ?_, hpoison _ _ _ fun i hi => ?_,
    hpoison _ _ _ fun i hi => ?_, funext fun i => ?_⟩
  · rw [hv'start, Store.restoreBelow, ← hsame.maxCapUsed, ← hregs, hvregs]
    by_cases hlt : i < c.maxCapUsed
    · rw [if_pos hlt, (hcaps i hlt).1]
    · rw [if_neg hlt]
      exact (huntouched i).1 ((hcap i hi).resolve_left hlt)
  · rw [hv'end, Store.restoreBelow, ← hsame.maxCapUsed, ← hregs, hvregs]
    by_cases hlt : i < c.maxCapUsed
    · rw [if_pos hlt, (hcaps i hlt).2]
    · rw [if_neg hlt]
      exact (huntouched i).2.1 ((hcap i hi).resolve_left hlt)
  · rw [hv'vars.1, ← hregs, hvregs]
    exact ((huntouched i).2.2 hi).1
  · rw [hv'vars.2, ← hregs, hvregs]
    exact ((huntouched i).2.2 hi).2
  · show (poisonAt p _ v.counters i, poisonAt p _ v.loopLastPos i) =
      (poisonAt p _ v'.counters i, poisonAt p _ v'.loopLastPos i)
    unfold poisonAt
    split
    · rfl
    · rename_i hmarked
      exact hlost i (Bool.not_eq_true _ ▸ hmarked)

theorem Vm.Alike.forget (h : u.Alike u') (p : Nat) (c : Choice) (lost : Nat → Bool)
    (log : List UndoRecord) : (u.forget p c lost log).Alike (u'.forget p c lost log) :=
  ⟨h.ip, h.pos, h.varCount, h.maxCapUsed, h.maxCounterUsed, h.loopMin, h.loopMax, h.loopSpanGreedy,
    h.globals, h.inGotoFail, h.abortFlag, h.choices⟩

namespace Tracked

/-- A turn that pops nothing. -/
theorem forward (h : Tracked w u) (hstep : vmStep (env.mode true) w.vm = .running vm)
    (hstep' : vmStep (env.mode false) u = .running u') (hsync : vm.InStep u')
    (hcuts : cutsChoices env w.vm.ip = false) (hlen : w.vm.choices.length ≤ vm.choices.length)
    (hfits : vm.toStore.TrailFits (env.mode true)) (p : Nat) : Tracked (w.follow env p vm) u' := by
  have hcompact : (env.mode true).compact = true := rfl
  have hstacked := vmStep_stacked hcompact hstep hfits h.stacked
  have hmax := maxCapUsed_le_step hcompact hstep hfits hlen
  have hforward : Forward (env.mode true) w.vm vm := forward_of_length hstep hcuts hlen
  have hforward' : Forward (env.mode false) u u' := by
    refine forward_of_length hstep' ?_ ?_
    · rw [← h.inStep.alike.ip]
      exact hcuts
    · rw [← h.inStep.length_choices, ← hsync.length_choices]
      exact hlen
  have hsets : setsLoop (env.mode false) u = setsLoop env w.vm := by
    unfold setsLoop
    rw [← h.inStep.alike.ip]
    rfl
  -- the records that stay
  have hkept : SnapshotsKept vm.toStore vm.regs.maxCapUsed w.vm.choices u.choices
      (noteLost vm.toStore (setsLoop env w.vm) w.vm.choices w.lost) := by
    refine h.kept.carry hmax _ (fun c hc r _ => ?_) fun c hc i hlog => ?_
    · have hregs := restore_of_not_popped hcompact hstep hfits h.stacked hlen hc
      rw [Store.SameCapture, hregs]
      exact ⟨rfl, rfl⟩
    · obtain ⟨above, rest, habove⟩ := List.append_of_mem hc
      obtain ⟨base, hbase, hle⟩ := Stacked.mem (habove ▸ h.stacked)
      exact (hforward.loops rfl i).restore hbase hle hlog
  unfold Noted.follow
  rw [hcuts, if_neg Bool.false_ne_true, if_neg (Nat.not_lt.mpr hlen)]
  obtain hsame | ⟨st, ip, pos, hpush, hregs, htrail, -⟩ := hforward.saves
  · obtain hsame' | ⟨st', ip', pos', hpush', -, -, -⟩ := hforward'.saves
    · rw [if_neg (by rw [hsame]; exact Nat.lt_irrefl _)]
      refine ⟨hsync, hstacked, ?_⟩
      rw [← hsame, ← hsame'] at hkept
      exact hkept
    · have hcount := hsync.length_choices
      rw [hsame, hpush', List.length_cons, h.inStep.length_choices] at hcount
      omega
  · obtain hsame' | ⟨st', ip', pos', hpush', hregs', -, hloop'⟩ := hforward'.saves
    · have hcount := hsync.length_choices
      rw [hpush, hsame', List.length_cons, h.inStep.length_choices] at hcount
      omega
    · rw [if_pos (by rw [hpush]; exact Nat.lt_succ_self _)]
      refine ⟨hsync, hstacked, ?_⟩
      have hpushes := vmStep_pushes hcompact hstep hfits hpush
      have hbase : Store.BaseIs (st.choice (env.mode true) ip pos) vm.trail.length := by
        have hfits' : st.TrailFits (env.mode true) := by
          rw [Store.TrailFits, htrail]
          exact hfits
        rw [← htrail]
        exact Store.choice_base hcompact hfits' ip pos
      have hmaxEq : (st.choice (env.mode true) ip pos).maxCapUsed = vm.regs.maxCapUsed :=
        congrArg Regs.maxCapUsed hregs
      show SnapshotsKept vm.toStore vm.regs.maxCapUsed vm.choices u'.choices
        (noteLost vm.toStore (setsLoop env w.vm) vm.choices ((fun _ => false) :: w.lost))
      rw [hpush, hpush']
      refine .cons (recordKept_of_pushed hsync hregs' ?_ hbase
        (hpushes.restore.trans hpushes.regs.symm)) hmaxEq.le ?_
      · rw [← hsets]
        exact hloop'
      · rw [hmaxEq]
        exact hkept

/-- A turn that drops the records. -/
theorem cut (hsync : vm.InStep u') (hcuts : cutsChoices env w.vm.ip = true)
    (hnil : vm.choices = []) (p : Nat) : Tracked (w.follow env p vm) u' := by
  unfold Noted.follow
  rw [hcuts, if_pos rfl]
  have hnil' : u'.choices = [] := by
    have hcount := hsync.length_choices
    rw [hnil] at hcount
    exact List.length_eq_zero_iff.mp hcount.symm
  refine ⟨hsync, ?_, ?_⟩
  · show Stacked vm.choices _
    rw [hnil]
    exact .nil _
  · show SnapshotsKept _ _ vm.choices u'.choices []
    rw [hnil, hnil']
    exact .nil _

/-- A turn that pops the newest record. -/
theorem pop (h : Tracked w u) (p : Nat) {v v' : Vm W} {c c' : Choice} {rest rest' : List Choice}
    (hcuts : cutsChoices env w.vm.ip = false) (hsync : v.InStep v')
    (hstore : v.toStore = w.vm.toStore) (hstore' : v'.toStore = u.toStore)
    (hc : w.vm.choices = c :: rest) (hc' : u.choices = c' :: rest') :
    ∃ lost log, (w.follow env p (v.restore c rest)).vm = (v.restore c rest).forget p c lost log ∧
      Tracked (w.follow env p (v.restore c rest)) ((v'.restore c' rest').forget p c lost log) := by
  have hkept := h.kept
  have hstacked := h.stacked
  have hchoices := h.inStep.alike.choices
  rw [hc, hc'] at hkept hchoices
  rw [hc] at hstacked
  cases hstacked with
  | @cons _ _ base _ hbase hle hrest =>
  cases hchoices with
  | cons hsame hcs =>
  generalize hls : w.lost = ls at hkept
  cases hkept with
  | @cons _ _ _ _ _ lost ls hrecord hmax hkept =>
  obtain ⟨capStart, capEnd, counters, loopLastPos, hsaved, hcaps, hloops⟩ := hrecord.saved
  have hfollow : w.follow env p (v.restore c rest) =
      ⟨(v.restore c rest).forget p c lost (w.vm.toStore.branchLog c),
        noteLost (v.restore c rest).toStore (lostLoops c lost (w.vm.toStore.branchLog c)) rest
          ls⟩ := by
    have hlt : (v.restore c rest).choices.length < w.vm.choices.length := by
      rw [hc]
      exact Nat.lt_succ_self _
    unfold Noted.follow
    rw [hcuts, if_neg Bool.false_ne_true, if_pos hlt]
    simp only [hc, hls]
    rfl
  refine ⟨lost, w.vm.toStore.branchLog c, by rw [hfollow], ?_⟩
  rw [hfollow]
  have hR : (v.restore c rest).toStore = w.vm.toStore.restore c := by
    rw [← hstore]
    rfl
  have hR' : (v'.restore c' rest').toStore = u.toStore.restore c' := by
    rw [← hstore']
    rfl
  refine ⟨?_, ?_, ?_⟩
  · have hloop : w.vm.toStore.loop = u.toStore.loop := by
      funext i
      rw [Store.loop, Store.loop, h.inStep.counters, h.inStep.loopLastPos]
    obtain ⟨hstart, hend, hvarStart, hvarEnd, hloops⟩ :=
      hrecord.forget hbase hsame h.inStep.regs hloop p _ _ hR hR'
    exact ((hsync.restore hsame hcs).forget p c lost _).inStep hstart hend hvarStart hvarEnd hloops
  · show Stacked rest (v.restore c rest).toStore.trail.length
    have hlen : (v.restore c rest).toStore.trail.length = base := by
      rw [hR, Store.restore_trail, Store.cutTrail, hbase, List.length_drop]
      omega
    rw [hlen]
    exact hrest
  · have hmaxEq : c.maxCapUsed = (v.restore c rest).regs.maxCapUsed := by
      rw [show (v.restore c rest).regs = (w.vm.toStore.restore c).regs from congrArg Store.regs hR]
      exact (Store.restore_scalars c w.vm.toStore).2.1.symm
    have hbelow : ∀ d ∈ rest, ∃ base', Store.BaseIs d base' ∧
        (v.restore c rest).toStore.restore d = w.vm.toStore.restore d := by
      intro d hd
      obtain ⟨above, below, rfl⟩ := List.append_of_mem hd
      obtain ⟨base', hbase', hle'⟩ := hrest.mem
      exact ⟨base', hbase', by rw [hR, Store.restore_restore hbase' hbase hle']⟩
    refine hkept.carry hmaxEq.le _ (fun d hd r hr => ?_) fun d hd i hlog => ?_
    · obtain ⟨base', hbase', hsameStore⟩ := hbelow d hd
      have hlt : r < c.maxCapUsed := hr.trans_le (hkept.max_le hd)
      have hcapture : Store.SameCapture r
          ((v.restore c rest).forget p c lost (w.vm.toStore.branchLog c)).toStore
          (v.restore c rest).toStore := by
        constructor
        · simp [Vm.forget, poisonAt, Nat.not_le.mpr hlt]
        · simp [Vm.forget, poisonAt, Nat.not_le.mpr hlt]
      rw [← hsameStore]
      exact hcapture.restore rfl hbase'
    · obtain ⟨base', hbase', hsameStore⟩ := hbelow d hd
      rw [← hsameStore, Store.restore_loop hbase', Store.restore_loop hbase']
      cases hsets : lostLoops c lost (w.vm.toStore.branchLog c) i with
      | true => exact Store.undoLoop_of_any (hlog hsets)
      | false =>
        refine congrArg _ ?_
        show (poisonAt p _ _ i, poisonAt p _ _ i) = _
        rw [poisonAt, poisonAt, hsets]
        rfl

end Tracked

/-! ## The runs above the noted run -/

theorem poisonAt_below {f g : Nat → Nat} (h : ∀ i, Below p (f i) (g i)) (marked : Nat → Bool)
    (i : Nat) : Below p (poisonAt p marked f i) (g i) := by
  unfold poisonAt
  split
  · exact .inl rfl
  · exact h i

theorem poisonAt_countBelow {f g : Nat → Nat} (h : ∀ i, CountBelow (some p) (f i) (g i))
    (marked : Nat → Bool) (i : Nat) : CountBelow (some p) (poisonAt p marked f i) (g i) := by
  unfold poisonAt
  split
  · exact .inl rfl
  · exact h i

/-- The VM lies below `v`: it is `v` with poison in some registers. -/
abbrev Vm.Under (p : Nat) (vm v : Vm W) : Prop := vm.Below p (some p) (fun _ => false) v

/-- Poisoned further, a VM stays below. -/
theorem Vm.Below.forget {v : Vm W} (h : vm.Under p v) (c : Choice) (lost : Nat → Bool)
    (log : List UndoRecord) : (vm.forget p c lost log).Under p v :=
  { h with
    store :=
      { h.store with
        regs :=
          { h.store.regs with
            capStart := poisonAt_below h.store.regs.capStart _
            capEnd := poisonAt_below h.store.regs.capEnd _
            varStart := poisonAt_below h.store.regs.varStart _
            varEnd := poisonAt_below h.store.regs.varEnd _ }
        counters := poisonAt_countBelow h.store.counters _
        loopLastPos := poisonAt_below h.store.loopLastPos _ } }

/-- The next instruction reads no poison. -/
structure ReadsAgreed (env : VmEnv W) (p : Nat) (vm : Vm W) : Prop where
  written : ReadsWritten env p (fun _ => false) vm
  counts : CountsWritten env (some p) vm

theorem ReadsAgreed.mode {env : VmEnv W} {vm : Vm W} (h : ReadsAgreed env p vm)
    (compact : Bool) : ReadsAgreed (env.mode compact) p vm :=
  ⟨⟨h.written.captures, h.written.loops⟩, h.counts⟩

theorem ReadsAgreed.inStep {env : VmEnv W} {vm vm' : Vm W} (h : ReadsAgreed env p vm)
    (hsync : vm.InStep vm') : ReadsAgreed env p vm' := by
  cases hsync with
  | mk => exact ⟨⟨h.written.captures, h.written.loops⟩, h.counts⟩

theorem Noted.follow_vm
    (hlen : cutsChoices env w.vm.ip = true ∨ w.vm.choices.length ≤ vm.choices.length) :
    (w.follow env p vm).vm = vm := by
  unfold follow
  split
  · rfl
  · rename_i hcuts
    rw [if_neg (Nat.not_lt.mpr (hlen.resolve_left hcuts))]

theorem Noted.follow_trail (env : VmEnv W) (p : Nat) (w : Noted W) (vm : Vm W) :
    (w.follow env p vm).vm.trail = vm.trail := by
  unfold follow
  split
  · rfl
  split
  · split <;> rfl
  · rfl

/-- What a turn of the noted run and of the two runs above it leads to. -/
inductive TurnAbove (env : VmEnv W) (p : Nat) (w : Noted W) (v v' : Vm W) : Prop where
  | running {vm u v₁ v₁' : Vm W} (hstep : vmStep (env.mode true) w.vm = .running vm)
      (hv : vmStep (env.mode true) v = .running v₁)
      (hv' : vmStep (env.mode false) v' = .running v₁') (htracks : Tracked (w.follow env p vm) u)
      (hbelow : (w.follow env p vm).vm.Under p v₁) (hbelow' : u.Under p v₁')
  | halted (ok : Bool) {vm u v₁ v₁' : Vm W} (hstep : vmStep (env.mode true) w.vm = .halted ok vm)
      (hv : vmStep (env.mode true) v = .halted ok v₁)
      (hv' : vmStep (env.mode false) v' = .halted ok v₁')
      (hsync : (w.follow env p vm).vm.InStep u) (hbelow : (w.follow env p vm).vm.Under p v₁)
      (hbelow' : u.Under p v₁')

/-- One turn that reads no poison. -/
theorem Tracked.turn {v v' : Vm W} (h : Tracked w u) (hbelow : w.vm.Under p v)
    (hbelow' : u.Under p v') (hreads : ReadsAgreed env p w.vm)
    (hfits : ∀ vm, vmStep (env.mode true) w.vm = .running vm →
      vm.toStore.TrailFits (env.mode true)) : TurnAbove env p w v v' := by
  have hturn := h.inStep.step env
  have hread' := (hreads.inStep h.inStep).mode false
  have hup := hbelow.step (hreads.mode true).written (hreads.mode true).counts
  have hup' := hbelow'.step hread'.written hread'.counts
  generalize hr : vmStep (env.mode true) w.vm = r at hturn hup
  generalize hr' : vmStep (env.mode false) u = r' at hturn hup'
  generalize hs : vmStep (env.mode true) v = s at hup
  generalize hs' : vmStep (env.mode false) v' = s' at hup'
  cases hturn with
  | running hsync hlen =>
    cases hup with
    | running hu =>
    cases hup' with
    | running hu' =>
    obtain ⟨hcuts, hnil⟩ | ⟨hcuts, hlen⟩ := hlen
    · refine .running hr hs hs' (.cut hsync hcuts hnil p) ?_ hu'
      rw [Noted.follow_vm (.inl hcuts)]
      exact hu
    · refine .running hr hs hs' (h.forward hr hr' hsync hcuts hlen (hfits _ hr) p) ?_ hu'
      rw [Noted.follow_vm (.inr hlen)]
      exact hu
  | halted ok hsync hlen =>
    cases hup with
    | halted _ hu =>
    cases hup' with
    | halted _ hu' =>
    refine .halted ok hr hs hs' (u := _) ?_ ?_ hu'
    · rw [Noted.follow_vm hlen]
      exact hsync
    · rw [Noted.follow_vm hlen]
      exact hu
  | popped hcuts hsync hstore hc hc' hstore' =>
    cases hup with
    | running hu =>
    cases hup' with
    | running hu' =>
    obtain ⟨lost, log, hvm, htracks⟩ := h.pop p hcuts hsync hstore hstore' hc hc'
    refine .running hr hs hs' htracks ?_ (hu'.forget _ lost log)
    rw [hvm]
    exact hu.forget _ lost log
  | left hcuts hsync hstore hc hc' hstore' =>
    cases hup with
    | halted _ hu =>
    cases hup' with
    | halted _ hu' =>
    obtain ⟨lost, log, hvm, htracks⟩ := h.pop p hcuts hsync hstore hstore' hc hc'
    refine .halted false hr hs hs' htracks.inStep ?_ (hu'.forget _ lost log)
    rw [hvm]
    exact hu.forget _ lost log

end

/-- `vm_run` ends in both modes with the same success, position, output and registers in
use, or in neither. -/
structure SameRun (env : VmEnv W) (start : Vm W) : Prop where
  compact : ∀ ok final, VmRun (env.mode true) start ok final →
    ∃ final', VmRun (env.mode false) start ok final' ∧ SameReport final final' ∧
      final.globals = final'.globals
  legacy : ∀ ok final', VmRun (env.mode false) start ok final' →
    ∃ final, VmRun (env.mode true) start ok final ∧ SameReport final final' ∧
      final.globals = final'.globals

theorem Vm.below_refl {vm : Vm W} (h : vm.trail = []) (h' : vm.choices = []) :
    vm.Below p (some p) (fun _ => false) vm where
  store :=
    { regs :=
        { capStart := fun _ => .refl _
          capEnd := fun _ => .refl _
          varStart := fun _ => .refl _
          varEnd := fun _ => .refl _
          varCount := rfl
          maxCapUsed := rfl }
      counters := fun _ => .refl _
      loopLastPos := fun _ => .refl _
      maxCounterUsed := rfl
      trail := h ▸ .nil }
  ip := rfl
  pos := rfl
  globals := rfl
  inGotoFail := rfl
  abortFlag := rfl
  loopMin _ := .refl _
  loopMax _ := .refl _
  flag _ hi := hi
  flagged _ hi := .inl hi
  choices := h' ▸ .nil

/-- As long as the noted run reads no poison, the two modes take the same turns above it. -/
theorem noted_steps {env : VmEnv W} {start : Vm W}
    (hlog : ∀ w, NotedReach env p start w → w.vm.trail.length < 2 ^ 32)
    (hreads : ∀ w, NotedReach env p start w → ReadsAgreed env p w.vm) (n : Nat) :
    (∃ w u v v', NotedReach env p start w ∧ Tracked w u ∧ w.vm.Under p v ∧ u.Under p v' ∧
      vmSteps (env.mode true) n (vmRunStart start) = .running v ∧
        vmSteps (env.mode false) n (vmRunStart start) = .running v') ∨
    ∃ ok final u v v', NotedRun env p start ok final ∧ final.InStep u ∧ final.Under p v ∧
      u.Under p v' ∧ vmSteps (env.mode true) n (vmRunStart start) = .halted ok v ∧
        vmSteps (env.mode false) n (vmRunStart start) = .halted ok v' := by
  induction n with
  | zero =>
    have hstart : (vmRunStart start).Under p (vmRunStart start) := Vm.below_refl rfl rfl
    exact .inl ⟨⟨vmRunStart start, []⟩, vmRunStart start, _, _, .refl,
      ⟨.mk (vmRunStart start) [] .nil, .nil _, .nil _⟩, hstart, hstart, rfl, rfl⟩
  | succ n ih =>
    obtain ⟨w, u, v, v', hreach, htracks, hbelow, hbelow', hv, hv'⟩ |
      ⟨ok, final, u, v, v', hrun, hsync, hbelow, hbelow', hv, hv'⟩ := ih
    · have hturn := htracks.turn hbelow hbelow' (hreads w hreach) fun vm hstep _ => by
        rw [← w.follow_trail env p vm]
        exact hlog _ (.tail hreach ⟨vm, hstep, rfl⟩)
      cases hturn with
      | running hstep hs hs' htracks hbelow hbelow' =>
        refine .inl ⟨_, _, _, _, .tail hreach ⟨_, hstep, rfl⟩, htracks, hbelow, hbelow', ?_, ?_⟩
        · rw [vmSteps_add hv]
          exact vmSteps_running hs 0
        · rw [vmSteps_add hv']
          exact vmSteps_running hs' 0
      | halted ok hstep hs hs' hsync hbelow hbelow' =>
        refine .inr ⟨ok, _, _, _, _, ⟨w, _, hreach, hstep, rfl⟩, hsync, hbelow, hbelow', ?_, ?_⟩
        · rw [vmSteps_add hv]
          exact vmSteps_last hs 0
        · rw [vmSteps_add hv']
          exact vmSteps_last hs' 0
    · exact .inr ⟨ok, final, u, v, v', hrun, hsync, hbelow, hbelow', vmSteps_halted hv 1,
        vmSteps_halted hv' 1⟩

/-- Where the noted run reads no poison, the two modes end after the same number of turns, above
the end of that run. -/
theorem noted_ends {env : VmEnv W} {start : Vm W}
    (hlog : ∀ w, NotedReach env p start w → w.vm.trail.length < 2 ^ 32)
    (hreads : ∀ w, NotedReach env p start w → ReadsAgreed env p w.vm)
    (hreports : ∀ ok final, NotedRun env p start ok final → ReportsWritten p final) {n : Nat}
    {ok : Bool} {final : Vm W} {compact : Bool}
    (hn : vmSteps (env.mode compact) n (vmRunStart start) = .halted ok final) :
    ∃ ok' final₁ final₂, vmSteps (env.mode true) n (vmRunStart start) = .halted ok' final₁ ∧
      vmSteps (env.mode false) n (vmRunStart start) = .halted ok' final₂ ∧
      SameReport final₁ final₂ ∧ final₁.globals = final₂.globals := by
  obtain ⟨w, u, v, v', -, -, -, -, hv, hv'⟩ |
    ⟨ok', end', u, v, v', hrun, hsync, hbelow, hbelow', hv, hv'⟩ := noted_steps hlog hreads n
  · -- a mode does not end while the noted run goes on
    cases compact with
    | true =>
      rw [hn] at hv
      cases hv
    | false =>
      rw [hn] at hv'
      cases hv'
  · refine ⟨ok', v, v', hv, hv', ?_, ?_⟩
    · exact hbelow.sameReport hbelow' hsync.alike.pos hsync.regs (hreports ok' end' hrun)
    · exact hbelow.globals.symm.trans (hsync.alike.globals.trans hbelow'.globals)

/-- The two modes agree where the undo log stays below 2³² records and no instruction reads, and no
report holds, a register that a pop may not have brought back alike since it was last written. -/
theorem vmRun_modes_agree (env : VmEnv W) (start : Vm W) (p : Nat)
    (hlog : ∀ w, NotedReach env p start w → w.vm.trail.length < 2 ^ 32)
    (hreads : ∀ w, NotedReach env p start w → ReadsAgreed env p w.vm)
    (hreports : ∀ ok final, NotedRun env p start ok final → ReportsWritten p final) :
    SameRun env start := by
  constructor
  · rintro ok final ⟨n, hn⟩
    obtain ⟨_, final₁, final₂, h₁, h₂, hsame⟩ := noted_ends hlog hreads hreports hn
    rw [hn] at h₁
    cases h₁
    exact ⟨final₂, ⟨n, h₂⟩, hsame⟩
  · rintro ok final' ⟨n, hn⟩
    obtain ⟨_, final₁, final₂, h₁, h₂, hsame⟩ := noted_ends hlog hreads hreports hn
    rw [hn] at h₂
    cases h₂
    exact ⟨final₁, ⟨n, h₁⟩, hsame⟩

/-! ## A variable that the abandoned branch has overwritten -/

/-- The noted state after `n` turns. -/
def notedSteps (env : VmEnv W) (p : Nat) : Nat → Noted W → Noted W
  | 0, w => w
  | n + 1, w =>
      match vmStep (env.mode true) w.vm with
      | .running vm => notedSteps env p n (w.follow env p vm)
      | .halted _ _ => w

section

variable {env : VmEnv W} {start : Vm W} {w : Noted W}

theorem NotedReach.exists_steps (h : NotedReach env p start w) :
    ∃ n, notedSteps env p n ⟨vmRunStart start, []⟩ = w := by
  suffices hgen : ∀ w₀ : Noted W, Relation.ReflTransGen (Noted.Step env p) w₀ w →
      ∃ n, notedSteps env p n w₀ = w from hgen _ h
  intro w₀ h
  induction h using Relation.ReflTransGen.head_induction_on with
  | refl => exact ⟨0, rfl⟩
  | head hstep _ ih =>
    obtain ⟨vm, hstep, rfl⟩ := hstep
    obtain ⟨n, hn⟩ := ih
    refine ⟨n + 1, ?_⟩
    rw [notedSteps, hstep]
    exact hn

/-- The end of the noted run, as a test. -/
def Noted.isLast (env : VmEnv W) (w : Noted W) : Bool := !(vmStep (env.mode true) w.vm).isRunning

theorem notedSteps_last (h : w.isLast env = true) (n : Nat) : notedSteps env p n w = w := by
  cases n with
  | zero => rfl
  | succ n =>
    rw [notedSteps]
    cases hstep : vmStep (env.mode true) w.vm with
    | running vm => simp [Noted.isLast, hstep, StepResult.isRunning] at h
    | halted ok vm => rfl

theorem notedSteps_add (n m : Nat) (w : Noted W) :
    notedSteps env p (n + m) w = notedSteps env p m (notedSteps env p n w) := by
  induction n generalizing w with
  | zero => rw [Nat.zero_add, notedSteps]
  | succ n ih =>
    rw [Nat.add_right_comm, notedSteps, notedSteps]
    cases hstep : vmStep (env.mode true) w.vm with
    | running vm => exact ih _
    | halted ok vm =>
      exact (notedSteps_last (by simp [Noted.isLast, hstep, StepResult.isRunning]) m).symm

/-- The states of a noted run that ends after `n` turns. -/
theorem NotedReach.mem_steps {n : Nat}
    (hend : (notedSteps env p n ⟨vmRunStart start, []⟩).isLast env = true)
    (h : NotedReach env p start w) : ∃ m ≤ n, w = notedSteps env p m ⟨vmRunStart start, []⟩ := by
  obtain ⟨m, rfl⟩ := h.exists_steps
  by_cases hle : m ≤ n
  · exact ⟨m, hle, rfl⟩
  · refine ⟨n, le_rfl, ?_⟩
    rw [← Nat.add_sub_of_le (Nat.le_of_not_le hle), notedSteps_add, notedSteps_last hend]

end

/-- The end of a noted run. -/
theorem NotedRun.eq_last {env : VmEnv W} {start final : Vm W} {ok : Bool} {n : Nat}
    (hend : (notedSteps env p n ⟨vmRunStart start, []⟩).isLast env = true)
    (h : NotedRun env p start ok final) :
    final = ((notedSteps env p n ⟨vmRunStart start, []⟩).follow env p
      (vmStep (env.mode true) (notedSteps env p n ⟨vmRunStart start, []⟩).vm).vm).vm := by
  obtain ⟨w, vm', hreach, hstep, rfl⟩ := h
  obtain ⟨m, hm, rfl⟩ := hreach.mem_steps hend
  have hlast : (notedSteps env p m ⟨vmRunStart start, []⟩).isLast env = true := by
    rw [Noted.isLast, hstep]
    rfl
  rw [← Nat.add_sub_of_le hm, notedSteps_add, notedSteps_last hlast, hstep]
  rfl

/-- `ReadsAgreed` as a test. -/
def readsAgreed (env : VmEnv W) (p : Nat) (vm : Vm W) : Bool :=
  readsWritten env p (fun _ => false) vm &&
    match fetch env.bc vm.ip with
    | some (.repeatStep id _, _) => vm.counters id != p
    | _ => true

theorem ReadsAgreed.of_readsAgreed {env : VmEnv W} {vm : Vm W} (h : readsAgreed env p vm = true) :
    ReadsAgreed env p vm := by
  unfold readsAgreed at h
  rw [Bool.and_eq_true] at h
  refine ⟨.of_readsWritten h.1, ?_⟩
  intro loop target next hfetch _ heq
  have hcount := h.2
  rw [hfetch] at hcount
  simp only [bne_iff_ne, ne_eq] at hcount
  exact hcount (Option.some.inj heq)

/-- `ARBNO(@r0('a') 'x' | @r0('ab')) 'c'` -/
def captureInLoop : Bytes :=
  [15, 0, 0, 0, 0, 0, 255, 255, 255, 255, 0, 0, 0, 73, 3, 0, 0, 0, 23, 0, 0, 0, 52, 9, 0, 4, 0, 0,
    0, 34, 0, 0, 0, 1, 97, 10, 0, 4, 0, 0, 0, 46, 0, 0, 0, 1, 120, 2, 0, 0, 0, 67, 9, 0, 4, 0, 0,
    0, 63, 0, 0, 0, 2, 97, 98, 10, 0, 16, 0, 0, 0, 0, 14, 4, 0, 0, 0, 82, 0, 0, 0, 1, 99, 0,
    0, 0, 0, 0, 0, 0, 0, 0, 83, 78, 66, 76]

/-- The run of it over "ababc". -/
def captureInLoopEnv : VmEnv Unit := .ofCode captureInLoop [0x61, 0x62, 0x61, 0x62, 0x63] .bare

/-- Each abandoned branch leaves variable 0 behind in legacy mode, and the next one writes it
anew. -/
theorem vmRun_modes_agree_captureInLoop :
    compileAstToBytecodeC .caseSensitive
        (.concat [.arbno (.alt (.concat [.cap 0 (.literal [0x61]), .literal [0x78]])
          (.cap 0 (.literal [0x61, 0x62]))), .literal [0x63]]) = some captureInLoop ∧
      SameRun captureInLoopEnv (.zero ⟨[], ()⟩) := by
  refine ⟨by decide +kernel, ?_⟩
  have hlast : (notedSteps captureInLoopEnv 100 25 ⟨vmRunStart (.zero ⟨[], ()⟩), []⟩).isLast
      captureInLoopEnv = true := by
    decide +kernel
  have hall : ∀ m < 26,
      (notedSteps captureInLoopEnv 100 m ⟨vmRunStart (.zero ⟨[], ()⟩), []⟩).vm.trail.length < 100 ∧
        readsAgreed captureInLoopEnv 100
          (notedSteps captureInLoopEnv 100 m ⟨vmRunStart (.zero ⟨[], ()⟩), []⟩).vm = true := by
    decide +kernel
  refine vmRun_modes_agree captureInLoopEnv _ 100 ?_ ?_ ?_
  · intro w hw
    obtain ⟨m, hm, rfl⟩ := hw.mem_steps hlast
    exact (hall m (Nat.lt_succ_of_le hm)).1.trans (by decide)
  · intro w hw
    obtain ⟨m, hm, rfl⟩ := hw.mem_steps hlast
    exact .of_readsAgreed (hall m (Nat.lt_succ_of_le hm)).2
  · intro ok final hfinal
    rw [hfinal.eq_last hlast]
    exact ⟨by decide +kernel, by decide +kernel⟩

/-- A run with the code `bc` over "abc". -/
def overAbc (bc : Bytes) : VmEnv Unit := .ofCode bc [0x61, 0x62, 0x63] .bare

/-- `@r0('a') (@r0('b') 'x' | 'bc')` -/
def recapture : Bytes :=
  [9, 0, 4, 0, 0, 0, 11, 0, 0, 0, 1, 97, 10, 0, 3, 0, 0, 0, 23, 0, 0, 0, 52, 9, 0, 4, 0, 0, 0, 34,
    0, 0, 0, 1, 98, 10, 0, 4, 0, 0, 0, 46, 0, 0, 0, 1, 120, 2, 0, 0, 0, 63, 4, 0, 0, 0, 61, 0, 0,
    0, 2, 98, 99, 0, 0, 0, 0, 0, 0, 0, 0, 0, 83, 78, 66, 76]

/-- Over "abc" the compact mode reports "a" as variable 0 and the legacy mode "b", the
capture of the abandoned branch. -/
theorem vmRun_modes_differ :
    compileAstToBytecodeC .caseSensitive
        (.concat [.cap 0 (.literal [0x61]),
          .alt (.concat [.cap 0 (.literal [0x62]), .literal [0x78]]) (.literal [0x62, 0x63])])
        = some recapture ∧
      ¬SameRun (overAbc recapture) (.zero ⟨[], ()⟩) := by
  refine ⟨by decide +kernel, ?_⟩
  intro h
  have hcompact : vmSteps ((overAbc recapture).mode true) 10 (vmRunStart (.zero ⟨[], ()⟩)) =
      .halted true (vmSteps ((overAbc recapture).mode true) 10
        (vmRunStart (.zero ⟨[], ()⟩))).vm :=
    StepResult.eq_halted (by decide +kernel)
  have hlegacy : vmSteps ((overAbc recapture).mode false) 10 (vmRunStart (.zero ⟨[], ()⟩)) =
      .halted true (vmSteps ((overAbc recapture).mode false) 10
        (vmRunStart (.zero ⟨[], ()⟩))).vm :=
    StepResult.eq_halted (by decide +kernel)
  obtain ⟨final', hfinal', hsame, -⟩ := h.compact true _ ⟨10, hcompact⟩
  obtain ⟨-, rfl⟩ := VmRun.unique hfinal' ⟨10, hlegacy⟩
  have hend := (hsame.vars 0 (by decide +kernel)).2
  revert hend
  decide +kernel

end Snobol4
