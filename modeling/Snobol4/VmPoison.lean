import Mathlib.Data.List.Forall2
import Snobol4.SearchLoop
import Snobol4.VmStore

/-!
# VmPoison — runs that read only what they wrote

The search reuses the VM: the registers of an attempt hold what earlier attempts left
there.  A run on poisoned registers shows which of them matter.  As long as it reads no
poison, every run from other initial registers does the same, and ends with the same
values in all registers that the poisoned run has written.
-/

namespace Snobol4

variable {W : Type} {p : Nat} {cp : Option Nat}

/-- The value `x` is poison, or it is the value `y`. -/
def Below (p x y : Nat) : Prop := x = p ∨ x = y

theorem Below.refl (x : Nat) : Below p x x := .inr rfl

/-- A value that is not poison is the value of the other run. -/
theorem Below.eq {x y : Nat} (h : Below p x y) (hx : x ≠ p) : x = y := h.resolve_left hx

/-- The counter `x` is poison, where counters can be poisoned, or it is the counter `y`. -/
def CountBelow (cp : Option Nat) (x y : Nat) : Prop := some x = cp ∨ x = y

theorem CountBelow.refl (x : Nat) : CountBelow cp x x := .inr rfl

theorem CountBelow.eq {x y : Nat} (h : CountBelow cp x y) (hx : some x ≠ cp) : x = y :=
  h.resolve_left hx

theorem update_rel {R : Nat → Nat → Prop} {f g : Nat → Nat} (h : ∀ i, R (f i) (g i)) {x y : Nat}
    (hxy : R x y) (k i : Nat) : R (Function.update f k x i) (Function.update g k y i) := by
  by_cases hik : i = k
  · rw [hik, Function.update_self, Function.update_self]
    exact hxy
  · rw [Function.update_of_ne hik, Function.update_of_ne hik]
    exact h i

theorem restoreBelow_rel {R : Nat → Nat → Prop} {f g f' g' : Nat → Nat} (h : ∀ i, R (f i) (g i))
    (h' : ∀ i, R (f' i) (g' i)) (used i : Nat) :
    R (Store.restoreBelow used f f' i) (Store.restoreBelow used g g' i) := by
  unfold Store.restoreBelow
  split
  · exact h i
  · exact h' i

/-! ## Registers, records and stores -/

structure Regs.Below (p : Nat) (r r' : Regs) : Prop where
  capStart : ∀ i, Snobol4.Below p (r.capStart i) (r'.capStart i)
  capEnd : ∀ i, Snobol4.Below p (r.capEnd i) (r'.capEnd i)
  varStart : ∀ i, Snobol4.Below p (r.varStart i) (r'.varStart i)
  varEnd : ∀ i, Snobol4.Below p (r.varEnd i) (r'.varEnd i)
  varCount : r.varCount = r'.varCount
  maxCapUsed : r.maxCapUsed = r'.maxCapUsed

inductive UndoRecord.Below (p : Nat) (cp : Option Nat) : UndoRecord → UndoRecord → Prop where
  | counterDec (loop : Nat) {count count' last last' : Nat} (h : CountBelow cp count count')
      (h' : Snobol4.Below p last last') :
      Below p cp (.counterDec loop count last) (.counterDec loop count' last')
  | capWrite (reg sub : Nat) {start start' stop stop' : Nat} (h : Snobol4.Below p start start')
      (h' : Snobol4.Below p stop stop') :
      Below p cp (.capWrite reg sub start stop) (.capWrite reg sub start' stop')
  | varWrite (var : Nat) {start start' stop stop' : Nat} (h : Snobol4.Below p start start')
      (h' : Snobol4.Below p stop stop') :
      Below p cp (.varWrite var start stop) (.varWrite var start' stop')

structure Store.Below (p : Nat) (cp : Option Nat) (st st' : Store) : Prop where
  regs : st.regs.Below p st'.regs
  counters : ∀ i, CountBelow cp (st.counters i) (st'.counters i)
  loopLastPos : ∀ i, Snobol4.Below p (st.loopLastPos i) (st'.loopLastPos i)
  maxCounterUsed : st.maxCounterUsed = st'.maxCounterUsed
  trail : List.Forall₂ (UndoRecord.Below p cp) st.trail st'.trail

inductive Saved.Below (p : Nat) (cp : Option Nat) : Saved → Saved → Prop where
  | trailBase (base : Nat) : Below p cp (.trailBase base) (.trailBase base)
  | snapshot {capStart capStart' capEnd capEnd' counters counters' loopLastPos loopLastPos' : Nat → Nat}
      (hstart : ∀ i, Snobol4.Below p (capStart i) (capStart' i))
      (hend : ∀ i, Snobol4.Below p (capEnd i) (capEnd' i))
      (hcount : ∀ i, CountBelow cp (counters i) (counters' i))
      (hlast : ∀ i, Snobol4.Below p (loopLastPos i) (loopLastPos' i)) :
      Below p cp (.snapshot capStart capEnd counters loopLastPos)
        (.snapshot capStart' capEnd' counters' loopLastPos')

structure Choice.Below (p : Nat) (cp : Option Nat) (c c' : Choice) : Prop where
  ip : c.ip = c'.ip
  pos : c.pos = c'.pos
  varCount : c.varCount = c'.varCount
  maxCapUsed : c.maxCapUsed = c'.maxCapUsed
  maxCounterUsed : c.maxCounterUsed = c'.maxCounterUsed
  saved : c.saved.Below p cp c'.saved

namespace Store.Below

variable {st st' : Store}

theorem withTrail (h : st.Below p cp st') {trail trail' : List UndoRecord}
    (htrail : List.Forall₂ (UndoRecord.Below p cp) trail trail') :
    Store.Below p cp { st with trail } { st' with trail := trail' } :=
  { h with trail := htrail }

theorem setLoop (h : st.Below p cp st') (i : Nat) {n n' last last' : Nat}
    (hn : CountBelow cp n n')
    (hlast : Snobol4.Below p last last') :
    (st.setLoop i n last).Below p cp (st'.setLoop i n' last') :=
  { h with
    counters := update_rel h.counters hn i
    loopLastPos := update_rel h.loopLastPos hlast i }

theorem record (h : st.Below p cp st') (env : VmEnv W) {undo undo' : List UndoRecord}
    (hundo : List.Forall₂ (UndoRecord.Below p cp) undo undo') :
    (st.record env undo).Below p cp (st'.record env undo') := by
  unfold Store.record
  split
  · exact h.withTrail (List.rel_append hundo h.trail)
  · exact h

theorem count (h : st.Below p cp st') (env : VmEnv W) (i n : Nat) :
    (st.count env i n).Below p cp (st'.count env i n) :=
  (h.setLoop i (.refl n) (h.loopLastPos i)).record env
    (.cons (.counterDec i (h.counters i) (h.loopLastPos i)) .nil)

theorem undo (h : st.Below p cp st') {e e' : UndoRecord} (he : e.Below p cp e') :
    (st.undo e).Below p cp (st'.undo e') := by
  cases he with
  | counterDec i hcount hlast =>
    simp only [Store.undo]
    split
    · exact h.setLoop i hcount hlast
    · exact h
  | capWrite reg sub hstart hend =>
    simp only [Store.undo]
    split
    · split
      · exact { h with regs := { h.regs with capStart := update_rel h.regs.capStart hstart reg } }
      split
      · exact { h with regs := { h.regs with capEnd := update_rel h.regs.capEnd hend reg } }
      · exact
          { h with
            regs :=
              { h.regs with
                capStart := update_rel h.regs.capStart hstart reg
                capEnd := update_rel h.regs.capEnd hend reg } }
    · exact h
  | varWrite var hstart hend =>
    simp only [Store.undo]
    split
    · exact
        { h with
          regs :=
            { h.regs with
              varStart := update_rel h.regs.varStart hstart var
              varEnd := update_rel h.regs.varEnd hend var } }
    · exact h

theorem replay (h : st.Below p cp st') {trail trail' : List UndoRecord}
    (htrail : List.Forall₂ (UndoRecord.Below p cp) trail trail') (base : Nat) :
    (Store.replay base trail st).Below p cp (Store.replay base trail' st') := by
  induction htrail generalizing st st' with
  | nil => exact h.withTrail .nil
  | cons he hrest ih =>
    simp only [Store.replay, hrest.length_eq]
    split
    · exact ih (h.undo he)
    · exact h.withTrail (.cons he hrest)

theorem restore (h : st.Below p cp st') {c c' : Choice} (hc : c.Below p cp c') :
    (st.restore c).Below p cp (st'.restore c') := by
  have hscalars : (st.withScalars c).Below p cp (st'.withScalars c') :=
    { h with
      regs :=
        { h.regs with
          varCount := hc.varCount
          maxCapUsed := hc.maxCapUsed }
      maxCounterUsed := hc.maxCounterUsed }
  have hsaved := hc.saved
  cases hcs : c.saved with
  | trailBase base =>
    rw [hcs] at hsaved
    cases hcs' : c'.saved with
    | trailBase base' =>
      rw [hcs'] at hsaved
      cases hsaved
      rw [restore_trailBase hcs, restore_trailBase hcs']
      exact hscalars.replay h.trail base
    | snapshot => rw [hcs'] at hsaved; cases hsaved
  | snapshot capStart capEnd counters loopLastPos =>
    rw [hcs] at hsaved
    cases hcs' : c'.saved with
    | trailBase base' => rw [hcs'] at hsaved; cases hsaved
    | snapshot capStart' capEnd' counters' loopLastPos' =>
      rw [hcs'] at hsaved
      cases hsaved with
      | snapshot hstart hend hcount hlast =>
      simp only [Store.restore, hcs, hcs', hc.maxCapUsed, hc.maxCounterUsed]
      exact
        { regs :=
            { capStart := restoreBelow_rel hstart h.regs.capStart _
              capEnd := restoreBelow_rel hend h.regs.capEnd _
              varStart := h.regs.varStart
              varEnd := h.regs.varEnd
              varCount := hc.varCount
              maxCapUsed := rfl }
          counters := restoreBelow_rel hcount h.counters _
          loopLastPos := restoreBelow_rel hlast h.loopLastPos _
          maxCounterUsed := rfl
          trail := h.trail }

theorem choice (h : st.Below p cp st') (env : VmEnv W) (ip pos : Nat) :
    (st.choice env ip pos).Below p cp (st'.choice env ip pos) where
  ip := rfl
  pos := rfl
  varCount := h.regs.varCount
  maxCapUsed := h.regs.maxCapUsed
  maxCounterUsed := h.maxCounterUsed
  saved := by
    simp only [Store.choice, h.trail.length_eq]
    split
    · exact .trailBase _
    · exact .snapshot h.regs.capStart h.regs.capEnd h.counters h.loopLastPos

end Store.Below

/-! ## The handlers -/

/-- The capture registers whose start an instruction reads. -/
def Prim.startReads : Prim → List Nat
  | .capEnd r => [r]
  | .assign _ r => [r]
  | .eval _ r => [r]
  | .emitCapture r => [r]
  | .tableGet _ key _ => [key]
  | .tableSet _ key value => [key, value]
  | _ => []

/-- The capture registers whose end an instruction reads. -/
def Prim.endReads : Prim → List Nat
  | .capEnd _ => []
  | q => q.startReads

/-- An instruction that reads no poison. -/
def Prim.ReadsWritten (p : Nat) (q : Prim) (regs : Regs) : Prop :=
  (∀ r ∈ q.startReads, r < maxCaps → regs.capStart r ≠ p) ∧
    ∀ r ∈ q.endReads, r < maxCaps → regs.capEnd r ≠ p

/-- The outcomes differ in poison only. -/
inductive PrimResult.Below (p : Nat) (cp : Option Nat) : PrimResult W → PrimResult W → Prop where
  | next (pos : Nat) {regs regs' : Regs} {undo undo' : List UndoRecord} (g : Globals W)
      (hregs : regs.Below p regs') (hundo : List.Forall₂ (UndoRecord.Below p cp) undo undo') :
      Below p cp (.next pos regs undo g) (.next pos regs' undo' g)
  | fail (g : Globals W) : Below p cp (.fail g) (.fail g)
  | leave (g : Globals W) : Below p cp (.leave g) (.leave g)

section

variable {regs regs' : Regs}

theorem PrimResult.Below.moveTo (h : regs.Below p regs') (g : Globals W) (target : Option Nat) :
    (moveTo regs g target).Below p cp (moveTo regs' g target) := by
  cases target with
  | none => exact .fail g
  | some pos => exact .next pos g h .nil

theorem PrimResult.Below.capStart (h : regs.Below p regs') (g : Globals W) (r pos : Nat) :
    (writeRegs pos g (opCapStart r pos regs)).Below p cp
      (writeRegs pos g (opCapStart r pos regs')) := by
  unfold opCapStart
  split
  · refine .next pos g ?_ (.cons (.capWrite r 0 (h.capStart r) (h.capEnd r)) .nil)
    exact
      { h with
        capStart := update_rel h.capStart (.refl pos) r
        maxCapUsed := by simp only [h.maxCapUsed] }
  · exact .next pos g h .nil

theorem PrimResult.Below.capEnd (h : regs.Below p regs') (g : Globals W) (r pos : Nat)
    (hstart : r < maxCaps → regs.capStart r ≠ p) :
    (writeRegs pos g (opCapEnd r pos regs)).Below p cp (writeRegs pos g (opCapEnd r pos regs')) := by
  unfold opCapEnd
  split
  · rename_i hr
    have heq : regs.capStart r = regs'.capStart r := (h.capStart r).eq (hstart hr)
    refine .next pos g ?_ (.cons (.varWrite r (h.varStart r) (h.varEnd r))
      (.cons (.capWrite r 1 (h.capStart r) (h.capEnd r)) .nil))
    exact
      { capStart := h.capStart
        capEnd := update_rel h.capEnd (.refl pos) r
        varStart := update_rel h.varStart (.inr heq) r
        varEnd := update_rel h.varEnd (.refl pos) r
        varCount := by simp only [h.varCount]
        maxCapUsed := by simp only [h.maxCapUsed] }
  · exact .next pos g h .nil

theorem PrimResult.Below.assign (h : regs.Below p regs') (g : Globals W) (var r pos : Nat)
    (hstart : r < maxCaps → regs.capStart r ≠ p) (hend : r < maxCaps → regs.capEnd r ≠ p) :
    (writeRegs pos g (opAssign var r regs)).Below p cp
      (writeRegs pos g (opAssign var r regs')) := by
  unfold opAssign
  split
  · rename_i hr
    refine .next pos g ?_ (.cons (.varWrite var (h.varStart var) (h.varEnd var)) .nil)
    exact
      { h with
        varStart := update_rel h.varStart (.inr ((h.capStart r).eq (hstart hr.2))) var
        varEnd := update_rel h.varEnd (.inr ((h.capEnd r).eq (hend hr.2))) var
        varCount := by simp only [h.varCount] }
  · exact .next pos g h .nil

theorem keyText_eq (h : regs.Below p regs') (s : Bytes) {r : Nat}
    (hstart : r < maxCaps → regs.capStart r ≠ p) (hend : r < maxCaps → regs.capEnd r ≠ p) :
    keyText s regs r = keyText s regs' r := by
  unfold keyText
  by_cases hr : r < maxCaps
  · rw [(h.capStart r).eq (hstart hr), (h.capEnd r).eq (hend hr)]
  · rw [if_pos (.inl (by omega)), if_pos (.inl (by omega))]

/-- An instruction that reads no poison does the same in the other run. -/
theorem Prim.exec_below (env : VmEnv W) (q : Prim) (pos : Nat) (g : Globals W)
    (h : regs.Below p regs') (hreads : q.ReadsWritten p regs) :
    (q.exec env pos regs g).Below p cp (q.exec env pos regs' g) := by
  obtain ⟨hstart, hend⟩ := hreads
  cases q with
  | nop | label => exact .next pos g h .nil
  | emitLiteral => exact .next pos _ h .nil
  | rem => exact .next _ g h .nil
  | lit | set | count | anchor => exact .moveTo h g _
  | capStart r => exact .capStart h g r pos
  | capEnd r => exact .capEnd h g r pos (hstart r (by simp [startReads]))
  | assign var r =>
    exact .assign h g var r pos (hstart r (by simp [startReads]))
      (hend r (by simp [endReads, startReads]))
  | eval fn r =>
    simp only [exec, opEval]
    by_cases hr : maxCaps ≤ r
    · rw [if_pos hr, if_pos hr]
      exact .fail g
    have hs := (h.capStart r).eq (hstart r (by simp [startReads]) (by omega))
    have he := (h.capEnd r).eq (hend r (by simp [endReads, startReads]) (by omega))
    rw [if_neg hr, if_neg hr, ← hs, ← he]
    split
    · split
      · exact .next pos _ h .nil
      · exact .fail _
    · exact .fail g
  | emitCapture r =>
    simp only [exec, opEmitCapture]
    by_cases hr : r < maxCaps
    · have hs := (h.capStart r).eq (hstart r (by simp [startReads]) hr)
      have he := (h.capEnd r).eq (hend r (by simp [endReads, startReads]) hr)
      rw [← hs, ← he]
      split
      · exact .next pos _ h .nil
      · exact .next pos g h .nil
    · rw [if_neg (by simp [hr]), if_neg (by simp [hr])]
      exact .next pos g h .nil
  | tableGet table key name =>
    have hkey := keyText_eq h env.s (hstart key (by simp [startReads]))
      (hend key (by simp [endReads, startReads]))
    simp only [exec, opTableGet, ← hkey]
    split
    · exact .leave g
    split
    · exact .leave g
    split
    · exact .leave g
    · exact .next pos g h .nil
  | tableSet table key value =>
    have hkey := keyText_eq h env.s (hstart key (by simp [startReads]))
      (hend key (by simp [endReads, startReads]))
    have hvalue := keyText_eq h env.s (hstart value (by simp [startReads]))
      (hend value (by simp [endReads, startReads]))
    simp only [exec, opTableSet, ← hkey, ← hvalue]
    split
    · exact .leave g
    split
    · exact .leave g
    split
    · exact .leave g
    split
    · exact .leave g
    · exact .next pos _ h .nil
  | bal openCp closeCp =>
    simp only [exec, opBal]
    split
    · exact .leave g
    split
    · exact .moveTo h g _
    · exact .leave g

end

/-! ## The loop of `vm_run` -/

/-- Two runs whose registers differ where the first holds poison.  The second may have
greedy flags from earlier attempts, on the loops in `flagged`. -/
structure Vm.Below (p : Nat) (cp : Option Nat) (flagged : Nat → Bool) (vm vm' : Vm W) : Prop where
  store : vm.toStore.Below p cp vm'.toStore
  ip : vm.ip = vm'.ip
  pos : vm.pos = vm'.pos
  globals : vm.globals = vm'.globals
  inGotoFail : vm.inGotoFail = vm'.inGotoFail
  abortFlag : vm.abortFlag = vm'.abortFlag
  loopMin : ∀ i, Snobol4.Below p (vm.loopMin i) (vm'.loopMin i)
  loopMax : ∀ i, Snobol4.Below p (vm.loopMax i) (vm'.loopMax i)
  flag : ∀ i, vm.loopSpanGreedy i = true → vm'.loopSpanGreedy i = true
  flagged : ∀ i, vm'.loopSpanGreedy i = true → vm.loopSpanGreedy i = true ∨ flagged i = true
  choices : List.Forall₂ (Choice.Below p cp) vm.choices vm'.choices

/-- The next instruction reads no poison, and a loop that is flagged takes the
shortcut. -/
structure ReadsWritten (env : VmEnv W) (p : Nat) (flagged : Nat → Bool) (vm : Vm W) : Prop where
  captures : ∀ q next, fetch env.bc vm.ip = some (.prim q, next) → q.ReadsWritten p vm.regs
  loops : ∀ loop target next, fetch env.bc vm.ip = some (.repeatStep loop target, next) →
    loop < maxLoops →
      vm.loopMin loop ≠ p ∧ vm.loopMax loop ≠ p ∧ vm.loopLastPos loop ≠ p ∧
        (flagged loop = true → takesGreedy env loop target vm = true)

/-- The next instruction reads no poisoned counter. -/
def CountsWritten (env : VmEnv W) (cp : Option Nat) (vm : Vm W) : Prop :=
  ∀ loop target next, fetch env.bc vm.ip = some (.repeatStep loop target, next) →
    loop < maxLoops → some (vm.counters loop) ≠ cp

/-- Counters without poison. -/
theorem CountsWritten.none (env : VmEnv W) (vm : Vm W) : CountsWritten env none vm :=
  fun _ _ _ _ _ h => nomatch h

/-- The outcomes of a turn differ in poison only. -/
inductive StepResult.Below (p : Nat) (cp : Option Nat) (flagged : Nat → Bool) :
    StepResult W → StepResult W → Prop where
  | running {vm vm' : Vm W} (h : vm.Below p cp flagged vm') :
      Below p cp flagged (.running vm) (.running vm')
  | halted (ok : Bool) {vm vm' : Vm W} (h : vm.Below p cp flagged vm') :
      Below p cp flagged (.halted ok vm) (.halted ok vm')

namespace Vm.Below

variable {env : VmEnv W} {flagged : Nat → Bool} {vm vm' : Vm W}

theorem withStore (h : vm.Below p cp flagged vm') {st st' : Store} (hst : st.Below p cp st')
    (ip pos : Nat) (globals : Globals W) :
    Vm.Below p cp flagged { vm with toStore := st, ip, pos, globals }
      { vm' with toStore := st', ip, pos, globals } :=
  { h with store := hst, ip := rfl, pos := rfl, globals := rfl }

theorem goto (h : vm.Below p cp flagged vm') (ip : Nat) :
    Vm.Below p cp flagged { vm with ip } { vm' with ip } :=
  { h with ip := rfl }

theorem pushChoice (h : vm.Below p cp flagged vm') (env : VmEnv W) (ip : Nat) {pos pos' : Nat}
    (hpos : pos = pos') :
    (vm.pushChoice env ip pos).Below p cp flagged (vm'.pushChoice env ip pos') := by
  subst hpos
  exact { h with choices := .cons (h.store.choice env ip pos) h.choices }

theorem restore (h : vm.Below p cp flagged vm') {c c' : Choice} (hc : c.Below p cp c')
    {cs cs' : List Choice} (hcs : List.Forall₂ (Choice.Below p cp) cs cs') :
    (vm.restore c cs).Below p cp flagged (vm'.restore c' cs') :=
  { h with
    store := h.store.restore hc
    ip := hc.ip
    pos := hc.pos
    choices := hcs }

theorem backtrack (h : vm.Below p cp flagged vm') :
    vm.backtrack.Below p cp flagged vm'.backtrack := by
  have hchoices := h.choices
  unfold Vm.backtrack
  generalize vm.choices = cs at hchoices
  generalize vm'.choices = cs' at hchoices
  cases hchoices with
  | nil => exact .halted false h
  | cons hc hcs => exact .running (h.restore hc hcs)

theorem leave (h : vm.Below p cp flagged vm') : vm.leave.Below p cp flagged vm'.leave := by
  have hchoices := h.choices
  unfold Vm.leave
  generalize vm.choices = cs at hchoices
  generalize vm'.choices = cs' at hchoices
  cases hchoices with
  | nil => exact .halted false h
  | cons hc hcs => exact .halted false (h.restore hc hcs)

theorem apply (h : vm.Below p cp flagged vm') {r r' : PrimResult W} (hr : r.Below p cp r') :
    (Vm.apply env vm r).Below p cp flagged (Vm.apply env vm' r') := by
  cases hr with
  | next pos g hregs hundo =>
    simp only [Vm.apply, h.ip]
    refine .running (h.withStore (Store.Below.record ?_ env hundo) _ pos g)
    exact { h.store with regs := hregs }
  | fail g =>
    have hg : Vm.Below p cp flagged { vm with globals := g } { vm' with globals := g } :=
      { h with globals := rfl }
    exact hg.backtrack
  | leave g =>
    have hg : Vm.Below p cp flagged { vm with globals := g } { vm' with globals := g } :=
      { h with globals := rfl }
    exact hg.leave

theorem repeatInit (h : vm.Below p cp flagged vm') (env : VmEnv W) (loop min max skip : Nat) :
    (opRepeatInit env loop min max skip vm).Below p cp flagged
      (opRepeatInit env loop min max skip vm') := by
  unfold opRepeatInit
  split
  · have hinit : Vm.Below p cp flagged
        { vm with
          toStore :=
            { vm.toStore.setLoop loop 0 vm.pos with
              maxCounterUsed := Nat.max vm.maxCounterUsed (loop + 1) }
          loopMin := Function.update vm.loopMin loop min
          loopMax := Function.update vm.loopMax loop max }
        { vm' with
          toStore :=
            { vm'.toStore.setLoop loop 0 vm'.pos with
              maxCounterUsed := Nat.max vm'.maxCounterUsed (loop + 1) }
          loopMin := Function.update vm'.loopMin loop min
          loopMax := Function.update vm'.loopMax loop max } :=
      { h with
        store :=
          { h.store.setLoop loop (.refl 0) (.inr h.pos) with
            maxCounterUsed := by simp only [h.store.maxCounterUsed] }
        loopMin := update_rel h.loopMin (.refl min) loop
        loopMax := update_rel h.loopMax (.refl max) loop }
    simp only [h.pos] at hinit ⊢
    split
    · exact hinit.pushChoice env skip rfl
    · exact hinit
  · exact h

theorem takesGreedy_eq {loop target : Nat} (h : vm.Below p cp flagged vm')
    (hmax : vm.loopMax loop ≠ p)
    (hflag : flagged loop = true → takesGreedy env loop target vm = true) :
    takesGreedy env loop target vm = takesGreedy env loop target vm' := by
  have hmaxEq : vm.loopMax loop = vm'.loopMax loop := (h.loopMax loop).eq hmax
  unfold takesGreedy at hflag ⊢
  rw [← hmaxEq]
  cases hvm : vm.loopSpanGreedy loop with
  | true => rw [h.flag loop hvm]
  | false =>
    cases hvm' : vm'.loopSpanGreedy loop with
    | false => rfl
    | true =>
      obtain htrue | hflagged := h.flagged loop hvm'
      · rw [hvm] at htrue
        cases htrue
      · have := hflag hflagged
        rw [hvm, Bool.false_or] at this
        rw [this]
        rfl

theorem repeatGreedy (h : vm.Below p cp flagged vm') (env : VmEnv W) (loop target : Nat)
    (hlast : vm.loopLastPos loop ≠ p) (hcount : some (vm.counters loop) ≠ cp) :
    (opRepeatGreedy env loop target vm).Below p cp flagged
      (opRepeatGreedy env loop target vm') := by
  have hextend : (greedyExtend env loop target vm).Below p cp flagged
      (greedyExtend env loop target vm') := by
    unfold greedyExtend
    rw [h.pos]
    split
    · exact h
    · rw [(h.store.counters loop).eq hcount]
      exact { h with store := h.store.count env loop _, pos := rfl }
  have hkept : (greedyExtend env loop target vm).loopLastPos loop = vm.loopLastPos loop := by
    unfold greedyExtend
    split
    · rfl
    · simp [Store.count, Store.record, Store.setLoop, apply_ite Store.loopLastPos]
  have hlastEq := (hextend.store.loopLastPos loop).eq (hkept ▸ hlast)
  simp only [opRepeatGreedy, hlastEq, hextend.pos, hextend.ip]
  split
  · have hpush := hextend.pushChoice env ((greedyExtend env loop target vm').ip - 6)
      (Eq.refl ((greedyExtend env loop target vm').pos - 1))
    exact
      { hpush with
        store := hpush.store.setLoop loop (hpush.store.counters loop) (.inr hpush.pos) }
  · exact
      { hextend with
        store :=
          hextend.store.setLoop loop (hextend.store.counters loop) (.inr hextend.pos) }

theorem repeatIterate (h : vm.Below p cp flagged vm') (env : VmEnv W) (loop target : Nat)
    (hmin : vm.loopMin loop ≠ p) (hmax : vm.loopMax loop ≠ p) (hlast : vm.loopLastPos loop ≠ p)
    (hcount : some (vm.counters loop) ≠ cp) :
    (opRepeatIterate env loop target vm).Below p cp flagged
      (opRepeatIterate env loop target vm') := by
  have hminEq := (h.loopMin loop).eq hmin
  have hmaxEq := (h.loopMax loop).eq hmax
  have hlastEq := (h.store.loopLastPos loop).eq hlast
  have hcounter : vm.counters loop = vm'.counters loop := (h.store.counters loop).eq hcount
  have hcounted : Vm.Below p cp flagged
      { vm with toStore := vm.toStore.count env loop ((vm.counters loop + 1) % 2 ^ 32) }
      { vm' with
        toStore := vm'.toStore.count env loop ((vm.counters loop + 1) % 2 ^ 32)
        ip := vm.ip
        pos := vm.pos } :=
    { h with store := h.store.count env loop _, ip := rfl, pos := rfl }
  have hagain : ∀ {u u' : Vm W}, u.Below p cp flagged u' → Vm.Below p cp flagged
      { u with
        toStore := u.toStore.setLoop loop ((vm.counters loop + 1) % 2 ^ 32) u.pos
        ip := target }
      { u' with
        toStore := u'.toStore.setLoop loop ((vm.counters loop + 1) % 2 ^ 32) u'.pos
        ip := target } := by
    intro u u' hu
    exact { hu with store := hu.store.setLoop loop (.refl _) (.inr hu.pos), ip := rfl }
  simp only [opRepeatIterate, ← hminEq, ← hmaxEq, ← hlastEq, ← hcounter, ← h.pos, ← h.ip]
  have hagain₁ := hagain hcounted
  have hagain₂ := hagain (hcounted.pushChoice env vm.ip (Eq.refl vm.pos))
  split
  · exact hagain₁
  split
  · split
    · exact hcounted
    split
    · exact hcounted
    · exact hagain₂
  · exact hcounted

theorem repeatStep (h : vm.Below p cp flagged vm') (env : VmEnv W) (loop target : Nat)
    (hreads : loop < maxLoops → vm.loopMin loop ≠ p ∧ vm.loopMax loop ≠ p ∧
      vm.loopLastPos loop ≠ p ∧ (flagged loop = true → takesGreedy env loop target vm = true))
    (hcount : loop < maxLoops → some (vm.counters loop) ≠ cp) :
    (opRepeatStep env loop target vm).Below p cp flagged
      (opRepeatStep env loop target vm') := by
  unfold opRepeatStep
  split
  · rename_i hloop
    obtain ⟨hmin, hmax, hlast, hflag⟩ := hreads hloop
    rw [← h.takesGreedy_eq hmax hflag]
    split
    · have hset : Vm.Below p cp flagged
          { vm with loopSpanGreedy := Function.update vm.loopSpanGreedy loop true }
          { vm' with loopSpanGreedy := Function.update vm'.loopSpanGreedy loop true } := by
        refine { h with flag := ?_, flagged := ?_ }
        · intro i hi
          simp only at hi ⊢
          by_cases hil : i = loop
          · rw [hil, Function.update_self]
          · rw [Function.update_of_ne hil] at hi ⊢
            exact h.flag i hi
        · intro i hi
          simp only at hi ⊢
          by_cases hil : i = loop
          · rw [hil, Function.update_self]
            exact .inl rfl
          · rw [Function.update_of_ne hil] at hi ⊢
            exact h.flagged i hi
      exact hset.repeatGreedy env loop target hlast (hcount hloop)
    · exact h.repeatIterate env loop target hmin hmax hlast (hcount hloop)
  · exact h

theorem breakx (h : vm.Below p cp flagged vm') (env : VmEnv W) (setId here : Nat) :
    (opBreakx env setId here vm).Below p cp flagged (opBreakx env setId here vm') := by
  unfold opBreakx
  simp only [← h.pos]
  have hstop : Vm.Below p cp flagged
      { vm with pos := breakTarget env.s (env.ranges setId) vm.pos }
      { vm' with pos := breakTarget env.s (env.ranges setId) vm.pos } :=
    { h with pos := rfl }
  split
  · exact hstop.pushChoice env here rfl
  · exact hstop

/-- One turn of a run that reads no poison. -/
theorem step (h : vm.Below p cp flagged vm') (hreads : ReadsWritten env p flagged vm)
    (hcounts : CountsWritten env cp vm) :
    (vmStep env vm).Below p cp flagged (vmStep env vm') := by
  unfold vmStep
  rw [← h.ip]
  cases hfetch : fetch env.bc vm.ip with
  | none => exact h.backtrack
  | some fetched =>
    obtain ⟨instr, next⟩ := fetched
    have hnext := h.goto next
    cases instr with
    | prim q =>
      have hexec : (q.exec env vm.pos vm.regs vm.globals).Below p cp
          (q.exec env vm'.pos vm'.regs vm'.globals) := by
        rw [← h.pos, ← h.globals]
        exact q.exec_below env vm.pos vm.globals h.store.regs (hreads.captures q next hfetch)
      exact hnext.apply hexec
    | accept => exact .halted true hnext
    | fail => exact hnext.backtrack
    | jmp target => exact .running (h.goto target)
    | split a b =>
      exact .running ((hnext.pushChoice env b h.pos).goto a)
    | repeatInit loop min max skip => exact .running (hnext.repeatInit env loop min max skip)
    | repeatStep loop target =>
      exact .running (hnext.repeatStep env loop target (hreads.loops loop target next hfetch)
        (hcounts loop target next hfetch))
    | goto label =>
      cases hlabel : env.labelOffsets[label]? with
      | none =>
        simp only [hlabel]
        have hfail : Vm.Below p cp flagged { vm with ip := next, inGotoFail := true }
            { vm' with ip := next, inGotoFail := true } :=
          { hnext with inGotoFail := rfl }
        exact hfail.backtrack
      | some target =>
        simp only [hlabel]
        exact .running (h.goto target)
    | breakx setId => exact .running (hnext.breakx env setId vm.ip)
    | fence => exact .running { hnext with choices := .nil }
    | abort => exact .halted false { hnext with abortFlag := rfl, choices := .nil }
    | succeed => exact .halted true hnext
    | unknown b => exact hnext.backtrack

/-- A run that reads no poison. -/
theorem steps (h : vm.Below p none flagged vm') {n : Nat}
    (hreads : ∀ n u, vmSteps env n vm = .running u → ReadsWritten env p flagged u) :
    (vmSteps env n vm).Below p none flagged (vmSteps env n vm') := by
  induction n generalizing vm vm' with
  | zero => exact .running h
  | succ n ih =>
    have hstep := h.step (hreads 0 vm rfl) (.none env vm)
    rw [vmSteps, vmSteps]
    cases hvm : vmStep env vm with
    | running u =>
      rw [hvm] at hstep
      generalize vmStep env vm' = r at hstep
      cases hstep with
      | running hu =>
      refine ih hu fun n v hn => hreads (n + 1) v ?_
      rw [vmSteps, hvm]
      exact hn
    | halted ok u =>
      rw [hvm] at hstep
      generalize vmStep env vm' = r at hstep
      cases hstep with
      | halted _ hu =>
      exact .halted ok hu

end Vm.Below

end Snobol4
