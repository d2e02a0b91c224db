import Mathlib.Data.List.Basic
import Snobol4.Vm

/-!
# VmStore — what a choice point brings back

`vm_pop_choice` undoes the trail down to the base of the record, or copies the
registers in use back.  A write with its undo record on the trail is not seen by the
records below; a bare write of a loop register survives the pop unless an undo record
for that register lies above the base, or the copy holds it.
-/

namespace Snobol4

variable {W : Type}

namespace Store

/-- The scalars that every record holds. -/
def withScalars (c : Choice) (st : Store) : Store :=
  { st with
    regs.varCount := c.varCount
    regs.maxCapUsed := c.maxCapUsed
    maxCounterUsed := c.maxCounterUsed }

theorem restore_trailBase {c : Choice} {base : Nat} (h : c.saved = .trailBase base) (st : Store) :
    st.restore c = replay base st.trail (st.withScalars c) := by
  rw [restore, h]
  rfl

/-! ## Replaying the trail -/

@[simp] theorem undo_trail (st : Store) (e : UndoRecord) : (st.undo e).trail = st.trail := by
  cases e with
  | counterDec loop count lastPos =>
    simp only [undo]
    split <;> rfl
  | capWrite reg sub start stop =>
    simp only [undo]
    split
    · split
      · rfl
      split <;> rfl
    · rfl
  | varWrite var start stop =>
    simp only [undo]
    split <;> rfl

/-- The trail is cut to its base. -/
theorem replay_trail (base : Nat) (trail : List UndoRecord) (st : Store) :
    (replay base trail st).trail = trail.drop (trail.length - base) := by
  induction trail generalizing st with
  | nil => simp [replay]
  | cons e trail ih =>
    rw [replay]
    split
    · rename_i hle
      rw [ih, List.length_cons, Nat.succ_sub hle, List.drop_succ_cons]
    · rename_i hlt
      rw [List.length_cons, Nat.sub_eq_zero_of_le (by omega), List.drop_zero]

/-- The trail field of the argument is not read. -/
theorem replay_setTrail (base : Nat) (trail trail' : List UndoRecord) (st : Store) :
    replay base trail { st with trail := trail' } = replay base trail st := by
  induction trail generalizing st with
  | nil => rfl
  | cons e trail ih =>
    have hundo : ({ st with trail := trail' } : Store).undo e = { st.undo e with trail := trail' } := by
      cases e with
      | counterDec loop count lastPos =>
        simp only [undo]
        split <;> rfl
      | capWrite reg sub start stop =>
        simp only [undo]
        split
        · split
          · rfl
          split <;> rfl
        · rfl
      | varWrite var start stop =>
        simp only [undo]
        split <;> rfl
    simp only [replay, hundo, ih]

/-- Records above the base are undone. -/
theorem replay_append {base : Nat} {trail : List UndoRecord} (h : base ≤ trail.length)
    (undone : List UndoRecord) (st : Store) :
    replay base (undone ++ trail) st = replay base trail (undone.foldl undo st) := by
  induction undone generalizing st with
  | nil => rfl
  | cons e undone ih =>
    rw [List.cons_append, replay, if_pos (by rw [List.length_append]; omega), ih, List.foldl_cons]

/-- Nothing lies above the length of the trail. -/
theorem replay_length (trail : List UndoRecord) (st : Store) :
    replay trail.length trail st = { st with trail } := by
  cases trail with
  | nil => rfl
  | cons e trail => rw [replay, if_neg (by simp)]

/-! ## Writing a loop register -/

/-- The record undoes a write of the loop register. -/
def Undoes (loop : Nat) : UndoRecord → Prop
  | .counterDec i _ _ => i = loop
  | _ => False

theorem setLoop_setLoop (i n p n' p' : Nat) (st : Store) :
    (st.setLoop i n p).setLoop i n' p' = st.setLoop i n' p' := by
  simp [setLoop]

theorem setLoop_comm {i j : Nat} (h : i ≠ j) (n p n' p' : Nat) (st : Store) :
    (st.setLoop i n p).setLoop j n' p' = (st.setLoop j n' p').setLoop i n p := by
  simp [setLoop, Function.update_comm h]

theorem undo_setLoop_of_undoes {i : Nat} {e : UndoRecord} (hi : i < maxLoops) (h : Undoes i e)
    (n p : Nat) (st : Store) : (st.setLoop i n p).undo e = st.undo e := by
  cases e with
  | counterDec j count lastPos =>
    obtain rfl : j = i := h
    simp only [undo, if_pos hi, setLoop_setLoop]
  | capWrite reg sub start stop => exact absurd h not_false
  | varWrite var start stop => exact absurd h not_false

theorem undo_setLoop {i : Nat} {e : UndoRecord} (h : ¬Undoes i e) (n p : Nat) (st : Store) :
    (st.setLoop i n p).undo e = (st.undo e).setLoop i n p := by
  cases e with
  | counterDec j count lastPos =>
    simp only [undo]
    split
    · exact setLoop_comm (fun heq => h heq.symm) ..
    · rfl
  | capWrite reg sub start stop =>
    simp only [undo]
    split
    · split
      · rfl
      split <;> rfl
    · rfl
  | varWrite var start stop =>
    simp only [undo]
    split <;> rfl

/-- A register that the replay restores can be overwritten before. -/
theorem replay_setLoop_of_undoes {i base : Nat} {trail : List UndoRecord} (hi : i < maxLoops)
    (h : ∃ e ∈ trail.take (trail.length - base), Undoes i e) (n p : Nat) (st : Store) :
    replay base trail (st.setLoop i n p) = replay base trail st := by
  induction trail generalizing st with
  | nil => simp at h
  | cons e trail ih =>
    rw [replay, replay]
    split
    · rename_i hle
      rw [List.length_cons, Nat.succ_sub hle, List.take_succ_cons] at h
      by_cases he : Undoes i e
      · rw [undo_setLoop_of_undoes hi he]
      · rw [undo_setLoop he]
        refine ih ?_ (st.undo e)
        obtain ⟨e', hmem, he'⟩ := h
        obtain rfl | hmem := List.mem_cons.mp hmem
        · exact absurd he' he
        · exact ⟨e', hmem, he'⟩
    · rename_i hlt
      rw [List.length_cons, Nat.sub_eq_zero_of_le (by omega)] at h
      simp at h

/-- A register that the replay does not restore keeps its value. -/
theorem replay_setLoop {i base : Nat} {trail : List UndoRecord}
    (h : ¬∃ e ∈ trail.take (trail.length - base), Undoes i e) (n p : Nat) (st : Store) :
    replay base trail (st.setLoop i n p) = (replay base trail st).setLoop i n p := by
  induction trail generalizing st with
  | nil => rfl
  | cons e trail ih =>
    rw [replay, replay]
    split
    · rename_i hle
      rw [List.length_cons, Nat.succ_sub hle, List.take_succ_cons] at h
      rw [undo_setLoop fun he => h ⟨e, by simp, he⟩]
      exact ih (fun ⟨e', hmem, he'⟩ => h ⟨e', by simp [hmem], he'⟩) (st.undo e)
    · rfl

/-- The pop of `c` brings the loop register back. -/
def Covers (c : Choice) (trail : List UndoRecord) (loop : Nat) : Prop :=
  match c.saved with
  | .trailBase base => ∃ e ∈ trail.take (trail.length - base), Undoes loop e
  | .snapshot .. => loop < c.maxCounterUsed

/-- The trail after the pop of `c`. -/
def cutTrail (c : Choice) (trail : List UndoRecord) : List UndoRecord :=
  match c.saved with
  | .trailBase base => trail.drop (trail.length - base)
  | .snapshot .. => trail

theorem restore_trail (c : Choice) (st : Store) : (st.restore c).trail = cutTrail c st.trail := by
  cases hsaved : c.saved with
  | trailBase base => rw [restore_trailBase hsaved, replay_trail, cutTrail, hsaved]
  | snapshot capStart capEnd counters loopLastPos =>
    simp only [restore, hsaved, cutTrail]

theorem restore_setLoop_of_covers {c : Choice} {st : Store} {i : Nat} (hi : i < maxLoops)
    (h : Covers c st.trail i) (n p : Nat) : (st.setLoop i n p).restore c = st.restore c := by
  cases hsaved : c.saved with
  | trailBase base =>
    rw [Covers, hsaved] at h
    rw [restore_trailBase hsaved, restore_trailBase hsaved]
    exact replay_setLoop_of_undoes hi h n p (st.withScalars c)
  | snapshot capStart capEnd counters loopLastPos =>
    rw [Covers, hsaved] at h
    have hbelow : ∀ copy current : Nat → Nat, ∀ v,
        restoreBelow c.maxCounterUsed copy (Function.update current i v) =
          restoreBelow c.maxCounterUsed copy current := by
      intro copy current v
      funext j
      simp only [restoreBelow]
      split
      · rfl
      · rw [Function.update_of_ne (by omega)]
    simp only [restore, hsaved, setLoop, hbelow]

theorem restore_setLoop {c : Choice} {st : Store} {i : Nat} (h : ¬Covers c st.trail i)
    (n p : Nat) : (st.setLoop i n p).restore c = (st.restore c).setLoop i n p := by
  cases hsaved : c.saved with
  | trailBase base =>
    rw [Covers, hsaved] at h
    rw [restore_trailBase hsaved, restore_trailBase hsaved]
    exact replay_setLoop h n p (st.withScalars c)
  | snapshot capStart capEnd counters loopLastPos =>
    rw [Covers, hsaved] at h
    have hbelow : ∀ copy current : Nat → Nat, ∀ v,
        restoreBelow c.maxCounterUsed copy (Function.update current i v) =
          Function.update (restoreBelow c.maxCounterUsed copy current) i v := by
      intro copy current v
      funext j
      by_cases hj : j = i
      · subst hj
        simp only [restoreBelow, if_neg h, Function.update_self]
      · simp only [restoreBelow, Function.update_of_ne hj]
    simp only [restore, hsaved, setLoop, hbelow]

/-! ## Pushing and recording -/

/-- The record fits the mode, and its base lies within the trail. -/
def Fits (env : VmEnv W) (c : Choice) (trail : List UndoRecord) : Prop :=
  match c.saved with
  | .trailBase base => env.compact = true ∧ base ≤ trail.length
  | .snapshot .. => env.compact = false

theorem choice_fits (env : VmEnv W) (ip pos : Nat) (st : Store) :
    Fits env (st.choice env ip pos) st.trail := by
  unfold Fits choice
  cases env.compact with
  | true => exact ⟨rfl, Nat.mod_le _ _⟩
  | false => rfl

/-- The trail has a length that the base of a record can hold. -/
def TrailFits (env : VmEnv W) (st : Store) : Prop := env.compact = true → st.trail.length < 2 ^ 32

theorem choice_base {env : VmEnv W} (hcompact : env.compact = true) {st : Store}
    (hfits : st.TrailFits env) (ip pos : Nat) :
    (st.choice env ip pos).saved = .trailBase st.trail.length := by
  simp only [choice, hcompact, if_true, Nat.mod_eq_of_lt (hfits hcompact)]

/-- A pop right after the push changes nothing. -/
theorem restore_choice {env : VmEnv W} {st : Store} (hfits : st.TrailFits env) (ip pos : Nat) :
    st.restore (st.choice env ip pos) = st := by
  cases henv : env.compact with
  | true =>
    rw [restore_trailBase (choice_base henv hfits ip pos), replay_length]
    rfl
  | false =>
    have hbelow : ∀ (used : Nat) (f : Nat → Nat), restoreBelow used f f = f := by
      intro used f
      funext i
      simp [restoreBelow]
    simp [restore, choice, henv, hbelow]

theorem cutTrail_choice {env : VmEnv W} {st : Store} (hfits : st.TrailFits env) (ip pos : Nat) :
    cutTrail (st.choice env ip pos) st.trail = st.trail := by
  rw [← restore_trail, restore_choice hfits]

/-- A recorded write is not seen below. -/
theorem restore_of_undoes {env : VmEnv W} {c : Choice} {st st' : Store} {undone : List UndoRecord}
    (hcompact : env.compact = true) (hfits : Fits env c st.trail)
    (htrail : st'.trail = undone ++ st.trail)
    (hundo : undone.foldl undo (st'.withScalars c) = { st.withScalars c with trail := st'.trail }) :
    st'.restore c = st.restore c := by
  cases hsaved : c.saved with
  | trailBase base =>
    rw [Fits, hsaved] at hfits
    rw [restore_trailBase hsaved, restore_trailBase hsaved, htrail,
      replay_append hfits.2, hundo, replay_setTrail]
  | snapshot capStart capEnd counters loopLastPos =>
    rw [Fits, hsaved] at hfits
    exact absurd hcompact (by simp [hfits])

theorem Fits.append {env : VmEnv W} {c : Choice} {trail : List UndoRecord} (h : Fits env c trail)
    (undone : List UndoRecord) : Fits env c (undone ++ trail) := by
  unfold Fits at h ⊢
  split
  · rename_i hsaved
    rw [hsaved] at h
    refine ⟨h.1, ?_⟩
    rw [List.length_append]
    exact Nat.le_trans h.2 (Nat.le_add_left ..)
  · rename_i hsaved
    rw [hsaved] at h
    exact h

theorem cutTrail_append {env : VmEnv W} {c : Choice} {trail : List UndoRecord}
    (hcompact : env.compact = true) (h : Fits env c trail) (undone : List UndoRecord) :
    cutTrail c (undone ++ trail) = cutTrail c trail := by
  cases hsaved : c.saved with
  | trailBase base =>
    rw [Fits, hsaved] at h
    have hlen : (undone ++ trail).length - base = undone.length + (trail.length - base) := by
      rw [List.length_append]
      have := h.2
      omega
    simp only [cutTrail, hsaved, hlen, List.drop_length_add_append]
  | snapshot capStart capEnd counters loopLastPos =>
    rw [Fits, hsaved] at h
    exact absurd hcompact (by simp [h])

theorem Covers.append {env : VmEnv W} {c : Choice} {trail : List UndoRecord} {i : Nat}
    (hfits : Fits env c trail) (h : Covers c trail i) (undone : List UndoRecord) :
    Covers c (undone ++ trail) i := by
  unfold Covers at h ⊢
  split
  · rename_i base hsaved
    rw [hsaved] at h
    rw [Fits, hsaved] at hfits
    obtain ⟨e, hmem, he⟩ := h
    have hlen : (undone ++ trail).length - base = undone.length + (trail.length - base) := by
      rw [List.length_append]
      have := hfits.2
      omega
    refine ⟨e, ?_, he⟩
    rw [hlen, List.take_length_add_append]
    exact List.mem_append_right _ hmem
  · rename_i hsaved
    rw [hsaved] at h
    exact h

/-- A record on top of the trail covers its register. -/
theorem covers_cons {env : VmEnv W} {c : Choice} {trail : List UndoRecord} {i : Nat}
    {e : UndoRecord} (hcompact : env.compact = true) (hfits : Fits env c trail)
    (he : Undoes i e) : Covers c (e :: trail) i := by
  cases hsaved : c.saved with
  | trailBase base =>
    rw [Fits, hsaved] at hfits
    rw [Covers, hsaved]
    refine ⟨e, ?_, he⟩
    rw [List.length_cons, Nat.succ_sub hfits.2, List.take_succ_cons]
    exact List.mem_cons_self
  | snapshot capStart capEnd counters loopLastPos =>
    rw [Fits, hsaved] at hfits
    exact absurd hcompact (by simp [hfits])

theorem record_regs (env : VmEnv W) (undone : List UndoRecord) (st : Store) :
    (st.record env undone).regs = st.regs := by
  unfold record
  split <;> rfl

theorem count_regs (env : VmEnv W) (loop n : Nat) (st : Store) :
    (st.count env loop n).regs = st.regs := by
  unfold count record
  split <;> rfl

/-- The undo records lead back from the registers `regs'` to `regs`. -/
def Reverts (regs regs' : Regs) (undone : List UndoRecord) : Prop :=
  ∀ (c : Choice) (st : Store), st.regs = regs' →
    undone.foldl undo (st.withScalars c) = { st.withScalars c with
      regs := { regs with varCount := c.varCount, maxCapUsed := c.maxCapUsed } }

theorem Reverts.refl (regs : Regs) : Reverts regs regs [] := by
  intro c st h
  subst h
  rfl

theorem opCapStart_reverts (r pos : Nat) (regs : Regs) :
    Reverts regs (opCapStart r pos regs).1 (opCapStart r pos regs).2 := by
  unfold opCapStart
  split
  · rename_i hr
    intro c st h
    simp [withScalars, undo, hr, h]
  · exact .refl regs

theorem opCapEnd_reverts (r pos : Nat) (regs : Regs) :
    Reverts regs (opCapEnd r pos regs).1 (opCapEnd r pos regs).2 := by
  unfold opCapEnd
  split
  · rename_i hr
    intro c st h
    simp [withScalars, undo, hr, h]
  · exact .refl regs

theorem opAssign_reverts (var r : Nat) (regs : Regs) :
    Reverts regs (opAssign var r regs).1 (opAssign var r regs).2 := by
  unfold opAssign
  split
  · rename_i hr
    intro c st h
    simp [withScalars, undo, hr.1, h]
  · exact .refl regs

end Store

/-! ## Short runs -/

/-- A run of a few turns does not fill the trail. -/
theorem VmReach.trailFits {env : VmEnv W} {start final : Vm W} {ok : Bool} {n : Nat}
    (hend : vmSteps env n (vmRunStart start) = .halted ok final)
    (h : ∀ m < n, (vmSteps env m (vmRunStart start)).All
      (fun vm => decide (vm.trail.length < 2 ^ 32)) = true) (vm : Vm W)
    (hvm : VmReach env start vm) : vm.toStore.TrailFits env := by
  refine VmReach.forall_of_steps (P := fun vm => vm.toStore.TrailFits env) hend ?_ vm hvm
  intro m hm vm hvm _
  have hall := h m hm
  rw [hvm] at hall
  exact of_decide_eq_true hall

/-- The trail after an iteration is counted. -/
theorem Store.count_trail (env : VmEnv W) (i n : Nat) (st : Store) :
    (st.count env i n).trail =
      if env.compact then .counterDec i (st.counters i) (st.loopLastPos i) :: st.trail
      else st.trail := by
  unfold Store.count Store.record
  split <;> rfl

/-- A result whose registers change only with their undo records. -/
def PrimResult.Undoable (regs : Regs) : PrimResult W → Prop
  | .next _ regs' undone _ => Store.Reverts regs regs' undone
  | _ => True

theorem moveTo_undoable (regs : Regs) (g : Globals W) (target : Option Nat) :
    (moveTo regs g target).Undoable regs := by
  cases target with
  | none => trivial
  | some pos => exact .refl regs

/-- Every handler records what it overwrites. -/
theorem Prim.exec_undoable (env : VmEnv W) (p : Prim) (pos : Nat) (regs : Regs) (g : Globals W) :
    (p.exec env pos regs g).Undoable regs := by
  cases p with
  | lit off len => exact moveTo_undoable ..
  | set op id => exact moveTo_undoable ..
  | count op n => exact moveTo_undoable ..
  | anchor type => exact moveTo_undoable ..
  | nop | emitLiteral off len | label id | rem => exact Store.Reverts.refl regs
  | capStart r => exact Store.opCapStart_reverts r pos regs
  | capEnd r => exact Store.opCapEnd_reverts r pos regs
  | assign var r => exact Store.opAssign_reverts var r regs
  | eval fn r =>
    simp only [Prim.exec, opEval]
    split
    · trivial
    split
    · split
      · exact .refl regs
      · trivial
    · trivial
  | emitCapture r =>
    simp only [Prim.exec, opEmitCapture]
    split <;> exact Store.Reverts.refl regs
  | tableGet table key reg =>
    simp only [Prim.exec, opTableGet]
    split
    · trivial
    split
    · trivial
    split
    · trivial
    · exact .refl regs
  | tableSet table key value =>
    simp only [Prim.exec, opTableSet]
    split
    · trivial
    split
    · trivial
    split
    · trivial
    split
    · trivial
    · exact .refl regs
  | bal openCp closeCp =>
    simp only [Prim.exec, opBal]
    split
    · trivial
    split
    · exact moveTo_undoable ..
    · trivial

end Snobol4
