import Snobol4.VmLoop

/-!
# VmInvariant — invariants of a run, part by part

An invariant says which cursors, registers, undo records and copies are good.  If undoing
goes from good to good, a turn of the loop keeps it as soon as the handlers do.
-/

namespace Snobol4

variable {W : Type}

/-- What is good of each part of the state. -/
structure Invariant where
  pos : Nat → Prop
  regs : Regs → Prop
  undo : UndoRecord → Prop
  saved : Saved → Prop

/-- Good registers may be saved at any time, and what is restored is good. -/
structure Invariant.Stable (I : Invariant) : Prop where
  used : ∀ regs varCount maxCapUsed, I.regs regs → I.regs { regs with varCount, maxCapUsed }
  counterDec : ∀ loop count lastPos, I.undo (.counterDec loop count lastPos)
  undone : ∀ (st : Store) e, I.regs st.regs → I.undo e → I.regs (st.undo e).regs
  trailBase : ∀ base, I.saved (.trailBase base)
  snapshot : ∀ regs counters lastPos,
    I.regs regs → I.saved (.snapshot regs.capStart regs.capEnd counters lastPos)
  copied : ∀ regs used capStart capEnd counters lastPos, I.regs regs →
    I.saved (.snapshot capStart capEnd counters lastPos) →
      I.regs { regs with
        capStart := Store.restoreBelow used capStart regs.capStart
        capEnd := Store.restoreBelow used capEnd regs.capEnd }

/-- Good registers, and a trail that brings back good ones. -/
structure Store.Keeps (I : Invariant) (st : Store) : Prop where
  regs : I.regs st.regs
  trail : ∀ e ∈ st.trail, I.undo e

/-- Every part of the state is good. -/
structure Vm.Keeps (I : Invariant) (vm : Vm W) : Prop where
  pos : I.pos vm.pos
  store : vm.toStore.Keeps I
  choices : ∀ c ∈ vm.choices, I.pos c.pos ∧ I.saved c.saved

/-- The outcome of a plain instruction. -/
def PrimResult.Keeps (I : Invariant) : PrimResult W → Prop
  | .next pos regs undo _ => I.pos pos ∧ I.regs regs ∧ ∀ e ∈ undo, I.undo e
  | .fail _ => True
  | .leave _ => True

/-- What the greedy shortcut needs: the run is shorter than the `int32_t` it is cast to,
and its end is a good cursor, as is the byte before it unless the loop has been there. -/
structure GreedyKeeps (I : Invariant) (env : VmEnv W) (loop target : Nat) (vm : Vm W) :
    Prop where
  short : ∀ stop ∈ greedyRunEnd env target vm.pos, stop - vm.pos < 2 ^ 31
  stop : I.pos (greedyStop env target vm.pos)
  back : vm.loopLastPos loop < greedyStop env target vm.pos →
    I.pos (greedyStop env target vm.pos - 1)

section

variable {I : Invariant} {env : VmEnv W} {regs : Regs} {pos : Nat} {g : Globals W}

/-! ## Plain instructions -/

theorem PrimResult.Keeps.stay (hpos : I.pos pos) (hregs : I.regs regs) (g : Globals W) :
    (PrimResult.next pos regs [] g).Keeps I := ⟨hpos, hregs, nofun⟩

theorem moveTo_keeps {target : Option Nat} (hregs : I.regs regs)
    (htarget : ∀ pos', target = some pos' → I.pos pos') (g : Globals W) :
    (moveTo regs g target).Keeps I := by
  cases target with
  | none => trivial
  | some pos' => exact .stay (htarget pos' rfl) hregs g

theorem opEval_keeps (hpos : I.pos pos) (hregs : I.regs regs) (fn r : Nat) :
    (opEval env.host env.s fn r pos regs g).Keeps I := by
  unfold opEval
  split
  · trivial
  split
  · split
    · exact .stay hpos hregs _
    · trivial
  · trivial

theorem opTableGet_keeps (hpos : I.pos pos) (hregs : I.regs regs) (table key : Nat) :
    (opTableGet env.host env.s table key pos regs g).Keeps I := by
  unfold opTableGet
  split
  · trivial
  split
  · trivial
  split
  · trivial
  · exact .stay hpos hregs _

theorem opTableSet_keeps (hpos : I.pos pos) (hregs : I.regs regs) (table key value : Nat) :
    (opTableSet env.host env.s table key value pos regs g).Keeps I := by
  unfold opTableSet
  split
  · trivial
  split
  · trivial
  split
  · trivial
  split
  · trivial
  · exact .stay hpos hregs _

theorem opBal_keeps {openCp closeCp : Nat} (hregs : I.regs regs)
    (hscan : ∀ fuel pos', balScan env.s openCp closeCp fuel pos 0 = some pos' → I.pos pos') :
    (opBal env.s openCp closeCp pos regs g).Keeps I := by
  unfold opBal
  split
  · trivial
  split
  · exact moveTo_keeps hregs (fun pos' h => hscan _ pos' h) g
  · trivial

/-! ## The store -/

namespace Store

variable {st : Store}

theorem Keeps.record (h : st.Keeps I) (env : VmEnv W) {undo : List UndoRecord}
    (hregs : I.regs regs) (hundo : ∀ e ∈ undo, I.undo e) :
    (Store.record env undo { st with regs }).Keeps I := by
  unfold Store.record
  split
  · refine ⟨hregs, ?_⟩
    intro e he
    rcases List.mem_append.mp he with he | he
    · exact hundo e he
    · exact h.trail e he
  · exact ⟨hregs, h.trail⟩

theorem Keeps.setLoop (h : st.Keeps I) (loop count lastPos : Nat) :
    (st.setLoop loop count lastPos).Keeps I := ⟨h.regs, h.trail⟩

theorem Keeps.count (hI : I.Stable) (h : st.Keeps I) (env : VmEnv W) (loop count : Nat) :
    (st.count env loop count).Keeps I := by
  refine (h.setLoop loop count (st.loopLastPos loop)).record env h.regs ?_
  intro e he
  obtain rfl := List.mem_singleton.mp he
  exact hI.counterDec ..

theorem replay_keeps (hI : I.Stable) {base : Nat} {trail : List UndoRecord}
    (h : I.regs st.regs) (htrail : ∀ e ∈ trail, I.undo e) : (replay base trail st).Keeps I := by
  induction trail generalizing st with
  | nil => exact ⟨h, nofun⟩
  | cons e trail ih =>
    rw [replay]
    split
    · refine ih (hI.undone st e h (htrail e List.mem_cons_self)) ?_
      intro e' he'
      exact htrail e' (List.mem_cons_of_mem e he')
    · exact ⟨h, htrail⟩

theorem Keeps.restore (hI : I.Stable) (h : st.Keeps I) {c : Choice} (hc : I.saved c.saved) :
    (st.restore c).Keeps I := by
  have hused := hI.used st.regs c.varCount c.maxCapUsed h.regs
  unfold Store.restore
  cases hsaved : c.saved with
  | trailBase base => exact replay_keeps hI hused h.trail
  | snapshot capStart capEnd counters loopLastPos =>
    rw [hsaved] at hc
    exact ⟨hI.copied _ _ _ _ _ _ hused hc, h.trail⟩

theorem Keeps.choice (hI : I.Stable) (h : st.Keeps I) (env : VmEnv W) (ip pos : Nat) :
    I.saved (st.choice env ip pos).saved := by
  simp only [Store.choice]
  split
  · exact hI.trailBase _
  · exact hI.snapshot _ _ _ h.regs

end Store

/-! ## A turn of the loop -/

namespace Vm.Keeps

variable {vm : Vm W}

theorem pushChoice (hI : I.Stable) (h : vm.Keeps I) (env : VmEnv W) (ip : Nat) (hpos : I.pos pos) :
    (vm.pushChoice env ip pos).Keeps I := by
  refine ⟨h.pos, h.store, ?_⟩
  intro c hc
  obtain rfl | hc := List.mem_cons.mp hc
  · exact ⟨hpos, h.store.choice hI env ip pos⟩
  · exact h.choices c hc

theorem restore (hI : I.Stable) (h : vm.Keeps I) {c : Choice} {rest : List Choice}
    (hc : vm.choices = c :: rest) : (vm.restore c rest).Keeps I := by
  obtain ⟨hpos, hsaved⟩ := h.choices c (by rw [hc]; exact List.mem_cons_self)
  refine ⟨hpos, h.store.restore hI hsaved, ?_⟩
  intro c' hc'
  exact h.choices c' (by rw [hc]; exact List.mem_cons_of_mem c hc')

theorem backtrack (hI : I.Stable) (h : vm.Keeps I) : vm.backtrack.vm.Keeps I := by
  unfold Vm.backtrack
  split
  · exact h
  · exact h.restore hI ‹_›

theorem leave (hI : I.Stable) (h : vm.Keeps I) : vm.leave.vm.Keeps I := by
  unfold Vm.leave
  split
  · exact h
  · exact h.restore hI ‹_›

theorem apply (hI : I.Stable) (h : vm.Keeps I) {result : PrimResult W}
    (hresult : result.Keeps I) : (vm.apply env result).vm.Keeps I := by
  cases result with
  | next pos regs undo g =>
    obtain ⟨hpos, hregs, hundo⟩ := hresult
    exact ⟨hpos, h.store.record env hregs hundo, h.choices⟩
  | fail g => exact backtrack hI ⟨h.pos, h.store, h.choices⟩
  | leave g => exact leave hI ⟨h.pos, h.store, h.choices⟩

theorem repeatInit (hI : I.Stable) (h : vm.Keeps I) (loop min max skip : Nat) :
    (opRepeatInit env loop min max skip vm).Keeps I := by
  unfold opRepeatInit
  split
  · simp only
    split
    · refine pushChoice hI ?_ env skip h.pos
      exact ⟨h.pos, ⟨h.store.regs, h.store.trail⟩, h.choices⟩
    · exact ⟨h.pos, ⟨h.store.regs, h.store.trail⟩, h.choices⟩
  · exact h

/-- The shortcut goes to the end of the run and pushes the byte before it. -/
theorem repeatGreedy (hI : I.Stable) (h : vm.Keeps I) (hle : vm.pos ≤ env.s.length)
    (loop target : Nat) (hgreedy : GreedyKeeps I env loop target vm) :
    (opRepeatGreedy env loop target vm).Keeps I := by
  obtain ⟨st, hst, heq⟩ := greedyExtend_eq env loop target vm hle hgreedy.short
  have hstore : st.Keeps I := by
    rcases hst with rfl | ⟨n, rfl⟩
    · exact h.store
    · exact h.store.count hI env loop n
  have hlast : st.loopLastPos loop = vm.loopLastPos loop := by
    rcases hst with rfl | ⟨n, rfl⟩
    · rfl
    · simp only [Store.count, Store.record, Store.setLoop]
      split
      · simp
      · simp
  have hextend : Vm.Keeps I
      { vm with
        toStore := st
        pos := greedyStop env target vm.pos } := ⟨hgreedy.stop, hstore, h.choices⟩
  unfold opRepeatGreedy
  rw [heq]
  by_cases hmoved : vm.loopLastPos loop < greedyStop env target vm.pos
  · have hpush := hextend.pushChoice hI env (vm.ip - 6) (hgreedy.back hmoved)
    simp only [hlast, if_pos hmoved]
    exact ⟨hpush.pos, hpush.store.setLoop .., hpush.choices⟩
  · simp only [hlast, if_neg hmoved]
    exact ⟨hextend.pos, hextend.store.setLoop .., hextend.choices⟩

/-- The shortcut, where every cursor is good. -/
theorem repeatGreedy_free (hI : I.Stable) (hpos : ∀ p, I.pos p) (h : vm.Keeps I)
    (loop target : Nat) : (opRepeatGreedy env loop target vm).Keeps I := by
  have hextend : (greedyExtend env loop target vm).Keeps I := by
    unfold greedyExtend
    split
    · exact h
    · exact ⟨hpos _, h.store.count hI .., h.choices⟩
  have hpush := hextend.pushChoice hI env ((greedyExtend env loop target vm).ip - 6)
    (hpos ((greedyExtend env loop target vm).pos - 1))
  unfold opRepeatGreedy
  simp only
  split
  · exact ⟨hpush.pos, hpush.store.setLoop .., hpush.choices⟩
  · exact ⟨hextend.pos, hextend.store.setLoop .., hextend.choices⟩

theorem repeatIterate (hI : I.Stable) (h : vm.Keeps I) (loop target : Nat) :
    (opRepeatIterate env loop target vm).Keeps I := by
  have hcount : Vm.Keeps I
      { vm with toStore := vm.toStore.count env loop ((vm.counters loop + 1) % 2 ^ 32) } :=
    ⟨h.pos, h.store.count hI .., h.choices⟩
  have hpush := hcount.pushChoice hI env vm.ip h.pos
  simp only [opRepeatIterate]
  split
  · exact ⟨h.pos, hcount.store.setLoop .., h.choices⟩
  split
  · split
    · exact hcount
    split
    · exact hcount
    · exact ⟨h.pos, hpush.store.setLoop .., hpush.choices⟩
  · exact hcount

theorem repeatStep (hI : I.Stable) (h : vm.Keeps I) (loop target : Nat)
    (hgreedy : loop < maxLoops → takesGreedy env loop target vm = true →
      (opRepeatGreedy env loop target
        { vm with loopSpanGreedy := Function.update vm.loopSpanGreedy loop true }).Keeps I) :
    (opRepeatStep env loop target vm).Keeps I := by
  unfold opRepeatStep
  split
  · rename_i hloop
    split
    · rename_i htakes
      exact hgreedy hloop htakes
    · exact h.repeatIterate hI loop target
  · exact h

theorem breakx (hI : I.Stable) (h : vm.Keeps I) (setId here : Nat)
    (hstop : I.pos (breakTarget env.s (env.ranges setId) vm.pos))
    (hskip : breakTarget env.s (env.ranges setId) vm.pos < env.s.length →
      I.pos (breakTarget env.s (env.ranges setId) vm.pos +
        (peekCp env.s (breakTarget env.s (env.ranges setId) vm.pos)).elim 1 (·.2))) :
    (opBreakx env setId here vm).Keeps I := by
  have hmoved : Vm.Keeps I { vm with pos := breakTarget env.s (env.ranges setId) vm.pos } :=
    ⟨hstop, h.store, h.choices⟩
  unfold opBreakx
  simp only
  split
  · rename_i hlt
    exact hmoved.pushChoice hI env here (hskip hlt)
  · exact hmoved

/-- A turn keeps the invariant when the handlers that move the cursor or write a register
do. -/
theorem step_of (hI : I.Stable) (h : vm.Keeps I)
    (hprim : ∀ p next, fetch env.bc vm.ip = some (.prim p, next) →
      (p.exec env vm.pos vm.regs vm.globals).Keeps I)
    (hgreedy : ∀ loop target next, fetch env.bc vm.ip = some (.repeatStep loop target, next) →
      loop < maxLoops → takesGreedy env loop target vm = true →
        (opRepeatGreedy env loop target { vm with
          ip := next
          loopSpanGreedy := Function.update vm.loopSpanGreedy loop true }).Keeps I)
    (hstop : ∀ ranges, I.pos (breakTarget env.s ranges vm.pos))
    (hskip : ∀ ranges, breakTarget env.s ranges vm.pos < env.s.length →
      I.pos (breakTarget env.s ranges vm.pos +
        (peekCp env.s (breakTarget env.s ranges vm.pos)).elim 1 (·.2))) :
    (vmStep env vm).vm.Keeps I := by
  unfold vmStep
  cases hfetch : fetch env.bc vm.ip with
  | none => exact h.backtrack hI
  | some fetched =>
    obtain ⟨instr, next⟩ := fetched
    have hnext : Vm.Keeps I { vm with ip := next } := ⟨h.pos, h.store, h.choices⟩
    cases instr with
    | prim p => exact hnext.apply hI (hprim p next hfetch)
    | accept | succeed | jmp => exact ⟨h.pos, h.store, h.choices⟩
    | fail | unknown => exact hnext.backtrack hI
    | split a b =>
      have hpush := hnext.pushChoice hI env b h.pos
      exact ⟨hpush.pos, hpush.store, hpush.choices⟩
    | repeatInit loop min max skip => exact hnext.repeatInit hI loop min max skip
    | repeatStep loop target =>
      refine hnext.repeatStep hI loop target ?_
      intro hloop htakes
      exact hgreedy loop target next hfetch hloop htakes
    | goto label =>
      simp only
      split
      · exact ⟨h.pos, h.store, h.choices⟩
      · exact backtrack hI ⟨h.pos, h.store, h.choices⟩
    | breakx setId => exact hnext.breakx hI setId vm.ip (hstop _) (hskip _)
    | fence | abort => exact ⟨h.pos, h.store, nofun⟩

/-- A turn in the subject. -/
theorem step (hI : I.Stable) (h : vm.Keeps I) (hle : vm.pos ≤ env.s.length)
    (hprim : ∀ p next, fetch env.bc vm.ip = some (.prim p, next) →
      (p.exec env vm.pos vm.regs vm.globals).Keeps I)
    (hgreedy : ∀ loop target next, fetch env.bc vm.ip = some (.repeatStep loop target, next) →
      loop < maxLoops → takesGreedy env loop target vm = true →
        GreedyKeeps I env loop target vm)
    (hstop : ∀ ranges, I.pos (breakTarget env.s ranges vm.pos))
    (hskip : ∀ ranges, breakTarget env.s ranges vm.pos < env.s.length →
      I.pos (breakTarget env.s ranges vm.pos +
        (peekCp env.s (breakTarget env.s ranges vm.pos)).elim 1 (·.2))) :
    (vmStep env vm).vm.Keeps I := by
  refine h.step_of hI hprim ?_ hstop hskip
  intro loop target next hfetch hloop htakes
  obtain ⟨hshort, hstop, hback⟩ := hgreedy loop target next hfetch hloop htakes
  have hflag : Vm.Keeps I
      { vm with
        ip := next
        loopSpanGreedy := Function.update vm.loopSpanGreedy loop true } :=
    ⟨h.pos, h.store, h.choices⟩
  exact hflag.repeatGreedy hI hle loop target ⟨hshort, hstop, hback⟩

/-- A turn, where every cursor is good. -/
theorem step_free (hI : I.Stable) (hpos : ∀ p, I.pos p) (h : vm.Keeps I)
    (hprim : ∀ p next, fetch env.bc vm.ip = some (.prim p, next) →
      (p.exec env vm.pos vm.regs vm.globals).Keeps I) : (vmStep env vm).vm.Keeps I := by
  refine h.step_of hI hprim ?_ (fun _ => hpos _) fun _ _ => hpos _
  intro loop target next _ _ _
  have hflag : Vm.Keeps I
      { vm with
        ip := next
        loopSpanGreedy := Function.update vm.loopSpanGreedy loop true } :=
    ⟨h.pos, h.store, h.choices⟩
  exact hflag.repeatGreedy_free hI hpos loop target

end Vm.Keeps

end

/-- The run rule: what holds at the start and is kept by every turn holds in every state
of the run and at its end. -/
theorem vmRun_keeps {I : Invariant} {env : VmEnv W} {start : Vm W}
    (hstart : (vmRunStart start).Keeps I)
    (hstep : ∀ vm, VmReach env start vm → vm.Keeps I → (vmStep env vm).vm.Keeps I) :
    (∀ vm, VmReach env start vm → vm.Keeps I) ∧
      ∀ ok final, VmRun env start ok final → final.Keeps I := by
  have hreach : ∀ vm, VmReach env start vm → vm.Keeps I := by
    intro vm hvm
    induction hvm with
    | start => exact hstart
    | step hreach hturn ih =>
      have hkeeps := hstep _ hreach ih
      rw [hturn] at hkeeps
      exact hkeeps
  refine ⟨hreach, ?_⟩
  intro ok final hfinal
  obtain ⟨vm, hvm, hturn⟩ := hfinal.last
  have hkeeps := hstep vm hvm (hreach vm hvm)
  rw [hturn] at hkeeps
  exact hkeeps

end Snobol4
