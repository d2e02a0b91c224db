import Snobol4.VmSim

/-!
# VmLoop — the loop instructions perform the search

`OP_REPEAT_INIT` writes its register without an undo record, `OP_REPEAT_STEP` records
the count and then writes the last position without one.  Both are free to, because no
saved thread below reads the register before the loop is entered again.
-/

namespace Snobol4

open Pat Backtrack

variable {W : Type} {env : VmEnv W} {Γ : LoopTable} {exact : Bool}

section

variable {vm : Vm W} {κ : List BlkItem} {s : Local} {ts : List BlkThread} {k : LoopSpec}
  {body : Blk} {a : Nat}

/-- The number of registers in use matters only to the next choice point. -/
theorem SavedOk.setUsed {known : Nat → Prop} {bound : Int} {st : Store} {cs : List Choice}
    (h : SavedOk env Γ known exact bound st cs ts) (n : Nat) :
    SavedOk env Γ known exact bound { st with maxCounterUsed := n } cs ts :=
  h.congr fun _ hfits => ⟨hfits, .of_eq rfl⟩

/-- The body of a loop begins in front of what stands behind the loop. -/
theorem VmOk.again (h : VmOk env Γ exact vm ⟨κ, s⟩ ts) (hpos : s.pos = vm.pos)
    (hcode : Blk.Code env.bc (.loop k body) a) (hκ : ItemsAt env.bc κ (a + 20 + body.size))
    (hloop : Placed Γ (ctxOf κ) (.loop k body)) (hfree : Free k.id vm.trail vm.choices ts)
    {n used : Nat} (hused : vm.maxCounterUsed ≤ used) (hid : k.id < used) {vm' : Vm W}
    (hstore : vm'.toStore =
      { vm.toStore.setLoop k.id n vm.pos with maxCounterUsed := used })
    (hip : vm'.ip = a + 14) (hpos' : vm'.pos = vm.pos) (hchoices : vm'.choices = vm.choices)
    (hflags : vm'.loopSpanGreedy = vm.loopSpanGreedy)
    (hknown : ∀ i, Known Γ vm i → Known Γ vm' i) (hk : Known Γ vm' k.id) :
    VmOk env Γ exact vm' ⟨.pat body :: .iter k body n s.pos :: κ, s⟩ ts ∧
      SavedOk env Γ (Known Γ vm') exact (floorOf ⟨κ, s⟩) vm'.toStore vm'.choices ts ∧
      floorOf ⟨κ, s⟩ ≤ floorOf ⟨.pat body :: .iter k body n s.pos :: κ, s⟩ := by
  obtain ⟨⟨hinfo, hfresh, hmax⟩, hbody⟩ := hloop
  have hnotlive : k.id ∉ liveIds κ := fun hmem => hfresh (liveIds_subset hmem)
  have hlive : ∀ i ∈ liveIds κ, i ∈ liveIds (.pat body :: .iter k body n s.pos :: κ) := by
    intro i hi
    simp only [liveIds, live]
    split
    · exact hi
    · exact List.mem_cons_of_mem _ hi
  have htrail : vm'.trail = vm.trail := by rw [hstore]; rfl
  -- a loop that counts as greedy has a body that consumes
  have hbound : floorOf ⟨κ, s⟩ ≤ floorOf ⟨.pat body :: .iter k body n s.pos :: κ, s⟩ := by
    have hle : (isGreedy k body).toNat ≤ (body.consumes Leaf.isSpan).toNat := by
      cases hgreedy : isGreedy k body with
      | false => exact Nat.zero_le _
      | true =>
        rw [Blk.consumes_of_startsWithSpan (Bool.and_eq_true_iff.mp hgreedy).2]
    simp only [floorOf, ctxOf, Ctx.before, Ctx.inside]
    omega
  have hsaved : SavedOk env Γ (Known Γ vm') exact (floorOf ⟨κ, s⟩) vm'.toStore vm'.choices ts := by
    rw [hstore, hchoices]
    have hgreedy : (Γ k.id).greedy = true → floorOf ⟨κ, s⟩ ≤ vm.pos - (Γ k.id).lag := by
      intro _
      rw [hinfo]
      simp only [floorOf]
      omega
    exact ((h.saved.setLoop hmax hfree hgreedy).setUsed used).mono hknown le_rfl
  refine ⟨⟨?_, ?_, hsaved.mono (fun _ h => h) hbound, ?_⟩, hsaved, hbound⟩
  · exact
      { standing := by
          refine .items ?_ (hpos.trans hpos'.symm)
          rw [hip]
          exact .pat hcode.loop.2.1 (.iter hcode hκ)
        regs := by
          rw [hstore]
          exact h.thread.regs
        placed := ⟨hbody, ⟨⟨hinfo, hfresh, hmax⟩, hbody⟩, h.thread.placed⟩
        holds := by
          rw [hstore]
          intro r hr
          have hold : ∀ r ∈ live κ, ({ vm.toStore.setLoop k.id n vm.pos with
              maxCounterUsed := used } : Store).counters r.1 = r.2.1 ∧
              ({ vm.toStore.setLoop k.id n vm.pos with maxCounterUsed := used } : Store).loopLastPos
                r.1 = r.2.2 ∧ r.1 < used := by
            intro r hr
            obtain ⟨hcount, hlast, hlt⟩ := h.thread.holds.setLoop hnotlive n vm.pos r hr
            exact ⟨hcount, hlast, lt_of_lt_of_le hlt hused⟩
          simp only [live] at hr
          split at hr
          · exact hold r hr
          · obtain rfl | hr := List.mem_cons.mp hr
            · refine ⟨?_, ?_, hid⟩
              · simp [Store.setLoop]
              · simp [Store.setLoop, hpos]
            · exact hold r hr
        known := by
          intro i hi
          obtain rfl | hi := List.mem_cons.mp hi
          · exact hk
          · exact hknown i (h.thread.known i hi)
        le_length := h.thread.le_length
        pos_le := by
          rw [hpos']
          exact h.thread.pos_le }
  · intro i hi
    rw [htrail, hchoices]
    refine (h.shield i hi).imp_left fun hcovered => ?_
    exact hcovered.imp_right (hlive i)
  · rw [hflags]
    exact h.flags

/-- `OP_REPEAT_INIT` -/
theorem VmOk.turn_enter (h : VmOk env Γ exact vm ⟨.pat (.loop k body) :: κ, s⟩ ts)
    (hfits : NextFits env vm) (hpos : s.pos = vm.pos) (hcode : Blk.Code env.bc (.loop k body) vm.ip)
    (hκ : ItemsAt env.bc κ (vm.ip + 20 + body.size)) :
    Turn env Γ exact vm (.pat (.loop k body) :: κ) s ts := by
  obtain ⟨hfetch, -, -⟩ := hcode.loop
  obtain ⟨hloop, hplaced⟩ := h.thread.placed
  obtain ⟨⟨hinfo, hfresh, hmax⟩, hbody⟩ := id hloop
  refine ⟨_, .enter κ vm.globals (show (vmRules env exact).enter k body s _ from rfl), ?_⟩
  -- behind the loop all is as in front of it
  have hbehind : VmOk env Γ exact { vm with ip := vm.ip + 20 + body.size } ⟨κ, s⟩ ts := by
    refine h.retarget hκ rfl hpos hplaced rfl rfl ?_
    simp only [ctxOf, Ctx.before, Pat.consumes, Bool.toNat_false]
    omega
  have hfree : Free k.id vm.trail vm.choices ts :=
    h.free_of_not_live hmax fun hmem => hfresh (liveIds_subset hmem)
  let vm' : Vm W :=
    { vm with
      toStore :=
        { vm.toStore.setLoop k.id 0 vm.pos with
          maxCounterUsed := Nat.max vm.maxCounterUsed (k.id + 1) }
      ip := vm.ip + 14
      loopMin := Function.update vm.loopMin k.id k.min
      loopMax := Function.update vm.loopMax k.id k.max }
  have hk : Known Γ vm' k.id := by
    rw [Known, hinfo]
    exact ⟨Function.update_self .., Function.update_self ..⟩
  have hknown : ∀ i, Known Γ vm i → Known Γ vm' i := by
    intro i hi
    by_cases heq : i = k.id
    · rw [heq]
      exact hk
    · exact ⟨(Function.update_of_ne heq ..).trans hi.1, (Function.update_of_ne heq ..).trans hi.2⟩
  obtain ⟨hrun, hsaved, hbound⟩ :=
    @VmOk.again _ _ _ _ _ _ _ _ _ _ _ hbehind hpos hcode hκ hloop hfree 0
      (Nat.max vm.maxCounterUsed (k.id + 1)) (Nat.le_max_left ..)
      (lt_of_lt_of_le (Nat.lt_succ_self _) (Nat.le_max_right ..)) vm' rfl rfl rfl rfl rfl hknown hk
  by_cases hmin : k.min = 0
  · have hstep : vmStep env vm =
        .running (vm'.pushChoice env (vm.ip + 20 + body.size) vm.pos) := by
      simp only [vmStep, hfetch, opRepeatInit, if_pos hmax, if_pos hmin]
      rfl
    have hsave : ThreadOk env Γ (Known Γ vm')
        exact (floorOf ⟨.pat body :: .iter k body 0 s.pos :: κ, s⟩) vm'.toStore
        (vm.ip + 20 + body.size) vm.pos ⟨.join :: κ, s⟩ :=
      { standing := .items (.join hκ) hpos
        regs := h.thread.regs
        placed := hplaced
        holds := by
          have hnotlive : k.id ∉ liveIds κ := fun hmem => hfresh (liveIds_subset hmem)
          intro r hr
          obtain ⟨hcount, hlast, hlt⟩ := hbehind.thread.holds.setLoop hnotlive 0 vm.pos r hr
          exact ⟨hcount, hlast, lt_of_lt_of_le hlt (Nat.le_max_left ..)⟩
        known := fun i hi => hknown i (hbehind.thread.known i hi)
        le_length := h.thread.le_length
        pos_le := h.thread.pos_le }
    have htrail := hfits _ hstep
    rw [hstep, decide_eq_true hmin]
    refine .running (hrun.push htrail hsave h.shield ?_ (hsaved.mono (fun _ h => h) ?_))
    · intro i hi
      simp only [liveIds, live]
      split
      · exact hi
      · exact List.mem_cons_of_mem _ hi
    · exact le_min hbound le_rfl
  · have hstep : vmStep env vm = .running vm' := by
      simp only [vmStep, hfetch, opRepeatInit, if_pos hmax, if_neg hmin]
      rfl
    rw [hstep, decide_eq_false hmin]
    exact .running hrun

/-! ## Counting an iteration -/

theorem Store.count_counters (env : VmEnv W) (i n : Nat) (st : Store) :
    (st.count env i n).counters = Function.update st.counters i n ∧
      (st.count env i n).loopLastPos = st.loopLastPos ∧
      (st.count env i n).maxCounterUsed = st.maxCounterUsed := by
  unfold Store.count Store.record
  split <;> exact ⟨rfl, by simp [Store.setLoop], rfl⟩

/-- A counted iteration is not noticed below: in compact mode it is recorded, in legacy
mode the register must be free. -/
theorem SavedOk.count {known : Nat → Prop} {bound : Int} {st : Store} {cs : List Choice} {i : Nat}
    (h : SavedOk env Γ known exact bound st cs ts) (hi : i < maxLoops)
    (hfree : env.compact = false → Free i st.trail cs ts ∧ (Γ i).greedy = false) (n : Nat) :
    SavedOk env Γ known exact bound (st.count env i n) cs ts := by
  cases hcompact : env.compact with
  | true =>
    refine h.congr fun c hfits => ?_
    have htrail : (st.count env i n).trail =
        [.counterDec i (st.counters i) (st.loopLastPos i)] ++ st.trail := by
      simp [Store.count_trail, hcompact]
    refine ⟨by rw [htrail]; exact hfits.append _, .of_eq ?_⟩
    refine Store.restore_of_undoes hcompact hfits htrail ?_
    simp [Store.undo, hi, Store.count, Store.record, hcompact, Store.withScalars, Store.setLoop]
  | false =>
    obtain ⟨hfree, hgreedy⟩ := hfree hcompact
    have hcount : st.count env i n = st.setLoop i n (st.loopLastPos i) := by
      simp [Store.count, Store.record, hcompact]
    rw [hcount]
    exact h.setLoop hi hfree fun hgr => by simp [hgreedy] at hgr

/-- A register that is free stays free when an iteration is counted. -/
theorem Free.count {st : Store} {cs : List Choice} {i j : Nat}
    (hfits : ∀ c ∈ cs.head?, Store.Fits env c st.trail) (h : Free j st.trail cs ts) (n : Nat) :
    Free j (st.count env i n).trail cs ts := by
  rw [Store.count_trail]
  split
  · rename_i hcompact
    exact h.append hcompact hfits [_]
  · exact h

/-- The register of the counted loop is free afterwards. -/
theorem Free.of_count {st : Store} {cs : List Choice} {i : Nat}
    (hfits : ∀ c ∈ cs.head?, Store.Fits env c st.trail)
    (h : env.compact = false → Free i st.trail cs ts) (n : Nat) :
    Free i (st.count env i n).trail cs ts := by
  rw [Store.count_trail]
  split
  · rename_i hcompact
    exact Free.of_record hcompact hfits rfl
  · rename_i hcompact
    exact h (by simpa using hcompact)

/-- The loop is left behind a counted iteration. -/
theorem VmOk.counted {count mark : Nat} (h : VmOk env Γ exact vm ⟨.iter k body count mark :: κ, s⟩ ts)
    (hpos : s.pos = vm.pos) (hκ : ItemsAt env.bc κ (a + 20 + body.size))
    (hgreedy : isGreedy k body = false) (n : Nat) :
    VmOk env Γ exact
        { vm with
          toStore := vm.toStore.count env k.id n
          ip := a + 20 + body.size } ⟨κ, s⟩ ts ∧
      Free k.id (vm.toStore.count env k.id n).trail vm.choices ts := by
  obtain ⟨⟨⟨hinfo, hfresh, hmax⟩, -⟩, hplaced⟩ := h.thread.placed
  have hlive : live (.iter k body count mark :: κ) = (k.id, count, mark) :: live κ := by
    simp [live, hgreedy]
  have hnotlive : k.id ∉ liveIds κ := fun hmem => hfresh (liveIds_subset hmem)
  have hlegacy : env.compact = false → Free k.id vm.trail vm.choices ts ∧ (Γ k.id).greedy = false := by
    intro hcompact
    exact ⟨h.free_of_legacy hmax hcompact, by rw [hinfo]; exact hgreedy⟩
  have hfree := Free.of_count h.saved.fits (fun hcompact => (hlegacy hcompact).1) n
  obtain ⟨hcounters, hlast, hused⟩ := Store.count_counters env k.id n vm.toStore
  refine ⟨⟨?_, ?_, ?_, h.flags⟩, hfree⟩
  · exact
      { standing := .items hκ hpos
        regs := by
          intro hexact
          exact (h.thread.regs hexact).trans (Store.count_regs ..).symm
        placed := hplaced
        holds := by
          intro r hr
          have hmem : r ∈ live (.iter k body count mark :: κ) := by
            rw [hlive]
            exact List.mem_cons_of_mem _ hr
          have hne : r.1 ≠ k.id := fun heq => hnotlive (List.mem_map.mpr ⟨r, hr, heq⟩)
          simp only [hcounters, hlast, hused, Function.update_of_ne hne]
          exact h.thread.holds r hmem
        known := fun i hi => h.thread.known i (List.mem_cons_of_mem _ hi)
        le_length := h.thread.le_length
        pos_le := h.thread.pos_le }
  · intro i hi
    by_cases heq : i = k.id
    · rw [heq]
      exact .inr hfree
    · refine (h.shield i hi).imp ?_ fun hfree => hfree.count h.saved.fits n
      intro hcovered
      obtain ⟨hcompact, hmem⟩ := hcovered
      refine ⟨hcompact, ?_⟩
      simp only [liveIds, hlive, List.map_cons, List.mem_cons] at hmem
      exact hmem.resolve_left heq
  · refine (h.saved.count hmax hlegacy n).mono (fun _ h => h) ?_
    simp only [floorOf, ctxOf, Ctx.inside]
    omega

/-! ## Iterating -/

/-- Where the next instruction takes the greedy shortcut. -/
theorem takesGreedy_eq {target : Nat} (hflags : ∀ i, vm.loopSpanGreedy i = true → (Γ i).greedy = true)
    (hknown : Known Γ vm k.id) (hcode : Blk.Code env.bc (.loop k body) a) {lag : Nat}
    (hinfo : Γ k.id = ⟨k, isGreedy k body, lag⟩) (htarget : target = a + 14) :
    takesGreedy env k.id target vm = isGreedy k body := by
  subst htarget
  have hmax : vm.loopMax k.id = k.max := by rw [hknown.2, hinfo]
  have hiff := isGreedy_iff hcode
  cases hgreedy : isGreedy k body with
  | true =>
    obtain ⟨hunb, hspan⟩ := hiff.mp hgreedy
    simp [takesGreedy, hmax, hunb, hspan]
  | false =>
    have hflag : vm.loopSpanGreedy k.id = false := by
      cases hflag : vm.loopSpanGreedy k.id with
      | false => rfl
      | true =>
        have := hflags _ hflag
        rw [hinfo, hgreedy] at this
        cases this
    have hnot : ¬(k.max = unbounded ∧ env.bc[a + 14]? = some OpCode.span.code) := by
      intro h
      have := hiff.mpr h
      rw [hgreedy] at this
      cases this
    simp only [takesGreedy, hflag, Bool.false_or, hmax]
    simpa using hnot

/-- One more iteration behind a counted one, with or without a saved exit. -/
theorem VmOk.iterated {count mark : Nat} (h : VmOk env Γ exact vm ⟨.iter k body count mark :: κ, s⟩ ts)
    (hpos : s.pos = vm.pos) (hcode : Blk.Code env.bc (.loop k body) a)
    (hκ : ItemsAt env.bc κ (a + 20 + body.size)) (hgreedy : isGreedy k body = false) (n : Nat)
    (hfits : (vm.toStore.count env k.id n).TrailFits env) :
    VmOk env Γ exact
        { vm with
          toStore := (vm.toStore.count env k.id n).setLoop k.id n vm.pos
          ip := a + 14 } ⟨.pat body :: .iter k body n s.pos :: κ, s⟩ ts ∧
      VmOk env Γ exact
        { vm with
          toStore := (vm.toStore.count env k.id n).setLoop k.id n vm.pos
          ip := a + 14
          choices :=
            (vm.toStore.count env k.id n).choice env (a + 20 + body.size) vm.pos :: vm.choices }
        ⟨.pat body :: .iter k body n s.pos :: κ, s⟩ (⟨.join :: κ, s⟩ :: ts) := by
  obtain ⟨hexit, hfree⟩ := h.counted hpos hκ hgreedy n
  have hloop : Placed Γ (ctxOf κ) (.loop k body) := h.thread.placed.1
  have hknown : Known Γ vm k.id := h.thread.known k.id List.mem_cons_self
  have hid : k.id < (vm.toStore.count env k.id n).maxCounterUsed := by
    have hmem : (k.id, count, mark) ∈ live (.iter k body count mark :: κ) := by
      simp [live, hgreedy]
    rw [(Store.count_counters env k.id n vm.toStore).2.2]
    exact (h.thread.holds _ hmem).2.2
  have hnotlive : k.id ∉ liveIds κ := fun hmem => hloop.1.2.1 (liveIds_subset hmem)
  constructor
  · exact (@VmOk.again _ _ _ _ _ _ _ _ _ _ _ hexit hpos hcode hκ hloop hfree n _ le_rfl hid
      { vm with
        toStore := (vm.toStore.count env k.id n).setLoop k.id n vm.pos
        ip := a + 14 } rfl rfl rfl rfl rfl (fun _ h => h) hknown).1
  · -- the exit is saved before the last position is written
    have hsave : ThreadOk env Γ (Known Γ vm) exact (floorOf ⟨κ, s⟩) (vm.toStore.count env k.id n)
        (a + 20 + body.size) vm.pos ⟨.join :: κ, s⟩ :=
      hexit.thread.retarget (.join hκ) rfl hpos hexit.thread.placed rfl rfl
    have hpushed := hexit.push hfits hsave hexit.shield (fun _ h => h)
      (hexit.saved.mono (fun _ h => h) (le_min le_rfl le_rfl))
    have hfree' : Free k.id (vm.toStore.count env k.id n).trail
        ((vm.toStore.count env k.id n).choice env (a + 20 + body.size) vm.pos :: vm.choices)
        (⟨.join :: κ, s⟩ :: ts) := hfree.push hfits hnotlive _ _
    exact (@VmOk.again _ _ _ _ _ _ _ _ _ _ _ hpushed hpos hcode hκ hloop hfree' n _ le_rfl hid
      { vm with
        toStore := (vm.toStore.count env k.id n).setLoop k.id n vm.pos
        ip := a + 14
        choices :=
          (vm.toStore.count env k.id n).choice env (a + 20 + body.size) vm.pos :: vm.choices }
      rfl rfl rfl rfl rfl (fun _ h => h) hknown).1

/-- An iteration leaves the record of its count on the trail. -/
theorem opRepeatIterate_trail (env : VmEnv W) (loop target : Nat) (vm : Vm W) :
    (opRepeatIterate env loop target vm).trail =
      (vm.toStore.count env loop ((vm.counters loop + 1) % 2 ^ 32)).trail := by
  simp only [opRepeatIterate]
  split
  · rfl
  split
  · split
    · rfl
    split <;> rfl
  · rfl

/-- `OP_REPEAT_STEP`, one iteration at a time. -/
theorem VmOk.turn_iterate {count mark : Nat}
    (h : VmOk env Γ exact vm ⟨.iter k body count mark :: κ, s⟩ ts) (hfits : NextFits env vm)
    (hpos : s.pos = vm.pos)
    (hip : vm.ip = a + 14 + body.size) (hcode : Blk.Code env.bc (.loop k body) a)
    (hκ : ItemsAt env.bc κ (a + 20 + body.size)) (hgreedy : isGreedy k body = false) :
    Turn env Γ exact vm (.iter k body count mark :: κ) s ts := by
  obtain ⟨-, -, hfetch⟩ := hcode.loop
  obtain ⟨⟨hinfo, hfresh, hmax⟩, hbody⟩ := h.thread.placed.1
  have hknown : Known Γ vm k.id := h.thread.known k.id List.mem_cons_self
  have hmin : vm.loopMin k.id = k.min := by rw [hknown.1, hinfo]
  have hmaxEq : vm.loopMax k.id = k.max := by rw [hknown.2, hinfo]
  have hmem : (k.id, count, mark) ∈ live (.iter k body count mark :: κ) := by
    simp [live, hgreedy]
  obtain ⟨hcount, hlast, -⟩ := h.thread.holds _ hmem
  simp only at hcount hlast
  have hbounds := hcode.fits.1
  have htakes : takesGreedy env k.id (a + 14) { vm with ip := a + 20 + body.size } = false := by
    rw [← hgreedy]
    exact takesGreedy_eq h.flags hknown hcode hinfo rfl
  refine ⟨(loopIterate env.s.length k count mark s).move k body κ s vm.globals,
    .step κ vm.globals ?_, ?_⟩
  · simp only [vmRules, hgreedy, Bool.false_eq_true, if_false]
    exact ⟨hbounds.2.1, hbounds.2.2, trivial⟩
  · have hstep : vmStep env vm =
        .running (opRepeatIterate env k.id (a + 14) { vm with ip := a + 20 + body.size }) := by
      rw [← hip] at hfetch
      simp only [vmStep, hfetch, opRepeatStep, if_pos hmax, htakes, Bool.false_eq_true, if_false]
    obtain ⟨hexit, -⟩ := h.counted hpos hκ hgreedy ((count + 1) % 2 ^ 32)
    have htrail : (vm.toStore.count env k.id ((count + 1) % 2 ^ 32)).TrailFits env := by
      have hnext := hfits _ hstep
      rw [Store.TrailFits, opRepeatIterate_trail, hcount] at hnext
      exact hnext
    obtain ⟨hagain, hagain'⟩ := h.iterated hpos hcode hκ hgreedy ((count + 1) % 2 ^ 32) htrail
    rw [hstep]
    simp only [opRepeatIterate, loopIterate, hcount, hlast, hmin, hmaxEq, hpos]
    rw [hpos] at hagain hagain'
    split
    · exact .running hagain
    split
    · split
      · exact .running hexit
      split
      · exact .running hexit
      · exact .running hagain'
    · exact .running hexit

/-! ## The greedy shortcut -/

/-- The end of the run, or the cursor where the shortcut finds no class. -/
def greedyStop (env : VmEnv W) (target pos : Nat) : Nat := (greedyRunEnd env target pos).getD pos

/-- The class of the shortcut does not depend on the cursor. -/
theorem greedyRunEnd_cases (env : VmEnv W) (target : Nat) :
    (∀ pos, greedyRunEnd env target pos = none) ∨
      ∃ bitmap, ∀ pos, greedyRunEnd env target pos = some (spanBytes env.s bitmap pos) := by
  unfold greedyRunEnd
  split
  · exact .inl fun _ => rfl
  split
  · exact .inl fun _ => rfl
  · rename_i ranges _ _
    cases rangesToBitmap 255 ranges with
    | none => exact .inl fun _ => rfl
    | some bitmap => exact .inr ⟨bitmap, fun _ => rfl⟩

theorem greedyStop_bounds (env : VmEnv W) (target : Nat) {pos : Nat} (h : pos ≤ env.s.length) :
    pos ≤ greedyStop env target pos ∧ greedyStop env target pos ≤ env.s.length := by
  unfold greedyStop
  obtain hnone | ⟨bitmap, hsome⟩ := greedyRunEnd_cases env target
  · rw [hnone]
    exact ⟨le_rfl, h⟩
  · rw [hsome]
    exact spanBytes_bounds env.s bitmap h

/-- A scan that starts one byte earlier stops no later. -/
theorem spanBytes_pred (s : Bytes) (p : UInt8 → Bool) (pos : Nat) :
    spanBytes s p (spanBytes s p pos - 1) ≤ spanBytes s p pos := by
  by_cases hzero : spanBytes s p pos = 0
  · have hpos : pos = 0 := by
      unfold spanBytes at hzero
      omega
    subst hpos
    rw [hzero]
    exact hzero.le
  · have hend : ∀ b, s[spanBytes s p pos]? = some b → p b = false := by
      intro b hb
      exact spanBytes_stop hb
    have hdrop : ((s.drop (spanBytes s p pos)).takeWhile p) = [] := by
      cases hrest : s.drop (spanBytes s p pos) with
      | nil => rfl
      | cons b rest =>
        have hb : s[spanBytes s p pos]? = some b := by
          rw [← List.head?_drop, hrest]
          rfl
        simp [hend b hb]
    obtain ⟨n, hn⟩ := Nat.exists_eq_succ_of_ne_zero hzero
    rw [hn, Nat.succ_sub_one]
    rw [hn] at hdrop
    unfold spanBytes
    cases hrest : s.drop n with
    | nil => simp
    | cons b rest =>
      have hrest' : s.drop (n + 1) = rest := by
        rw [← List.drop_drop, hrest]
        rfl
      rw [hrest'] at hdrop
      rw [List.takeWhile_cons]
      split
      · simp [hdrop]
      · simp

theorem greedyStop_pred (env : VmEnv W) (target pos : Nat) :
    greedyStop env target (greedyStop env target pos - 1) ≤ greedyStop env target pos := by
  unfold greedyStop
  obtain hnone | ⟨bitmap, hsome⟩ := greedyRunEnd_cases env target
  · simp only [hnone, Option.getD_none]
    exact Nat.sub_le ..
  · simp only [hsome, Option.getD_some]
    exact spanBytes_pred env.s bitmap pos

theorem addInt32_eq {pos stop : Nat} (hle : pos ≤ stop) (hlt : stop - pos < 2 ^ 31) :
    addInt32 pos (stop - pos) = stop := by
  unfold addInt32
  rw [Nat.mod_eq_of_lt (by omega), if_pos hlt]
  omega

/-- The run of the shortcut: the cursor and the store behind it. -/
theorem greedyExtend_eq (env : VmEnv W) (loop target : Nat) (vm : Vm W)
    (hpos : vm.pos ≤ env.s.length)
    (hshort : ∀ stop ∈ greedyRunEnd env target vm.pos, stop - vm.pos < 2 ^ 31) :
    ∃ st, (st = vm.toStore ∨ ∃ n, st = vm.toStore.count env loop n) ∧
      greedyExtend env loop target vm =
        { vm with
          toStore := st
          pos := greedyStop env target vm.pos } := by
  have hbounds := greedyStop_bounds env target hpos
  cases hrun : greedyRunEnd env target vm.pos with
  | none =>
    refine ⟨vm.toStore, .inl rfl, ?_⟩
    simp only [greedyExtend, greedyStop, hrun, Option.getD_none]
  | some stop =>
    simp only [greedyStop, hrun, Option.getD_some] at hbounds
    refine ⟨vm.toStore.count env loop ((vm.counters loop + 1 + (stop - vm.pos)) % 2 ^ 32),
      .inr ⟨_, rfl⟩, ?_⟩
    simp only [greedyExtend, greedyStop, hrun, Option.getD_some,
      addInt32_eq hbounds.1 (hshort stop (by simp [hrun]))]

/-- The shortcut leaves the loop. -/
theorem VmOk.exited {t : BlkThread} (h : VmOk env Γ exact vm t ts) (hcompact : env.compact = true)
    (hκ : ItemsAt env.bc κ (a + 20 + body.size)) (hplaced : ItemsPlaced Γ κ)
    (hlive : live t.items = live κ) (hids : ∀ i ∈ (ctxOf κ).ids, Known Γ vm i)
    (hregs : exact = true → s.regs = vm.regs) (hinfo : Γ k.id = ⟨k, true, (ctxOf κ).lag⟩)
    (hmax : k.id < maxLoops) {st : Store}
    (hst : st = vm.toStore ∨ ∃ n, st = vm.toStore.count env k.id n) {n stop : Nat}
    (hlen : stop ≤ env.s.length) (hfloor : floorOf t ≤ stop - (ctxOf κ).lag) {vm' : Vm W}
    (hstore : vm'.toStore = st.setLoop k.id n stop) (hip : vm'.ip = a + 20 + body.size)
    (hpos : vm'.pos = stop) (hchoices : vm'.choices = vm.choices)
    (hflags : vm'.loopSpanGreedy = Function.update vm.loopSpanGreedy k.id true)
    (hknown : ∀ i, Known Γ vm i → Known Γ vm' i) :
    VmOk env Γ exact vm' ⟨κ, ⟨stop, s.regs⟩⟩ ts ∧
      SavedOk env Γ (Known Γ vm') exact (floorOf t) vm'.toStore vm'.choices ts := by
  -- a greedy loop keeps no count, so its registers are in use nowhere
  have hnotlive : k.id ∉ liveIds κ := by
    intro hmem
    have := not_greedy_of_live hplaced hmem
    rw [hinfo] at this
    cases this
  have hlegacy : env.compact = false → Free k.id vm.trail vm.choices ts ∧ (Γ k.id).greedy = false := by
    rw [hcompact]
    intro h
    cases h
  -- an extension is counted, so nothing below notices it
  have hsaved : SavedOk env Γ (Known Γ vm) exact (floorOf t) st vm.choices ts := by
    obtain rfl | ⟨n, rfl⟩ := hst
    · exact h.saved
    · exact h.saved.count hmax hlegacy n
  have hfree : ∀ j, Free j vm.trail vm.choices ts → Free j st.trail vm.choices ts := by
    intro j hj
    obtain rfl | ⟨n, rfl⟩ := hst
    · exact hj
    · exact hj.count h.saved.fits n
  have hfreek : Free k.id st.trail vm.choices ts := by
    refine hfree _ (h.free_of_not_live hmax ?_)
    rwa [liveIds, hlive]
  have hregs' : st.regs = vm.regs := by
    obtain rfl | ⟨n, rfl⟩ := hst
    · rfl
    · exact Store.count_regs ..
  -- counting writes the registers of this loop only
  have hholds : st.Holds κ := by
    obtain rfl | ⟨n, rfl⟩ := hst
    · intro r hr
      exact h.thread.holds r (hlive ▸ hr)
    · intro r hr
      have hne : r.1 ≠ k.id := fun heq => hnotlive (List.mem_map.mpr ⟨r, hr, heq⟩)
      obtain ⟨hcounters, hlast, hused⟩ := Store.count_counters env k.id n vm.toStore
      rw [hcounters, hlast, hused, Function.update_of_ne hne]
      exact h.thread.holds r (hlive ▸ hr)
  have hsaved' : SavedOk env Γ (Known Γ vm') exact (floorOf t) vm'.toStore vm'.choices ts := by
    rw [hstore, hchoices]
    refine (hsaved.setLoop hmax hfreek fun _ => ?_).mono hknown le_rfl
    rw [hinfo]
    exact hfloor
  refine ⟨⟨?_, ?_, hsaved'.mono (fun _ h => h) hfloor, ?_⟩, hsaved'⟩
  · exact
      { standing := .items (hip ▸ hκ) hpos.symm
        regs := by
          intro hexact
          rw [hstore]
          exact (hregs hexact).trans hregs'.symm
        placed := hplaced
        holds := by
          rw [hstore]
          exact hholds.setLoop hnotlive n stop
        known := fun i hi => hknown i (hids i hi)
        le_length := hlen
        pos_le := by
          rw [hpos]
          exact hlen }
  · intro i hi
    rw [hstore, hchoices]
    refine (h.shield i hi).imp ?_ (hfree i)
    rw [liveIds, hlive]
    exact fun h => h
  · intro i hi
    rw [hflags] at hi
    by_cases heq : i = k.id
    · rw [heq, hinfo]
    · rw [Function.update_of_ne heq] at hi
      exact h.flags i hi

/-- In compact mode a record does not hold the loop registers. -/
theorem Store.choice_setLoop (hcompact : env.compact = true) (st : Store) (i n p ip pos : Nat) :
    (st.setLoop i n p).choice env ip pos = st.choice env ip pos := by
  simp [Store.choice, hcompact, Store.setLoop]

/-- `OP_REPEAT_STEP`, the greedy shortcut: one retry is saved, which runs the shortcut
again one byte before. -/
theorem VmOk.turn_greedy {count mark : Nat}
    (h : VmOk env Γ exact vm ⟨.iter k body count mark :: κ, s⟩ ts) (hfits : NextFits env vm)
    (hpos : s.pos = vm.pos)
    (hip : vm.ip = a + 14 + body.size) (hcode : Blk.Code env.bc (.loop k body) a)
    (hκ : ItemsAt env.bc κ (a + 20 + body.size)) (hgreedy : isGreedy k body = true)
    (hok : GreedyOk env vm) : Turn env Γ exact vm (.iter k body count mark :: κ) s ts := by
  obtain ⟨-, -, hfetch⟩ := hcode.loop
  obtain ⟨⟨⟨hinfo, hfresh, hmax⟩, hbody⟩, hplaced⟩ := h.thread.placed
  have hknown : Known Γ vm k.id := h.thread.known k.id List.mem_cons_self
  have hlive : live (.iter k body count mark :: κ) = live κ := by simp [live, hgreedy]
  rw [← hip] at hfetch
  have htakes : takesGreedy env k.id (a + 14) vm = true := by
    rw [← hgreedy]
    exact takesGreedy_eq h.flags hknown hcode hinfo rfl
  obtain ⟨hcompact, hshort⟩ := hok _ _ _ hfetch htakes
  rw [hgreedy] at hinfo
  have hle : vm.pos ≤ env.s.length := h.thread.pos_le
  obtain ⟨hstop, hlen⟩ := greedyStop_bounds env (a + 14) hle
  obtain ⟨st, hst, hextend⟩ := greedyExtend_eq env k.id (a + 14)
    { vm with
      ip := a + 20 + body.size
      loopSpanGreedy := Function.update vm.loopSpanGreedy k.id true } hle hshort
  let vm' : Vm W :=
    { vm with
      toStore := st.setLoop k.id (st.counters k.id) (greedyStop env (a + 14) vm.pos)
      ip := a + 20 + body.size
      pos := greedyStop env (a + 14) vm.pos
      loopSpanGreedy := Function.update vm.loopSpanGreedy k.id true }
  have hfloor : floorOf ⟨.iter k body count mark :: κ, s⟩ ≤
      (greedyStop env (a + 14) vm.pos : Int) - (ctxOf κ).lag := by
    simp only [floorOf, ctxOf, Ctx.inside]
    omega
  obtain ⟨hrun, hsaved⟩ := @VmOk.exited _ _ _ _ vm κ s ts k body a _ h hcompact hκ hplaced hlive
    (fun i hi => h.thread.known i (List.mem_cons_of_mem _ hi)) h.thread.regs hinfo hmax st hst
    (st.counters k.id) _ hlen hfloor vm' rfl rfl rfl rfl rfl (fun _ h => h)
  have hstep : vmStep env vm = .running
      (if st.loopLastPos k.id < greedyStop env (a + 14) vm.pos then
        vm'.pushChoice env (a + 14 + body.size) (greedyStop env (a + 14) vm.pos - 1)
      else vm') := by
    have htakes' : takesGreedy env k.id (a + 14) { vm with ip := a + 20 + body.size } = true :=
      htakes
    have hback : a + 20 + body.size - 6 = a + 14 + body.size := by omega
    simp only [vmStep, hfetch, opRepeatStep, if_pos hmax, htakes', if_true, opRepeatGreedy, hextend,
      hback]
    split
    · simp only [Vm.pushChoice, vm', Store.choice_setLoop hcompact]
    · rfl
  by_cases hlt : st.loopLastPos k.id < greedyStop env (a + 14) vm.pos
  · -- the retry: the shortcut one byte before the end of the run
    let back := greedyStop env (a + 14) (greedyStop env (a + 14) vm.pos - 1)
    have hback : back ≤ greedyStop env (a + 14) vm.pos := greedyStop_pred env (a + 14) vm.pos
    have hback' : greedyStop env (a + 14) vm.pos - 1 ≤ back :=
      (greedyStop_bounds env (a + 14) (by omega)).1
    refine ⟨_, .step κ vm.globals (m := .exit ⟨greedyStop env (a + 14) vm.pos, s.regs⟩
      (some ⟨back, s.regs⟩)) ?_, ?_⟩
    · simp only [vmRules, hgreedy, if_true]
      refine ⟨_, some back, rfl, by omega, hlen, ?_⟩
      intro r hr
      obtain rfl : back = r := by simpa using hr
      omega
    · rw [if_pos hlt] at hstep
      have htrail := hfits _ hstep
      rw [hstep]
      refine .running (hrun.push htrail ?_ ?_ (fun _ h => h) (hsaved.mono (fun _ h => h) ?_))
      · exact
          { standing := by
              refine .retry hcode rfl hκ hgreedy hinfo hmax hknown rfl ?_ ?_
              · simp only [vm', Store.setLoop, Function.update_self]
                exact hback
              · simp only [floorOf, ctxOf]
                omega
            regs := hrun.thread.regs
            placed := hplaced
            holds := hrun.thread.holds
            known := hrun.thread.known
            le_length := hback.trans hlen
            pos_le := (Nat.sub_le ..).trans hlen }
      · exact hrun.shield
      · simp only [floorOf, ctxOf, Ctx.inside, hgreedy, Bool.toNat_true]
        omega
  · refine ⟨_, .step κ vm.globals (m := .exit ⟨greedyStop env (a + 14) vm.pos, s.regs⟩ none) ?_, ?_⟩
    · simp only [vmRules, hgreedy, if_true]
      exact ⟨_, none, rfl, by omega, hlen, by simp⟩
    · rw [hstep, if_neg hlt]
      exact .running hrun

/-- A retry of the shortcut leaves the loop for good. -/
theorem VmOk.turn_retry (h : VmOk env Γ exact vm ⟨.join :: κ, s⟩ ts)
    (hcode : Blk.Code env.bc (.loop k body) a) (hip : vm.ip = a + 14 + body.size)
    (hκ : ItemsAt env.bc κ (a + 20 + body.size)) (hgreedy : isGreedy k body = true)
    (hinfo : Γ k.id = ⟨k, true, (ctxOf κ).lag⟩) (hknown : Known Γ vm k.id)
    (hmax : k.id < maxLoops) (hpos : s.pos = greedyStop env (a + 14) vm.pos)
    (hdone : s.pos ≤ vm.loopLastPos k.id) (hok : GreedyOk env vm) :
    Turn env Γ exact vm (.join :: κ) s ts := by
  obtain ⟨-, -, hfetch⟩ := hcode.loop
  rw [← hip] at hfetch
  have htakes : takesGreedy env k.id (a + 14) vm = true := by
    rw [← hgreedy]
    exact takesGreedy_eq h.flags hknown hcode (by rw [hinfo, hgreedy]) rfl
  obtain ⟨hcompact, hshort⟩ := hok _ _ _ hfetch htakes
  have hle : vm.pos ≤ env.s.length := h.thread.pos_le
  obtain ⟨st, hst, hextend⟩ := greedyExtend_eq env k.id (a + 14)
    { vm with
      ip := a + 20 + body.size
      loopSpanGreedy := Function.update vm.loopSpanGreedy k.id true } hle hshort
  have hlast : st.loopLastPos = vm.loopLastPos := by
    obtain rfl | ⟨n, rfl⟩ := hst
    · rfl
    · exact (Store.count_counters env k.id n vm.toStore).2.1
  let vm' : Vm W :=
    { vm with
      toStore := st.setLoop k.id (st.counters k.id) (greedyStop env (a + 14) vm.pos)
      ip := a + 20 + body.size
      pos := greedyStop env (a + 14) vm.pos
      loopSpanGreedy := Function.update vm.loopSpanGreedy k.id true }
  have hfloor : floorOf ⟨.join :: κ, s⟩ ≤
      (greedyStop env (a + 14) vm.pos : Int) - (ctxOf κ).lag := by
    simp only [floorOf, ctxOf]
    omega
  obtain ⟨hrun, -⟩ := @VmOk.exited _ _ _ _ vm κ s ts k body a _ h hcompact hκ h.thread.placed rfl
    h.thread.known h.thread.regs hinfo hmax st hst
    (st.counters k.id) _ (greedyStop_bounds env (a + 14) hle).2 hfloor vm' rfl rfl rfl rfl rfl
    (fun _ h => h)
  have hstep : vmStep env vm = .running vm' := by
    have htakes' : takesGreedy env k.id (a + 14) { vm with ip := a + 20 + body.size } = true :=
      htakes
    have hnot : ¬vm.loopLastPos k.id < greedyStop env (a + 14) vm.pos := by omega
    simp only [vmStep, hfetch, opRepeatStep, if_pos hmax, htakes', if_true, opRepeatGreedy, hextend,
      hlast, if_neg hnot]
    rfl
  rw [← hpos] at hrun
  refine ⟨_, .join κ s vm.globals, ?_⟩
  rw [hstep]
  exact .running hrun

end

end Snobol4
