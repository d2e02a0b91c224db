import Snobol4.VmResume

/-!
# VmSim — `vm_run` performs the search

Every turn of the dispatch loop is a step of the search over the structured code,
after the silent steps that lead to an instruction.
-/

namespace Snobol4

open Pat Backtrack

variable {W : Type} {env : VmEnv W} {Γ : LoopTable} {exact : Bool}

/-- The loop was initialised with its bounds. -/
def Known (Γ : LoopTable) (vm : Vm W) (i : Nat) : Prop :=
  vm.loopMin i = (Γ i).spec.min ∧ vm.loopMax i = (Γ i).spec.max

/-- The VM stands for the running thread `t` and the saved threads `ts`. -/
structure VmOk (env : VmEnv W) (Γ : LoopTable) (exact : Bool) (vm : Vm W) (t : BlkThread)
    (ts : List BlkThread) : Prop where
  thread : ThreadOk env Γ (Known Γ vm) exact (floorOf t) vm.toStore vm.ip vm.pos t
  shield : Shielded env t.items vm.trail vm.choices ts
  saved : SavedOk env Γ (Known Γ vm) exact (floorOf t) vm.toStore vm.choices ts
  flags : ∀ i, vm.loopSpanGreedy i = true → (Γ i).greedy = true

/-- The register of a loop that is not open is free. -/
theorem VmOk.free_of_not_live {vm : Vm W} {t : BlkThread} {ts : List BlkThread}
    (h : VmOk env Γ exact vm t ts) {i : Nat} (hi : i < maxLoops) (hnot : i ∉ liveIds t.items) :
    Free i vm.trail vm.choices ts := by
  obtain ⟨-, hlive⟩ | hfree := h.shield i hi
  · exact absurd hlive hnot
  · exact hfree

/-- In legacy mode every loop register is free. -/
theorem VmOk.free_of_legacy {vm : Vm W} {t : BlkThread} {ts : List BlkThread}
    (h : VmOk env Γ exact vm t ts) {i : Nat} (hi : i < maxLoops) (hlegacy : env.compact = false) :
    Free i vm.trail vm.choices ts := by
  obtain ⟨hcompact, -⟩ | hfree := h.shield i hi
  · rw [hlegacy] at hcompact
    cases hcompact
  · exact hfree

/-- The outcome of a turn stands for the configuration of the search. -/
inductive Matches (env : VmEnv W) (Γ : LoopTable) (exact : Bool) :
    StepResult W → Config BlkThread Local (Globals W) → Prop where
  | running {vm : Vm W} {t : BlkThread} {ts : List BlkThread} (h : VmOk env Γ exact vm t ts) :
      Matches env Γ exact (.running vm) (.run t vm.globals ts)
  | success {vm : Vm W} {s : Local} (hpos : s.pos = vm.pos)
      (hregs : exact = true → s.regs = vm.regs) :
      Matches env Γ exact (.halted true vm) (.done (.success s vm.globals))
  | failure {vm : Vm W} : Matches env Γ exact (.halted false vm) (.done (.failure vm.globals))

/-- The greedy shortcut runs in compact mode and moves the cursor by less than 2³¹. -/
def GreedyOk (env : VmEnv W) (vm : Vm W) : Prop :=
  ∀ loop target next, fetch env.bc vm.ip = some (.repeatStep loop target, next) →
    takesGreedy env loop target vm = true →
      env.compact = true ∧ ∀ stop ∈ greedyRunEnd env target vm.pos, stop - vm.pos < 2 ^ 31

/-! ## Resuming a saved thread -/

theorem ThreadOk.rebound {known : Nat → Prop} {bound : Int} {st : Store} {ip pos : Nat}
    {t : BlkThread} (h : ThreadOk env Γ known exact bound st ip pos t) :
    ThreadOk env Γ known exact (floorOf t) st ip pos t := by
  refine { h with standing := ?_ }
  cases h.standing with
  | items hitems hpos => exact .items hitems hpos
  | retry hcode hip hκ hgreedy hinfo hmax hknown hpos hdone _ =>
    exact .retry hcode hip hκ hgreedy hinfo hmax hknown hpos hdone le_rfl

/-- Backtracking resumes the newest saved thread. -/
theorem Matches.backtrack {vm : Vm W} {bound : Int} {ts : List BlkThread}
    (hsaved : SavedOk env Γ (Known Γ vm) exact bound vm.toStore vm.choices ts)
    (hflags : ∀ i, vm.loopSpanGreedy i = true → (Γ i).greedy = true) :
    Matches env Γ exact vm.backtrack (resume vm.globals ts) := by
  unfold Vm.backtrack
  cases hchoices : vm.choices with
  | nil =>
    rw [hchoices] at hsaved
    cases ts with
    | nil => exact .failure
    | cons t ts => exact absurd hsaved not_false
  | cons c cs =>
    rw [hchoices] at hsaved
    cases ts with
    | nil => exact absurd hsaved not_false
    | cons t ts =>
      obtain ⟨hfits, ht, hshield, hrest⟩ := hsaved
      rw [← Store.restore_trail] at hshield
      have hok : VmOk env Γ exact (vm.restore c cs) t ts :=
        { thread := ht.rebound
          shield := hshield
          saved := hrest.mono (fun _ h => h) (by omega)
          flags := hflags }
      exact .running hok

/-- A bare `break` ends the run. -/
theorem Matches.leave {vm : Vm W} :
    Matches env Γ exact vm.leave (.done (.failure vm.globals)) := by
  unfold Vm.leave
  split
  · exact .failure
  · rename_i c cs _
    exact @Matches.failure _ _ _ _ (vm.restore c cs)

/-! ## Silent steps -/

theorem HeadAt.items {bc : Bytes} {κ : List BlkItem} {ip : Nat} (h : HeadAt bc κ ip) :
    ItemsAt bc κ ip := by
  cases h with
  | accept h => exact .accept h
  | leaf h hκ => exact .pat h hκ
  | alt h hκ => exact .pat h (by simpa only [Blk.size, ← Nat.add_assoc] using hκ)
  | loop h hκ => exact .pat h (by simpa only [Blk.size, ← Nat.add_assoc] using hκ)
  | jmp h hκ => exact .jmp h hκ
  | iter h hκ => exact .iter h hκ

/-- A thread with the same state that stands elsewhere, with the same open loops. -/
theorem ThreadOk.retarget {known : Nat → Prop} {bound bound' : Int} {st : Store} {ip ip' pos : Nat}
    {t u : BlkThread} (h : ThreadOk env Γ known exact bound st ip pos t)
    (hitems : ItemsAt env.bc u.items ip') (hstate : u.state = t.state) (hpos : u.state.pos = pos)
    (hplaced : ItemsPlaced Γ u.items) (hlive : live u.items = live t.items)
    (hids : (ctxOf u.items).ids = (ctxOf t.items).ids) :
    ThreadOk env Γ known exact bound' st ip' pos u where
  standing := .items hitems hpos
  regs hexact := by
    rw [hstate]
    exact h.regs hexact
  placed := hplaced
  holds := by
    rw [Store.Holds, hlive]
    exact h.holds
  known := by
    rw [hids]
    exact h.known
  le_length := by
    rw [hstate]
    exact h.le_length
  pos_le := h.pos_le

theorem VmOk.retarget {vm : Vm W} {t u : BlkThread} {ts : List BlkThread}
    (h : VmOk env Γ exact vm t ts) {ip : Nat} (hitems : ItemsAt env.bc u.items ip)
    (hstate : u.state = t.state) (hpos : u.state.pos = vm.pos) (hplaced : ItemsPlaced Γ u.items)
    (hlive : live u.items = live t.items) (hids : (ctxOf u.items).ids = (ctxOf t.items).ids)
    (hlag : (ctxOf u.items).lag ≤ (ctxOf t.items).lag) :
    VmOk env Γ exact { vm with ip } u ts where
  thread := h.thread.retarget hitems hstate hpos hplaced hlive hids
  shield := by
    rw [Shielded, liveIds, hlive]
    exact h.shield
  saved := by
    refine h.saved.mono (fun _ h => h) ?_
    simp only [floorOf, hstate]
    omega
  flags := h.flags

/-- Silent steps lead to the item whose instruction comes next. -/
theorem VmOk.normalize {vm : Vm W} {κ : List BlkItem} {s : Local} {ts : List BlkThread}
    (h : VmOk env Γ exact vm ⟨κ, s⟩ ts) (hκ : ItemsAt env.bc κ vm.ip) (hpos : s.pos = vm.pos) :
    ∃ κ', Silents κ κ' ∧ HeadAt env.bc κ' vm.ip ∧ VmOk env Γ exact vm ⟨κ', s⟩ ts := by
  obtain ⟨κ', hsilent, hhead⟩ := hκ.head
  obtain ⟨hplaced, hids, hlag⟩ := hsilent.placed h.thread.placed
  exact ⟨κ', hsilent, hhead, h.retarget hhead.items rfl hpos hplaced hsilent.live hids hlag⟩

/-! ## One turn of the loop -/

/-- The trail behind the next turn fits the base of a record. -/
def NextFits (env : VmEnv W) (vm : Vm W) : Prop :=
  ∀ vm', vmStep env vm = .running vm' → vm'.toStore.TrailFits env

/-- What a turn from a thread with an instruction has to show. -/
def Turn (env : VmEnv W) (Γ : LoopTable) (exact : Bool) (vm : Vm W) (κ : List BlkItem) (s : Local)
    (ts : List BlkThread) : Prop :=
  ∃ m, Moves (vmRules env exact) ⟨κ, s⟩ vm.globals m ∧
    Matches env Γ exact (vmStep env vm) (m.apply ts)

section

variable {vm : Vm W} {κ : List BlkItem} {s : Local} {ts : List BlkThread}

/-- Go on behind a pattern that is done, with other registers or a further position. -/
theorem VmOk.behind {p : Blk} (h : VmOk env Γ exact vm ⟨.pat p :: κ, s⟩ ts) {ip pos : Nat}
    {regs : Regs} {undone : List UndoRecord} (hexact : exact = true → env.compact = true)
    (hundo : Store.Reverts vm.regs regs undone) (hκ : ItemsAt env.bc κ ip)
    (hpos : s.pos + (p.consumes Leaf.isSpan).toNat ≤ pos) (hlen : pos ≤ env.s.length)
    (g : Globals W) :
    VmOk env Γ exact
      { vm with
        toStore := { vm.toStore with regs }.record env undone
        ip
        pos
        globals := g } ⟨κ, ⟨pos, regs⟩⟩ ts := by
  have hfloor : floorOf ⟨.pat p :: κ, s⟩ ≤ floorOf ⟨κ, ⟨pos, regs⟩⟩ := by
    simp only [floorOf, ctxOf, Ctx.before]
    omega
  have hcounters : ({ vm.toStore with regs }.record env undone).counters = vm.counters ∧
      ({ vm.toStore with regs }.record env undone).loopLastPos = vm.loopLastPos ∧
      ({ vm.toStore with regs }.record env undone).maxCounterUsed = vm.maxCounterUsed ∧
      ({ vm.toStore with regs }.record env undone).regs = regs := by
    unfold Store.record
    split <;> exact ⟨rfl, rfl, rfl, rfl⟩
  obtain ⟨hcnt, hlast, hmax, hregs⟩ := hcounters
  refine ⟨?_, ?_, ?_, h.flags⟩
  · exact
      { standing := .items hκ rfl
        regs := fun _ => hregs.symm
        placed := h.thread.placed.2
        holds := by
          intro r hr
          simp only [hcnt, hlast, hmax]
          exact h.thread.holds r hr
        known := h.thread.known
        le_length := hlen
        pos_le := hlen }
  · intro i hi
    refine (h.shield i hi).imp_right fun hfree => ?_
    simp only [Store.record]
    split
    · rename_i hcompact
      exact hfree.append hcompact h.saved.fits undone
    · exact hfree
  · refine SavedOk.mono (h.saved.congr fun c hfits => ?_) (fun _ h => h) hfloor
    simp only [Store.record]
    split
    · rename_i hcompact
      refine ⟨hfits.append undone, .of_eq (Store.restore_of_undoes hcompact hfits rfl ?_)⟩
      exact hundo c _ rfl
    · rename_i hcompact
      have hagree : vm.toStore.Agree exact { vm.toStore with regs } :=
        ⟨rfl, rfl, rfl, rfl, fun h => absurd (hexact h) hcompact⟩
      exact ⟨hfits, hagree.restore c⟩

/-- The result of a plain instruction. -/
theorem Matches.prim {p : Blk} (h : VmOk env Γ exact vm ⟨.pat p :: κ, s⟩ ts) {l : Leaf Nat}
    {ip : Nat} {result : PrimResult W} (hexact : exact = true → env.compact = true)
    (hundo : result.Undoable vm.regs) (hκ : ItemsAt env.bc κ ip)
    (hnext : ∀ pos regs undone g, result = .next pos regs undone g →
      s.pos + (p.consumes Leaf.isSpan).toNat ≤ pos ∧ pos ≤ env.s.length) :
    Matches env Γ exact
      (Vm.apply env { vm with ip } result)
      ((result.move.move l κ s).apply ts) := by
  cases result with
  | next pos regs undone g =>
    obtain ⟨hpos, hlen⟩ := hnext pos regs undone g rfl
    exact .running (h.behind hexact hundo hκ hpos hlen g)
  | fail g => exact @Matches.backtrack _ _ _ _ { vm with ip, globals := g } _ _ h.saved h.flags
  | leave g => exact @Matches.leave _ _ _ _ { vm with ip, globals := g }

/-- Save a thread below the running one. -/
theorem VmOk.push {t u : BlkThread} (h : VmOk env Γ exact vm t ts) {ip pos : Nat}
    (hfits : vm.toStore.TrailFits env)
    (hu : ThreadOk env Γ (Known Γ vm) exact (floorOf t) vm.toStore ip pos u)
    (hshield : Shielded env u.items vm.trail vm.choices ts)
    (hlive : ∀ i ∈ liveIds u.items, i ∈ liveIds t.items)
    (hsaved : SavedOk env Γ (Known Γ vm) exact (min (floorOf t) (floorOf u)) vm.toStore
      vm.choices ts) :
    VmOk env Γ exact (vm.pushChoice env ip pos) t (u :: ts) where
  thread := h.thread
  shield i hi := by
    by_cases hmem : i ∈ liveIds u.items
    · cases hcompact : env.compact with
      | true => exact .inl ⟨rfl, hlive i hmem⟩
      | false =>
        -- the snapshot holds every open register
        obtain ⟨r, hr, rfl⟩ := List.mem_map.mp hmem
        have hused := (hu.holds r hr).2.2
        refine .inr (.inl ?_)
        simpa [Store.Covers, Store.choice, hcompact] using hused
    · exact (h.shield i hi).imp_right fun hfree => hfree.push hfits hmem ip pos
  saved := SavedOk.push hsaved hfits hu hshield
  flags := h.flags

/-- The state after an instruction that only moves on. -/
theorem VmOk.advance {p : Blk} (h : VmOk env Γ exact vm ⟨.pat p :: κ, s⟩ ts) {ip pos : Nat}
    (hexact : exact = true → env.compact = true) (hκ : ItemsAt env.bc κ ip)
    (hpos : s.pos + (p.consumes Leaf.isSpan).toNat ≤ pos) (hlen : pos ≤ env.s.length) :
    VmOk env Γ exact { vm with ip, pos } ⟨κ, ⟨pos, vm.regs⟩⟩ ts := by
  have hok := h.behind hexact (.refl vm.regs) hκ hpos hlen vm.globals
  have hsame : { vm.toStore with regs := vm.regs }.record env [] = vm.toStore := by
    unfold Store.record
    split <;> rfl
  rw [hsame] at hok
  exact hok

theorem opBreakx_toStore (env : VmEnv W) (setId here : Nat) (vm : Vm W) :
    (opBreakx env setId here vm).toStore = vm.toStore := by
  unfold opBreakx
  dsimp only
  split <;> rfl

/-- `OP_BREAKX` -/
theorem Matches.breakx {c : Nat} (h : VmOk env Γ exact vm ⟨.pat (.leaf (.breakx c)) :: κ, s⟩ ts)
    (hexact : exact = true → env.compact = true) (hfits : vm.toStore.TrailFits env)
    (hpos : s.pos = vm.pos) (hcode : Blk.Code env.bc (.leaf (.breakx c)) vm.ip) {ip : Nat}
    (hip : ip = vm.ip + (Leaf.breakx c).size) (hκ : ItemsAt env.bc κ ip) :
    Matches env Γ exact (.running (opBreakx env c vm.ip { vm with ip }))
      (((breakxMove env.s (env.ranges c) ⟨s.pos, vm.regs⟩ vm.globals).move
        (.breakx c) κ s).apply ts) := by
  have hlen : s.pos ≤ env.s.length := h.thread.le_length
  have hbounds := breakTarget_bounds env.s (env.ranges c) hlen
  have hok := @VmOk.advance _ _ _ _ _ _ _ _ _ h ip (breakTarget env.s (env.ranges c) s.pos)
    hexact hκ (by simpa [Pat.consumes, Leaf.isSpan] using hbounds.1) hbounds.2
  simp only [opBreakx, breakxMove, ← hpos]
  split
  · rename_i hlt
    have hexec : (Leaf.breakx c).exec env.s env.host env.ranges ⟨s.pos, vm.regs⟩ vm.globals =
        .choice ⟨breakTarget env.s (env.ranges c) s.pos, vm.regs⟩ vm.globals
          ⟨breakTarget env.s (env.ranges c) s.pos +
            (peekCp env.s (breakTarget env.s (env.ranges c) s.pos)).elim 1 (·.2), vm.regs⟩ := by
      simp only [Leaf.exec, breakxMove, if_pos hlt]
    have hlen' : (⟨s.pos, vm.regs⟩ : Local).pos ≤ env.s.length := hlen
    obtain ⟨-, hlt', hle⟩ := Leaf.exec_choice hlen' hexec
    refine .running (hok.push hfits ?_ h.shield (fun i hi => hi) ?_)
    · exact
        { standing := .items (.pat hcode (hip ▸ hκ)) rfl
          regs := fun _ => rfl
          placed := h.thread.placed
          holds := h.thread.holds
          known := h.thread.known
          le_length := hle
          pos_le := hle }
    · refine h.saved.mono (fun _ h => h) ?_
      simp only [floorOf, ctxOf, Ctx.before, Pat.consumes, Leaf.isSpan, Bool.toNat_false] at hlt' ⊢
      have := hbounds.1
      omega
  · exact .running hok

/-- A fence drops the saved threads. -/
theorem VmOk.cut {t : BlkThread} (h : VmOk env Γ exact vm t ts) :
    VmOk env Γ exact { vm with choices := [] } t [] where
  thread := h.thread
  shield _ _ := .inr trivial
  saved := trivial
  flags := h.flags

/-- A leaf. -/
theorem VmOk.turn_leaf {l : Leaf Nat} (h : VmOk env Γ exact vm ⟨.pat (.leaf l) :: κ, s⟩ ts)
    (hexact : exact = true → env.compact = true) (hfits : NextFits env vm) (hpos : s.pos = vm.pos)
    (hcode : Blk.Code env.bc (.leaf l) vm.ip) (hκ : ItemsAt env.bc κ (vm.ip + l.size)) :
    Turn env Γ exact vm (.pat (.leaf l) :: κ) s ts := by
  have hfetch := hcode.leaf
  have hstraight : l.IsStraight := h.thread.placed.1
  have hlen : (⟨s.pos, vm.regs⟩ : Local).pos ≤ env.s.length := h.thread.le_length
  refine ⟨(l.exec env.s env.host env.ranges ⟨s.pos, vm.regs⟩ vm.globals).move l κ s,
    .leaf κ ⟨vm.regs, fun hex => (h.thread.regs hex).symm, rfl⟩, ?_⟩
  by_cases hinstr : ∃ p, l.instr vm.ip = .prim p
  · obtain ⟨p, hinstr⟩ := hinstr
    have hprim : (p.exec env s.pos vm.regs vm.globals).move =
        l.exec env.s env.host env.ranges ⟨s.pos, vm.regs⟩ vm.globals :=
      @Leaf.exec_prim _ env l vm.ip p ⟨s.pos, vm.regs⟩ vm.globals hcode.bytes hinstr
    have hstep : vmStep env vm = Vm.apply env { vm with ip := vm.ip + l.size }
        (p.exec env s.pos vm.regs vm.globals) := by
      rw [hpos]
      simp only [vmStep, hfetch, hinstr]
    rw [← hprim, hstep]
    refine Matches.prim h hexact (Prim.exec_undoable env p s.pos vm.regs vm.globals) hκ ?_
    intro pos regs undone g hresult
    simp only [hresult, PrimResult.move] at hprim
    exact Leaf.exec_next hlen hprim.symm
  · cases l with
    | accept | goto => exact absurd hstraight not_false
    | fail =>
      simp only [vmStep, hfetch, Leaf.instr]
      exact @Matches.backtrack _ _ _ _ { vm with ip := vm.ip + Leaf.fail.size } _ _ h.saved h.flags
    | breakx c =>
      have hstep : vmStep env vm =
          .running (opBreakx env c vm.ip { vm with ip := vm.ip + (Leaf.breakx c).size }) := by
        simp only [vmStep, hfetch, Leaf.instr]
      have htrail := hfits _ hstep
      rw [opBreakx_toStore] at htrail
      rw [hstep]
      exact Matches.breakx h hexact htrail hpos hcode rfl hκ
    | fence =>
      simp only [vmStep, hfetch, Leaf.instr]
      have hle : s.pos + ((.leaf .fence : Blk).consumes Leaf.isSpan).toNat ≤ vm.pos := hpos.le
      rw [hpos]
      exact .running (h.advance hexact hκ hle h.thread.pos_le).cut
    | abort =>
      simp only [vmStep, hfetch, Leaf.instr]
      exact @Matches.failure _ _ _ _ { vm with ip := vm.ip + Leaf.abort.size, abortFlag := true, choices := [] }
    | succeed =>
      simp only [vmStep, hfetch, Leaf.instr]
      have hok : Matches env Γ exact (.halted true { vm with ip := vm.ip + Leaf.succeed.size })
          (.done (.success s vm.globals)) := .success hpos h.thread.regs
      exact hok
    | _ => exact absurd ⟨_, rfl⟩ hinstr

/-- `OP_SPLIT` -/
theorem VmOk.turn_alt {p q : Blk} (h : VmOk env Γ exact vm ⟨.pat (.alt p q) :: κ, s⟩ ts)
    (hfits : NextFits env vm) (hpos : s.pos = vm.pos) (hcode : Blk.Code env.bc (.alt p q) vm.ip)
    (hκ : ItemsAt env.bc κ (vm.ip + 14 + p.size + q.size)) :
    Turn env Γ exact vm (.pat (.alt p q) :: κ) s ts := by
  obtain ⟨hfetch, hp, hjmp, hq⟩ := hcode.alt
  obtain ⟨⟨hpplaced, hqplaced⟩, hplaced⟩ := h.thread.placed
  refine ⟨_, .alt p q κ s vm.globals, ?_⟩
  have hrun : VmOk env Γ exact { vm with ip := vm.ip + 9 } ⟨.pat p :: .join :: κ, s⟩ ts := by
    refine h.retarget (.pat hp (.jmp hjmp hκ)) rfl hpos ⟨hpplaced, hplaced⟩ rfl rfl ?_
    simp only [ctxOf, Ctx.before, Pat.consumes, Bool.toNat_false]
    omega
  have hsave : ThreadOk env Γ (Known Γ vm) exact (floorOf ⟨.pat p :: .join :: κ, s⟩) vm.toStore
      (vm.ip + 14 + p.size) vm.pos ⟨.pat q :: κ, s⟩ :=
    h.thread.retarget (.pat hq hκ) rfl hpos ⟨hqplaced, hplaced⟩ rfl rfl
  have hsaved : SavedOk env Γ (Known Γ vm) exact
      (min (floorOf ⟨.pat p :: .join :: κ, s⟩) (floorOf ⟨.pat q :: κ, s⟩)) vm.toStore
      vm.choices ts := by
    refine h.saved.mono (fun _ h => h) ?_
    simp only [floorOf, ctxOf, Ctx.before, Pat.consumes, Bool.toNat_false]
    omega
  have hstep : vmStep env vm = .running
      ({ vm with ip := vm.ip + 9 }.pushChoice env (vm.ip + 14 + p.size) vm.pos) := by
    simp only [vmStep, hfetch]
    rfl
  have htrail := hfits _ hstep
  rw [hstep]
  exact .running (hrun.push htrail hsave h.shield (fun _ h => h) hsaved)

/-- `OP_JMP` at the end of a left arm. -/
theorem VmOk.turn_jmp {target next : Nat} (h : VmOk env Γ exact vm ⟨.join :: κ, s⟩ ts)
    (hpos : s.pos = vm.pos) (hfetch : fetch env.bc vm.ip = some (.jmp target, next))
    (hκ : ItemsAt env.bc κ target) : Turn env Γ exact vm (.join :: κ) s ts := by
  refine ⟨_, .join κ s vm.globals, ?_⟩
  have hrun : VmOk env Γ exact { vm with ip := target } ⟨κ, s⟩ ts :=
    h.retarget hκ rfl hpos h.thread.placed rfl rfl le_rfl
  simp only [vmStep, hfetch]
  exact .running hrun

/-- `OP_ACCEPT` -/
theorem VmOk.turn_accept {next : Nat} (h : VmOk env Γ exact vm ⟨[], s⟩ ts)
    (hpos : s.pos = vm.pos) (hfetch : fetch env.bc vm.ip = some (.accept, next)) :
    Turn env Γ exact vm [] s ts := by
  refine ⟨_, .finish s vm.globals, ?_⟩
  have hend : Matches env Γ exact (.halted true { vm with ip := next })
      (.done (.success s vm.globals)) := .success hpos h.thread.regs
  simp only [vmStep, hfetch]
  exact hend

end

end Snobol4
