import Snobol4.Fusion
import Snobol4.VmLoop

/-!
# VmHalts — runs of compiled patterns end

Every turn of `vm_run` on structured code is at least one step of the search, and every
search ends.  Compiled code is structured where the fusion pass rewrites emitted
`OP_SPLIT`s only.
-/

namespace Snobol4

open Pat Backtrack

variable {W : Type} {env : VmEnv W} {Γ : LoopTable} {exact : Bool}

/-! ## A turn is a search step -/

/-- Silent steps of the search. -/
theorem Silents.search {R : Rules (Leaf Nat) LoopSpec Local (Globals W)} {κ κ' : List BlkItem}
    (h : Silents κ κ') (s : Local) (g : Globals W) (ts : List BlkThread) :
    Relation.ReflTransGen (Search R) (.run ⟨κ, s⟩ g ts) (.run ⟨κ', s⟩ g ts) := by
  induction h with
  | refl => exact .refl
  | tail _ hstep ih => exact ih.tail (.intro ts (hstep.moves s g))

/-- The next instruction is an `OP_REPEAT_STEP` that takes the greedy shortcut. -/
def AtGreedy (env : VmEnv W) (vm : Vm W) : Prop :=
  ∃ loop target next, fetch env.bc vm.ip = some (.repeatStep loop target, next) ∧
    takesGreedy env loop target vm = true

/-- A turn performs the move of the item whose instruction comes next, or it runs the
shortcut once more. -/
theorem VmOk.turn {vm : Vm W} {κ : List BlkItem} {s : Local} {ts : List BlkThread}
    (h : VmOk env Γ exact vm ⟨κ, s⟩ ts) (hexact : exact = true → env.compact = true)
    (hok : GreedyOk env vm) (hfits : NextFits env vm) :
    ∃ κ', Silents κ κ' ∧ VmOk env Γ exact vm ⟨κ', s⟩ ts ∧
      (HeadAt env.bc κ' vm.ip ∧ s.pos = vm.pos ∨ AtGreedy env vm) ∧
      Turn env Γ exact vm κ' s ts := by
  cases h.thread.standing with
  | items hitems hpos =>
    obtain ⟨κ', hsilent, hhead, hok'⟩ := h.normalize hitems hpos
    refine ⟨κ', hsilent, hok', .inl ⟨hhead, hpos⟩, ?_⟩
    generalize hip : vm.ip = ip at hhead
    cases hhead with
    | accept hfetch => exact hok'.turn_accept hpos (hip ▸ hfetch)
    | leaf hcode hκ => exact hok'.turn_leaf hexact hfits hpos (hip ▸ hcode) (hip ▸ hκ)
    | alt hcode hκ => exact hok'.turn_alt hfits hpos (hip ▸ hcode) (hip ▸ hκ)
    | loop hcode hκ => exact hok'.turn_enter hfits hpos (hip ▸ hcode) (hip ▸ hκ)
    | jmp hfetch hκ => exact hok'.turn_jmp hpos (hip ▸ hfetch) hκ
    | @iter k body count mark a κ hcode hκ =>
      cases hgreedy : isGreedy k body with
      | true => exact hok'.turn_greedy hfits hpos hip hcode hκ hgreedy hok
      | false => exact hok'.turn_iterate hfits hpos hip hcode hκ hgreedy
  | @retry k body a κ s hcode hip hκ hgreedy hinfo hmax hknown hpos hdone _ =>
    refine ⟨.join :: κ, .refl, h, .inr ?_, ?_⟩
    · obtain ⟨-, -, hfetch⟩ := hcode.loop
      rw [← hip] at hfetch
      refine ⟨k.id, a + 14, a + 20 + body.size, hfetch, ?_⟩
      rw [← hgreedy]
      exact takesGreedy_eq h.flags hknown hcode (by rw [hinfo, hgreedy]) rfl
    · exact h.turn_retry hcode hip hκ hgreedy hinfo hknown hmax hpos hdone hok

/-- A turn of the loop is one or more steps of the search. -/
theorem VmOk.simulates {vm : Vm W} {t : BlkThread} {ts : List BlkThread}
    (h : VmOk env Γ exact vm t ts) (hexact : exact = true → env.compact = true)
    (hok : GreedyOk env vm) (hfits : NextFits env vm) :
    ∃ c, Relation.TransGen (Search (vmRules env exact)) (.run t vm.globals ts) c ∧
      Matches env Γ exact (vmStep env vm) c := by
  obtain ⟨κ, s⟩ := t
  obtain ⟨κ', hsilent, -, -, m, hmoves, hmatches⟩ := h.turn hexact hok hfits
  exact ⟨m.apply ts, .tail' (hsilent.search s vm.globals ts) (.intro ts hmoves), hmatches⟩

/-! ## Termination -/

/-- The run from a state that stands for a search that ends. -/
theorem VmOk.halts {c : Config BlkThread Local (Globals W)}
    (hacc : Acc (fun c' c => Relation.TransGen (Search (vmRules env exact)) c c') c)
    (hexact : exact = true → env.compact = true) {vm : Vm W} {t : BlkThread} {ts : List BlkThread}
    (hc : c = .run t vm.globals ts) (h : VmOk env Γ exact vm t ts)
    (hok : ∀ n vm', vmSteps env n vm = .running vm' →
      GreedyOk env vm' ∧ vm'.toStore.TrailFits env) :
    ∃ n ok final, vmSteps env n vm = .halted ok final := by
  induction hacc generalizing vm t ts with
  | intro c _ ih =>
    subst hc
    have hfits : NextFits env vm := fun vm' hstep => (hok 1 vm' (by rw [vmSteps, hstep]; rfl)).2
    obtain ⟨c', hsteps, hmatches⟩ := h.simulates hexact (hok 0 vm rfl).1 hfits
    cases hstep : vmStep env vm with
    | halted ok final => exact ⟨1, ok, final, by rw [vmSteps, hstep]⟩
    | running vm' =>
      rw [hstep] at hmatches
      obtain @⟨_, t', ts', hok'⟩ := hmatches
      have hnext : ∀ n, vmSteps env (n + 1) vm = vmSteps env n vm' := by
        intro n
        rw [vmSteps, hstep]
      obtain ⟨n, ok, final, hn⟩ := ih _ hsteps rfl hok' fun n vm'' hn => hok (n + 1) vm'' (by
        rw [hnext, hn])
      exact ⟨n + 1, ok, final, by rw [hnext, hn]⟩

/-- The search of a run ends. -/
theorem vmSearch_acc (env : VmEnv W) (exact : Bool) (p : Blk) {s : Local}
    (hs : s.pos ≤ env.s.length) (g : Globals W) :
    Acc (fun c' c => Relation.TransGen (Search (vmRules env exact)) c c')
      (.run ⟨[.pat p], s⟩ g []) := by
  have hacc := (vmRules_progress env exact).acc p hs g
  have htrans := hacc.transGen
  have heq : (fun c' c => Relation.TransGen (Search (vmRules env exact)) c c') =
      Relation.TransGen fun c' c => Search (vmRules env exact) c c' := by
    funext c' c
    exact propext Relation.transGen_swap.symm
  rw [heq]
  exact htrans

/-- Where the run of a program starts. -/
theorem VmOk.start {b : Blk} {vm : Vm W} (hcode : Blk.Code env.bc b 0)
    (haccept : fetch env.bc b.size = some (.accept, b.size + 1))
    (hplaced : Placed Γ ⟨0, []⟩ b) (hip : vm.ip = 0) (hpos : vm.pos ≤ env.s.length)
    (hflags : ∀ i, vm.loopSpanGreedy i = false) (hchoices : vm.choices = []) :
    VmOk env Γ exact vm ⟨[.pat b], ⟨vm.pos, vm.regs⟩⟩ [] where
  thread :=
    { standing := by
        refine .items ?_ rfl
        rw [hip]
        exact .pat hcode (by rw [Nat.zero_add]; exact .accept haccept)
      regs := fun _ => rfl
      placed := ⟨hplaced, trivial⟩
      holds := fun r hr => by simp [live] at hr
      known := fun i hi => by simp [ctxOf, Ctx.before] at hi
      le_length := hpos
      pos_le := hpos }
  shield _ _ := by
    rw [hchoices]
    exact .inr trivial
  saved := by
    rw [hchoices]
    trivial
  flags i hi := by
    rw [hflags i] at hi
    cases hi

/-! ## Compiled patterns -/

theorem Leaf.IsStraight.of_resolve {classes : List CcEntry} {l : Leaf Nat}
    (h : (l.resolve classes).IsStraight) : l.IsStraight := by
  cases l with
  | accept => exact h
  | goto id => exact h
  | _ => trivial

/-- In compact mode over a subject shorter than 2³¹ bytes the greedy shortcut is
harmless. -/
theorem GreedyOk.of_short {vm : Vm W} (hcompact : env.compact = true)
    (hshort : env.s.length < 2 ^ 31) : GreedyOk env vm := by
  intro loop target next _ _
  refine ⟨hcompact, fun stop hstop => ?_⟩
  simp only [greedyRunEnd, Option.mem_def] at hstop
  split at hstop
  · cases hstop
  split at hstop
  · cases hstop
  obtain ⟨bitmap, _, rfl⟩ := Option.map_eq_some_iff.mp hstop
  have hle := ((env.s.drop vm.pos).takeWhile_sublist bitmap).length_le
  rw [List.length_drop] at hle
  rw [spanBytes]
  omega

/-- A run of a compiled pattern without jumps ends, where every greedy shortcut of the
run is taken in compact mode and moves the cursor by less than 2³¹, and the trail stays below
2³² records. -/
theorem vmRun_terminates (cfg : CompilerConfig) (ast : AstNode) (st : CompilerState)
    (env : VmEnv W) (start : Vm W) (hcode : WellEncoded cfg ast st)
    (hcompile : compileAstToBytecodeC cfg ast = some env.bc)
    (hstraight : (ast.pat cfg).All Leaf.IsStraight) (hip : start.ip = 0)
    (hpos : start.pos ≤ env.s.length) (hflags : ∀ i, start.loopSpanGreedy i = false)
    (hgreedy : ∀ vm, VmReach env start vm → GreedyOk env vm)
    (hfits : ∀ vm, VmReach env start vm → vm.toStore.TrailFits env) :
    ∃ ok final, VmRun env start ok final := by
  obtain ⟨b, hb, haccept, ⟨hi, hmax, hids⟩, hall⟩ := hcode.code hcompile
  have hbstraight : b.All Leaf.IsStraight := by
    refine hall Leaf.IsStraight trivial (fun _ => trivial) (hstraight.mono ?_)
    rintro l hl l' rfl
    exact hl.of_resolve
  obtain ⟨Γ, hplaced⟩ := exists_placed hids hmax hbstraight ⟨0, []⟩ (by simp)
  have hstart : VmOk env Γ false (vmRunStart start) ⟨[.pat b], ⟨start.pos, start.regs⟩⟩ [] :=
    .start hb haccept hplaced hip hpos hflags rfl
  have hends : ∃ n ok final, vmSteps env n (vmRunStart start) = .halted ok final :=
    VmOk.halts (vmSearch_acc env false b hpos start.globals) (by simp) rfl hstart
      fun n vm hn => ⟨hgreedy vm (VmReach.steps .start hn), hfits vm (VmReach.steps .start hn)⟩
  obtain ⟨n, ok, final, hn⟩ := hends
  exact ⟨ok, final, n, hn⟩

/-- The code of `ARBNO(SPAN('a'))`. -/
def arbnoSpan : Bytes :=
  [15, 0, 0, 0, 0, 0, 255, 255, 255, 255, 0, 0, 0, 23, 7, 0, 1, 16, 0, 0, 0, 0, 14, 0, 0, 1,
    0, 0, 0, 0, 0, 97, 0, 0, 0, 97, 0, 0, 0, 24, 0, 0, 0, 1, 0, 0, 0, 0, 83, 78, 66, 76]

/-- The run of `ARBNO(SPAN('a'))` on "aab". -/
theorem vmRun_terminates_arbnoSpan :
    ∃ ok final, VmRun (VmEnv.ofCode arbnoSpan [0x61, 0x61, 0x62] .bare) (.zero ⟨[], ()⟩)
      ok final := by
  have hcode : WellEncoded .caseSensitive (.arbno (.span [0x61]))
      ⟨arbnoSpan.take 24, [⟨[⟨97, 97⟩], false⟩], 1, [], []⟩ :=
    { emitted := by decide +kernel
      short := by decide
      classes := by decide
      names := trivial
      fuses := by decide +kernel }
  have hend : vmSteps (VmEnv.ofCode arbnoSpan [0x61, 0x61, 0x62] .bare) 4
      (vmRunStart (.zero ⟨[], ()⟩)) = .halted true _ := StepResult.eq_halted (by decide +kernel)
  exact vmRun_terminates .caseSensitive _ _ _ _ hcode (by decide +kernel) trivial rfl
    (Nat.zero_le _) (fun _ => rfl) (fun _ _ => .of_short rfl (by decide))
    (VmReach.trailFits hend (by decide +kernel))

/-! ## Literals that read as an `OP_SPLIT` -/

/-- The run goes on for ever. -/
def Endless (env : VmEnv W) (vm : Vm W) : Prop := ∀ n, ∃ vm', vmSteps env n vm = .running vm'

theorem Endless.of_loop {vm : Vm W} (h : vmStep env vm = .running vm) : Endless env vm := by
  intro n
  induction n with
  | zero => exact ⟨vm, rfl⟩
  | succ n ih =>
    rw [vmSteps, h]
    exact ih

theorem Endless.of_step {vm vm' : Vm W} (hstep : vmStep env vm = .running vm')
    (h : Endless env vm') : Endless env vm := by
  intro n
  cases n with
  | zero => exact ⟨vm, rfl⟩
  | succ n =>
    rw [vmSteps, hstep]
    exact h n

theorem Endless.of_steps {vm vm' : Vm W} {n : Nat} (hsteps : vmSteps env n vm = .running vm')
    (h : Endless env vm') : Endless env vm := by
  induction n generalizing vm with
  | zero =>
    cases hsteps
    exact h
  | succ n ih =>
    rw [vmSteps] at hsteps
    cases hstep : vmStep env vm with
    | running vm₁ =>
      rw [hstep] at hsteps
      exact .of_step hstep (ih hsteps)
    | halted ok vm₁ =>
      rw [hstep] at hsteps
      cases hsteps

theorem Endless.not_vmRun {start final : Vm W} {ok : Bool} (h : Endless env (vmRunStart start)) :
    ¬VmRun env start ok final := by
  rintro ⟨n, hn⟩
  obtain ⟨vm, hvm⟩ := h n
  rw [hvm] at hn
  cases hn

/-- Two literals whose bytes read as an `OP_SPLIT` at address 9 between two `OP_ANY`s
that merge at address 38, inside the second literal. -/
def splitLiterals : AstNode :=
  .concat [.literal [3, 0, 0, 0, 18, 0, 0, 0, 35, 5, 0, 1, 2, 0, 0, 0, 38],
    .literal [5, 0, 1, 2, 0, 0, 0, 38]]

/-- The code of the two literals; the pass has written `OP_ANY` and `OP_NOP`s over the
first and over the head of the second, and address 38 jumps to itself. -/
def splitLiteralsCode : Bytes :=
  [4, 0, 0, 0, 9, 0, 0, 0, 17] ++ [5, 0, 1] ++ List.replicate 26 41 ++
    [2, 0, 0, 0, 38, 0, 0, 1, 0, 0, 0, 0, 0, 0, 0, 0, 0, 0, 0, 0, 0, 44,
      0, 0, 0, 1, 0, 0, 0, 0, 83, 78, 66, 76]

/-- The compiled code of two literals runs for ever. -/
theorem vmRun_fused_literals_endless :
    compileAstToBytecodeC .caseSensitive splitLiterals = some splitLiteralsCode ∧
      ∀ ok final, ¬VmRun
        (VmEnv.ofCode splitLiteralsCode ([5, 0, 1] ++ List.replicate 14 0x29) .bare)
        (.zero ⟨[], ()⟩) ok final := by
  refine ⟨by decide +kernel, fun ok final => Endless.not_vmRun ?_⟩
  exact .of_steps (n := 13) rfl (.of_loop rfl)

end Snobol4
