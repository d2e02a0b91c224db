import Snobol4.Support.Interp
import Snobol4.VmHalts

/-!
# VmRepeat — loops as ordered repetition

The specification of `ARBNO(p)` and `repeat(p, m, n)`: match the body again until the
lower bound is reached, then prefer one more iteration to leaving, until the upper
bound is reached or, without an upper bound, an iteration made no progress.  `vm_run`
performs this search where it takes no greedy shortcut, no loop has the upper bound 0
and no counter outgrows the subject.
-/

namespace Snobol4

open Pat Backtrack

variable {W : Type} {env : VmEnv W} {Γ : LoopTable} {exact : Bool}

/-! ## The specification -/

/-- Ordered greedy repetition behind `count` iterations of the body, of which the last
one `moved` the cursor. -/
def repetition (k : LoopSpec) (count : Nat) (moved : Bool) (st : Local) : LoopMove Local :=
  if count < k.min then .again count st.pos false
  else if k.max = unbounded then
    if moved then .again count st.pos true else .exit st none
  else if count < k.max then .again count st.pos true
  else .exit st none

/-- The ordered search: leaves do what their instructions do, loops repeat. -/
def repetitionInterp (env : VmEnv W) : Interp (Leaf Nat) LoopSpec Local (Globals W) where
  leaf l st g := l.exec env.s env.host env.ranges st g
  enter k st := repetition k 0 true st
  step k count mark st := repetition k (count + 1) (decide (st.pos ≠ mark)) st

/-! ## Where the loop instructions follow it -/

/-- The loop instruction that comes next follows the specification: the loop may run at
all, the shortcut is not taken, the counter does not wrap, and it has not outgrown the
subject where the loop could go on; the trail fits the base of a record. -/
structure LoopOk (env : VmEnv W) (vm : Vm W) : Prop where
  runs : ∀ loop min max skip next,
    fetch env.bc vm.ip = some (.repeatInit loop min max skip, next) → max ≠ 0
  oneByOne : ¬AtGreedy env vm
  counts : ∀ loop target next, fetch env.bc vm.ip = some (.repeatStep loop target, next) →
    vm.counters loop + 1 < 2 ^ 32 ∧
      (vm.loopMax loop = unbounded → vm.loopMin loop ≤ vm.counters loop + 1 →
        vm.pos ≠ vm.loopLastPos loop → vm.counters loop ≤ env.s.length)
  trail : vm.toStore.TrailFits env

/-- A state whose next instruction follows the specification, as a test. -/
def loopOk (env : VmEnv W) (vm : Vm W) : Bool :=
  decide (vm.trail.length < 2 ^ 32) &&
    match fetch env.bc vm.ip with
    | some (.repeatInit _ _ max _, _) => max != 0
    | some (.repeatStep id target, _) =>
        !takesGreedy env id target vm && decide (vm.counters id + 1 < 2 ^ 32) &&
          decide (vm.counters id ≤ env.s.length)
    | _ => true

theorem LoopOk.of_loopOk {vm : Vm W} (h : loopOk env vm = true) : LoopOk env vm := by
  rw [loopOk, Bool.and_eq_true, decide_eq_true_eq] at h
  obtain ⟨htrail, h⟩ := h
  refine ⟨?_, ?_, ?_, fun _ => htrail⟩
  · intro loop min max skip next hfetch
    rw [hfetch] at h
    simpa using h
  · rintro ⟨loop, target, next, hfetch, htakes⟩
    rw [hfetch] at h
    simp [htakes] at h
  · intro loop target next hfetch
    rw [hfetch] at h
    simp only [Bool.and_eq_true, decide_eq_true_eq] at h
    exact ⟨h.1.2, fun _ _ _ => h.2⟩

theorem LoopOk.greedyOk {vm : Vm W} (h : LoopOk env vm) : GreedyOk env vm := by
  intro loop target next hfetch htakes
  exact absurd ⟨loop, target, next, hfetch, htakes⟩ h.oneByOne

/-- `OP_REPEAT_INIT` -/
theorem repetition_enter {k : LoopSpec} (hmax : k.max ≠ 0) (st : Local) :
    repetition k 0 true st = .again 0 st.pos (decide (k.min = 0)) := by
  unfold repetition
  by_cases hmin : k.min = 0
  · rw [if_neg (by omega), hmin]
    split
    · rfl
    · rw [if_pos (by omega)]
      rfl
  · rw [if_pos (by omega)]
    simp [hmin]

/-- `OP_REPEAT_STEP` -/
theorem repetition_step {len count mark : Nat} {k : LoopSpec} {st : Local}
    (hwrap : count + 1 < 2 ^ 32)
    (hlimit : k.max = unbounded → k.min ≤ count + 1 → st.pos ≠ mark → count ≤ len) :
    loopIterate len k count mark st = repetition k (count + 1) (decide (st.pos ≠ mark)) st := by
  have hcount : (count + 1) % 2 ^ 32 = count + 1 := Nat.mod_eq_of_lt hwrap
  simp only [loopIterate, repetition, hcount]
  by_cases hmin : count + 1 < k.min
  · rw [if_pos hmin, if_pos hmin]
  rw [if_neg hmin, if_neg hmin]
  by_cases hmax : k.max = unbounded
  · rw [if_pos (.inl hmax), if_pos hmax]
    by_cases hmark : st.pos = mark
    · simp [hmark, hmax]
    · have hle := hlimit hmax (by omega) hmark
      rw [if_neg (by simp [hmark]), if_neg (by omega)]
      simp [hmark]
  · simp only [hmax, false_or, false_and, if_false]

/-- The move of the VM is a move of the ordered search. -/
theorem VmOk.repeats {vm : Vm W} {κ : List BlkItem} {s : Local} {ts : List BlkThread}
    {m : Move BlkThread Local (Globals W)} (h : VmOk env Γ true vm ⟨κ, s⟩ ts)
    (hhead : HeadAt env.bc κ vm.ip) (hpos : s.pos = vm.pos) (hok : LoopOk env vm)
    (hmoves : Moves (vmRules env true) ⟨κ, s⟩ vm.globals m) :
    Moves (repetitionInterp env).rules ⟨κ, s⟩ vm.globals m := by
  cases hmoves with
  | finish => exact .finish s vm.globals
  | skip κ => exact .skip κ s vm.globals
  | seq p q κ => exact .seq p q κ s vm.globals
  | alt p q κ => exact .alt p q κ s vm.globals
  | join κ => exact .join κ s vm.globals
  | leaf κ hleaf =>
    obtain ⟨regs, hregs, hm⟩ := hleaf
    obtain rfl := hregs rfl
    exact .leaf κ hm
  | @enter k body s m κ _ henter =>
    cases hhead with
    | loop hcode hκ =>
    obtain ⟨hfetch, -, -⟩ := hcode.loop
    refine .enter κ vm.globals ?_
    exact Eq.trans henter (repetition_enter (hok.runs _ _ _ _ _ hfetch) s).symm
  | @step k body count mark s m κ _ hstep =>
    generalize hip : vm.ip = ip at hhead
    cases hhead with
    | @iter _ _ _ _ a _ hcode hκ =>
    obtain ⟨-, -, hfetch⟩ := hcode.loop
    obtain ⟨⟨hinfo, -, -⟩, -⟩ := h.thread.placed.1
    have hknown : Known Γ vm k.id := h.thread.known k.id List.mem_cons_self
    rw [← hip] at hfetch
    have hgreedy : isGreedy k body = false := by
      rw [← takesGreedy_eq h.flags hknown hcode hinfo rfl]
      by_contra htakes
      exact hok.oneByOne ⟨k.id, a + 14, _, hfetch, by simpa using htakes⟩
    have hmem : (k.id, count, mark) ∈ live (.iter k body count mark :: κ) := by
      simp [live, hgreedy]
    obtain ⟨hcount, hmark, -⟩ := h.thread.holds _ hmem
    simp only at hcount hmark
    obtain ⟨hwrap, hlimit⟩ := hok.counts _ _ _ hfetch
    rw [hknown.1, hknown.2, hinfo, hcount, hmark, ← hpos] at hlimit
    rw [hcount] at hwrap
    simp only [vmRules, hgreedy, Bool.false_eq_true, if_false] at hstep
    refine .step κ vm.globals ?_
    exact hstep.2.2.trans (repetition_step hwrap hlimit)

/-! ## Runs -/

/-- The verdict of a run that ends in `final`. -/
def verdict (ok : Bool) (final : Vm W) : Verdict Local (Globals W) :=
  if ok then .success ⟨final.pos, final.regs⟩ final.globals else .failure final.globals

theorem Matches.verdict {ok : Bool} {final : Vm W} {c : Config BlkThread Local (Globals W)}
    (h : Matches env Γ true (.halted ok final) c) : c = .done (verdict ok final) := by
  cases h with
  | @success _ s hpos hregs =>
    obtain ⟨pos, regs⟩ := s
    obtain rfl : pos = final.pos := hpos
    obtain rfl : regs = final.regs := hregs rfl
    rfl
  | failure => rfl

/-- A run that ends performs the ordered search. -/
theorem VmOk.finds (hcompact : env.compact = true) {n : Nat} {vm final : Vm W} {ok : Bool}
    {t : BlkThread} {ts : List BlkThread} (h : VmOk env Γ true vm t ts)
    (hok : ∀ n vm', vmSteps env n vm = .running vm' → LoopOk env vm')
    (hend : vmSteps env n vm = .halted ok final) :
    Relation.ReflTransGen (Search (repetitionInterp env).rules) (.run t vm.globals ts)
      (.done (verdict ok final)) := by
  induction n generalizing vm t ts with
  | zero => cases hend
  | succ n ih =>
    have hloop : LoopOk env vm := hok 0 vm rfl
    obtain ⟨κ, s⟩ := t
    have hfits : NextFits env vm := fun vm' hstep =>
      (hok 1 vm' (by rw [vmSteps, hstep]; rfl)).trail
    obtain ⟨κ', hsilent, hvm, hat, m, hmoves, hmatches⟩ :=
      h.turn (fun _ => hcompact) hloop.greedyOk hfits
    have hhead : HeadAt env.bc κ' vm.ip ∧ s.pos = vm.pos := hat.resolve_right hloop.oneByOne
    have hstep : Relation.ReflTransGen (Search (repetitionInterp env).rules)
        (.run ⟨κ, s⟩ vm.globals ts) (m.apply ts) :=
      (hsilent.search s vm.globals ts).tail
        (.intro ts (hvm.repeats hhead.1 hhead.2 hloop hmoves))
    rw [vmSteps] at hend
    cases hturn : vmStep env vm with
    | halted ok' final' =>
      rw [hturn] at hend hmatches
      cases hend
      rw [← hmatches.verdict]
      exact hstep
    | running vm' =>
      rw [hturn] at hend hmatches
      generalize m.apply ts = c at hstep hmatches
      cases hmatches with
      | running hvm' =>
      refine hstep.trans (ih hvm' (fun n vm'' hn => hok (n + 1) vm'' ?_) hend)
      rw [vmSteps, hturn]
      exact hn

/-! ## Compiled patterns -/

/-- The emitted code of a pattern is structured code that reads as the pattern, in front
of `OP_ACCEPT`. -/
theorem emitProgram_code {cfg : CompilerConfig} {ast : AstNode} {st : CompilerState}
    (hemit : emitProgram cfg ast = some st) (hshort : st.buf.length ≤ 2 ^ 32)
    (hclasses : st.classes.length < 2 ^ 16) (hnames : (ast.pat cfg).All Leaf.NameFits)
    (tail : Bytes) :
    ∃ b : Blk, b.map (Leaf.resolve st.classes) LoopSpec.bounds = ast.pat cfg ∧
      Blk.Code (st.buf ++ tail) b 0 ∧
      fetch (st.buf ++ tail) b.size = some (.accept, b.size + 1) ∧
      ∃ hi ≤ maxLoops, b.LoopIds 0 hi := by
  obtain ⟨b, st₀, hb, rfl⟩ := emitProgram_layout hemit
  have hsize : (b.encode 0 ++ [OpCode.accept.code]).length ≤ 2 ^ 32 := hshort
  simp only [List.length_append, Blk.length_encode, List.length_singleton] at hsize
  refine ⟨b, hb.pat _ (List.prefix_refl _) hclasses, ⟨?_, ?_, hb.fits hnames⟩, ?_, ?_⟩
  · rw [List.drop_zero, List.append_assoc]
    exact List.prefix_append _ _
  · omega
  · have hdrop : (b.encode 0 ++ [OpCode.accept.code] ++ tail).drop b.size =
        OpCode.accept.code :: tail := by
      rw [List.append_assoc, ← Blk.length_encode b 0, List.drop_left]
      rfl
    rw [(fetch_of_drop hdrop).1]
    simp [operands]
  · exact ⟨st₀.nextLoopId, hb.loops_le (Nat.zero_le _), hb.loops⟩

/-- Where its loop instructions follow the specification, `vm_run` on the emitted code
ends with what the ordered search for the pattern finds. -/
theorem vmRun_repeats (cfg : CompilerConfig) (ast : AstNode) (st : CompilerState)
    (env : VmEnv W) (start : Vm W) (tail : Bytes) (hemit : emitProgram cfg ast = some st)
    (hshort : st.buf.length ≤ 2 ^ 32) (hclasses : st.classes.length < 2 ^ 16)
    (hnames : (ast.pat cfg).All Leaf.NameFits) (hstraight : (ast.pat cfg).All Leaf.IsStraight)
    (hbc : env.bc = st.buf ++ tail) (hcompact : env.compact = true) (hip : start.ip = 0)
    (hpos : start.pos ≤ env.s.length) (hflags : ∀ i, start.loopSpanGreedy i = false)
    (hloops : ∀ vm, VmReach env start vm → LoopOk env vm) :
    ∃ (b : Blk) (ok : Bool) (final : Vm W),
      b.map (Leaf.resolve st.classes) LoopSpec.bounds = ast.pat cfg ∧
      VmRun env start ok final ∧
      (repetitionInterp env).Finds b ⟨start.pos, start.regs⟩ start.globals (verdict ok final) := by
  obtain ⟨b, hpat, hcode, haccept, hi, hmax, hids⟩ :=
    emitProgram_code hemit hshort hclasses hnames tail
  rw [← hbc] at hcode haccept
  have hbstraight : b.All Leaf.IsStraight := by
    rw [← hpat, Pat.all_map] at hstraight
    exact hstraight.mono fun l hl => hl.of_resolve
  obtain ⟨Γ, hplaced⟩ := exists_placed hids hmax hbstraight ⟨0, []⟩ (by simp)
  have hstart : VmOk env Γ true (vmRunStart start) ⟨[.pat b], ⟨start.pos, start.regs⟩⟩ [] :=
    .start hcode haccept hplaced hip hpos hflags rfl
  have hends : ∃ n ok final, vmSteps env n (vmRunStart start) = .halted ok final :=
    VmOk.halts (vmSearch_acc env true b hpos start.globals) (fun _ => hcompact) rfl hstart
      fun n vm hn =>
        have hloop := hloops vm (VmReach.steps .start hn)
        ⟨hloop.greedyOk, hloop.trail⟩
  obtain ⟨n, ok, final, hn⟩ := hends
  refine ⟨b, ok, final, hpat, ⟨n, hn⟩, ?_⟩
  exact hstart.finds hcompact (fun n vm hn => hloops vm (VmReach.steps .start hn)) hn

/-- The emitted code of `ARBNO('a')`. -/
def arbnoLetter : Bytes :=
  [15, 0, 0, 0, 0, 0, 255, 255, 255, 255, 0, 0, 0, 30, 4, 0, 0, 0, 23, 0, 0, 0, 1, 97, 16, 0, 0,
    0, 0, 14, 0]

/-- The run of `ARBNO('a')` on "ab". -/
theorem vmRun_repeats_arbnoLetter :
    ∃ (b : Blk) (ok : Bool) (final : Vm Unit),
      b.map (Leaf.resolve []) LoopSpec.bounds =
        (AstNode.arbno (.literal [0x61])).pat .caseSensitive ∧
      VmRun (VmEnv.ofCode arbnoLetter [0x61, 0x62] .bare) (.zero ⟨[], ()⟩) ok final ∧
      (repetitionInterp (VmEnv.ofCode arbnoLetter [0x61, 0x62] .bare)).Finds b
        ⟨0, (Vm.zero (⟨[], ()⟩ : Globals Unit)).regs⟩ ⟨[], ()⟩ (verdict ok final) := by
  refine vmRun_repeats .caseSensitive (.arbno (.literal [0x61])) ⟨arbnoLetter, [], 1, [], []⟩
    (VmEnv.ofCode arbnoLetter [0x61, 0x62] .bare) (.zero ⟨[], ()⟩) [] (by decide +kernel)
    (by decide) (by decide) trivial trivial rfl rfl rfl (Nat.zero_le _) (fun _ => rfl) ?_
  refine VmReach.forall_of_steps (n := 7) rfl fun m hm vm hvm => .of_loopOk ?_
  have hall : ∀ m < 7, (vmSteps (VmEnv.ofCode arbnoLetter [0x61, 0x62] .bare) m
      (vmRunStart (.zero ⟨[], ()⟩))).All (loopOk (VmEnv.ofCode arbnoLetter [0x61, 0x62] .bare)) := by
    decide +kernel
  have hm := hall m hm
  rw [hvm] at hm
  exact hm

/-! ## The greedy shortcut -/

/-- The code of `ARBNO(SPAN('a') 'b')`. -/
def arbnoSpanLetter : Bytes :=
  [15, 0, 0, 0, 0, 0, 255, 255, 255, 255, 0, 0, 0, 33, 7, 0, 1, 4, 0, 0, 0, 26, 0, 0, 0, 1, 98,
    16, 0, 0, 0, 0, 14, 0, 0, 1, 0, 0, 0, 0, 0, 97, 0, 0, 0, 97, 0, 0, 0, 34, 0, 0, 0, 1, 0, 0, 0,
    0, 83, 78, 66, 76]

/-- On "aba" the shortcut counts the last letter as an iteration, although no 'b' follows
it: `vm_run` matches three bytes, the ordered search two. -/
theorem vmRun_greedy_overruns :
    compileAstToBytecodeC .caseSensitive (.arbno (.concat [.span [0x61], .literal [0x62]])) =
        some arbnoSpanLetter ∧
      (∃ final : Vm Unit, VmRun (VmEnv.ofCode arbnoSpanLetter [0x61, 0x62, 0x61] .bare)
        (.zero ⟨[], ()⟩) true final ∧ final.pos = 3) ∧
      ∃ b : Blk, b.map (Leaf.resolve [⟨[⟨97, 97⟩], false⟩]) LoopSpec.bounds =
          (AstNode.arbno (.concat [.span [0x61], .literal [0x62]])).pat .caseSensitive ∧
        ∀ v, (repetitionInterp (VmEnv.ofCode arbnoSpanLetter [0x61, 0x62, 0x61] .bare)).Finds b
            ⟨0, (Vm.zero (⟨[], ()⟩ : Globals Unit)).regs⟩ ⟨[], ()⟩ v →
          ∃ s g, v = .success s g ∧ s.pos = 2 := by
  refine ⟨by decide +kernel, ?_, ?_⟩
  · exact ⟨_, ⟨5, StepResult.eq_halted (by decide +kernel)⟩, by decide +kernel⟩
  refine ⟨.loop ⟨0, 0, unbounded⟩ (.seq (.leaf (.set .span 1)) (.seq (.leaf (.lit [98])) .skip)),
    rfl, fun v hv => ?_⟩
  have hrun : ((repetitionInterp (VmEnv.ofCode arbnoSpanLetter [0x61, 0x62, 0x61] .bare)).run 20
      (.run ⟨[.pat (.loop ⟨0, 0, unbounded⟩
        (.seq (.leaf (.set .span 1)) (.seq (.leaf (.lit [98])) .skip)))],
        ⟨0, (Vm.zero (⟨[], ()⟩ : Globals Unit)).regs⟩⟩ ⟨[], ()⟩ [])).bind
      (fun v => v.state.map Local.pos) = some 2 := by decide +kernel
  obtain ⟨v', hv', hpos⟩ := Option.bind_eq_some_iff.mp hrun
  obtain rfl := hv.unique (Interp.search_of_run hv')
  cases v with
  | success s g => exact ⟨s, g, rfl, by simpa [Verdict.state] using hpos⟩
  | failure g => cases hpos

end Snobol4
