import Snobol4.Vm
import Snobol4.Compiler

/-!
# VmFailure — what an instruction that fails does (`vm_exec.c`)

An instruction that fails resumes the newest choice point.  `OP_BAL` in front of
anything but the open delimiter and the table operations leave the dispatch loop by a
bare `break` instead, which ends the run although choice points are left.
-/

namespace Snobol4

variable {W : Type}

/-! ## Failing instructions -/

/-- The instruction at `ip` fails; behind the end of the code there is none. -/
def Fails (env : VmEnv W) (vm : Vm W) : Prop :=
  match fetch env.bc vm.ip with
  | none => True
  | some (.prim p, _) => ∀ pos regs undo g,
      p.exec env vm.pos vm.regs vm.globals ≠ .next pos regs undo g
  | some (.fail, _) => True
  | some (.goto label, _) => env.labelOffsets[label]? = none
  | some (.unknown _, _) => True
  | some _ => False

/-- The instruction at `ip` is `OP_ABORT`. -/
def AtAbort (env : VmEnv W) (vm : Vm W) : Prop :=
  ∃ next, fetch env.bc vm.ip = some (.abort, next)

/-- The instruction finds no open delimiter at the cursor, or no table, key, value or
entry. -/
def Prim.Breaks (env : VmEnv W) (pos : Nat) (regs : Regs) (g : Globals W) : Prim → Prop
  | .bal openCp _ => (peekCp env.s pos).map (·.1) ≠ some openCp
  | .tableGet table key _ =>
      ¬∃ lookup text, env.host.tableGet g.world table = some lookup ∧
        keyText env.s regs key = some text ∧ (lookup text).isSome
  | .tableSet table key value =>
      ¬∃ store keyBytes valueBytes, env.host.tableSet g.world table = some store ∧
        keyText env.s regs key = some keyBytes ∧ keyText env.s regs value = some valueBytes ∧
        (store keyBytes valueBytes).isSome
  | _ => False

/-- A bare `break` is about to drop choice points. -/
def BareBreak (env : VmEnv W) (vm : Vm W) : Prop :=
  vm.choices ≠ [] ∧ ∃ p next, fetch env.bc vm.ip = some (.prim p, next) ∧
    p.Breaks env vm.pos vm.regs vm.globals

/-- A failing instruction resumes the newest choice point, and the run ends with
failure only where there is none, or by `OP_ABORT`. -/
structure Resumes (env : VmEnv W) (vm : Vm W) : Prop where
  resume : ∀ c rest, Fails env vm → vm.choices = c :: rest →
    ∃ vm', vmStep env vm = .running vm' ∧ vm'.ip = c.ip ∧ vm'.pos = c.pos ∧
      vm'.toStore = vm.toStore.restore c ∧ vm'.choices = rest
  stop : ∀ final, vmStep env vm = .halted false final →
    Fails env vm ∧ vm.choices = [] ∨ AtAbort env vm

/-! ## The bare breaks -/

theorem moveTo_ne_leave (regs : Regs) (g g' : Globals W) (target : Option Nat) :
    moveTo regs g target ≠ .leave g' := by
  cases target <;> simp [moveTo]

/-- The handlers leave the loop exactly by the bare breaks. -/
theorem Prim.exec_leave_iff (env : VmEnv W) (p : Prim) (pos : Nat) (regs : Regs)
    (g : Globals W) :
    (∃ g', p.exec env pos regs g = .leave g') ↔ p.Breaks env pos regs g := by
  cases p with
  | bal openCp closeCp =>
    simp only [exec, opBal, Breaks]
    cases hpeek : peekCp env.s pos with
    | none => simp
    | some step =>
      obtain ⟨first, n⟩ := step
      by_cases hfirst : first = openCp
      · simp [hfirst, moveTo_ne_leave]
      · simp [hfirst]
  | tableGet table key dest =>
    simp only [exec, opTableGet, Breaks]
    cases htable : env.host.tableGet g.world table with
    | none => simp
    | some lookup =>
      cases hkey : keyText env.s regs key with
      | none => simp
      | some text => cases hget : lookup text <;> simp [hget]
  | tableSet table key value =>
    simp only [exec, opTableSet, Breaks]
    cases htable : env.host.tableSet g.world table with
    | none => simp
    | some store =>
      cases hkey : keyText env.s regs key with
      | none => simp
      | some keyBytes =>
        cases hvalue : keyText env.s regs value with
        | none => simp
        | some valueBytes => cases hset : store keyBytes valueBytes <;> simp [hset]
  | eval fn r =>
    simp only [exec, opEval, Breaks, iff_false, not_exists]
    intro g'
    split
    · simp
    split
    · split <;> simp
    · simp
  | emitCapture r =>
    simp only [exec, opEmitCapture, Breaks, iff_false, not_exists]
    intro g'
    split <;> simp
  | lit off len => simp [exec, Breaks, moveTo_ne_leave]
  | set op id => simp [exec, Breaks, moveTo_ne_leave]
  | count op n => simp [exec, Breaks, moveTo_ne_leave]
  | anchor type => simp [exec, Breaks, moveTo_ne_leave]
  | nop | capStart r | capEnd r | assign var r | emitLiteral off len | label id | rem =>
    simp [exec, Breaks, writeRegs]

/-! ## Resuming -/

/-- Backtracking resumes the newest choice point. -/
theorem backtrack_resumes {vm : Vm W} {c : Choice} {rest : List Choice}
    (h : vm.choices = c :: rest) :
    ∃ vm', vm.backtrack = .running vm' ∧ vm'.ip = c.ip ∧ vm'.pos = c.pos ∧
      vm'.toStore = vm.toStore.restore c ∧ vm'.choices = rest := by
  refine ⟨vm.restore c rest, ?_, rfl, rfl, rfl, rfl⟩
  rw [Vm.backtrack, h]

theorem backtrack_halts {vm final : Vm W} {ok : Bool} (h : vm.backtrack = .halted ok final) :
    ok = false ∧ vm.choices = [] := by
  unfold Vm.backtrack at h
  split at h
  · rename_i hnil
    cases h
    exact ⟨rfl, hnil⟩
  · cases h

theorem not_resumes_of_bareBreak {env : VmEnv W} {vm : Vm W} (h : BareBreak env vm) :
    ¬Resumes env vm := by
  intro hres
  obtain ⟨hne, p, next, hfetch, hbreaks⟩ := h
  obtain ⟨c, rest, hchoices⟩ := List.exists_cons_of_ne_nil hne
  obtain ⟨g, hleave⟩ := (Prim.exec_leave_iff env p _ _ _).mpr hbreaks
  have hfails : Fails env vm := by
    simp only [Fails, hfetch, hleave]
    simp
  obtain ⟨vm', hstep, -⟩ := hres.resume c rest hfails hchoices
  simp [vmStep, hfetch, hleave, Vm.apply, Vm.leave, hchoices] at hstep

/-- A plain instruction that does not break out of the loop. -/
private theorem prim_resumes {env : VmEnv W} {vm : Vm W} {p : Prim} {next : Nat}
    (hfetch : fetch env.bc vm.ip = some (.prim p, next)) (h : ¬BareBreak env vm) :
    Resumes env vm := by
  have hstep : vmStep env vm =
      Vm.apply env { vm with ip := next } (p.exec env vm.pos vm.regs vm.globals) := by
    simp only [vmStep, hfetch]
  have hfails : Fails env vm ↔ ∀ pos regs undo g,
      p.exec env vm.pos vm.regs vm.globals ≠ .next pos regs undo g := by
    simp only [Fails, hfetch]
  have hbreaks := (Prim.exec_leave_iff env p vm.pos vm.regs vm.globals)
  cases hexec : p.exec env vm.pos vm.regs vm.globals with
  | next pos regs undo g =>
    rw [hexec] at hstep
    constructor
    · exact fun c rest hf _ => absurd hexec (hfails.mp hf pos regs undo g)
    · intro final hfinal
      rw [hstep] at hfinal
      cases hfinal
  | fail g =>
    rw [hexec] at hstep
    constructor
    · intro c rest _ hchoices
      rw [hstep]
      exact @backtrack_resumes _ { vm with ip := next, globals := g } _ _ hchoices
    · intro final hfinal
      rw [hstep] at hfinal
      refine .inl ⟨hfails.mpr (by simp [hexec]), ?_⟩
      exact (@backtrack_halts _ { vm with ip := next, globals := g } _ _ hfinal).2
  | leave g =>
    -- the choice stack is empty, or else this is a bare break
    have hnil : vm.choices = [] := by
      by_contra hne
      exact h ⟨hne, p, next, hfetch, hbreaks.mp ⟨g, hexec⟩⟩
    constructor
    · intro c rest _ hchoices
      rw [hnil] at hchoices
      cases hchoices
    · intro final _
      exact .inl ⟨hfails.mpr (by simp [hexec]), hnil⟩

/-- A turn that backtracks. -/
private theorem resumes_of_backtrack {env : VmEnv W} {vm vm₁ : Vm W} (hfails : Fails env vm)
    (hstep : vmStep env vm = vm₁.backtrack) (hchoices : vm₁.choices = vm.choices)
    (hstore : vm₁.toStore = vm.toStore) : Resumes env vm := by
  constructor
  · intro c rest _ hc
    rw [hstep, ← hstore]
    exact backtrack_resumes (hchoices.trans hc)
  · intro final hfinal
    rw [hstep] at hfinal
    exact .inl ⟨hfails, hchoices ▸ (backtrack_halts hfinal).2⟩

/-- A turn of an instruction that cannot fail. -/
private theorem resumes_of_not_fails {env : VmEnv W} {vm : Vm W} (hfails : ¬Fails env vm)
    (hstop : ∀ final, vmStep env vm = .halted false final → AtAbort env vm) : Resumes env vm where
  resume _ _ h := absurd h hfails
  stop final hfinal := .inr (hstop final hfinal)

/-- One turn resumes the newest choice point where it should, unless it is a bare
break. -/
theorem resumes_iff (env : VmEnv W) (vm : Vm W) : Resumes env vm ↔ ¬BareBreak env vm := by
  refine ⟨fun h hbreak => not_resumes_of_bareBreak hbreak h, fun h => ?_⟩
  cases hfetch : fetch env.bc vm.ip with
  | none =>
    exact resumes_of_backtrack (by simp [Fails, hfetch]) (by simp only [vmStep, hfetch]) rfl rfl
  | some fetched =>
    obtain ⟨instr, next⟩ := fetched
    cases instr with
    | prim p => exact prim_resumes hfetch h
    | fail =>
      have hstep : vmStep env vm = Vm.backtrack { vm with ip := next } := by
        simp only [vmStep, hfetch]
      exact resumes_of_backtrack (by simp [Fails, hfetch]) hstep rfl rfl
    | unknown b =>
      have hstep : vmStep env vm = Vm.backtrack { vm with ip := next } := by
        simp only [vmStep, hfetch]
      exact resumes_of_backtrack (by simp [Fails, hfetch]) hstep rfl rfl
    | goto label =>
      cases hlabel : env.labelOffsets[label]? with
      | none =>
        have hstep : vmStep env vm = Vm.backtrack { vm with ip := next, inGotoFail := true } := by
          simp only [vmStep, hfetch, hlabel]
        exact resumes_of_backtrack (by simp [Fails, hfetch, hlabel]) hstep rfl rfl
      | some target =>
        refine resumes_of_not_fails (by simp [Fails, hfetch, hlabel]) fun final hfinal => ?_
        simp [vmStep, hfetch, hlabel] at hfinal
    | abort => exact resumes_of_not_fails (by simp [Fails, hfetch]) fun _ _ => ⟨next, hfetch⟩
    | _ =>
      refine resumes_of_not_fails (by simp [Fails, hfetch]) fun final hfinal => ?_
      simp [vmStep, hfetch] at hfinal

/-- Over a whole run: every failing instruction resumes the newest choice point, and
the run ends with failure only on an empty stack or by `OP_ABORT`, exactly if no state
of the run is about to break out of the loop above choice points. -/
theorem vmRun_resumes_iff (env : VmEnv W) (start : Vm W) :
    (∀ vm, VmReach env start vm → Resumes env vm) ↔
      ∀ vm, VmReach env start vm → ¬BareBreak env vm := by
  constructor
  · exact fun h vm hvm => (resumes_iff env vm).mp (h vm hvm)
  · exact fun h vm hvm => (resumes_iff env vm).mpr (h vm hvm)

/-- The code of `BAL('(', ')') | 'a'`. -/
def balOrLetter : Bytes :=
  [3, 0, 0, 0, 9, 0, 0, 0, 23, 32, 0, 0, 0, 40, 0, 0, 0, 41, 2, 0, 0, 0, 33,
   4, 0, 0, 0, 32, 0, 0, 0, 1, 97, 0, 0, 0, 0, 0, 0, 0, 0, 0, 83, 78, 66, 76]

/-- On "a" `OP_BAL` ends the run, and the second alternative is lost. -/
theorem vmRun_bal_drops_choice :
    compileAstToBytecodeC .caseSensitive (.alt (.bal 0x28 0x29) (.literal [0x61])) =
        some balOrLetter ∧
      ¬∀ vm, VmReach (VmEnv.ofCode balOrLetter [0x61] .bare) (.zero ⟨[], ()⟩) vm →
        Resumes (VmEnv.ofCode balOrLetter [0x61] .bare) vm := by
  refine ⟨by decide +kernel, fun h => ?_⟩
  refine not_resumes_of_bareBreak ?_ (h _ (.step .start rfl))
  have hpeek : (peekCp [0x61] 0).map (·.1) ≠ some 0x28 := by decide
  exact ⟨by simp [Vm.pushChoice], .bal 0x28 0x29, 18, by decide, hpeek⟩

end Snobol4
