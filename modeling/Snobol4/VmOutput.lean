import Mathlib.Logic.Relation
import Snobol4.SearchLoop
import Snobol4.VmFailure

/-!
# VmOutput — what a search leaves in the output buffer

Neither a choice record nor `search_reset_vm` holds the length of the output, so what is
emitted stays.  The path of a run keeps, beside the VM, the text that the `EMIT`
instructions have appended on the way to the current state, and the text at the push of
every choice point.
-/

namespace Snobol4

variable {W : Type}

/-! ## The path of a run -/

/-- The text that the next instruction emits, if it is an `EMIT`. -/
def emitted (env : VmEnv W) (vm : Vm W) : Bytes :=
  match fetch env.bc vm.ip with
  | some (.prim (.emitLiteral off len), _) => (env.bc.drop off).take len
  | some (.prim (.emitCapture r), _) =>
      if r < maxCaps ∧ vm.regs.capStart r ≤ vm.regs.capEnd r ∧ vm.regs.capEnd r ≤ env.s.length
      then slice env.s (vm.regs.capStart r) (vm.regs.capEnd r)
      else []
  | _ => []

/-- The VM with the text emitted on the path to its state, and the text at the push of
each choice point. -/
structure Traced (W : Type) where
  vm : Vm W
  path : Bytes
  saved : List Bytes

/-- The path after a turn that leads to `vm'`: a pop goes back to the text at the push. -/
def Traced.follow (env : VmEnv W) (t : Traced W) (vm' : Vm W) : Traced W :=
  match fetch env.bc t.vm.ip with
  | some (.fence, _) => ⟨vm', t.path, []⟩
  | _ =>
      if vm'.choices.length < t.vm.choices.length then ⟨vm', t.saved.headD [], t.saved.tail⟩
      else if t.vm.choices.length < vm'.choices.length then ⟨vm', t.path, t.path :: t.saved⟩
      else ⟨vm', t.path ++ emitted env t.vm, t.saved⟩

/-- One turn, with the path. -/
def Traced.Step (env : VmEnv W) (t t' : Traced W) : Prop :=
  ∃ vm', vmStep env t.vm = .running vm' ∧ t' = t.follow env vm'

/-- The states of the run of `vm_run`, with their paths. -/
def Trace (env : VmEnv W) (start : Vm W) : Traced W → Prop :=
  Relation.ReflTransGen (Traced.Step env) ⟨vmRunStart start, [], []⟩

/-- The next instruction is an `EVAL` that appends text. -/
def EvalAppends (env : VmEnv W) (vm : Vm W) : Prop :=
  ∃ fn r next pos regs undone g, fetch env.bc vm.ip = some (.prim (.eval fn r), next) ∧
    opEval env.host env.s fn r vm.pos vm.regs vm.globals = .next pos regs undone g ∧
    g.out ≠ vm.globals.out

/-- A failing instruction abandons emitted text, or text is appended by an `EVAL`. -/
def Discards (env : VmEnv W) (t : Traced W) : Prop :=
  Fails env t.vm ∧ t.saved ≠ [] ∧ t.saved.headD [] ≠ t.path ∨ EvalAppends env t.vm

/-! ## One turn -/

/-- What a turn that does not end the run does to the output and the choice points. -/
inductive OutputEffect (env : VmEnv W) (vm vm' : Vm W) : Prop where
  | fence (hfetch : ∃ next, fetch env.bc vm.ip = some (.fence, next))
      (hout : vm'.globals.out = vm.globals.out) (hchoices : vm'.choices = [])
  | pop (hfails : Fails env vm) (hout : vm'.globals.out = vm.globals.out)
      (hchoices : ∃ c, vm.choices = c :: vm'.choices)
  | push (hfails : ¬Fails env vm) (heval : ¬EvalAppends env vm)
      (hout : vm'.globals.out = vm.globals.out) (hchoices : ∃ c, vm'.choices = c :: vm.choices)
  | emit (hfails : ¬Fails env vm) (hchoices : vm'.choices = vm.choices)
      (hout : ∃ extra, vm'.globals.out = vm.globals.out ++ emitted env vm ++ extra ∧
        (extra ≠ [] ↔ EvalAppends env vm))

/-- A library function appends its text, if it is one that has text. -/
theorem evalCall_out (host : Host W) (s : Bytes) (fn start stop : Nat) (g : Globals W) :
    ∃ extra, (evalCall host s fn start stop g).2.out = g.out ++ extra := by
  have htext : ∀ text : Option Bytes, ∃ extra,
      (evalText host text g).2.out = g.out ++ extra := by
    intro text
    cases text with
    | none => exact ⟨[], (List.append_nil _).symm⟩
    | some text =>
      simp only [evalText, emitText]
      split
      · exact ⟨text, rfl⟩
      · exact ⟨[], (List.append_nil _).symm⟩
  have hsame : ∃ extra, g.out = g.out ++ extra := ⟨[], (List.append_nil _).symm⟩
  unfold evalCall
  simp only
  split
  · exact hsame
  · exact htext _
  · exact htext _
  · exact htext _
  · exact htext _
  · exact hsame
  · exact hsame
  · exact hsame
  · split
    · exact hsame
    · exact hsame

/-- A function call that fails appends nothing. -/
theorem evalCall_false_out {host : Host W} {s : Bytes} {fn start stop : Nat} {g g' : Globals W}
    (h : evalCall host s fn start stop g = (false, g')) : g'.out = g.out := by
  have htext : ∀ text : Option Bytes, evalText host text g = (false, g') → g'.out = g.out := by
    intro text h
    cases text with
    | none =>
      cases h
      rfl
    | some text => cases h
  unfold evalCall at h
  simp only at h
  split at h
  · cases h
  · exact htext _ h
  · exact htext _ h
  · exact htext _ h
  · exact htext _ h
  · exact congrArg (·.2.out) h.symm
  · exact congrArg (·.2.out) h.symm
  · exact congrArg (·.2.out) h.symm
  · split at h
    · cases h
    · exact congrArg (·.2.out) h.symm

theorem moveTo_out {regs regs' : Regs} {g g' : Globals W} {target : Option Nat} {pos : Nat}
    {undone : List UndoRecord} (h : moveTo regs g target = .next pos regs' undone g') :
    g'.out = g.out := by
  cases target with
  | none => cases h
  | some pos' =>
    cases h
    rfl

/-- A failing instruction appends nothing. -/
theorem Prim.exec_fail_out {env : VmEnv W} {p : Prim} {pos : Nat} {regs : Regs}
    {g g' : Globals W} (h : p.exec env pos regs g = .fail g') : g'.out = g.out := by
  have hmove : ∀ target : Option Nat, moveTo regs g target = .fail g' → g'.out = g.out := by
    intro target h
    cases target with
    | none =>
      cases h
      rfl
    | some pos => cases h
  cases p with
  | lit | set | count | anchor => exact hmove _ h
  | nop | capStart | capEnd | assign | label | rem | emitLiteral => cases h
  | emitCapture r =>
    simp only [exec, opEmitCapture] at h
    split at h <;> cases h
  | eval fn r =>
    simp only [exec, opEval] at h
    split at h
    · cases h
      rfl
    split at h
    · split at h
      · cases h
      · rename_i hcall
        cases h
        exact evalCall_false_out hcall
    · cases h
      rfl
  | tableGet table key dest =>
    simp only [exec, opTableGet] at h
    split at h
    · cases h
    split at h
    · cases h
    split at h <;> cases h
  | tableSet table key value =>
    simp only [exec, opTableSet] at h
    split at h
    · cases h
    split at h
    · cases h
    split at h
    · cases h
    split at h <;> cases h
  | bal openCp closeCp =>
    simp only [exec, opBal] at h
    split at h
    · cases h
    split at h
    · exact hmove _ h
    · cases h

/-- The text that the instruction appends, if it is an `EMIT`. -/
def Prim.emitted (env : VmEnv W) (regs : Regs) : Prim → Bytes
  | .emitLiteral off len => (env.bc.drop off).take len
  | .emitCapture r =>
      if r < maxCaps ∧ regs.capStart r ≤ regs.capEnd r ∧ regs.capEnd r ≤ env.s.length
      then slice env.s (regs.capStart r) (regs.capEnd r)
      else []
  | _ => []

theorem emitText_out {host : Host W} (hout : host.hasOut = true) (text : Bytes) (g : Globals W) :
    (emitText host text g).out = g.out ++ text := by
  simp [emitText, hout]

/-- A plain instruction other than `EVAL` appends what it emits. -/
theorem Prim.exec_out {env : VmEnv W} (hout : env.host.hasOut = true) {p : Prim}
    (heval : ∀ fn r, p ≠ .eval fn r) {pos pos' : Nat} {regs regs' : Regs} {g g' : Globals W}
    {undone : List UndoRecord} (h : p.exec env pos regs g = .next pos' regs' undone g') :
    g'.out = g.out ++ p.emitted env regs := by
  cases p with
  | eval fn r => exact absurd rfl (heval fn r)
  | emitLiteral off len =>
    cases h
    exact emitText_out hout _ g
  | emitCapture r =>
    simp only [exec, opEmitCapture] at h
    split at h
    · rename_i hcap
      cases h
      simp only [emitted, if_pos hcap, emitText_out hout]
    · rename_i hcap
      cases h
      simp only [emitted, if_neg hcap, List.append_nil]
  | lit | set | count | anchor => simpa [emitted] using moveTo_out h
  | nop | capStart | capEnd | assign | label | rem =>
    cases h
    simp [emitted]
  | tableGet table key dest =>
    simp only [exec, opTableGet] at h
    split at h
    · cases h
    split at h
    · cases h
    split at h
    · cases h
    · cases h
      simp [emitted]
  | tableSet table key value =>
    simp only [exec, opTableSet] at h
    split at h
    · cases h
    split at h
    · cases h
    split at h
    · cases h
    split at h
    · cases h
    · cases h
      simp [emitted]
  | bal openCp closeCp =>
    simp only [exec, opBal] at h
    split at h
    · cases h
    split at h
    · simpa [emitted] using moveTo_out h
    · cases h

section

variable {env : VmEnv W} {vm vm' : Vm W}

/-- A turn that backtracks. -/
private theorem outputEffect_of_backtrack {vm₁ : Vm W} (hfails : Fails env vm)
    (h : vm₁.backtrack = .running vm') (hout : vm₁.globals.out = vm.globals.out)
    (hchoices : vm₁.choices = vm.choices) : OutputEffect env vm vm' := by
  unfold Vm.backtrack at h
  split at h
  · cases h
  · rename_i c rest hc
    cases h
    exact .pop hfails hout ⟨c, hchoices ▸ hc⟩

/-- A turn that only pushes. -/
private theorem outputEffect_of_grow (hfails : ¬Fails env vm) (heval : ¬EvalAppends env vm)
    (hemitted : emitted env vm = []) (hout : vm'.globals.out = vm.globals.out)
    (hchoices : vm'.choices = vm.choices ∨ ∃ c, vm'.choices = c :: vm.choices) :
    OutputEffect env vm vm' := by
  obtain hsame | hpush := hchoices
  · refine .emit hfails hsame ⟨[], ?_, ?_⟩
    · simp [hemitted, hout]
    · simp [heval]
  · exact .push hfails heval hout hpush

theorem opRepeatInit_choices (env : VmEnv W) (loop min max skip : Nat) (vm : Vm W) :
    (opRepeatInit env loop min max skip vm).globals = vm.globals ∧
      ((opRepeatInit env loop min max skip vm).choices = vm.choices ∨
        ∃ c, (opRepeatInit env loop min max skip vm).choices = c :: vm.choices) := by
  unfold opRepeatInit
  split
  · simp only
    split
    · exact ⟨rfl, .inr ⟨_, rfl⟩⟩
    · exact ⟨rfl, .inl rfl⟩
  · exact ⟨rfl, .inl rfl⟩

theorem greedyExtend_choices (env : VmEnv W) (loop target : Nat) (vm : Vm W) :
    (greedyExtend env loop target vm).globals = vm.globals ∧
      (greedyExtend env loop target vm).choices = vm.choices := by
  unfold greedyExtend
  split <;> exact ⟨rfl, rfl⟩

theorem opRepeatStep_choices (env : VmEnv W) (loop target : Nat) (vm : Vm W) :
    (opRepeatStep env loop target vm).globals = vm.globals ∧
      ((opRepeatStep env loop target vm).choices = vm.choices ∨
        ∃ c, (opRepeatStep env loop target vm).choices = c :: vm.choices) := by
  unfold opRepeatStep
  split
  · split
    · obtain ⟨hglobals, hchoices⟩ := greedyExtend_choices env loop target
        { vm with loopSpanGreedy := Function.update vm.loopSpanGreedy loop true }
      unfold opRepeatGreedy
      simp only
      split
      · exact ⟨hglobals, .inr ⟨_, congrArg _ hchoices⟩⟩
      · exact ⟨hglobals, .inl hchoices⟩
    · simp only [opRepeatIterate]
      split
      · exact ⟨rfl, .inl rfl⟩
      split
      · split
        · exact ⟨rfl, .inl rfl⟩
        split
        · exact ⟨rfl, .inl rfl⟩
        · exact ⟨rfl, .inr ⟨_, rfl⟩⟩
      · exact ⟨rfl, .inl rfl⟩
  · exact ⟨rfl, .inl rfl⟩

theorem opBreakx_choices (env : VmEnv W) (setId here : Nat) (vm : Vm W) :
    (opBreakx env setId here vm).globals = vm.globals ∧
      ((opBreakx env setId here vm).choices = vm.choices ∨
        ∃ c, (opBreakx env setId here vm).choices = c :: vm.choices) := by
  unfold opBreakx
  simp only
  split
  · exact ⟨rfl, .inr ⟨_, rfl⟩⟩
  · exact ⟨rfl, .inl rfl⟩

/-- A plain instruction that goes on. -/
private theorem outputEffect_of_prim (hout : env.host.hasOut = true) {p : Prim} {next pos : Nat}
    {regs : Regs} {undone : List UndoRecord} {g : Globals W}
    (hfetch : fetch env.bc vm.ip = some (.prim p, next))
    (hexec : p.exec env vm.pos vm.regs vm.globals = .next pos regs undone g)
    (hglobals : vm'.globals = g) (hchoices : vm'.choices = vm.choices) :
    OutputEffect env vm vm' := by
  have hfails : ¬Fails env vm := by
    simp only [Fails, hfetch]
    exact fun h => h pos regs undone g hexec
  have hemitted : emitted env vm = p.emitted env vm.regs := by
    simp only [emitted, hfetch]
    cases p <;> rfl
  refine .emit hfails hchoices ?_
  by_cases hp : ∃ fn r, p = .eval fn r
  · obtain ⟨fn, r, rfl⟩ := hp
    have hevaltext : ∃ extra, g.out = vm.globals.out ++ extra := by
      have hcall := evalCall_out env.host env.s fn (vm.regs.capStart r) (vm.regs.capEnd r)
        vm.globals
      simp only [Prim.exec, opEval] at hexec
      split at hexec
      · cases hexec
      split at hexec
      · split at hexec
        · rename_i hresult
          cases hexec
          rwa [hresult] at hcall
        · cases hexec
      · cases hexec
    obtain ⟨extra, hextra⟩ := hevaltext
    refine ⟨extra, by rw [hemitted, hglobals, hextra]; simp [Prim.emitted], ?_⟩
    constructor
    · intro hne
      exact ⟨fn, r, next, pos, regs, undone, g, hfetch, hexec, by simp [hextra, hne]⟩
    · rintro ⟨fn', r', next', pos', regs', undone', g', hfetch', hexec', hne⟩ hnil
      rw [hfetch] at hfetch'
      cases hfetch'
      simp only [Prim.exec] at hexec
      rw [hexec] at hexec'
      cases hexec'
      simp [hextra, hnil] at hne
  · have heval : ∀ fn r, p ≠ .eval fn r := fun fn r h => hp ⟨fn, r, h⟩
    refine ⟨[], ?_, ?_⟩
    · rw [hemitted, hglobals, List.append_nil]
      exact Prim.exec_out hout heval hexec
    · simp only [ne_eq, not_true_eq_false, false_iff]
      rintro ⟨fn, r, next', -, -, -, -, hfetch', -⟩
      rw [hfetch] at hfetch'
      cases hfetch'
      exact heval fn r rfl

/-- What a turn does to the output. -/
theorem vmStep_output (hout : env.host.hasOut = true) (h : vmStep env vm = .running vm') :
    OutputEffect env vm vm' := by
  have hnoteval : ∀ {instr next}, fetch env.bc vm.ip = some (instr, next) →
      (∀ p, instr ≠ .prim p) → ¬EvalAppends env vm ∧ emitted env vm = [] := by
    intro instr next hfetch hinstr
    constructor
    · rintro ⟨fn, r, next', -, -, -, -, hfetch', -⟩
      rw [hfetch] at hfetch'
      cases hfetch'
      exact hinstr _ rfl
    · simp only [emitted, hfetch]
      cases instr with
      | prim p => exact absurd rfl (hinstr p)
      | _ => rfl
  unfold vmStep at h
  cases hfetch : fetch env.bc vm.ip with
  | none =>
    simp only [hfetch] at h
    exact outputEffect_of_backtrack (by simp [Fails, hfetch]) h rfl rfl
  | some fetched =>
    obtain ⟨instr, next⟩ := fetched
    simp only [hfetch] at h
    cases instr with
    | prim p =>
      cases hexec : p.exec env vm.pos vm.regs vm.globals with
      | next pos regs undone g =>
        simp only [hexec, Vm.apply] at h
        cases h
        exact outputEffect_of_prim hout hfetch hexec rfl rfl
      | fail g =>
        simp only [hexec, Vm.apply] at h
        refine outputEffect_of_backtrack (by simp [Fails, hfetch, hexec]) h ?_ rfl
        exact Prim.exec_fail_out hexec
      | leave g =>
        simp only [hexec, Vm.apply, Vm.leave] at h
        split at h <;> cases h
    | fail | unknown b => exact outputEffect_of_backtrack (by simp [Fails, hfetch]) h rfl rfl
    | goto label =>
      obtain ⟨heval, hemitted⟩ := hnoteval hfetch (by simp)
      cases hlabel : env.labelOffsets[label]? with
      | none =>
        simp only [hlabel] at h
        exact outputEffect_of_backtrack (by simp [Fails, hfetch, hlabel]) h rfl rfl
      | some target =>
        simp only [hlabel] at h
        cases h
        exact outputEffect_of_grow (by simp [Fails, hfetch, hlabel]) heval hemitted rfl (.inl rfl)
    | accept | abort | succeed => cases h
    | jmp target =>
      obtain ⟨heval, hemitted⟩ := hnoteval hfetch (by simp)
      cases h
      exact outputEffect_of_grow (by simp [Fails, hfetch]) heval hemitted rfl (.inl rfl)
    | split a b =>
      obtain ⟨heval, hemitted⟩ := hnoteval hfetch (by simp)
      cases h
      exact outputEffect_of_grow (by simp [Fails, hfetch]) heval hemitted rfl (.inr ⟨_, rfl⟩)
    | repeatInit loop min max skip =>
      obtain ⟨heval, hemitted⟩ := hnoteval hfetch (by simp)
      cases h
      obtain ⟨hglobals, hchoices⟩ :=
        opRepeatInit_choices env loop min max skip { vm with ip := next }
      exact outputEffect_of_grow (by simp [Fails, hfetch]) heval hemitted
        (congrArg Globals.out hglobals) hchoices
    | repeatStep loop target =>
      obtain ⟨heval, hemitted⟩ := hnoteval hfetch (by simp)
      cases h
      obtain ⟨hglobals, hchoices⟩ := opRepeatStep_choices env loop target { vm with ip := next }
      exact outputEffect_of_grow (by simp [Fails, hfetch]) heval hemitted
        (congrArg Globals.out hglobals) hchoices
    | breakx setId =>
      obtain ⟨heval, hemitted⟩ := hnoteval hfetch (by simp)
      cases h
      obtain ⟨hglobals, hchoices⟩ := opBreakx_choices env setId vm.ip { vm with ip := next }
      exact outputEffect_of_grow (by simp [Fails, hfetch]) heval hemitted
        (congrArg Globals.out hglobals) hchoices
    | fence =>
      cases h
      exact .fence ⟨next, hfetch⟩ rfl rfl

end

/-! ## The path and the output -/

/-- There is a text for every choice point, and the texts extend one another. -/
structure Balanced (t : Traced W) : Prop where
  length : t.saved.length = t.vm.choices.length
  chain : (t.path :: t.saved).Pairwise fun later earlier => earlier <+: later

/-- What the turn does to path and output together. -/
structure Advances (env : VmEnv W) (t t' : Traced W) : Prop where
  balanced : Balanced t'
  /-- The output never falls behind the path. -/
  grows : t.vm.globals.out.length + t'.path.length ≤ t'.vm.globals.out.length + t.path.length
  /-- A discarded text stays in the output. -/
  loses : Discards env t →
    t.vm.globals.out.length + t'.path.length < t'.vm.globals.out.length + t.path.length
  keeps : ¬Discards env t → t.vm.globals.out = t.path → t'.vm.globals.out = t'.path

theorem Fails.not_evalAppends {env : VmEnv W} {vm : Vm W} (h : Fails env vm) :
    ¬EvalAppends env vm := by
  rintro ⟨fn, r, next, pos, regs, undone, g, hfetch, hexec, -⟩
  simp only [Fails, hfetch] at h
  exact h pos regs undone g hexec

theorem Traced.follow_vm (env : VmEnv W) (t : Traced W) (vm' : Vm W) :
    (t.follow env vm').vm = vm' := by
  unfold follow
  split
  · rfl
  split
  · rfl
  split <;> rfl

theorem follow_of_fetch {env : VmEnv W} {t : Traced W}
    (h : ∀ next, fetch env.bc t.vm.ip ≠ some (.fence, next)) (vm' : Vm W) :
    t.follow env vm' =
      if vm'.choices.length < t.vm.choices.length then ⟨vm', t.saved.headD [], t.saved.tail⟩
      else if t.vm.choices.length < vm'.choices.length then ⟨vm', t.path, t.path :: t.saved⟩
      else ⟨vm', t.path ++ emitted env t.vm, t.saved⟩ := by
  unfold Traced.follow
  split
  · rename_i next hfetch
    exact absurd hfetch (h next)
  · rfl

theorem Traced.Step.advances {env : VmEnv W} (hout : env.host.hasOut = true) {t t' : Traced W}
    (h : t.Step env t') (hbalanced : Balanced t) : Advances env t t' := by
  obtain ⟨vm', hstep, rfl⟩ := h
  obtain ⟨hlength, hchain⟩ := hbalanced
  have hnotfence : ¬(∃ next, fetch env.bc t.vm.ip = some (.fence, next)) →
      ∀ next, fetch env.bc t.vm.ip ≠ some (.fence, next) := fun h next hn => h ⟨next, hn⟩
  cases vmStep_output hout hstep with
  | fence hfetch hsame hchoices =>
    obtain ⟨next, hfetch⟩ := hfetch
    have hfollow : t.follow env vm' = ⟨vm', t.path, []⟩ := by simp only [Traced.follow, hfetch]
    have hnot : ¬Discards env t := by
      rintro (⟨hfails, -⟩ | ⟨fn, r, next', -, -, -, -, hfetch', -⟩)
      · simp [Fails, hfetch] at hfails
      · simp [hfetch] at hfetch'
    rw [hfollow]
    exact ⟨⟨by simp [hchoices], by simp⟩, by simp [hsame], fun hd => absurd hd hnot,
      fun _ heq => hsame.trans heq⟩
  | pop hfails hsame hchoices =>
    obtain ⟨c, hchoices⟩ := hchoices
    have hfence : ¬∃ next, fetch env.bc t.vm.ip = some (.fence, next) := by
      rintro ⟨next, hfetch⟩
      simp [Fails, hfetch] at hfails
    rw [follow_of_fetch (hnotfence hfence), if_pos (by simp [hchoices])]
    -- the text saved with the choice is a prefix of the path, so the path gets shorter
    obtain ⟨p, rest, hsaved⟩ : ∃ p rest, t.saved = p :: rest := by
      cases hsaved : t.saved with
      | nil =>
        rw [hsaved, hchoices] at hlength
        cases hlength
      | cons p rest => exact ⟨p, rest, rfl⟩
    rw [hsaved] at hchain hlength
    obtain ⟨hinitial, hchain'⟩ := List.pairwise_cons.mp hchain
    have hp : p <+: t.path := hinitial p List.mem_cons_self
    have hdiscards : Discards env t ↔ p ≠ t.path := by
      simp [Discards, hfails, hsaved, hfails.not_evalAppends]
    refine ⟨⟨?_, ?_⟩, ?_, ?_, ?_⟩
    · simp only [hsaved, List.tail_cons]
      rw [hchoices] at hlength
      simpa using hlength
    · simpa [hsaved] using hchain'
    · have := hp.length_le
      simp only [hsaved, List.headD_cons, hsame]
      omega
    · intro hd
      have hlt : p.length < t.path.length := by
        refine Nat.lt_of_le_of_ne hp.length_le fun heq => hdiscards.mp hd ?_
        exact hp.eq_of_length heq
      simp only [hsaved, List.headD_cons, hsame]
      omega
    · intro hd heq
      rw [hdiscards, not_not] at hd
      simp only [hsaved, List.headD_cons, hsame, heq, hd]
  | push hfails heval hsame hchoices =>
    obtain ⟨c, hchoices⟩ := hchoices
    have hnot : ¬Discards env t := by
      rintro (⟨h, -⟩ | h)
      · exact hfails h
      · exact heval h
    have hfence : ∀ next, fetch env.bc t.vm.ip ≠ some (.fence, next) := by
      intro next hfetch
      simp only [vmStep, hfetch, StepResult.running.injEq] at hstep
      rw [← hstep] at hchoices
      simp at hchoices
    rw [follow_of_fetch hfence, if_neg (by simp [hchoices]), if_pos (by simp [hchoices])]
    refine ⟨⟨by simp [hchoices, hlength], ?_⟩, by simp [hsame], fun hd => absurd hd hnot,
      fun _ heq => hsame.trans heq⟩
    -- the path is saved as it is
    refine List.pairwise_cons.mpr ⟨?_, hchain⟩
    intro p hp
    obtain rfl | hp := List.mem_cons.mp hp
    · exact List.prefix_rfl
    · exact (List.pairwise_cons.mp hchain).1 p hp
  | emit hfails hchoices hextra =>
    obtain ⟨extra, hout', hextra⟩ := hextra
    have hdiscards : Discards env t ↔ extra ≠ [] := by
      simp [Discards, hfails, hextra]
    by_cases hfence : ∃ next, fetch env.bc t.vm.ip = some (.fence, next)
    · -- a fence on an empty stack
      obtain ⟨next, hfetch⟩ := hfence
      simp only [vmStep, hfetch, StepResult.running.injEq] at hstep
      have hnil : t.vm.choices = [] := by
        rw [← hchoices, ← hstep]
      have hsaved : t.saved = [] := List.length_eq_zero_iff.mp (by rw [hlength, hnil]; rfl)
      have hfollow : t.follow env vm' = ⟨vm', t.path, []⟩ := by simp only [Traced.follow, hfetch]
      have hsame : vm'.globals.out = t.vm.globals.out := by rw [← hstep]
      have hnone : extra = [] := by
        rw [hsame] at hout'
        have := congrArg List.length hout'
        simp only [List.length_append] at this
        exact List.length_eq_zero_iff.mp (by omega)
      rw [hfollow]
      refine ⟨⟨by simp [← hstep], by simp⟩, by simp [hsame], fun hd => ?_, fun _ heq => hsame.trans heq⟩
      exact absurd hnone (hdiscards.mp hd)
    · rw [follow_of_fetch (hnotfence hfence), if_neg (by simp [hchoices]),
        if_neg (by simp [hchoices])]
      refine ⟨⟨by simp [hchoices, hlength], ?_⟩, ?_, ?_, ?_⟩
      · refine List.pairwise_cons.mpr ⟨?_, (List.pairwise_cons.mp hchain).2⟩
        intro p hp
        exact ((List.pairwise_cons.mp hchain).1 p hp).trans (List.prefix_append _ _)
      · simp only [hout', List.length_append]
        omega
      · intro hd
        have hpos : 0 < extra.length := List.length_pos_iff.mpr (hdiscards.mp hd)
        simp only [hout', List.length_append]
        omega
      · intro hd heq
        rw [hdiscards, not_not] at hd
        simp only [hout', hd, heq, List.append_nil]

theorem Balanced.start (vm : Vm W) : Balanced (⟨vmRunStart vm, [], []⟩ : Traced W) :=
  ⟨rfl, by simp⟩

section

variable {env : VmEnv W} (hout : env.host.hasOut = true) {t t' : Traced W}
include hout

theorem Balanced.steps (h : Balanced t) (hsteps : Relation.ReflTransGen (Traced.Step env) t t') :
    Balanced t' ∧
      t.vm.globals.out.length + t'.path.length ≤ t'.vm.globals.out.length + t.path.length := by
  induction hsteps with
  | refl => exact ⟨h, le_rfl⟩
  | tail _ hstep ih =>
    obtain ⟨hbalanced, hgrows⟩ := ih
    have hadvances := hstep.advances hout hbalanced
    refine ⟨hadvances.balanced, ?_⟩
    have := hadvances.grows
    omega

/-- As long as nothing is discarded, the output is the path. -/
theorem Trace.out_eq_path {start : Vm W} (hclear : start.globals.out = [])
    (hkeeps : ∀ t, Trace env start t → ¬Discards env t) (h : Trace env start t) :
    t.vm.globals.out = t.path := by
  induction h with
  | refl => exact hclear
  | tail hsteps hstep ih =>
    have hbalanced := (Balanced.steps hout (Balanced.start start) hsteps).1
    exact (hstep.advances hout hbalanced).keeps (hkeeps _ hsteps) ih

/-- Once something is discarded, the output is longer than the path. -/
theorem Trace.path_lt_out {start : Vm W} {final : Vm W} {ok : Bool} (h : Trace env start t)
    (hhalt : vmStep env t.vm = .halted ok final) (h' : Trace env start t')
    (hdiscards : Discards env t') (hne : ¬Discards env t) :
    t.path.length < t.vm.globals.out.length := by
  have hunique : Relator.RightUnique (Traced.Step env) := by
    rintro a b c ⟨vm₁, h₁, rfl⟩ ⟨vm₂, h₂, rfl⟩
    rw [h₁] at h₂
    cases h₂
    rfl
  have hsteps : Relation.ReflTransGen (Traced.Step env) t' t := by
    obtain hsteps | hsteps := Relation.ReflTransGen.total_of_right_unique hunique h' h
    · exact hsteps
    · -- the run is over in `t`
      obtain rfl | ⟨t₁, ⟨vm₁, hstep, -⟩, -⟩ := Relation.ReflTransGen.cases_head hsteps
      · exact .refl
      · rw [hhalt] at hstep
        cases hstep
  obtain ⟨hbalanced, hgrows⟩ := Balanced.steps hout (Balanced.start start) h'
  obtain rfl | ⟨t₁, hstep, hrest⟩ := Relation.ReflTransGen.cases_head hsteps
  · exact absurd hdiscards hne
  · have hadvances := hstep.advances hout hbalanced
    have hloses := hadvances.loses hdiscards
    have hgrows' := (Balanced.steps hout hadvances.balanced hrest).2
    simp only at hgrows
    simp only [List.length_nil, Nat.add_zero] at hgrows
    omega

end

/-- Every state of the run has a path. -/
theorem VmReach.trace {env : VmEnv W} {start vm : Vm W} (h : VmReach env start vm) :
    ∃ t, Trace env start t ∧ t.vm = vm := by
  induction h with
  | start => exact ⟨_, .refl, rfl⟩
  | step _ hstep ih =>
    obtain ⟨t, htrace, rfl⟩ := ih
    exact ⟨t.follow env _, htrace.tail ⟨_, hstep, rfl⟩, t.follow_vm env _⟩

theorem Trace.vmReach {env : VmEnv W} {start : Vm W} {t : Traced W} (h : Trace env start t) :
    VmReach env start t.vm := by
  induction h with
  | refl => exact .start
  | tail _ hstep ih =>
    obtain ⟨vm', hstep, rfl⟩ := hstep
    rw [Traced.follow_vm]
    exact ih.step hstep

/-- A turn that ends the run with success discards nothing and leaves the output. -/
theorem halted_true {env : VmEnv W} {vm final : Vm W} (h : vmStep env vm = .halted true final) :
    final.globals = vm.globals ∧ ¬Fails env vm ∧ ¬EvalAppends env vm := by
  have hback : ∀ vm₁ : Vm W, vm₁.backtrack ≠ .halted true final := by
    intro vm₁ h
    cases (backtrack_halts h).1
  unfold vmStep at h
  cases hfetch : fetch env.bc vm.ip with
  | none =>
    simp only [hfetch] at h
    exact absurd h (hback _)
  | some fetched =>
    obtain ⟨instr, next⟩ := fetched
    simp only [hfetch] at h
    cases instr with
    | accept | succeed =>
      cases h
      exact ⟨rfl, by simp [Fails, hfetch], by simp [EvalAppends, hfetch]⟩
    | prim p =>
      cases hexec : p.exec env vm.pos vm.regs vm.globals with
      | next pos regs undone g =>
        simp only [hexec, Vm.apply] at h
        cases h
      | fail g =>
        simp only [hexec, Vm.apply] at h
        exact absurd h (hback _)
      | leave g =>
        simp only [hexec, Vm.apply, Vm.leave] at h
        split at h <;> cases h
    | fail | unknown b => exact absurd h (hback _)
    | goto label =>
      simp only at h
      split at h
      · cases h
      · exact absurd h (hback _)
    | _ => cases h

/-- A search ends with exactly the texts emitted on the path of the winning attempt in
the output buffer, if and only if the buffer is empty when that attempt starts and the
attempt abandons no emitted text and runs no `EVAL` that appends one. -/
theorem search_output_iff {env : VmEnv W} (hout : env.host.hasOut = true) {info : SearchMeta}
    {anchored : Bool} {start offset : Nat} {vm₀ vm final : Vm W}
    (hfound : SearchFound env info anchored start vm₀ offset vm final) :
    ∃ t, Trace (env.window offset) (vmExecStart (searchResetVm vm)) t ∧
      vmStep (env.window offset) t.vm = .halted true final ∧
      (final.globals.out = t.path ↔ vm.globals.out = [] ∧
        ∀ t', Trace (env.window offset) (vmExecStart (searchResetVm vm)) t' →
          ¬Discards (env.window offset) t') := by
  have hout' : (env.window offset).host.hasOut = true := hout
  obtain ⟨vm₁, hreach, hhalt⟩ := hfound.exec.last
  obtain ⟨t, htrace, rfl⟩ := hreach.trace
  obtain ⟨hglobals, hfails, heval⟩ := halted_true hhalt
  have hne : ¬Discards (env.window offset) t := by
    rintro (⟨h, -⟩ | h)
    · exact hfails h
    · exact heval h
  refine ⟨t, htrace, hhalt, ?_⟩
  rw [hglobals]
  constructor
  · intro heq
    have hle : vm.globals.out.length + t.path.length ≤ t.vm.globals.out.length + 0 :=
      (Balanced.steps hout' (Balanced.start _) htrace).2
    refine ⟨?_, fun t' htrace' hdiscards => ?_⟩
    · rw [heq] at hle
      exact List.length_eq_zero_iff.mp (by omega)
    · have := Trace.path_lt_out hout' htrace hhalt htrace' hdiscards hne
      rw [heq] at this
      omega
  · intro ⟨hclear, hkeeps⟩
    have hclear' : (vmExecStart (searchResetVm vm)).globals.out = [] := hclear
    exact Trace.out_eq_path hout' hclear' hkeeps htrace

/-! ## A text that stays -/

/-- The code of the alternation of an `EMIT` of "x" in front of 'b', and 'a'. -/
def emitOrLetter : Bytes :=
  [3, 0, 0, 0, 9, 0, 0, 0, 34, 17, 0, 0, 0, 18, 0, 0, 0, 1, 120, 4, 0, 0, 0, 28, 0, 0, 0, 1, 98,
   2, 0, 0, 0, 44, 4, 0, 0, 0, 43, 0, 0, 0, 1, 97, 0, 0, 0, 0, 0, 0, 0, 0, 0, 83, 78, 66, 76]

/-- The code over the subject "a". -/
def emitOrLetterEnv : VmEnv Unit := VmEnv.ofCode emitOrLetter [0x61] .bare

/-- The metadata of the pattern: no byte is ruled out. -/
def emitOrLetterMeta : SearchMeta := ⟨some fun _ => true, 0, none⟩

/-- The attempt at offset 0 after `n` turns. -/
def emitOrLetterAt : Nat → Traced Unit
  | 0 => ⟨vmRunStart (vmExecStart (searchResetVm (.zero ⟨[], ()⟩))), [], []⟩
  | n + 1 =>
      (emitOrLetterAt n).follow (emitOrLetterEnv.window 0)
        (vmStep (emitOrLetterEnv.window 0) (emitOrLetterAt n).vm).vm

private theorem emitOrLetter_step (n : Nat)
    (h : (vmStep (emitOrLetterEnv.window 0) (emitOrLetterAt n).vm).isRunning = true) :
    Traced.Step (emitOrLetterEnv.window 0) (emitOrLetterAt n) (emitOrLetterAt (n + 1)) :=
  ⟨_, StepResult.eq_running h, rfl⟩

private theorem emitOrLetter_trace :
    Trace (emitOrLetterEnv.window 0) (vmExecStart (searchResetVm (.zero ⟨[], ()⟩)))
      (emitOrLetterAt 4) :=
  (((Relation.ReflTransGen.refl.tail (emitOrLetter_step 0 (by decide +kernel))).tail
    (emitOrLetter_step 1 (by decide +kernel))).tail
    (emitOrLetter_step 2 (by decide +kernel))).tail (emitOrLetter_step 3 (by decide +kernel))

private theorem emitOrLetter_found :
    SearchFound emitOrLetterEnv emitOrLetterMeta false 0 (.zero ⟨[], ()⟩) 0 (.zero ⟨[], ()⟩)
      (vmStep (emitOrLetterEnv.window 0) (emitOrLetterAt 4).vm).vm where
  reach := .start
  tries := ⟨by decide, by decide, .inl rfl⟩
  exec := emitOrLetter_trace.vmReach.halts (StepResult.eq_halted (by decide +kernel))

/-- The search on "a" matches by the second alternative, and its output is the "x" of
the first. -/
theorem search_output_keeps_abandoned :
    compileAstToBytecodeC .caseSensitive
        (.alt (.concat [.emit (some [0x78]) 0, .literal [0x62]]) (.literal [0x61])) =
        some emitOrLetter ∧
      ¬∀ (offset : Nat) (vm final : Vm Unit) (t : Traced Unit),
        SearchFound emitOrLetterEnv emitOrLetterMeta false 0 (.zero ⟨[], ()⟩) offset vm final →
        Trace (emitOrLetterEnv.window offset) (vmExecStart (searchResetVm vm)) t →
        vmStep (emitOrLetterEnv.window offset) t.vm = .halted true final →
        final.globals.out = t.path := by
  refine ⟨by decide +kernel, fun h => ?_⟩
  have heq := h 0 _ _ _ emitOrLetter_found emitOrLetter_trace
    (StepResult.eq_halted (by decide +kernel))
  revert heq
  decide +kernel

/-- The criterion for that search. -/
theorem search_output_iff_abandoned :
    ∃ t, Trace (emitOrLetterEnv.window 0) (vmExecStart (searchResetVm (.zero ⟨[], ()⟩))) t ∧
      vmStep (emitOrLetterEnv.window 0) t.vm =
        .halted true (vmStep (emitOrLetterEnv.window 0) (emitOrLetterAt 4).vm).vm ∧
      ((vmStep (emitOrLetterEnv.window 0) (emitOrLetterAt 4).vm).vm.globals.out = t.path ↔
        (Vm.zero (⟨[], ()⟩ : Globals Unit)).globals.out = [] ∧
          ∀ t', Trace (emitOrLetterEnv.window 0)
              (vmExecStart (searchResetVm (.zero ⟨[], ()⟩))) t' →
            ¬Discards (emitOrLetterEnv.window 0) t') :=
  search_output_iff rfl emitOrLetter_found

end Snobol4
