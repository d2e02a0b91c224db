import Mathlib.Data.List.Dedup
import Snobol4.Labels

/-!
# GotoTargets — where `OP_GOTO` goes (`compiler_codegen.c`, `vm_exec.c`)

The compiler refuses undefined labels and labels that are defined twice, as long as its tables do
not outgrow their 16-bit capacities.  What it accepts goes to the offset that was noted for the
label, as far as that fits the table of the VM.
-/

namespace Snobol4

/-! ## The tables of a syntax tree -/

/-- The codepoints of a case-insensitive literal that become classes. -/
def literalTexts (text : Bytes) : Nat → Nat → List Bytes
  | 0, _ => []
  | fuel + 1, pos =>
      if text.length ≤ pos then []
      else
        match utf8PeekNext text pos with
        | none => literalTexts text fuel (pos + 1)
        | some (_, cpBytes) =>
            slice text pos (pos + cpBytes) :: literalTexts text fuel (pos + cpBytes)

mutual

/-- The texts that become classes. -/
def AstNode.classTexts (cfg : CompilerConfig) : AstNode → List Bytes
  | .literal text => if cfg.caseInsensitive then literalTexts text text.length 0 else []
  | .concat parts => AstNode.classTextsParts cfg parts
  | .alt left right => left.classTexts cfg ++ right.classTexts cfg
  | .span set | .break set | .notany set | .breakx set => [set]
  | .any set => if set.length = 0 then [] else [set]
  | .repetition sub _ _ | .arbno sub | .cap _ sub | .dynamicEval sub => sub.classTexts cfg
  | .label _ target => target.classTexts cfg
  | .tableAccess _ key => key.classTexts cfg
  | .tableUpdate _ key value => key.classTexts cfg ++ value.classTexts cfg
  | _ => []

def AstNode.classTextsParts (cfg : CompilerConfig) : List AstNode → List Bytes
  | [] => []
  | part :: parts => part.classTexts cfg ++ AstNode.classTextsParts cfg parts

end

/-- The name of a use. -/
def LabelUse.name : LabelUse → Bytes
  | .defines name => name
  | .refers name => name

/-- The names of all labels, each once. -/
def AstNode.labelNames (ast : AstNode) : List Bytes := (ast.labelUses.map LabelUse.name).dedup

/-- The tables of the compiler hold the labels and the classes. -/
structure AstNode.FitsTables (cfg : CompilerConfig) (ast : AstNode) : Prop where
  labels : ast.labelNames.length ≤ maxLabels
  classes : ∀ set ∈ ast.classTexts cfg, Collects cfg set

/-- Every label is defined once, and so is every label of a goto. -/
structure AstNode.WellLabelled (ast : AstNode) : Prop where
  once : ast.labelDefs.Nodup
  known : ∀ name ∈ ast.gotoLabels, name ∈ ast.labelDefs

/-! ## Emitters within the tables -/

/-- The label table holds names of the list only, each once. -/
structure LabelsIn (names : List Bytes) (labels : List LabelEntry) : Prop where
  nodup : (labels.map (·.name)).Nodup
  mem : ∀ l ∈ labels, l.name ∈ names

/-- The emitter keeps to memory of its own, where the labels are of the list. -/
def Contained {α : Type} (names : List Bytes) (m : Emit α) : Prop :=
  ∀ st, LabelsIn names st.labels →
    m.run st ≠ .undefined ∧ ∀ a st', m.run st = .done (a, st') → LabelsIn names st'.labels

/-- The emitter is safe if the labels it uses are of the list and the classes fit. -/
def Fits {α : Type} (cfg : CompilerConfig) (names : List Bytes) (m : Emit α)
    (uses : List LabelUse) (texts : List Bytes) : Prop :=
  (∀ use ∈ uses, use.name ∈ names) → (∀ set ∈ texts, Collects cfg set) → Contained names m

section

variable {cfg : CompilerConfig} {names : List Bytes} {α β : Type} {uses uses' : List LabelUse}
  {texts texts' : List Bytes}

theorem Contained.bind {m : Emit α} {k : α → Emit β} (hm : Contained names m)
    (hk : ∀ a, Contained names (k a)) : Contained names (m >>= k) := by
  intro st hst
  obtain ⟨hdefined, hkeeps⟩ := hm st hst
  rw [StateT.run_bind, CallResult.bind_eq_bind]
  constructor
  · rw [Ne, CallResult.bind_eq_undefined_iff]
    rintro (hundefined | ⟨⟨a, st₁⟩, hfirst, hrest⟩)
    · exact hdefined hundefined
    · exact (hk a st₁ (hkeeps a st₁ hfirst)).1 hrest
  · intro b st' hrun
    obtain ⟨⟨a, st₁⟩, hfirst, hrest⟩ := CallResult.bind_eq_done_iff.mp hrun
    exact (hk a st₁ (hkeeps a st₁ hfirst)).2 b st' hrest

/-- An emitter that leaves the labels alone. -/
theorem Quiet.safe {m : Emit α} (hm : Quiet m) (hdefined : ∀ st, m.run st ≠ .undefined) :
    Contained names m := by
  intro st hst
  refine ⟨hdefined st, fun a st' hrun => ?_⟩
  rw [hm st a st' hrun]
  exact hst

theorem safe_emit (bytes : Bytes) : Contained names (emit bytes) :=
  (quiet_emit bytes).safe fun _ => by simp

theorem safe_cbPos : Contained names cbPos := quiet_cbPos.safe fun _ => by simp

theorem safe_noteSplit : Contained names noteSplit := quiet_noteSplit.safe fun _ => by simp

theorem safe_patchU32 (n v : Nat) : Contained names (patchU32 n v) :=
  (quiet_patchU32 n v).safe fun _ => by simp

theorem safe_pure (a : α) : Contained names (pure a : Emit α) :=
  (quiet_pure a).safe fun _ => by simp [StateT.run_pure, CallResult.pure_def]

theorem safe_newLoopId : Contained names newLoopId := by
  refine quiet_newLoopId.safe fun st => ?_
  rw [run_newLoopId]
  split <;> simp

theorem Contained.fits {m : Emit α} (h : Contained names m) : Fits cfg names m [] [] := fun _ _ => h

theorem Fits.bind {m : Emit α} {k : α → Emit β} (hm : Fits cfg names m uses texts)
    (hk : ∀ a, Fits cfg names (k a) uses' texts') :
    Fits cfg names (m >>= k) (uses ++ uses') (texts ++ texts') := by
  intro huses htexts
  rw [List.forall_mem_append] at huses htexts
  exact (hm huses.1 htexts.1).bind fun a => hk a huses.2 htexts.2

theorem Contained.bind_fits {m : Emit α} {k : α → Emit β} (hm : Contained names m)
    (hk : ∀ a, Fits cfg names (k a) uses texts) : Fits cfg names (m >>= k) uses texts :=
  fun huses htexts => hm.bind fun a => hk a huses htexts

theorem Fits.bind_safe {m : Emit α} {k : α → Emit β} (hm : Fits cfg names m uses texts)
    (hk : ∀ a, Contained names (k a)) : Fits cfg names (m >>= k) uses texts :=
  fun huses htexts => (hm huses htexts).bind hk

/-! ## The emitters -/

theorem fits_emitSetOp (o : OpCode) (set : Bytes) :
    Fits cfg names (emitSetOp cfg o set) [] [set] := by
  intro _ htexts
  have hset : Collects cfg set := htexts set List.mem_cons_self
  refine (quiet_emitSetOp cfg o set).safe fun st => ?_
  simp only [emitSetOp, StateT.run_bind, run_addOrGetCharclass, if_pos (show _ ≤ _ from hset),
    run_emit, CallResult.bind_eq_bind, CallResult.bind_done]
  simp

theorem fits_emitAnyC (set : Bytes) :
    Fits cfg names (emitAnyC cfg set) [] (if set.length = 0 then [] else [set]) := by
  unfold emitAnyC
  split
  · exact (safe_emit _).fits
  · exact fits_emitSetOp .any set

theorem safe_emitLitBytes (text : Bytes) : Contained names (emitLitBytes text) :=
  safe_cbPos.bind fun _ => safe_emit _

theorem fits_emitLitCaseInsensitiveC (text : Bytes) (fuel pos : Nat) :
    Fits cfg names (emitLitCaseInsensitiveC cfg text fuel pos) [] (literalTexts text fuel pos) := by
  induction fuel generalizing pos with
  | zero => exact (safe_pure ()).fits
  | succ fuel ih =>
    unfold emitLitCaseInsensitiveC literalTexts
    split
    · exact (safe_pure ()).fits
    · cases utf8PeekNext text pos with
      | none => exact (safe_emitLitBytes _).bind_fits fun _ => ih _
      | some step => exact (fits_emitSetOp .any _).bind fun _ => ih _

theorem safe_emitEmitC (text : Option Bytes) (reg : Int32) : Contained names (emitEmitC text reg) := by
  cases text with
  | some text => exact safe_cbPos.bind fun _ => safe_emit _
  | none =>
    unfold emitEmitC
    dsimp only
    split
    · exact safe_emit _
    · exact safe_pure ()

theorem fits_emitAltC {left right : Emit Unit} (hleft : Fits cfg names left uses texts)
    (hright : Fits cfg names right uses' texts') :
    Fits cfg names (emitAltC left right) (uses ++ uses') (texts ++ texts') := by
  refine safe_noteSplit.bind_fits fun _ => (safe_emit _).bind_fits fun _ =>
    safe_cbPos.bind_fits fun _ => (safe_emit _).bind_fits fun _ => safe_cbPos.bind_fits fun _ =>
    (safe_emit _).bind_fits fun _ => safe_cbPos.bind_fits fun _ => hleft.bind fun _ => ?_
  refine (safe_emit _).bind_fits fun _ => safe_cbPos.bind_fits fun _ =>
    (safe_emit _).bind_fits fun _ => safe_cbPos.bind_fits fun _ => hright.bind_safe fun _ => ?_
  exact safe_cbPos.bind fun _ => (safe_patchU32 _ _).bind fun _ => (safe_patchU32 _ _).bind fun _ =>
    safe_patchU32 _ _

theorem fits_emitLoop {body : Emit Unit} (hbody : Fits cfg names body uses texts)
    (loopId min max : Nat) : Fits cfg names (emitLoop loopId min max body) uses texts := by
  refine (safe_emit _).bind_fits fun _ => safe_cbPos.bind_fits fun _ =>
    (safe_emit _).bind_fits fun _ => safe_cbPos.bind_fits fun _ => hbody.bind_safe fun _ => ?_
  exact (safe_emit _).bind fun _ => safe_cbPos.bind fun _ => safe_patchU32 _ _

theorem fits_emitArbnoLoop {body : Emit Unit} (hbody : Fits cfg names body uses texts) :
    Fits cfg names (emitArbnoLoop body) uses texts :=
  safe_newLoopId.bind_fits fun loopId => fits_emitLoop hbody loopId 0 unbounded

theorem fits_emitCapC {body : Emit Unit} (hbody : Fits cfg names body uses texts) (reg : Nat) :
    Fits cfg names (emitCapC reg body) uses texts :=
  (safe_emit _).bind_fits fun _ => hbody.bind_safe fun _ => safe_emit _

theorem fits_emitTableKeyC {body : Emit Unit} (key : AstNode)
    (hbody : Fits cfg names body key.labelUses (key.classTexts cfg)) :
    Fits cfg names (emitTableKeyC key body) key.labelUses (key.classTexts cfg) := by
  cases key <;> first | exact (safe_pure ()).fits | exact fits_emitCapC hbody 0

end

section

variable {names : List Bytes}

/-- A list without repetitions that is within the names is not longer. -/
theorem length_le_dedup {xs : List Bytes} (hnodup : xs.Nodup) (hmem : ∀ x ∈ xs, x ∈ names) :
    xs.length ≤ names.dedup.length :=
  (List.subperm_of_subset hnodup fun x hx => List.mem_dedup.mpr (hmem x hx)).length_le

theorem safe_getOrCreateLabelC {name : Bytes} (hfew : names.dedup.length ≤ maxLabels)
    (hname : name ∈ names) : Contained names (getOrCreateLabelC name) := by
  intro st hst
  have hkeeps : ∀ idx st', (getOrCreateLabelC name).run st = .done (idx, st') →
      LabelsIn names st'.labels := by
    intro idx st' hrun
    obtain ⟨-, hcreated, -⟩ := getOrCreateLabelC_spec hrun
    refine ⟨hcreated.distinct hst.nodup, ?_⟩
    simp only [getOrCreateLabelC, StateT.run_bind, StateT.run_get, CallResult.pure_def,
      CallResult.bind_eq_bind, CallResult.bind_done] at hrun
    split at hrun
    · cases hrun
      exact hst.mem
    · split at hrun
      · simp [CallResult.bind_eq_bind] at hrun
      · cases hrun
        intro l hl
        obtain hold | hnew := List.mem_append.mp hl
        · exact hst.mem l hold
        · rw [List.mem_singleton.mp hnew]
          exact hname
  refine ⟨?_, hkeeps⟩
  simp only [getOrCreateLabelC, StateT.run_bind, StateT.run_get, CallResult.pure_def,
    CallResult.bind_eq_bind, CallResult.bind_done]
  split
  · rintro ⟨⟩
  · rename_i hnone
    -- with one more name the table is still within the list
    have hnew : ∀ e ∈ st.labels, e.name ≠ name := by simpa using hnone
    have hroom := @length_le_dedup names (name :: st.labels.map (·.name))
      (List.nodup_cons.mpr ⟨by simpa using hnew, hst.nodup⟩) (by
        intro x hx
        obtain rfl | hx := List.mem_cons.mp hx
        · exact hname
        · obtain ⟨l, hl, rfl⟩ := List.mem_map.mp hx
          exact hst.mem l hl)
    rw [List.length_cons, List.length_map] at hroom
    rw [if_neg (by omega)]
    rintro ⟨⟩

theorem LabelsIn.modify {labels : List LabelEntry} (h : LabelsIn names labels)
    {f : LabelEntry → LabelEntry} (hname : ∀ l, (f l).name = l.name) (idx : Nat) :
    LabelsIn names (labels.modify idx f) := by
  have hmap := map_name_modify hname labels idx
  refine ⟨by rw [hmap]; exact h.nodup, fun l hl => ?_⟩
  have hmem : l.name ∈ labels.map (·.name) := hmap ▸ List.mem_map_of_mem hl
  obtain ⟨l', hl', heq⟩ := List.mem_map.mp hmem
  exact heq ▸ h.mem l' hl'

theorem safe_modifyLabel {f : CompilerState → LabelEntry → LabelEntry}
    (hname : ∀ st l, (f st l).name = l.name) (idx : Nat) :
    Contained names (modify fun st => { st with labels := st.labels.modify idx (f st) } : Emit Unit) := by
  intro st hst
  refine ⟨by simp [StateT.run_modify, CallResult.pure_def], fun a st' hrun => ?_⟩
  rw [StateT.run_modify] at hrun
  cases hrun
  exact hst.modify (hname st) idx

variable {cfg : CompilerConfig} {uses : List LabelUse} {texts : List Bytes}

theorem fits_emitLabel (hfew : names.dedup.length ≤ maxLabels) {name : Bytes} {body : Emit Unit}
    (hbody : Fits cfg names body uses texts) :
    Fits cfg names (emitLabel name body) (.defines name :: uses) texts := by
  intro huses htexts
  obtain ⟨hname, huses⟩ := List.forall_mem_cons.mp huses
  have hrest : Contained names (do
      let idx ← getOrCreateLabelC name
      emit ([OpCode.label.code] ++ emitU16 idx)
      modify fun st =>
        { st with
          labels := st.labels.modify idx fun l =>
            { l with offset := st.buf.length, defined := true } }
      body) :=
    (safe_getOrCreateLabelC hfew hname).bind fun idx => (safe_emit _).bind fun _ =>
      (safe_modifyLabel (f := fun st l => { l with offset := st.buf.length, defined := true })
        (fun _ _ => rfl) idx).bind fun _ => hbody huses htexts
  intro st hst
  have hrun := hrest st hst
  simp only [emitLabel, StateT.run_bind, StateT.run_get, CallResult.pure_def, CallResult.bind_eq_bind,
    CallResult.bind_done]
  split
  · constructor
    · simp [CallResult.bind_eq_bind]
    · intro a st' hdone
      simp [CallResult.bind_eq_bind] at hdone
  · exact hrun

theorem fits_emitGoto (hfew : names.dedup.length ≤ maxLabels) (name : Bytes) :
    Fits cfg names (emitGoto name) [.refers name] [] := by
  intro huses _
  refine (safe_getOrCreateLabelC hfew (huses _ List.mem_cons_self)).bind fun idx => ?_
  exact (safe_modifyLabel (f := fun _ l => { l with referenced := true }) (fun _ _ => rfl)
    idx).bind fun _ => safe_emit _

end

section

variable {names : List Bytes}

mutual

/-- `emit_node_c` keeps to its memory where the tables hold the node. -/
theorem fits_emitNodeC (cfg : CompilerConfig) (hfew : names.dedup.length ≤ maxLabels) :
    ∀ ast : AstNode, Fits cfg names (emitNodeC cfg ast) ast.labelUses (ast.classTexts cfg)
  | .literal text => by
    unfold emitNodeC AstNode.classTexts
    split
    · exact fits_emitLitCaseInsensitiveC text _ _
    · exact (safe_emitLitBytes text).fits
  | .concat parts => fits_emitPartsC cfg hfew parts
  | .alt left right => fits_emitAltC (fits_emitNodeC cfg hfew left) (fits_emitNodeC cfg hfew right)
  | .repetition sub min max => by
    have hsub := fits_emitNodeC cfg hfew sub
    unfold emitNodeC AstNode.labelUses AstNode.classTexts
    refine safe_newLoopId.bind_fits fun loopId => ?_
    split
    · exact fits_emitRepeatStarC cfg hfew sub hsub
    · exact fits_emitLoop hsub loopId _ _
  | .span set => fits_emitSetOp .span set
  | .break set => fits_emitSetOp .break set
  | .any set => fits_emitAnyC set
  | .notany set => fits_emitSetOp .notany set
  | .arbno sub => fits_emitArbnoC cfg hfew sub (fits_emitNodeC cfg hfew sub)
  | .cap reg sub => fits_emitCapC (fits_emitNodeC cfg hfew sub) (bits reg)
  | .assign _ _ => (safe_emit _).fits
  | .len _ => (safe_emit _).fits
  | .eval _ _ => (safe_emit _).fits
  | .dynamicEval expr => fits_emitNodeC cfg hfew expr
  | .anchor .anchorStart => (safe_emit _).fits
  | .anchor .anchorEnd => (safe_emit _).fits
  | .emit text reg => (safe_emitEmitC text reg).fits
  | .breakx set => fits_emitSetOp .breakx set
  | .bal _ _ => (safe_emit _).fits
  | .fence => (safe_emit _).fits
  | .rem => (safe_emit _).fits
  | .rpos _ => (safe_emit _).fits
  | .rtab _ => (safe_emit _).fits
  | .pos _ => (safe_emit _).fits
  | .tab _ => (safe_emit _).fits
  | .abort => (safe_emit _).fits
  | .fail => (safe_emit _).fits
  | .succeed => (safe_emit _).fits
  | .label _ target => fits_emitLabel hfew (fits_emitNodeC cfg hfew target)
  | .goto name => fits_emitGoto hfew name
  | .tableAccess _ key =>
    (fits_emitTableKeyC key (fits_emitNodeC cfg hfew key)).bind_safe fun _ => safe_emit _
  | .tableUpdate _ key value =>
    (fits_emitTableKeyC key (fits_emitNodeC cfg hfew key)).bind fun _ =>
      (fits_emitCapC (fits_emitNodeC cfg hfew value) 1).bind_safe fun _ => safe_emit _
  | .regRef reg => by
    intro _ _ st _
    simp [emitNodeC]

theorem fits_emitPartsC (cfg : CompilerConfig) (hfew : names.dedup.length ≤ maxLabels) :
    ∀ parts : List AstNode, Fits cfg names (emitPartsC cfg parts) (AstNode.labelUsesParts parts)
      (AstNode.classTextsParts cfg parts)
  | [] => (safe_pure ()).fits
  | part :: parts => (fits_emitNodeC cfg hfew part).bind fun _ => fits_emitPartsC cfg hfew parts

theorem fits_emitArbnoC (cfg : CompilerConfig) (hfew : names.dedup.length ≤ maxLabels)
    (sub : AstNode) {m : Emit Unit}
    (h : Fits cfg names m sub.labelUses (sub.classTexts cfg)) :
    Fits cfg names (emitArbnoC cfg sub m) sub.labelUses (sub.classTexts cfg) := by
  cases sub with
  | arbno sub => exact fits_emitArbnoC cfg hfew sub (fits_emitNodeC cfg hfew sub)
  | repetition sub min max =>
    simp only [emitArbnoC]
    split
    · exact fits_emitStarC cfg hfew sub (fits_emitNodeC cfg hfew sub)
    · exact fits_emitArbnoLoop h
  | _ => exact fits_emitArbnoLoop h

theorem fits_emitStarC (cfg : CompilerConfig) (hfew : names.dedup.length ≤ maxLabels)
    (sub : AstNode) {m : Emit Unit}
    (h : Fits cfg names m sub.labelUses (sub.classTexts cfg)) :
    Fits cfg names (emitStarC cfg sub m) sub.labelUses (sub.classTexts cfg) := by
  cases sub with
  | repetition sub min max =>
    simp only [emitStarC]
    split
    · exact fits_emitStarC cfg hfew sub (fits_emitNodeC cfg hfew sub)
    · exact fits_emitArbnoLoop h
  | _ => exact fits_emitArbnoLoop h

theorem fits_emitRepeatStarC (cfg : CompilerConfig) (hfew : names.dedup.length ≤ maxLabels)
    (sub : AstNode) {m : Emit Unit}
    (h : Fits cfg names m sub.labelUses (sub.classTexts cfg)) :
    Fits cfg names (emitRepeatStarC cfg sub m) sub.labelUses (sub.classTexts cfg) := by
  cases sub with
  | arbno sub => exact fits_emitArbnoC cfg hfew sub (fits_emitNodeC cfg hfew sub)
  | repetition sub min max =>
    simp only [emitRepeatStarC]
    split
    · exact fits_emitRepeatStarC cfg hfew sub (fits_emitNodeC cfg hfew sub)
    · exact fits_emitArbnoLoop h
  | _ => exact fits_emitArbnoLoop h

end

end

/-- Where the tables hold the labels and the classes, the emission comes to an end. -/
theorem emitOutcome_defined {cfg : CompilerConfig} {ast : AstNode} (h : ast.FitsTables cfg) :
    emitOutcome cfg ast ≠ .undefined := by
  have hsafe := fits_emitNodeC cfg h.labels ast
    (fun use huse => List.mem_map_of_mem huse) h.classes
  have hinit : LabelsIn (ast.labelUses.map LabelUse.name) CompilerState.init.labels :=
    ⟨List.nodup_nil, fun l hl => absurd hl List.not_mem_nil⟩
  rw [emitOutcome, CallResult.bind_eq_bind, Ne, CallResult.bind_eq_undefined_iff]
  rintro (hundefined | ⟨⟨⟨⟩, st⟩, -, hcheck⟩)
  · exact (hsafe .init hinit).1 hundefined
  · dsimp only at hcheck
    split at hcheck
    · cases hcheck
    · cases hcheck

/-! ## From the syntax tree to the target -/

/-- A program whose emission succeeds is well labelled. -/
theorem wellLabelled_of_emitProgram {cfg : CompilerConfig} {ast : AstNode} {st : CompilerState}
    (hst : emitProgram cfg ast = some st) : ast.WellLabelled := by
  obtain ⟨hlabels, hdefined⟩ := emitProgram_labelled hst
  refine ⟨hlabels.nodup, fun name hname => ?_⟩
  obtain ⟨l, hl, rfl, href⟩ := (hlabels.referenced name).mpr (.inr hname)
  obtain hold | hdef := (hlabels.defined l.name).mp ⟨l, hl, rfl, hdefined l hl href⟩
  · obtain ⟨e, he, -⟩ := hold
    cases he
  · exact hdef

/-- `GOTO L`, a literal, and `L` in front of 'b'. -/
def gotoOver (text : Bytes) : AstNode :=
  .concat [.goto [0x4C], .literal text, .label [0x4C] (.literal [0x62])]

/-- The compiler's state behind it. -/
def gotoOverState (text : Bytes) : CompilerState where
  buf :=
    [OpCode.goto.code, 0, 0, OpCode.lit.code] ++ emitU32 12 ++ emitU32 text.length ++ text ++
      [OpCode.label.code, 0, 0, OpCode.lit.code] ++ emitU32 (text.length + 24) ++ emitU32 1 ++
      [0x62, OpCode.accept.code]
  classes := []
  nextLoopId := 0
  labels := [⟨[0x4C], text.length + 15, true, true⟩]
  splits := []

theorem emitProgram_gotoOver (text : Bytes) :
    emitProgram .caseSensitive (gotoOver text) = some (gotoOverState text) := by
  have hgoto : (emitNodeC .caseSensitive (.goto [0x4C])).run .init =
      .done ((), ⟨[OpCode.goto.code] ++ emitU16 0, [], 0, [⟨[0x4C], 0, false, true⟩], []⟩) := rfl
  have hlit : ∀ st, (emitNodeC .caseSensitive (.literal text)).run st =
      .done ((), { st with
        buf := st.buf ++
          ([OpCode.lit.code] ++ emitU32 (st.buf.length + 9) ++ emitU32 text.length ++ text) }) :=
    fun _ => rfl
  have hlabel : ∀ buf, (emitNodeC .caseSensitive (.label [0x4C] (.literal [0x62]))).run
      ⟨buf, [], 0, [⟨[0x4C], 0, false, true⟩], []⟩ =
        .done ((), ⟨buf ++ ([OpCode.label.code] ++ emitU16 0) ++ ([OpCode.lit.code] ++
          emitU32 ((buf ++ ([OpCode.label.code] ++ emitU16 0)).length + 9) ++ emitU32 1 ++ [0x62]), [], 0,
          [⟨[0x4C], (buf ++ ([OpCode.label.code] ++ emitU16 0)).length, true, true⟩], []⟩) :=
    fun _ => rfl
  have hnil : ∀ st, (emitPartsC .caseSensitive []).run st = .done ((), st) := fun _ => rfl
  rw [emitProgram, CallResult.toOption_eq_some_iff]
  unfold emitOutcome gotoOver
  simp only [emitNodeC.eq_2, emitPartsC.eq_2, StateT.run_bind, hgoto, hlit, hlabel, hnil,
    CallResult.bind_eq_bind, CallResult.bind_done]
  have hid : emitU16 0 = [0, 0] := rfl
  simp only [gotoOverState, List.length_append, List.length_cons, List.length_nil, length_emitU32, hid]
  have hlen : 3 + (9 + text.length) = text.length + 12 := by omega
  simp [hlen]

theorem compileAstToBytecodeC_gotoOver {text : Bytes} (hplain : OpCode.split.code ∉ text)
    (hlen : text.length = 65536) :
    ∃ rest, compileAstToBytecodeC .caseSensitive (gotoOver text) =
      some ([OpCode.goto.code, 0, 0] ++ rest) := by
  have hbuf : OpCode.split.code ∉ (gotoOverState text).buf := by
    simp only [gotoOverState, hlen, List.mem_append, not_or]
    exact ⟨⟨⟨⟨⟨⟨⟨by decide, by decide⟩, by decide⟩, hplain⟩, by decide⟩, by decide⟩, by decide⟩, by decide⟩
  rw [compileAstToBytecodeC_unfused (emitProgram_gotoOver text) (eligibleArms_of_no_split hbuf)]
  simp only [gotoOverState, List.append_assoc, List.cons_append, List.nil_append]
  exact ⟨_, rfl⟩

/-- Behind a literal of 65536 bytes the label stands at 65551, and `OP_GOTO` goes to 15. -/
theorem vmStep_gotoOver {text : Bytes} (hplain : OpCode.split.code ∉ text) (hlen : text.length = 65536) :
    ∃ st bc, emitProgram .caseSensitive (gotoOver text) = some st ∧
      compileAstToBytecodeC .caseSensitive (gotoOver text) = some bc ∧
      st.labels = [⟨[0x4C], 65551, true, true⟩] ∧ fetch bc 0 = some (.goto 0, 3) ∧
      vmStep (VmEnv.ofCode bc [0x61] .bare) (.zero ⟨[], ()⟩) =
        .running { (Vm.zero ⟨[], ()⟩ : Vm Unit) with ip := 15 } := by
  have hst := emitProgram_gotoOver text
  obtain ⟨rest, hbc⟩ := compileAstToBytecodeC_gotoOver hplain hlen
  have hlabels : (gotoOverState text).labels = [⟨[0x4C], 65551, true, true⟩] := by
    rw [gotoOverState, hlen]
  refine ⟨_, _, hst, hbc, hlabels, rfl, ?_⟩
  obtain ⟨front, hfront⟩ := compileAstToBytecodeC_labelTable hst hbc
  rw [hlabels] at hfront
  refine vmStep_goto (n := 3) rfl ?_
  have htable : registerLabels (front ++ labelTable [⟨[0x4C], 65551, true, true⟩]) = _ :=
    registerLabels_labelTable front (by decide)
  rw [← hfront] at htable
  have hentry : (registerLabels ([OpCode.goto.code, 0, 0] ++ rest))[0]? = some 15 := by
    rw [htable]
    rfl
  exact hentry

end Snobol4
