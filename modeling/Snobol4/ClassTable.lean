import Snobol4.Labels
import Snobol4.Trailer

/-!
# ClassTable — the character classes of a compilation (`compiler_analysis.c`)

`Interns` is what an emitter does to the class table: the classes it adds are those of
set texts.  With the fusion pass, which adds unions of classes, every class that the
compiler writes is built from codepoints and fits 32-bit bounds.
-/

namespace Snobol4

/-- Whenever the emitter succeeds, a property of all classes is still one. -/
def Interns {α : Type} (P : CcEntry → Prop) (m : Emit α) : Prop :=
  ∀ st a st', m.run st = .done (a, st') → (∀ e ∈ st.classes, P e) → ∀ e ∈ st'.classes, P e

section

variable {α β : Type} {P : CcEntry → Prop}

theorem Interns.bind {m : Emit α} {k : α → Emit β} (hm : Interns P m)
    (hk : ∀ a, Interns P (k a)) : Interns P (m >>= k) := by
  intro st b st' hrun hst
  rw [StateT.run_bind, CallResult.bind_eq_bind, CallResult.bind_eq_done_iff] at hrun
  obtain ⟨⟨a, st₁⟩, hfirst, hrest⟩ := hrun
  exact hk a st₁ b st' hrest (hm st a st₁ hfirst hst)

theorem interns_pure (a : α) : Interns P (pure a : Emit α) := by
  intro st b st' hrun
  cases hrun
  exact id

theorem interns_emit (bytes : Bytes) : Interns P (emit bytes) := by
  intro st a st' hrun
  cases hrun
  exact id

theorem interns_cbPos : Interns P cbPos := by
  intro st a st' hrun
  cases hrun
  exact id

theorem interns_noteSplit : Interns P noteSplit := by
  intro st a st' hrun
  cases hrun
  exact id

theorem interns_patchU32 (n v : Nat) : Interns P (patchU32 n v) := by
  intro st a st' hrun
  cases hrun
  exact id

theorem interns_newLoopId : Interns P newLoopId := by
  intro st a st' hrun
  rw [run_newLoopId] at hrun
  split at hrun
  · cases hrun
  · cases hrun
    exact id

theorem interns_getOrCreateLabelC (name : Bytes) : Interns P (getOrCreateLabelC name) := by
  intro st a st' hrun
  simp only [getOrCreateLabelC, StateT.run_bind, StateT.run_get, CallResult.pure_def,
    CallResult.bind_eq_bind, CallResult.bind_done] at hrun
  split at hrun
  · cases hrun
    exact id
  · split at hrun
    · simp [CallResult.bind_eq_bind] at hrun
    · cases hrun
      exact id

/-- A class is in the table behind `add_or_get_charclass`, or was there before. -/
theorem mem_internClass {classes : List CcEntry} {e e' : CcEntry}
    (h : e' ∈ (internClass classes e).1) : e' ∈ classes ∨ e' = e := by
  unfold internClass at h
  split at h
  · exact .inl h
  · simpa using h

theorem interns_addOrGetCharclass {cfg : CompilerConfig}
    (hP : ∀ set, Collects cfg set → P (charclassOf cfg set))
    (set : Bytes) : Interns P (addOrGetCharclass cfg set) := by
  intro st a st' hrun hst e he
  rw [run_addOrGetCharclass] at hrun
  split at hrun
  case isFalse => cases hrun
  rename_i hcollects
  cases hrun
  obtain hold | rfl := mem_internClass he
  · exact hst e hold
  · exact hP set hcollects

end

/-! ## The emitters -/

section

variable {P : CcEntry → Prop} {cfg : CompilerConfig}

theorem interns_emitSetOp (hP : ∀ set, Collects cfg set → P (charclassOf cfg set))
    (o : OpCode) (set : Bytes) :
    Interns P (emitSetOp cfg o set) :=
  (interns_addOrGetCharclass hP set).bind fun _ => interns_emit _

theorem interns_emitLitBytes (text : Bytes) : Interns P (emitLitBytes text) :=
  interns_cbPos.bind fun _ => interns_emit _

theorem interns_emitAnyC (hP : ∀ set, Collects cfg set → P (charclassOf cfg set)) (set : Bytes) :
    Interns P (emitAnyC cfg set) := by
  unfold emitAnyC
  split
  · exact interns_emit _
  · exact interns_emitSetOp hP .any set

theorem interns_emitLitCaseInsensitiveC (hP : ∀ set, Collects cfg set → P (charclassOf cfg set))
    (text : Bytes)
    (fuel pos : Nat) : Interns P (emitLitCaseInsensitiveC cfg text fuel pos) := by
  induction fuel generalizing pos with
  | zero => exact interns_pure ()
  | succ fuel ih =>
    unfold emitLitCaseInsensitiveC
    split
    · exact interns_pure ()
    · split
      · exact (interns_emitLitBytes _).bind fun _ => ih _
      · exact (interns_emitSetOp hP .any _).bind fun _ => ih _

theorem interns_emitEmitC (text : Option Bytes) (reg : Int32) : Interns P (emitEmitC text reg) := by
  cases text with
  | some text => exact interns_cbPos.bind fun _ => interns_emit _
  | none =>
    unfold emitEmitC
    dsimp only
    split
    · exact interns_emit _
    · exact interns_pure ()

theorem interns_emitAltC {left right : Emit Unit} (hleft : Interns P left)
    (hright : Interns P right) : Interns P (emitAltC left right) := by
  refine interns_noteSplit.bind fun _ => (interns_emit _).bind fun _ => interns_cbPos.bind fun _ =>
    (interns_emit _).bind fun _ => interns_cbPos.bind fun _ => (interns_emit _).bind fun _ =>
    interns_cbPos.bind fun _ => hleft.bind fun _ => ?_
  refine (interns_emit _).bind fun _ => interns_cbPos.bind fun _ => (interns_emit _).bind fun _ =>
    interns_cbPos.bind fun _ => hright.bind fun _ => ?_
  exact interns_cbPos.bind fun _ => (interns_patchU32 _ _).bind fun _ =>
    (interns_patchU32 _ _).bind fun _ => interns_patchU32 _ _

theorem interns_emitLoop {body : Emit Unit} (hbody : Interns P body) (loopId min max : Nat) :
    Interns P (emitLoop loopId min max body) := by
  refine (interns_emit _).bind fun _ => interns_cbPos.bind fun _ => (interns_emit _).bind fun _ =>
    interns_cbPos.bind fun _ => hbody.bind fun _ => ?_
  exact (interns_emit _).bind fun _ => interns_cbPos.bind fun _ => interns_patchU32 _ _

theorem interns_emitArbnoLoop {body : Emit Unit} (hbody : Interns P body) :
    Interns P (emitArbnoLoop body) :=
  interns_newLoopId.bind fun loopId => interns_emitLoop hbody loopId 0 unbounded

theorem interns_emitCapC {body : Emit Unit} (hbody : Interns P body) (reg : Nat) :
    Interns P (emitCapC reg body) :=
  (interns_emit _).bind fun _ => hbody.bind fun _ => interns_emit _

theorem interns_emitTableKeyC {body : Emit Unit} (key : AstNode) (hbody : Interns P body) :
    Interns P (emitTableKeyC key body) := by
  cases key <;> first | exact interns_pure () | exact interns_emitCapC hbody 0

theorem interns_emitLabel {name : Bytes} {body : Emit Unit} (hbody : Interns P body) :
    Interns P (emitLabel name body) := by
  intro st a st' hrun hst
  simp only [emitLabel, StateT.run_bind, StateT.run_get, CallResult.pure_def, CallResult.bind_eq_bind,
    CallResult.bind_done] at hrun
  split at hrun
  · simp [CallResult.bind_eq_bind] at hrun
  simp only [StateT.run_bind, CallResult.pure_def, CallResult.bind_done, run_emit,
    StateT.run_modify, CallResult.bind_eq_bind, CallResult.bind_eq_done_iff] at hrun
  obtain ⟨⟨idx, st₁⟩, hidx, hrest⟩ := hrun
  have hold : ∀ e ∈ st₁.classes, P e := interns_getOrCreateLabelC name _ _ _ hidx hst
  exact hbody _ _ _ hrest hold

theorem interns_emitGoto (name : Bytes) : Interns P (emitGoto name) := by
  intro st a st' hrun hst
  simp only [emitGoto, StateT.run_bind, run_emit, StateT.run_modify, CallResult.pure_def,
    CallResult.bind_eq_bind, CallResult.bind_done, CallResult.bind_eq_done_iff, CallResult.done.injEq,
    Prod.mk.injEq, true_and] at hrun
  obtain ⟨⟨idx, st₁⟩, hidx, rfl⟩ := hrun
  have hold : ∀ e ∈ st₁.classes, P e := interns_getOrCreateLabelC name _ _ _ hidx hst
  exact hold

mutual

/-- The classes of `emit_node_c` are those of set texts. -/
theorem interns_emitNodeC (hP : ∀ set, Collects cfg set → P (charclassOf cfg set)) :
    ∀ ast : AstNode, Interns P (emitNodeC cfg ast)
  | .literal text => by
    unfold emitNodeC
    split
    · exact interns_emitLitCaseInsensitiveC hP text _ _
    · exact interns_emitLitBytes text
  | .concat parts => interns_emitPartsC hP parts
  | .alt left right => interns_emitAltC (interns_emitNodeC hP left) (interns_emitNodeC hP right)
  | .repetition sub min max => by
    have hsub := interns_emitNodeC hP sub
    unfold emitNodeC
    refine interns_newLoopId.bind fun loopId => ?_
    split
    · exact interns_emitRepeatStarC hP sub hsub
    · exact interns_emitLoop hsub loopId _ _
  | .span set => interns_emitSetOp hP .span set
  | .break set => interns_emitSetOp hP .break set
  | .any set => interns_emitAnyC hP set
  | .notany set => interns_emitSetOp hP .notany set
  | .arbno sub => interns_emitArbnoC hP sub (interns_emitNodeC hP sub)
  | .cap reg sub => interns_emitCapC (interns_emitNodeC hP sub) (bits reg)
  | .assign _ _ => interns_emit _
  | .len _ => interns_emit _
  | .eval _ _ => interns_emit _
  | .dynamicEval expr => interns_emitNodeC hP expr
  | .anchor .anchorStart => interns_emit _
  | .anchor .anchorEnd => interns_emit _
  | .emit text reg => interns_emitEmitC text reg
  | .breakx set => interns_emitSetOp hP .breakx set
  | .bal _ _ => interns_emit _
  | .fence => interns_emit _
  | .rem => interns_emit _
  | .rpos _ => interns_emit _
  | .rtab _ => interns_emit _
  | .pos _ => interns_emit _
  | .tab _ => interns_emit _
  | .abort => interns_emit _
  | .fail => interns_emit _
  | .succeed => interns_emit _
  | .label _ target => interns_emitLabel (interns_emitNodeC hP target)
  | .goto name => interns_emitGoto name
  | .tableAccess _ key =>
    (interns_emitTableKeyC key (interns_emitNodeC hP key)).bind fun _ => interns_emit _
  | .tableUpdate _ key value =>
    (interns_emitTableKeyC key (interns_emitNodeC hP key)).bind fun _ =>
      (interns_emitCapC (interns_emitNodeC hP value) 1).bind fun _ => interns_emit _
  | .regRef reg => by
    intro st a st' hrun
    simp [emitNodeC] at hrun

theorem interns_emitPartsC (hP : ∀ set, Collects cfg set → P (charclassOf cfg set)) :
    ∀ parts : List AstNode, Interns P (emitPartsC cfg parts)
  | [] => interns_pure ()
  | part :: parts => (interns_emitNodeC hP part).bind fun _ => interns_emitPartsC hP parts

theorem interns_emitArbnoC (hP : ∀ set, Collects cfg set → P (charclassOf cfg set))
    (sub : AstNode) {m : Emit Unit}
    (h : Interns P m) : Interns P (emitArbnoC cfg sub m) := by
  cases sub with
  | arbno sub => exact interns_emitArbnoC hP sub (interns_emitNodeC hP sub)
  | repetition sub min max =>
    simp only [emitArbnoC]
    split
    · exact interns_emitStarC hP sub (interns_emitNodeC hP sub)
    · exact interns_emitArbnoLoop h
  | _ => exact interns_emitArbnoLoop h

theorem interns_emitStarC (hP : ∀ set, Collects cfg set → P (charclassOf cfg set))
    (sub : AstNode) {m : Emit Unit}
    (h : Interns P m) : Interns P (emitStarC cfg sub m) := by
  cases sub with
  | repetition sub min max =>
    simp only [emitStarC]
    split
    · exact interns_emitStarC hP sub (interns_emitNodeC hP sub)
    · exact interns_emitArbnoLoop h
  | _ => exact interns_emitArbnoLoop h

theorem interns_emitRepeatStarC (hP : ∀ set, Collects cfg set → P (charclassOf cfg set))
    (sub : AstNode)
    {m : Emit Unit} (h : Interns P m) : Interns P (emitRepeatStarC cfg sub m) := by
  cases sub with
  | arbno sub => exact interns_emitArbnoC hP sub (interns_emitNodeC hP sub)
  | repetition sub min max =>
    simp only [emitRepeatStarC]
    split
    · exact interns_emitRepeatStarC hP sub (interns_emitNodeC hP sub)
    · exact interns_emitArbnoLoop h
  | _ => exact interns_emitArbnoLoop h

end

/-- The classes of a compiled program. -/
theorem emitProgram_classes (hP : ∀ set, Collects cfg set → P (charclassOf cfg set)) {ast : AstNode}
    {st : CompilerState} (h : emitProgram cfg ast = some st) : ∀ e ∈ st.classes, P e := by
  obtain ⟨st₀, hrun, -, rfl⟩ := emitProgram_eq_some_iff.mp h
  have hinit : ∀ e ∈ CompilerState.init.classes, P e := fun e he => absurd he List.not_mem_nil
  have hemitted : ∀ e ∈ st₀.classes, P e := interns_emitNodeC hP ast _ _ _ hrun hinit
  exact hemitted

end

/-! ## The fusion pass -/

/-- The literal of an arm is a byte. -/
def Arm.IsByte : Arm → Prop
  | .lit cp _ => cp < 2 ^ 8
  | .any .. => True

theorem parseSingle_isByte {bc : Bytes} {a : Nat} {arm : Nat → Arm} {after : Nat}
    (h : parseSingle bc a = some (arm, after)) (merge : Nat) : (arm merge).IsByte := by
  unfold parseSingle at h
  split at h
  · cases h
  split at h
  · split at h
    · obtain ⟨c, -, hc⟩ := Option.map_eq_some_iff.mp h
      cases hc
      exact c.toNat_lt
    · cases h
  split at h
  · split at h
    · cases h
      trivial
    · cases h
  · cases h

theorem eligibleArms_isByte {bc : Bytes} {pos : Nat} {armA armB : Arm}
    (h : eligibleArms bc pos = some (armA, armB)) : armA.IsByte ∧ armB.IsByte := by
  have hboth : ∃ a b, parseArmA bc a = some armA ∧ parseArmB bc b = some armB := by
    unfold eligibleArms at h
    simp only [Option.bind_eq_bind] at h
    split at h
    · cases h
    split at h
    · cases h
    obtain ⟨a, ha, h⟩ := Option.bind_eq_some_iff.mp h
    obtain ⟨b, hb, h⟩ := Option.bind_eq_some_iff.mp h
    split at h
    · cases h
      exact ⟨_, _, ha, hb⟩
    · cases h
  obtain ⟨a, b, ha, hb⟩ := hboth
  constructor
  · obtain ⟨⟨arm, after⟩, harm, ha⟩ := Option.bind_eq_some_iff.mp ha
    dsimp only at ha
    split at ha
    · cases ha
      exact parseSingle_isByte harm _
    · cases ha
  · obtain ⟨⟨arm, after⟩, harm, hb⟩ := Option.bind_eq_some_iff.mp hb
    cases hb
    exact parseSingle_isByte harm _

section

variable {P : CcEntry → Prop}

theorem fuseAt_classes (hP : ∀ (classes : List CcEntry) (armA armB : Arm), (∀ e ∈ classes, P e) →
      armA.IsByte → armB.IsByte →
      (armRanges classes armA).length + (armRanges classes armB).length < 2 ^ 16 →
      P (fuseUnion classes armA armB)) {pos : Nat} {st : FuseState} (hfit : unionFits st pos = true)
    (h : ∀ e ∈ st.classes, P e) : ∀ e ∈ (fuseAt pos st).classes, P e := by
  unfold fuseAt
  split
  · exact h
  · rename_i armA armB heligible
    obtain ⟨ha, hb⟩ := eligibleArms_isByte heligible
    rw [unionFits, heligible, Option.all_some, decide_eq_true_iff] at hfit
    have hnew : ∀ e ∈ (internClass st.classes (fuseUnion st.classes armA armB)).1, P e := by
      intro e he
      obtain hold | rfl := mem_internClass he
      · exact h e hold
      · exact hP _ _ _ h ha hb hfit
    dsimp only
    split
    · exact hnew
    · exact hnew

theorem fuseBelow_classes (hP : ∀ (classes : List CcEntry) (armA armB : Arm),
      (∀ e ∈ classes, P e) → armA.IsByte → armB.IsByte →
      (armRanges classes armA).length + (armRanges classes armB).length < 2 ^ 16 →
      P (fuseUnion classes armA armB))
    {pos : Nat} {st : FuseState} (hfit : unionsFitBelow pos st = true)
    (h : ∀ e ∈ st.classes, P e) : ∀ e ∈ (fuseBelow pos st).classes, P e := by
  induction pos generalizing st with
  | zero => exact h
  | succ pos ih =>
    rw [unionsFitBelow, Bool.and_eq_true] at hfit
    exact ih hfit.2 (fuseAt_classes hP hfit.1 h)

end

/-! ## The bounds of the ranges -/

/-- The folding tables map 32-bit numbers to such. -/
structure CaseFold.Fits (fold : CaseFold) : Prop where
  upper : ∀ cp < 2 ^ 32, (fold.upper cp).1 < 2 ^ 32
  second : ∀ cp < 2 ^ 32, ∀ second ∈ (fold.upper cp).2, second < 2 ^ 32
  lower : ∀ cp < 2 ^ 32, fold.lower cp < 2 ^ 32

theorem CompilerConfig.caseSensitive_fits : CompilerConfig.caseSensitive.fold.Fits where
  upper _ h := h
  second _ _ _ h := by cases h
  lower _ h := h

theorem mergeRanges_fits {w : CpRange} {rs : List CpRange} (hw : w.Fits)
    (hrs : ∀ r ∈ rs, r.Fits) : ∀ r ∈ mergeRanges w rs, r.Fits := by
  induction rs generalizing w with
  | nil =>
    intro r hr
    obtain rfl := List.mem_singleton.mp hr
    exact hw
  | cons r rs ih =>
    obtain ⟨hr, hrs⟩ := List.forall_mem_cons.mp hrs
    unfold mergeRanges
    split
    · refine ih ⟨hw.1, ?_⟩ hrs
      exact Nat.max_lt.mpr ⟨hw.2, hr.2⟩
    · exact List.forall_mem_cons.mpr ⟨hw, ih hr hrs⟩

theorem normalizeRanges_fits {ranges : List CpRange} (h : ∀ r ∈ ranges, r.Fits) :
    ∀ r ∈ normalizeRanges ranges, r.Fits := by
  unfold normalizeRanges
  have hsorted : ∀ r ∈ ranges.insertionSort fun a b => a.start ≤ b.start, r.Fits :=
    fun r hr => h r ((List.mem_insertionSort _).mp hr)
  split
  · exact fun r hr => absurd hr List.not_mem_nil
  · rename_i heq
    rw [heq] at hsorted
    obtain ⟨hr, hrs⟩ := List.forall_mem_cons.mp hsorted
    exact mergeRanges_fits hr hrs

theorem foldVariants_fits {fold : CaseFold} (h : fold.Fits) {cp : Nat} (hcp : cp < 2 ^ 32) :
    ∀ r ∈ foldVariants fold cp, r.Fits := by
  intro r hr
  have hsecond := h.second cp hcp
  simp only [foldVariants, List.mem_append] at hr
  obtain hr | hr := hr
  · split at hr
    · cases hr
    · obtain rfl | hr := List.mem_cons.mp hr
      · exact ⟨h.upper cp hcp, h.upper cp hcp⟩
      · obtain ⟨second, hmem, rfl⟩ :
            ∃ second ∈ (fold.upper cp).2, (⟨second, second⟩ : CpRange) = r := by
          simpa using hr
        exact ⟨hsecond second hmem, hsecond second hmem⟩
  · split at hr
    · cases hr
    · obtain rfl := List.mem_singleton.mp hr
      exact ⟨h.lower cp hcp, h.lower cp hcp⟩

theorem rangeVariants_fits {fold : CaseFold} (h : fold.Fits) {cp stop : Nat} (hle : cp ≤ stop)
    (hstop : stop < 2 ^ 32) : ∀ r ∈ rangeVariants fold cp stop, r.Fits := by
  intro r hr
  unfold rangeVariants at hr
  split at hr
  · rename_i hcp
    obtain rfl := List.mem_singleton.mp hr
    exact ⟨by dsimp only; omega, by dsimp only; omega⟩
  split at hr
  · obtain rfl := List.mem_singleton.mp hr
    exact ⟨by dsimp only; omega, by dsimp only; omega⟩
  split at hr
  · obtain ⟨c, hc, hr⟩ := List.mem_flatMap.mp hr
    rw [List.mem_range'_1] at hc
    exact foldVariants_fits h (by omega) r hr
  · cases hr

theorem setRanges_fits {cfg : CompilerConfig} (h : cfg.fold.Fits) (set : Bytes) (fuel pos : Nat) :
    ∀ r ∈ setRanges cfg set fuel pos, r.Fits := by
  induction fuel generalizing pos with
  | zero => exact fun r hr => absurd hr List.not_mem_nil
  | succ fuel ih =>
    -- every item is a range of codepoints with its variants, and the rest of the text
    have hitem : ∀ (cp stop : UInt32) next, cp.toNat ≤ stop.toNat →
        ∀ r ∈ (⟨cp.toNat, stop.toNat⟩ : CpRange) ::
          (if cfg.caseInsensitive then rangeVariants cfg.fold cp.toNat stop.toNat else []) ++
            setRanges cfg set fuel next, r.Fits := by
      intro cp stop next hle r hr
      obtain hr | hr := List.mem_append.mp hr
      · obtain rfl | hr := List.mem_cons.mp hr
        · exact ⟨cp.toNat_lt, stop.toNat_lt⟩
        · split at hr
          · exact rangeVariants_fits h hle stop.toNat_lt r hr
          · cases hr
      · exact ih next r hr
    unfold setRanges
    dsimp only
    split
    · exact fun r hr => absurd hr List.not_mem_nil
    split
    · split
      · split
        · rename_i hlt
          exact hitem _ _ _ (UInt32.le_iff_toNat_le.mp (UInt32.le_of_lt hlt))
        · exact hitem _ _ _ le_rfl
      · exact hitem _ _ _ le_rfl
    · exact hitem _ _ _ le_rfl

theorem charclassOf_fits {cfg : CompilerConfig} (h : cfg.fold.Fits) (set : Bytes) :
    (charclassOf cfg set).Fits :=
  normalizeRanges_fits (setRanges_fits h set set.length 0)

theorem armRanges_fits {classes : List CcEntry} (h : ∀ e ∈ classes, e.Fits) {arm : Arm}
    (harm : arm.IsByte) : ∀ r ∈ armRanges classes arm, r.Fits := by
  have hentries : ∀ e, armEntry classes arm = some e → e.Fits := by
    intro e hentry
    cases arm with
    | lit cp merge => cases hentry
    | any ccId merge =>
      simp only [armEntry] at hentry
      split at hentry
      · cases hentry
      · exact h e (List.mem_of_getElem? hentry)
  unfold armRanges
  split
  · exact hentries _ ‹_›
  · intro r hr
    rw [List.mem_singleton.mp hr]
    have hcp := Nat.lt_trans harm (show 2 ^ 8 < 2 ^ 32 by decide)
    exact ⟨hcp, hcp⟩
  · intro r hr
    rw [List.mem_singleton.mp hr]
    exact ⟨by decide, by decide⟩

theorem fuseUnion_fits {classes : List CcEntry} (h : ∀ e ∈ classes, e.Fits) {armA armB : Arm}
    (ha : armA.IsByte) (hb : armB.IsByte) : (fuseUnion classes armA armB).Fits := by
  refine normalizeRanges_fits fun r hr => ?_
  obtain hr | hr := List.mem_append.mp hr
  · exact armRanges_fits h ha r hr
  · exact armRanges_fits h hb r hr

/-! ## The number of the ranges -/

theorem length_mergeRanges_le (w : CpRange) (rs : List CpRange) :
    (mergeRanges w rs).length ≤ rs.length + 1 := by
  induction rs generalizing w with
  | nil => exact le_rfl
  | cons r rs ih =>
    unfold mergeRanges
    split
    · exact (ih _).trans (by simp)
    · simpa using ih r

/-- Merging leaves no more ranges than there were. -/
theorem length_normalizeRanges_le (ranges : List CpRange) :
    (normalizeRanges ranges).length ≤ ranges.length := by
  have hlen := List.length_insertionSort (fun a b : CpRange => a.start ≤ b.start) ranges
  unfold normalizeRanges
  split
  · exact Nat.zero_le _
  · rename_i r rs heq
    rw [heq, List.length_cons] at hlen
    exact hlen ▸ length_mergeRanges_le r rs

/-- In every class that the compiler writes the bounds fit 32 bits and the count 16. -/
theorem fusedClasses_fits {cfg : CompilerConfig} (hfold : cfg.fold.Fits) {ast : AstNode}
    {st : CompilerState} (h : emitProgram cfg ast = some st)
    (hfit : unionsFitBelow st.buf.length ⟨st.buf, st.classes⟩ = true) :
    ∀ e ∈ (fuseSplitAny ⟨st.buf, st.classes⟩).classes, e.Fits ∧ e.ranges.length < 2 ^ 16 := by
  have hset : ∀ set, Collects cfg set →
      (charclassOf cfg set).Fits ∧ (charclassOf cfg set).ranges.length < 2 ^ 16 := by
    intro set hcollects
    have hle := length_normalizeRanges_le (setRanges cfg set set.length 0)
    exact ⟨charclassOf_fits hfold set, Nat.lt_of_le_of_lt (hle.trans hcollects) (by decide)⟩
  refine fuseBelow_classes (fun classes armA armB hclasses ha hb hlen => ?_) hfit
    (emitProgram_classes hset h)
  have hle := length_normalizeRanges_le (armRanges classes armA ++ armRanges classes armB)
  rw [List.length_append] at hle
  exact ⟨fuseUnion_fits (fun e he => (hclasses e he).1) ha hb, Nat.lt_of_le_of_lt hle hlen⟩

end Snobol4
