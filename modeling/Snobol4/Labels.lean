import Snobol4.CompilerLayout
import Snobol4.Vm

/-!
# Labels — from `AST_LABEL` to `OP_GOTO` (`compiler_codegen.c`, `vm_exec.c`)

The compiler numbers the labels in the order in which their names first occur and notes
behind each label where it stands.  The offsets go through the trailer into the 16-bit
table of the VM.
-/

namespace Snobol4

/-! ## The labels of a syntax tree -/

/-- A label is defined or a goto refers to it. -/
inductive LabelUse where
  | defines (name : Bytes)
  | refers (name : Bytes)
  deriving Repr, DecidableEq

/-- The name that is defined. -/
def LabelUse.defined? : LabelUse → Option Bytes
  | .defines name => some name
  | .refers _ => none

/-- The name that is referred to. -/
def LabelUse.referred? : LabelUse → Option Bytes
  | .defines _ => none
  | .refers name => some name

mutual

/-- The uses of labels, from left to right. -/
def AstNode.labelUses : AstNode → List LabelUse
  | .concat parts => AstNode.labelUsesParts parts
  | .alt left right => left.labelUses ++ right.labelUses
  | .repetition sub _ _ | .arbno sub | .cap _ sub | .dynamicEval sub => sub.labelUses
  | .label name target => .defines name :: target.labelUses
  | .goto name => [.refers name]
  | .tableAccess _ key => key.labelUses
  | .tableUpdate _ key value => key.labelUses ++ value.labelUses
  | _ => []

def AstNode.labelUsesParts : List AstNode → List LabelUse
  | [] => []
  | part :: parts => part.labelUses ++ AstNode.labelUsesParts parts

end

/-- The labels that are defined, one for each definition. -/
def AstNode.labelDefs (ast : AstNode) : List Bytes := ast.labelUses.filterMap LabelUse.defined?

/-- The labels of the gotos. -/
def AstNode.gotoLabels (ast : AstNode) : List Bytes := ast.labelUses.filterMap LabelUse.referred?

/-! ## The label table -/

/-- Some entry of the name passes the test. -/
def HasLabel (p : LabelEntry → Bool) (labels : List LabelEntry) (name : Bytes) : Prop :=
  ∃ l ∈ labels, l.name = name ∧ p l = true

/-- What the emission of code with these uses does to the label table: each definition is
new, and nothing is lost. -/
structure Labelled (uses : List LabelUse) (labels labels' : List LabelEntry) : Prop where
  nodup : (uses.filterMap LabelUse.defined?).Nodup
  fresh : ∀ name ∈ uses.filterMap LabelUse.defined?, ¬HasLabel (·.defined) labels name
  defined : ∀ name, HasLabel (·.defined) labels' name ↔
    HasLabel (·.defined) labels name ∨ name ∈ uses.filterMap LabelUse.defined?
  referenced : ∀ name, HasLabel (·.referenced) labels' name ↔
    HasLabel (·.referenced) labels name ∨ name ∈ uses.filterMap LabelUse.referred?
  names : labels.map (·.name) <+: labels'.map (·.name)
  distinct : (labels.map (·.name)).Nodup → (labels'.map (·.name)).Nodup
  few : labels.length ≤ maxLabels → labels'.length ≤ maxLabels

namespace Labelled

variable {labels labels' labels'' : List LabelEntry} {uses uses' : List LabelUse}

theorem refl (labels : List LabelEntry) : Labelled [] labels labels where
  nodup := List.nodup_nil
  fresh _ h := nomatch h
  defined _ := by simp
  referenced _ := by simp
  names := List.prefix_rfl
  distinct h := h
  few h := h

theorem append (h : Labelled uses labels labels') (h' : Labelled uses' labels' labels'') :
    Labelled (uses ++ uses') labels labels'' where
  nodup := by
    rw [List.filterMap_append, List.nodup_append]
    refine ⟨h.nodup, h'.nodup, fun a ha b hb hab => ?_⟩
    subst hab
    exact h'.fresh a hb ((h.defined a).mpr (.inr ha))
  fresh name hname hold := by
    rw [List.filterMap_append, List.mem_append] at hname
    obtain hleft | hright := hname
    · exact h.fresh name hleft hold
    · exact h'.fresh name hright ((h.defined name).mpr (.inl hold))
  defined name := by rw [h'.defined, h.defined, List.filterMap_append, List.mem_append, or_assoc]
  referenced name := by
    rw [h'.referenced, h.referenced, List.filterMap_append, List.mem_append, or_assoc]
  names := h.names.trans h'.names
  distinct hnodup := h'.distinct (h.distinct hnodup)
  few hle := h'.few (h.few hle)

end Labelled

/-- Whenever the emitter succeeds, it has used the labels. -/
def Uses {α : Type} (m : Emit α) (uses : List LabelUse) : Prop :=
  ∀ st a st', m.run st = .done (a, st') → Labelled uses st.labels st'.labels

/-- The emitter leaves the label table alone. -/
def Quiet {α : Type} (m : Emit α) : Prop :=
  ∀ st a st', m.run st = .done (a, st') → st'.labels = st.labels

section

variable {α β : Type}

theorem Quiet.uses {m : Emit α} (h : Quiet m) : Uses m [] := by
  intro st a st' hrun
  rw [h st a st' hrun]
  exact .refl _

theorem Quiet.bind {m : Emit α} {k : α → Emit β} (hm : Quiet m) (hk : ∀ a, Quiet (k a)) :
    Quiet (m >>= k) := by
  intro st b st' hrun
  rw [StateT.run_bind, CallResult.bind_eq_bind, CallResult.bind_eq_done_iff] at hrun
  obtain ⟨⟨a, st₁⟩, hfirst, hrest⟩ := hrun
  exact (hk a st₁ b st' hrest).trans (hm st a st₁ hfirst)

theorem Uses.bind {m : Emit α} {k : α → Emit β} {uses uses' : List LabelUse} (hm : Uses m uses)
    (hk : ∀ a, Uses (k a) uses') : Uses (m >>= k) (uses ++ uses') := by
  intro st b st' hrun
  rw [StateT.run_bind, CallResult.bind_eq_bind, CallResult.bind_eq_done_iff] at hrun
  obtain ⟨⟨a, st₁⟩, hfirst, hrest⟩ := hrun
  exact (hm st a st₁ hfirst).append (hk a st₁ b st' hrest)

theorem Quiet.bind_uses {m : Emit α} {k : α → Emit β} {uses : List LabelUse} (hm : Quiet m)
    (hk : ∀ a, Uses (k a) uses) : Uses (m >>= k) uses := hm.uses.bind hk

theorem Uses.bind_quiet {m : Emit α} {k : α → Emit β} {uses : List LabelUse} (hm : Uses m uses)
    (hk : ∀ a, Quiet (k a)) : Uses (m >>= k) uses := by
  have h := hm.bind fun a => (hk a).uses
  rwa [List.append_nil] at h

theorem quiet_pure (a : α) : Quiet (pure a : Emit α) := by
  intro st b st' hrun
  cases hrun
  rfl

theorem quiet_emit (bytes : Bytes) : Quiet (emit bytes) := by
  intro st a st' hrun
  cases hrun
  rfl

theorem quiet_cbPos : Quiet cbPos := by
  intro st a st' hrun
  cases hrun
  rfl

theorem quiet_noteSplit : Quiet noteSplit := by
  intro st a st' hrun
  cases hrun
  rfl

theorem quiet_patchU32 (n v : Nat) : Quiet (patchU32 n v) := by
  intro st a st' hrun
  cases hrun
  rfl

theorem quiet_newLoopId : Quiet newLoopId := by
  intro st a st' hrun
  rw [run_newLoopId] at hrun
  split at hrun
  · cases hrun
  · cases hrun
    rfl

theorem quiet_emitSetOp (cfg : CompilerConfig) (o : OpCode) (set : Bytes) :
    Quiet (emitSetOp cfg o set) := by
  have hclass : Quiet (addOrGetCharclass cfg set) := by
    intro st a st' hrun
    rw [run_addOrGetCharclass] at hrun
    split at hrun
    · cases hrun
      rfl
    · cases hrun
  exact hclass.bind fun _ => quiet_emit _

theorem quiet_emitLitBytes (text : Bytes) : Quiet (emitLitBytes text) :=
  quiet_cbPos.bind fun _ => quiet_emit _

theorem quiet_emitAnyC (cfg : CompilerConfig) (set : Bytes) : Quiet (emitAnyC cfg set) := by
  unfold emitAnyC
  split
  · exact quiet_emit _
  · exact quiet_emitSetOp cfg .any set

theorem quiet_emitLitCaseInsensitiveC (cfg : CompilerConfig) (text : Bytes) (fuel pos : Nat) :
    Quiet (emitLitCaseInsensitiveC cfg text fuel pos) := by
  induction fuel generalizing pos with
  | zero => exact quiet_pure ()
  | succ fuel ih =>
    unfold emitLitCaseInsensitiveC
    split
    · exact quiet_pure ()
    · split
      · exact (quiet_emitLitBytes _).bind fun _ => ih _
      · exact (quiet_emitSetOp cfg .any _).bind fun _ => ih _

theorem quiet_emitEmitC (text : Option Bytes) (reg : Int32) : Quiet (emitEmitC text reg) := by
  cases text with
  | some text => exact quiet_cbPos.bind fun _ => quiet_emit _
  | none =>
    unfold emitEmitC
    dsimp only
    split
    · exact quiet_emit _
    · exact quiet_pure ()

end

/-! ## Changes of the table -/

theorem hasLabel_modify {p : LabelEntry → Bool} {f : LabelEntry → LabelEntry} {b : Bool}
    (hname : ∀ l, (f l).name = l.name) (hp : ∀ l, p (f l) = (p l || b)) {labels : List LabelEntry}
    {idx : Nat} {l : LabelEntry} (hget : labels[idx]? = some l) (name : Bytes) :
    HasLabel p (labels.modify idx f) name ↔ HasLabel p labels name ∨ (b = true ∧ name = l.name) := by
  have hmodify : ∀ j, (labels.modify idx f)[j]? = (labels[j]?).map fun e => if idx = j then f e else e :=
    fun j => List.getElem?_modify f idx labels j
  constructor
  · rintro ⟨e, he, rfl, hpe⟩
    obtain ⟨j, hj⟩ := List.getElem?_of_mem he
    rw [hmodify] at hj
    obtain ⟨e₀, he₀, rfl⟩ := Option.map_eq_some_iff.mp hj
    split at hpe
    · rename_i hij
      subst hij
      obtain rfl : l = e₀ := Option.some.inj (hget.symm.trans he₀)
      rw [hp, Bool.or_eq_true] at hpe
      rw [if_pos rfl, hname]
      obtain hold | hb := hpe
      · exact .inl ⟨l, List.mem_of_getElem? hget, rfl, hold⟩
      · exact .inr ⟨hb, rfl⟩
    · rename_i hij
      rw [if_neg hij]
      exact .inl ⟨e₀, List.mem_of_getElem? he₀, rfl, hpe⟩
  · rintro (⟨e, he, rfl, hpe⟩ | ⟨hb, rfl⟩)
    · obtain ⟨j, hj⟩ := List.getElem?_of_mem he
      have hnew := hmodify j
      rw [hj, Option.map_some] at hnew
      refine ⟨_, List.mem_of_getElem? hnew, ?_, ?_⟩
      · split
        · exact hname e
        · rfl
      · split
        · rw [hp, hpe, Bool.true_or]
        · exact hpe
    · have hnew := hmodify idx
      rw [hget, Option.map_some, if_pos rfl] at hnew
      exact ⟨_, List.mem_of_getElem? hnew, hname l, by rw [hp, hb, Bool.or_true]⟩

theorem map_name_modify {f : LabelEntry → LabelEntry} (hname : ∀ l, (f l).name = l.name)
    (labels : List LabelEntry) (idx : Nat) :
    (labels.modify idx f).map (·.name) = labels.map (·.name) := by
  refine List.ext_getElem? fun j => ?_
  rw [List.getElem?_map, List.getElem?_map, List.getElem?_modify]
  cases labels[j]? with
  | none => rfl
  | some l =>
    simp only [Option.map_eq_map, Option.map_some]
    split
    · rw [hname]
    · rfl

/-- A use changes the entry of its label. -/
theorem Labelled.modify {labels labels' : List LabelEntry} (h : Labelled [] labels labels')
    {f : LabelEntry → LabelEntry} {idx : Nat} {l : LabelEntry} (hget : labels'[idx]? = some l)
    {use : LabelUse} (hname : ∀ e, (f e).name = e.name)
    (hdefined : ∀ e, (f e).defined = (e.defined || use == .defines l.name))
    (hreferenced : ∀ e, (f e).referenced = (e.referenced || use == .refers l.name))
    (huse : use = .defines l.name ∨ use = .refers l.name)
    (hfresh : use = .defines l.name → ¬HasLabel (·.defined) labels l.name) :
    Labelled [use] labels (labels'.modify idx f) := by
  have hdef := hasLabel_modify (p := (·.defined)) hname hdefined hget
  have href := hasLabel_modify (p := (·.referenced)) hname hreferenced hget
  refine ⟨?_, ?_, ?_, ?_, ?_, ?_, ?_⟩
  · obtain rfl | rfl := huse
    · exact List.nodup_singleton _
    · exact List.nodup_nil
  · intro n hn
    obtain rfl | rfl := huse
    · obtain rfl : n = l.name := by simpa [LabelUse.defined?] using hn
      exact hfresh rfl
    · cases hn
  · intro n
    rw [hdef, h.defined]
    obtain rfl | rfl := huse <;> simp [LabelUse.defined?]
  · intro n
    rw [href, h.referenced]
    obtain rfl | rfl := huse <;> simp [LabelUse.referred?]
  · rw [map_name_modify hname]
    exact h.names
  · rw [map_name_modify hname]
    exact h.distinct
  · rw [List.length_modify]
    exact h.few

/-- The id of a label: its name is in the table, there first. -/
structure LabelId (labels : List LabelEntry) (name : Bytes) (idx : Nat) : Prop where
  found : labels.findIdx? (·.name = name) = some idx
  entry : ∃ l, labels[idx]? = some l ∧ l.name = name

theorem LabelId.of_found {labels : List LabelEntry} {name : Bytes} {idx : Nat}
    (h : labels.findIdx? (·.name = name) = some idx) : LabelId labels name idx := by
  obtain ⟨hlt, hname, -⟩ := List.findIdx?_eq_some_iff_getElem.mp h
  exact ⟨h, _, List.getElem?_eq_getElem hlt, by simpa using hname⟩

theorem getOrCreateLabelC_spec {name : Bytes} {st st' : CompilerState} {idx : Nat}
    (h : (getOrCreateLabelC name).run st = .done (idx, st')) :
    LabelId st'.labels name idx ∧ Labelled [] st.labels st'.labels ∧ st'.buf = st.buf := by
  simp only [getOrCreateLabelC, StateT.run_bind, StateT.run_get, CallResult.pure_def,
    CallResult.bind_eq_bind, CallResult.bind_done] at h
  split at h
  · rename_i i hfound
    cases h
    exact ⟨.of_found hfound, .refl _, rfl⟩
  · rename_i hnone
    split at h
    · cases h
    rename_i hroom
    cases h
    have hnew : ∀ e ∈ st.labels, e.name ≠ name := by simpa using hnone
    refine ⟨.of_found ?_, ⟨List.nodup_nil, fun _ h => (by cases h), ?_, ?_, ?_, ?_, ?_⟩, rfl⟩
    · rw [List.findIdx?_append, hnone]
      simp
    · intro n
      simp [HasLabel, List.mem_append, or_and_right, exists_or]
    · intro n
      simp [HasLabel, List.mem_append, or_and_right, exists_or]
    · simp
    · intro hdistinct
      rw [List.map_append, List.nodup_append]
      refine ⟨hdistinct, List.nodup_singleton _, ?_⟩
      intro a ha b hb hab
      obtain ⟨e, he, rfl⟩ := List.mem_map.mp ha
      obtain rfl : b = name := by simpa using hb
      exact hnew e he hab
    · intro hle
      simp only [List.length_append, List.length_singleton]
      omega

/-! ## The emitters -/

variable {uses uses' : List LabelUse}

theorem uses_emitAltC {left right : Emit Unit} (hleft : Uses left uses) (hright : Uses right uses') :
    Uses (emitAltC left right) (uses ++ uses') := by
  refine quiet_noteSplit.bind_uses fun _ => (quiet_emit _).bind_uses fun _ =>
    quiet_cbPos.bind_uses fun _ => (quiet_emit _).bind_uses fun _ => quiet_cbPos.bind_uses fun _ =>
    (quiet_emit _).bind_uses fun _ => quiet_cbPos.bind_uses fun _ => hleft.bind fun _ => ?_
  refine (quiet_emit _).bind_uses fun _ => quiet_cbPos.bind_uses fun _ =>
    (quiet_emit _).bind_uses fun _ => quiet_cbPos.bind_uses fun _ => hright.bind_quiet fun _ => ?_
  exact quiet_cbPos.bind fun _ => (quiet_patchU32 _ _).bind fun _ => (quiet_patchU32 _ _).bind fun _ =>
    quiet_patchU32 _ _

theorem uses_emitLoop {body : Emit Unit} (hbody : Uses body uses) (loopId min max : Nat) :
    Uses (emitLoop loopId min max body) uses := by
  refine (quiet_emit _).bind_uses fun _ => quiet_cbPos.bind_uses fun _ => (quiet_emit _).bind_uses fun _ =>
    quiet_cbPos.bind_uses fun _ => hbody.bind_quiet fun _ => ?_
  exact (quiet_emit _).bind fun _ => quiet_cbPos.bind fun _ => quiet_patchU32 _ _

theorem uses_emitArbnoLoop {body : Emit Unit} (hbody : Uses body uses) :
    Uses (emitArbnoLoop body) uses :=
  quiet_newLoopId.bind_uses fun loopId => uses_emitLoop hbody loopId 0 unbounded

theorem uses_emitCapC {body : Emit Unit} (hbody : Uses body uses) (reg : Nat) :
    Uses (emitCapC reg body) uses :=
  (quiet_emit _).bind_uses fun _ => hbody.bind_quiet fun _ => quiet_emit _

theorem uses_emitTableKeyC {body : Emit Unit} (key : AstNode) (hbody : Uses body key.labelUses) :
    Uses (emitTableKeyC key body) key.labelUses := by
  cases key <;> first | exact (quiet_pure ()).uses | exact uses_emitCapC hbody 0

theorem uses_emitLabel {name : Bytes} {body : Emit Unit} (hbody : Uses body uses) :
    Uses (emitLabel name body) (.defines name :: uses) := by
  intro st a st' hrun
  simp only [emitLabel, StateT.run_bind, StateT.run_get, CallResult.pure_def, CallResult.bind_eq_bind,
    CallResult.bind_done] at hrun
  split at hrun
  · simp [CallResult.bind_eq_bind] at hrun
  rename_i hnew
  simp only [StateT.run_bind, CallResult.pure_def, CallResult.bind_done, run_emit,
    StateT.run_modify, CallResult.bind_eq_bind, CallResult.bind_eq_done_iff] at hrun
  obtain ⟨⟨idx, st₁⟩, hidx, hrest⟩ := hrun
  obtain ⟨hid, hcreated, -⟩ := getOrCreateLabelC_spec hidx
  obtain ⟨l, hget, rfl⟩ := hid.entry
  refine Labelled.append (?_ : Labelled [.defines l.name] _ _) (hbody _ _ _ hrest)
  refine hcreated.modify hget (fun _ => rfl) (fun _ => ?_) (fun _ => ?_) (.inl rfl) ?_
  · simp
  · simp
  · rintro - ⟨e, he, hname, hdefined⟩
    exact hnew (List.any_eq_true.mpr ⟨e, he, by simp [hname, hdefined]⟩)

theorem uses_emitGoto (name : Bytes) : Uses (emitGoto name) [.refers name] := by
  intro st a st' hrun
  simp only [emitGoto, StateT.run_bind, run_emit, StateT.run_modify, CallResult.pure_def,
    CallResult.bind_eq_bind, CallResult.bind_done, CallResult.bind_eq_done_iff, CallResult.done.injEq,
    Prod.mk.injEq, true_and] at hrun
  obtain ⟨⟨idx, st₁⟩, hidx, rfl⟩ := hrun
  obtain ⟨hid, hcreated, -⟩ := getOrCreateLabelC_spec hidx
  obtain ⟨l, hget, rfl⟩ := hid.entry
  refine hcreated.modify hget (fun _ => rfl) (fun _ => ?_) (fun _ => ?_) (.inr rfl)
    fun h => by cases h
  · simp
  · simp

mutual

/-- `emit_node_c` uses the labels of the node. -/
theorem uses_emitNodeC (cfg : CompilerConfig) : ∀ ast : AstNode, Uses (emitNodeC cfg ast) ast.labelUses
  | .literal text => by
    unfold emitNodeC
    split
    · exact (quiet_emitLitCaseInsensitiveC cfg text _ _).uses
    · exact (quiet_emitLitBytes text).uses
  | .concat parts => uses_emitPartsC cfg parts
  | .alt left right => uses_emitAltC (uses_emitNodeC cfg left) (uses_emitNodeC cfg right)
  | .repetition sub min max => by
    have hsub := uses_emitNodeC cfg sub
    unfold emitNodeC AstNode.labelUses
    refine quiet_newLoopId.bind_uses fun loopId => ?_
    split
    · exact uses_emitRepeatStarC cfg sub hsub
    · exact uses_emitLoop hsub loopId _ _
  | .span set => (quiet_emitSetOp cfg .span set).uses
  | .break set => (quiet_emitSetOp cfg .break set).uses
  | .any set => (quiet_emitAnyC cfg set).uses
  | .notany set => (quiet_emitSetOp cfg .notany set).uses
  | .arbno sub => uses_emitArbnoC cfg sub (uses_emitNodeC cfg sub)
  | .cap reg sub => uses_emitCapC (uses_emitNodeC cfg sub) (bits reg)
  | .assign _ _ => (quiet_emit _).uses
  | .len _ => (quiet_emit _).uses
  | .eval _ _ => (quiet_emit _).uses
  | .dynamicEval expr => uses_emitNodeC cfg expr
  | .anchor .anchorStart => (quiet_emit _).uses
  | .anchor .anchorEnd => (quiet_emit _).uses
  | .emit text reg => (quiet_emitEmitC text reg).uses
  | .breakx set => (quiet_emitSetOp cfg .breakx set).uses
  | .bal _ _ => (quiet_emit _).uses
  | .fence => (quiet_emit _).uses
  | .rem => (quiet_emit _).uses
  | .rpos _ => (quiet_emit _).uses
  | .rtab _ => (quiet_emit _).uses
  | .pos _ => (quiet_emit _).uses
  | .tab _ => (quiet_emit _).uses
  | .abort => (quiet_emit _).uses
  | .fail => (quiet_emit _).uses
  | .succeed => (quiet_emit _).uses
  | .label _ target => uses_emitLabel (uses_emitNodeC cfg target)
  | .goto name => uses_emitGoto name
  | .tableAccess _ key =>
    (uses_emitTableKeyC key (uses_emitNodeC cfg key)).bind_quiet fun _ => quiet_emit _
  | .tableUpdate _ key value =>
    (uses_emitTableKeyC key (uses_emitNodeC cfg key)).bind fun _ =>
      (uses_emitCapC (uses_emitNodeC cfg value) 1).bind_quiet fun _ => quiet_emit _
  | .regRef reg => by
    intro st a st' hrun
    simp [emitNodeC] at hrun

theorem uses_emitPartsC (cfg : CompilerConfig) :
    ∀ parts : List AstNode, Uses (emitPartsC cfg parts) (AstNode.labelUsesParts parts)
  | [] => (quiet_pure ()).uses
  | part :: parts => (uses_emitNodeC cfg part).bind fun _ => uses_emitPartsC cfg parts

theorem uses_emitArbnoC (cfg : CompilerConfig) (sub : AstNode) {m : Emit Unit}
    (h : Uses m sub.labelUses) : Uses (emitArbnoC cfg sub m) sub.labelUses := by
  cases sub with
  | arbno sub => exact uses_emitArbnoC cfg sub (uses_emitNodeC cfg sub)
  | repetition sub min max =>
    simp only [emitArbnoC]
    split
    · exact uses_emitStarC cfg sub (uses_emitNodeC cfg sub)
    · exact uses_emitArbnoLoop h
  | _ => exact uses_emitArbnoLoop h

theorem uses_emitStarC (cfg : CompilerConfig) (sub : AstNode) {m : Emit Unit}
    (h : Uses m sub.labelUses) : Uses (emitStarC cfg sub m) sub.labelUses := by
  cases sub with
  | repetition sub min max =>
    simp only [emitStarC]
    split
    · exact uses_emitStarC cfg sub (uses_emitNodeC cfg sub)
    · exact uses_emitArbnoLoop h
  | _ => exact uses_emitArbnoLoop h

theorem uses_emitRepeatStarC (cfg : CompilerConfig) (sub : AstNode) {m : Emit Unit}
    (h : Uses m sub.labelUses) : Uses (emitRepeatStarC cfg sub m) sub.labelUses := by
  cases sub with
  | arbno sub => exact uses_emitArbnoC cfg sub (uses_emitNodeC cfg sub)
  | repetition sub min max =>
    simp only [emitRepeatStarC]
    split
    · exact uses_emitRepeatStarC cfg sub (uses_emitNodeC cfg sub)
    · exact uses_emitArbnoLoop h
  | _ => exact uses_emitArbnoLoop h

end

/-! ## Ids -/

theorem findIdx?_map_name (labels : List LabelEntry) (name : Bytes) :
    labels.findIdx? (·.name = name) = (labels.map (·.name)).findIdx? (· = name) := by
  rw [List.findIdx?_map]
  rfl

/-- The id of a label stays as it is while names are added. -/
theorem LabelId.mono {labels labels' : List LabelEntry} {name : Bytes} {idx : Nat}
    (h : LabelId labels name idx) (hnames : labels.map (·.name) <+: labels'.map (·.name)) :
    LabelId labels' name idx := by
  refine .of_found ?_
  obtain ⟨more, hmore⟩ := hnames
  have hfound := h.found
  rw [findIdx?_map_name] at hfound ⊢
  rw [← hmore, List.findIdx?_append, hfound]
  rfl

/-- `OP_GOTO` carries the id of its label. -/
theorem emitGoto_operand {name : Bytes} {st st' : CompilerState}
    (h : (emitGoto name).run st = .done ((), st')) :
    ∃ idx, LabelId st'.labels name idx ∧
      st'.buf = st.buf ++ ([OpCode.goto.code] ++ emitU16 idx) := by
  simp only [emitGoto, StateT.run_bind, run_emit, StateT.run_modify, CallResult.pure_def,
    CallResult.bind_eq_bind, CallResult.bind_done, CallResult.bind_eq_done_iff, CallResult.done.injEq,
    Prod.mk.injEq, true_and] at h
  obtain ⟨⟨idx, st₁⟩, hidx, rfl⟩ := h
  obtain ⟨hid, -, hbuf⟩ := getOrCreateLabelC_spec hidx
  have hnames := map_name_modify (f := fun l => { l with referenced := true }) (fun _ => rfl)
    st₁.labels idx
  refine ⟨idx, hid.mono ?_, by rw [hbuf]⟩
  simp only [hnames]
  exact List.prefix_rfl

/-! ## The table in the VM -/

/-- `vm_exec` registers the offsets of the trailer, cut to 16 bits. -/
theorem registerLabels_labelTable (front : Bytes) {labels : List LabelEntry}
    (hfew : labels.length ≤ maxLabels) :
    registerLabels (front ++ labelTable labels) =
      labels.map fun l => (if l.defined then l.offset else 0) % 2 ^ 16 := by
  have hmax : maxLabels = 32768 := rfl
  let offsets := labels.map fun l => if l.defined then l.offset else 0
  have htable : front ++ labelTable labels =
      front ++ (offsets.flatMap emitU32 ++ (emitU32 labels.length ++ (emitU32 labelTableMagic ++ []))) := by
    simp only [labelTable, offsets, List.flatMap_map, List.append_assoc, List.append_nil]
  have hcount : offsets.length = labels.length := List.length_map _
  have hlen : (front ++ labelTable labels).length = front.length + labels.length * 4 + 8 := by
    rw [htable]
    simp only [List.length_append, length_flatMap_emitU32, length_emitU32, List.length_nil, hcount]
    omega
  have hmagic : (readU32 (front ++ labelTable labels) ((front ++ labelTable labels).length - 4)).1 =
      labelTableMagic := by
    have hread := readU32_behind (front ++ (offsets.flatMap emitU32 ++ emitU32 labels.length)) []
      (v := labelTableMagic) (n := (front ++ labelTable labels).length - 4) (by decide) (by
        rw [hlen]
        simp only [List.length_append, length_flatMap_emitU32, length_emitU32, hcount]
        omega)
    simp only [List.append_assoc] at hread
    rw [htable] at hread ⊢
    exact hread
  have hlabels : (readU32 (front ++ labelTable labels) ((front ++ labelTable labels).length - 8)).1 =
      labels.length := by
    have hread := readU32_behind (front ++ offsets.flatMap emitU32) (emitU32 labelTableMagic ++ [])
      (v := labels.length) (n := (front ++ labelTable labels).length - 8) (by omega) (by
        rw [hlen]
        simp only [List.length_append, length_flatMap_emitU32, hcount]
        omega)
    simp only [List.append_assoc] at hread
    rw [htable] at hread ⊢
    exact hread
  unfold registerLabels
  simp only [hmagic, hlabels]
  rw [if_neg (by omega), if_neg (by omega), hlen]
  refine List.ext_getElem? fun i => ?_
  rw [List.getElem?_map, List.getElem?_map]
  by_cases hi : i < labels.length
  · have hget : offsets[i]? = some (if (labels[i]).defined then (labels[i]).offset else 0) := by
      rw [List.getElem?_map, List.getElem?_eq_getElem hi]
      rfl
    have hentry := readU32_entry_mod front (emitU32 labels.length ++ (emitU32 labelTableMagic ++ []))
      (n := front.length + labels.length * 4 + 8 - 8 - labels.length * 4) (by omega) hget
    rw [← htable] at hentry
    rw [List.getElem?_range hi, List.getElem?_eq_getElem hi, Option.map_some, Option.map_some, hentry]
    congr 1
    omega
  · rw [List.getElem?_eq_none (by simpa using hi), List.getElem?_eq_none (by omega)]
    rfl

/-- The compiled code ends in the label table. -/
theorem compileAstToBytecodeC_labelTable {cfg : CompilerConfig} {ast : AstNode} {st : CompilerState}
    {bc : Bytes} (hst : emitProgram cfg ast = some st)
    (hbc : compileAstToBytecodeC cfg ast = some bc) : ∃ front, bc = front ++ labelTable st.labels := by
  obtain rfl := compileAstToBytecodeC_bytes hst hbc
  exact ⟨_, by simp only [trailer, ← List.append_assoc]; rfl⟩

variable {W : Type}

/-- `OP_GOTO` with a registered label. -/
theorem vmStep_goto {env : VmEnv W} {vm : Vm W} {i n target : Nat}
    (hfetch : fetch env.bc vm.ip = some (.goto i, n))
    (hlabel : env.labelOffsets[i]? = some target) :
    vmStep env vm = .running { vm with ip := target } := by
  unfold vmStep
  simp only [hfetch, hlabel]

theorem running_ip_inj {vm : Vm W} {a b : Nat} :
    (StepResult.running { vm with ip := a } = .running { vm with ip := b }) ↔ a = b := by
  constructor
  · intro h
    exact congrArg (fun result : StepResult W => result.vm.ip) h
  · rintro rfl
    rfl

/-- What the emission of a whole program does with the labels. -/
theorem emitProgram_labelled {cfg : CompilerConfig} {ast : AstNode} {st : CompilerState}
    (h : emitProgram cfg ast = some st) :
    Labelled ast.labelUses [] st.labels ∧
      ∀ l ∈ st.labels, l.referenced = true → l.defined = true := by
  obtain ⟨st₀, hrun, hall, rfl⟩ := emitProgram_eq_some_iff.mp h
  refine ⟨uses_emitNodeC cfg ast _ _ _ hrun, fun l hl href => ?_⟩
  by_contra hundef
  have hbad : (st₀.labels.any fun l => l.referenced && !l.defined) = true :=
    List.any_eq_true.mpr ⟨l, hl, by simp [href, hundef]⟩
  rw [hall] at hbad
  cases hbad

end Snobol4
