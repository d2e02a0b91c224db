import Snobol4.BindTables
import Snobol4.VmInvariant
import Snobol4.VmRows

/-!
# VmFrame — the registers that a run leaves alone (`compiler_codegen.c`, `vm_exec.c`)

The emitters of the table operations capture the key into register 0 and the value into
register 1, the registers that the pattern uses for its own captures.  A run writes the
registers that its captures and assignments name and no others, backtracking included; where
it comes to no capture of a table operation, these are the ones that the text assigns.
-/

namespace Snobol4

variable {W : Type}

/-! ## What is written -/

/-- A capture register or a variable. -/
inductive Slot where
  | reg (r : Nat)
  | var (v : Nat)
  deriving Repr, DecidableEq

/-- What `OP_CAP_START`, `OP_CAP_END` and `OP_ASSIGN` write. -/
def Instr.writes : Instr → List Slot
  | .prim (.capStart r) => [.reg r]
  | .prim (.capEnd r) => [.reg r, .var r]
  | .prim (.assign var _) => [.var var]
  | _ => []

/-- The same for an instruction of structured code. -/
def Leaf.writes {C : Type} : Leaf C → List Slot
  | .capStart r => [.reg r]
  | .capEnd r => [.reg r, .var r]
  | .assign var _ => [.var var]
  | _ => []

/-- A capture of the pattern text, as `OP_CAP_END` leaves it. -/
def capSlots (reg : Nat) : List Slot := [.reg (reg % 2 ^ 8), .var (reg % 2 ^ 8)]

/-- Register 0, unless the key names a register. -/
def stagedKey : AstNode → List Slot
  | .regRef _ => []
  | _ => capSlots 0

mutual

/-- The registers and variables that the text of a pattern assigns. -/
def AstNode.slots : AstNode → List Slot
  | .concat parts => AstNode.slotsParts parts
  | .alt left right => left.slots ++ right.slots
  | .repetition sub _ _ => sub.slots
  | .arbno sub => sub.slots
  | .cap reg sub => capSlots (bits reg) ++ sub.slots
  | .assign var _ => [.var (bits var % 2 ^ 16)]
  | .dynamicEval expr => expr.slots
  | .label _ target => target.slots
  | .tableAccess _ key => key.slots
  | .tableUpdate _ key value => key.slots ++ value.slots
  | _ => []

/-- Those of the parts of a concatenation. -/
def AstNode.slotsParts : List AstNode → List Slot
  | [] => []
  | part :: parts => part.slots ++ AstNode.slotsParts parts

end

/-! ## Frames -/

/-- The bounds that a slot holds. -/
def Regs.get (regs : Regs) : Slot → Nat × Nat
  | .reg r => (regs.capStart r, regs.capEnd r)
  | .var v => (regs.varStart v, regs.varEnd v)

/-- The slots outside a set hold what they held before. -/
def Regs.Frame (written : Slot → Prop) (before regs : Regs) : Prop :=
  ∀ slot, ¬written slot → regs.get slot = before.get slot

/-- Undo records and copies bring nothing else back. -/
def Invariant.frame (written : Slot → Prop) (before : Regs) : Invariant where
  pos _ := True
  regs := Regs.Frame written before
  undo
    | .counterDec _ _ _ => True
    | .capWrite reg _ start stop => ¬written (.reg reg) → (start, stop) = before.get (.reg reg)
    | .varWrite var start stop => ¬written (.var var) → (start, stop) = before.get (.var var)
  saved
    | .trailBase _ => True
    | .snapshot capStart capEnd _ _ =>
        ∀ r, ¬written (.reg r) → (capStart r, capEnd r) = before.get (.reg r)

/-- The instruction at the cursor writes slots of the set only. -/
def WritesWithin (env : VmEnv W) (written : Slot → Prop) (vm : Vm W) : Prop :=
  ∀ instr next, fetch env.bc vm.ip = some (instr, next) → ∀ slot ∈ instr.writes, written slot

section

variable {written : Slot → Prop} {before regs regs' : Regs} {st : Store}

/-- A change of one slot. -/
theorem Regs.Frame.change (h : Regs.Frame written before regs) {slot : Slot}
    (hother : ∀ other, other ≠ slot → regs'.get other = regs.get other)
    (hslot : ¬written slot → regs'.get slot = before.get slot) :
    Regs.Frame written before regs' := by
  intro other hout
  by_cases heq : other = slot
  · subst heq
    exact hslot hout
  · rw [hother other heq]
    exact h other hout

theorem get_capStart (regs : Regs) (r x maxCapUsed : Nat) {slot : Slot} (h : slot ≠ .reg r) :
    Regs.get { regs with capStart := Function.update regs.capStart r x, maxCapUsed } slot =
      regs.get slot := by
  cases slot with
  | reg r' =>
    have hne : r' ≠ r := fun heq => h (congrArg Slot.reg heq)
    simp only [Regs.get, Function.update_of_ne hne]
  | var v => rfl

theorem get_capEnd (regs : Regs) (r x maxCapUsed : Nat) {slot : Slot} (h : slot ≠ .reg r) :
    Regs.get { regs with capEnd := Function.update regs.capEnd r x, maxCapUsed } slot =
      regs.get slot := by
  cases slot with
  | reg r' =>
    have hne : r' ≠ r := fun heq => h (congrArg Slot.reg heq)
    simp only [Regs.get, Function.update_of_ne hne]
  | var v => rfl

theorem get_var (regs : Regs) (v x y varCount : Nat) {slot : Slot} (h : slot ≠ .var v) :
    Regs.get { regs with
      varStart := Function.update regs.varStart v x
      varEnd := Function.update regs.varEnd v y
      varCount } slot = regs.get slot := by
  cases slot with
  | reg r => rfl
  | var v' =>
    have hne : v' ≠ v := fun heq => h (congrArg Slot.var heq)
    simp only [Regs.get, Function.update_of_ne hne]

/-! ## Undoing -/

theorem Regs.Frame.undone {e : UndoRecord} (h : Regs.Frame written before st.regs)
    (he : (Invariant.frame written before).undo e) :
    Regs.Frame written before (st.undo e).regs := by
  cases e with
  | counterDec loop count lastPos =>
    simp only [Store.undo]
    split
    · exact h
    · exact h
  | capWrite reg sub start stop =>
    have hreg : ¬written (.reg reg) →
        st.regs.get (.reg reg) = before.get (.reg reg) ∧ (start, stop) = before.get (.reg reg) :=
      fun hout => ⟨h _ hout, he hout⟩
    simp only [Store.undo]
    split
    · split
      · refine h.change (fun other => get_capStart st.regs reg start st.regs.maxCapUsed) ?_
        intro hout
        obtain ⟨hhere, hback⟩ := hreg hout
        simp only [Regs.get, Prod.mk.injEq, Function.update_self] at hhere hback ⊢
        exact ⟨hback.1, hhere.2⟩
      split
      · refine h.change (fun other => get_capEnd st.regs reg stop st.regs.maxCapUsed) ?_
        intro hout
        obtain ⟨hhere, hback⟩ := hreg hout
        simp only [Regs.get, Prod.mk.injEq, Function.update_self] at hhere hback ⊢
        exact ⟨hhere.1, hback.2⟩
      · have hother : ∀ other, other ≠ Slot.reg reg → Regs.get { st.regs with
            capStart := Function.update st.regs.capStart reg start
            capEnd := Function.update st.regs.capEnd reg stop } other = st.regs.get other := by
          intro other hne
          exact (get_capEnd _ reg stop st.regs.maxCapUsed hne).trans
            (get_capStart st.regs reg start st.regs.maxCapUsed hne)
        refine h.change hother fun hout => ?_
        simp only [Regs.get, Function.update_self]
        exact (hreg hout).2
    · exact h
  | varWrite var start stop =>
    simp only [Store.undo]
    split
    · refine h.change (fun other => get_var st.regs var start stop st.regs.varCount) ?_
      intro hout
      simp only [Regs.get, Function.update_self]
      exact he hout
    · exact h

theorem Invariant.frame_stable (written : Slot → Prop) (before : Regs) :
    (Invariant.frame written before).Stable where
  used regs _ _ h := by
    intro slot hout
    rw [← h slot hout]
    cases slot with
    | reg r => rfl
    | var v => rfl
  counterDec _ _ _ := trivial
  undone _ _ h he := Regs.Frame.undone h he
  trailBase _ := trivial
  snapshot _ _ _ h r hout := h (.reg r) hout
  copied regs used capStart capEnd _ _ h hcopy := by
    intro slot hout
    cases slot with
    | reg r =>
      simp only [Regs.get, Store.restoreBelow]
      split
      · exact hcopy r hout
      · exact h (.reg r) hout
    | var v => exact h (.var v) hout

/-! ## The handlers -/

variable {env : VmEnv W} {pos : Nat} {g : Globals W}

theorem opCapStart_frame (h : Regs.Frame written before regs) {r : Nat} (hr : written (.reg r)) :
    (writeRegs pos g (opCapStart r pos regs)).Keeps (.frame written before) := by
  unfold opCapStart
  split
  · refine ⟨trivial, ?_, ?_⟩
    · exact h.change (fun other => get_capStart regs r pos _) fun hout => absurd hr hout
    · intro e he
      obtain rfl := List.mem_singleton.mp he
      intro hout
      exact absurd hr hout
  · exact .stay trivial h g

theorem opCapEnd_frame (h : Regs.Frame written before regs) {r : Nat} (hr : written (.reg r))
    (hvar : written (.var r)) :
    (writeRegs pos g (opCapEnd r pos regs)).Keeps (.frame written before) := by
  unfold opCapEnd
  split
  · have hend : Regs.Frame written before
        { regs with
          capEnd := Function.update regs.capEnd r pos
          maxCapUsed := max regs.maxCapUsed (r + 1) } :=
      h.change (fun other => get_capEnd regs r pos _) fun hout => absurd hr hout
    refine ⟨trivial, ?_, ?_⟩
    · exact hend.change (fun other hne => get_var { regs with
        capEnd := Function.update regs.capEnd r pos
        maxCapUsed := max regs.maxCapUsed (r + 1) } r (regs.capStart r) pos _ hne)
          fun hout => absurd hvar hout
    · intro e he
      simp only [List.mem_cons, List.not_mem_nil, or_false] at he
      obtain rfl | rfl := he
      · exact fun hout => absurd hvar hout
      · exact fun hout => absurd hr hout
  · exact .stay trivial h g

theorem opAssign_frame (h : Regs.Frame written before regs) {var : Nat} (r : Nat)
    (hvar : written (.var var)) :
    (writeRegs pos g (opAssign var r regs)).Keeps (.frame written before) := by
  unfold opAssign
  split
  · refine ⟨trivial, ?_, ?_⟩
    · exact h.change (fun other => get_var regs var _ _ _) fun hout => absurd hvar hout
    · intro e he
      obtain rfl := List.mem_singleton.mp he
      exact fun hout => absurd hvar hout
  · exact .stay trivial h g

/-- A plain instruction leaves alone what it does not name. -/
theorem Prim.exec_frame (p : Prim) (h : Regs.Frame written before regs)
    (hwrites : ∀ slot ∈ (Instr.prim p).writes, written slot) :
    (p.exec env pos regs g).Keeps (.frame written before) := by
  cases p with
  | nop | label | emitLiteral => exact .stay trivial h _
  | lit | set | count | anchor => exact moveTo_keeps h (fun _ _ => trivial) g
  | capStart r => exact opCapStart_frame h (hwrites _ List.mem_cons_self)
  | capEnd r =>
    exact opCapEnd_frame h (hwrites _ List.mem_cons_self)
      (hwrites _ (List.mem_cons_of_mem _ List.mem_cons_self))
  | assign var r => exact opAssign_frame h r (hwrites _ List.mem_cons_self)
  | eval fn r => exact opEval_keeps trivial h fn r
  | emitCapture r =>
    simp only [Prim.exec, opEmitCapture]
    split
    · exact .stay trivial h _
    · exact .stay trivial h _
  | tableGet table key reg => exact opTableGet_keeps trivial h table key
  | tableSet table key value => exact opTableSet_keeps trivial h table key value
  | bal openCp closeCp => exact opBal_keeps h fun _ _ _ => trivial
  | rem => exact .stay trivial h g

end

/-! ## Table operations -/

mutual

/-- The registers in which the table operations of a pattern stage their keys and values. -/
def AstNode.staged : AstNode → List Slot
  | .concat parts => AstNode.stagedParts parts
  | .alt left right => left.staged ++ right.staged
  | .repetition sub _ _ => sub.staged
  | .arbno sub => sub.staged
  | .cap _ sub => sub.staged
  | .dynamicEval expr => expr.staged
  | .label _ target => target.staged
  | .tableAccess _ key => stagedKey key ++ key.staged
  | .tableUpdate _ key value => stagedKey key ++ key.staged ++ (capSlots 1 ++ value.staged)
  | _ => []

/-- Those of the parts of a concatenation. -/
def AstNode.stagedParts : List AstNode → List Slot
  | [] => []
  | part :: parts => part.staged ++ AstNode.stagedParts parts

end

/-! ## The captures of table operations -/

/-- The pattern of a syntax tree; a leaf is marked if it belongs to the capture of a key or of a
value by a table operation. -/
abbrev MarkedPat := Pat (Leaf (Option CcEntry) × Bool) Bounds

/-- A pattern without such captures. -/
def unmarked (p : SrcPat) : MarkedPat := p.map (fun l => (l, false)) id

/-- A capture around a pattern, of the text or of a table operation. -/
def capMarked (staging : Bool) (reg : Nat) (p : MarkedPat) : MarkedPat :=
  .seq (.leaf (.capStart (reg % 2 ^ 8), staging)) (.seq p (.leaf (.capEnd (reg % 2 ^ 8), staging)))

def tableKeyMarked : AstNode → MarkedPat → MarkedPat
  | .regRef _, _ => .skip
  | _, p => capMarked true 0 p

def starMarked (p : MarkedPat) : MarkedPat := .loop ⟨0, unbounded⟩ p

mutual

/-- The marked pattern of a syntax tree. -/
def AstNode.marked (cfg : CompilerConfig) : AstNode → MarkedPat
  | .concat parts => AstNode.markedParts cfg parts
  | .alt left right => .alt (left.marked cfg) (right.marked cfg)
  | .repetition sub min max =>
      if min = 0 ∧ max = -1 then AstNode.markedRepeatStar cfg sub (sub.marked cfg)
      else .loop ⟨bits min, bits max⟩ (sub.marked cfg)
  | .arbno sub => AstNode.markedArbno cfg sub (sub.marked cfg)
  | .cap reg sub => capMarked false (bits reg) (sub.marked cfg)
  | .dynamicEval expr => expr.marked cfg
  | .label _ target => .seq (.leaf (.label 0, false)) (target.marked cfg)
  | .tableAccess table key =>
      .seq (tableKeyMarked key (key.marked cfg))
        (.leaf (.tableGet (tableKeyReg key % 2 ^ 8) 0 table, false))
  | .tableUpdate table key value =>
      .seq (tableKeyMarked key (key.marked cfg))
        (.seq (capMarked true 1 (value.marked cfg))
          (.leaf (.tableSet (tableKeyReg key % 2 ^ 8) 1 table, false)))
  | node => unmarked (node.pat cfg)

/-- The parts of a concatenation. -/
def AstNode.markedParts (cfg : CompilerConfig) : List AstNode → MarkedPat
  | [] => .skip
  | part :: parts => .seq (part.marked cfg) (AstNode.markedParts cfg parts)

/-- As `patArbno`. -/
def AstNode.markedArbno (cfg : CompilerConfig) : AstNode → MarkedPat → MarkedPat
  | .arbno sub, _ => AstNode.markedArbno cfg sub (sub.marked cfg)
  | .repetition sub min max, p =>
      if min = 0 ∧ max = -1 then AstNode.markedStar cfg sub (sub.marked cfg) else starMarked p
  | _, p => starMarked p

/-- As `patStar`. -/
def AstNode.markedStar (cfg : CompilerConfig) : AstNode → MarkedPat → MarkedPat
  | .repetition sub min max, p =>
      if min = 0 ∧ max = -1 then AstNode.markedStar cfg sub (sub.marked cfg) else starMarked p
  | _, p => starMarked p

/-- As `patRepeatStar`. -/
def AstNode.markedRepeatStar (cfg : CompilerConfig) : AstNode → MarkedPat → MarkedPat
  | .repetition sub min max, p =>
      if min = 0 ∧ max = -1 then AstNode.markedRepeatStar cfg sub (sub.marked cfg) else starMarked p
  | .arbno sub, _ => AstNode.markedArbno cfg sub (sub.marked cfg)
  | _, p => starMarked p

end

/-- The leaves of a marked pattern. -/
abbrev MarkedPat.leaves (p : MarkedPat) : SrcPat := p.map Prod.fst id

section

variable {cfg : CompilerConfig} {allowed : Bool → Slot → Prop}

theorem unmarked_leaves (p : SrcPat) : (unmarked p).leaves = p := by
  induction p with
  | skip => rfl
  | leaf l => rfl
  | seq p q ihp ihq => exact congrArg₂ Pat.seq ihp ihq
  | alt p q ihp ihq => exact congrArg₂ Pat.alt ihp ihq
  | loop k p ih => exact congrArg (Pat.loop k) ih

theorem tableKeyMarked_leaves (key : AstNode) (p : MarkedPat) :
    (tableKeyMarked key p).leaves = tableKeyPat key p.leaves := by
  cases key with
  | _ => rfl

mutual

/-- Without the marks it is the pattern. -/
theorem AstNode.marked_leaves (cfg : CompilerConfig) : ∀ ast : AstNode,
    (ast.marked cfg).leaves = ast.pat cfg
  | .concat parts => AstNode.markedParts_leaves cfg parts
  | .alt left right =>
    congrArg₂ Pat.alt (AstNode.marked_leaves cfg left) (AstNode.marked_leaves cfg right)
  | .repetition sub min max => by
    have hsub := AstNode.marked_leaves cfg sub
    unfold AstNode.marked AstNode.pat
    split
    · exact AstNode.markedRepeatStar_leaves cfg hsub sub
    · exact congrArg (Pat.loop _) hsub
  | .arbno sub => AstNode.markedArbno_leaves cfg (AstNode.marked_leaves cfg sub) sub
  | .cap reg sub => congrArg (capPat (bits reg)) (AstNode.marked_leaves cfg sub)
  | .dynamicEval expr => AstNode.marked_leaves cfg expr
  | .label _ target => congrArg (Pat.seq _) (AstNode.marked_leaves cfg target)
  | .tableAccess table key => by
    have hkey := tableKeyMarked_leaves key (key.marked cfg)
    rw [AstNode.marked_leaves cfg key] at hkey
    exact congrArg (Pat.seq · _) hkey
  | .tableUpdate table key value => by
    have hkey := tableKeyMarked_leaves key (key.marked cfg)
    rw [AstNode.marked_leaves cfg key] at hkey
    have hvalue := congrArg (capPat 1) (AstNode.marked_leaves cfg value)
    exact congrArg₂ Pat.seq hkey (congrArg (Pat.seq · _) hvalue)
  | .literal _ | .span _ | .break _ | .any _ | .notany _ | .assign _ _ | .len _ | .eval _ _
  | .anchor _ | .emit _ _ | .breakx _ | .bal _ _ | .fence | .rem | .rpos _ | .rtab _ | .pos _
  | .tab _ | .abort | .fail | .succeed | .goto _ | .regRef _ => unmarked_leaves _

theorem AstNode.markedParts_leaves (cfg : CompilerConfig) : ∀ parts : List AstNode,
    (AstNode.markedParts cfg parts).leaves = AstNode.patParts cfg parts
  | [] => rfl
  | part :: parts =>
    congrArg₂ Pat.seq (AstNode.marked_leaves cfg part) (AstNode.markedParts_leaves cfg parts)

theorem AstNode.markedArbno_leaves (cfg : CompilerConfig) {m : MarkedPat} {p : SrcPat}
    (h : m.leaves = p) (sub : AstNode) :
    (AstNode.markedArbno cfg sub m).leaves = AstNode.patArbno cfg sub p := by
  cases sub with
  | arbno sub => exact AstNode.markedArbno_leaves cfg (AstNode.marked_leaves cfg sub) sub
  | repetition sub min max =>
    simp only [AstNode.markedArbno, AstNode.patArbno]
    split
    · exact AstNode.markedStar_leaves cfg (AstNode.marked_leaves cfg sub) sub
    · exact congrArg starPat h
  | _ => exact congrArg starPat h

theorem AstNode.markedStar_leaves (cfg : CompilerConfig) {m : MarkedPat} {p : SrcPat}
    (h : m.leaves = p) (sub : AstNode) :
    (AstNode.markedStar cfg sub m).leaves = AstNode.patStar cfg sub p := by
  cases sub with
  | repetition sub min max =>
    simp only [AstNode.markedStar, AstNode.patStar]
    split
    · exact AstNode.markedStar_leaves cfg (AstNode.marked_leaves cfg sub) sub
    · exact congrArg starPat h
  | _ => exact congrArg starPat h

theorem AstNode.markedRepeatStar_leaves (cfg : CompilerConfig) {m : MarkedPat} {p : SrcPat}
    (h : m.leaves = p) (sub : AstNode) :
    (AstNode.markedRepeatStar cfg sub m).leaves = AstNode.patRepeatStar cfg sub p := by
  cases sub with
  | arbno sub => exact AstNode.markedArbno_leaves cfg (AstNode.marked_leaves cfg sub) sub
  | repetition sub min max =>
    simp only [AstNode.markedRepeatStar, AstNode.patRepeatStar]
    split
    · exact AstNode.markedRepeatStar_leaves cfg (AstNode.marked_leaves cfg sub) sub
    · exact congrArg starPat h
  | _ => exact congrArg starPat h

end

/-- The leaf writes slots only that are allowed to leaves of its kind. -/
def WritesIn (allowed : Bool → Slot → Prop) (l : Leaf (Option CcEntry) × Bool) : Prop :=
  ∀ slot ∈ l.1.writes, allowed l.2 slot

theorem writesIn_nil {l : Leaf (Option CcEntry)} {staging : Bool} (h : l.writes = []) :
    WritesIn allowed (l, staging) := by
  intro slot hslot
  have hnil : slot ∈ l.writes := hslot
  rw [h] at hnil
  cases hnil

theorem litPat_writes (cfg : CompilerConfig) (text : Bytes) (fuel pos : Nat) :
    (unmarked (litPat cfg text fuel pos)).All (WritesIn allowed) := by
  induction fuel generalizing pos with
  | zero => trivial
  | succ fuel ih =>
    unfold litPat
    split
    · trivial
    · cases utf8PeekNext text pos with
      | none => exact ⟨writesIn_nil rfl, ih _⟩
      | some cp => exact ⟨writesIn_nil rfl, ih _⟩

theorem capMarked_writes {staging : Bool} {reg : Nat} {p : MarkedPat}
    (hslots : ∀ slot ∈ capSlots reg, allowed staging slot) (h : p.All (WritesIn allowed)) :
    (capMarked staging reg p).All (WritesIn allowed) := by
  have hreg := hslots _ List.mem_cons_self
  have hvar := hslots _ (List.mem_cons_of_mem _ List.mem_cons_self)
  refine ⟨?_, h, ?_⟩
  · intro slot hslot
    obtain rfl := List.mem_singleton.mp hslot
    exact hreg
  · intro slot hslot
    simp only [Leaf.writes, List.mem_cons, List.not_mem_nil, or_false] at hslot
    obtain rfl | rfl := hslot
    · exact hreg
    · exact hvar

theorem tableKeyMarked_writes (key : AstNode) {p : MarkedPat}
    (hslots : ∀ slot ∈ stagedKey key, allowed true slot) (h : p.All (WritesIn allowed)) :
    (tableKeyMarked key p).All (WritesIn allowed) := by
  cases key with
  | regRef reg => trivial
  | _ => exact capMarked_writes hslots h

/-- The slots of a pattern are allowed: what its text assigns and what its table operations
capture. -/
structure Allows (allowed : Bool → Slot → Prop) (slots staged : List Slot) : Prop where
  text : ∀ slot ∈ slots, allowed false slot
  staging : ∀ slot ∈ staged, allowed true slot

namespace Allows

variable {slots slots' staged staged' : List Slot}

theorem left (h : Allows allowed (slots ++ slots') (staged ++ staged')) :
    Allows allowed slots staged :=
  ⟨fun slot hslot => h.text slot (List.mem_append_left _ hslot),
    fun slot hslot => h.staging slot (List.mem_append_left _ hslot)⟩

theorem right (h : Allows allowed (slots ++ slots') (staged ++ staged')) :
    Allows allowed slots' staged' :=
  ⟨fun slot hslot => h.text slot (List.mem_append_right _ hslot),
    fun slot hslot => h.staging slot (List.mem_append_right _ hslot)⟩

end Allows

mutual

/-- The leaves of the text write what it assigns, and the captures of table operations what they
stage. -/
theorem AstNode.marked_writes (cfg : CompilerConfig) : ∀ ast : AstNode,
    Allows allowed ast.slots ast.staged → (ast.marked cfg).All (WritesIn allowed)
  | .literal text, _ => by
    rw [AstNode.marked, AstNode.pat]
    · split
      · exact litPat_writes cfg text _ _
      · exact writesIn_nil rfl
    all_goals nofun
  | .concat parts, h => AstNode.markedParts_writes cfg parts h
  | .alt left right, h =>
    ⟨AstNode.marked_writes cfg left h.left, AstNode.marked_writes cfg right h.right⟩
  | .repetition sub min max, h => by
    have hsub := AstNode.marked_writes cfg sub h
    unfold AstNode.marked
    split
    · exact AstNode.markedRepeatStar_writes cfg hsub sub h
    · exact hsub
  | .span _, _ | .break _, _ | .any _, _ | .notany _, _ | .len _, _ | .eval _ _, _ | .breakx _, _
  | .bal _ _, _ | .fence, _ | .rem, _ | .rpos _, _ | .rtab _, _ | .pos _, _ | .tab _, _ | .abort, _
  | .fail, _ | .succeed, _ | .goto _, _ | .anchor .anchorStart, _ | .anchor .anchorEnd, _
  | .emit (some _) _, _ => writesIn_nil rfl
  | .regRef _, _ => trivial
  | .assign var reg, h => h.text
  | .arbno sub, h => AstNode.markedArbno_writes cfg (AstNode.marked_writes cfg sub h) sub h
  | .cap reg sub, h => by
    refine capMarked_writes (fun slot hslot => h.text slot (List.mem_append_left _ hslot)) ?_
    exact AstNode.marked_writes cfg sub
      ⟨fun slot hslot => h.text slot (List.mem_append_right _ hslot), h.staging⟩
  | .dynamicEval expr, h => AstNode.marked_writes cfg expr h
  | .emit none reg, _ => by
    show (unmarked (AstNode.pat cfg (.emit none reg))).All (WritesIn allowed)
    unfold AstNode.pat
    split
    · exact writesIn_nil rfl
    · trivial
  | .label _ target, h => ⟨writesIn_nil rfl, AstNode.marked_writes cfg target h⟩
  | .tableAccess _ key, h => by
    refine ⟨tableKeyMarked_writes key
      (fun slot hslot => h.staging slot (List.mem_append_left _ hslot)) ?_, writesIn_nil rfl⟩
    exact AstNode.marked_writes cfg key
      ⟨h.text, fun slot hslot => h.staging slot (List.mem_append_right _ hslot)⟩
  | .tableUpdate _ key value, h => by
    have hkey := h.left
    have hvalue := h.right
    refine ⟨tableKeyMarked_writes key
        (fun slot hslot => hkey.staging slot (List.mem_append_left _ hslot)) ?_,
      capMarked_writes (fun slot hslot => hvalue.staging slot (List.mem_append_left _ hslot)) ?_,
      writesIn_nil rfl⟩
    · exact AstNode.marked_writes cfg key
        ⟨hkey.text, fun slot hslot => hkey.staging slot (List.mem_append_right _ hslot)⟩
    · exact AstNode.marked_writes cfg value
        ⟨hvalue.text, fun slot hslot => hvalue.staging slot (List.mem_append_right _ hslot)⟩

theorem AstNode.markedParts_writes (cfg : CompilerConfig) : ∀ parts : List AstNode,
    Allows allowed (AstNode.slotsParts parts) (AstNode.stagedParts parts) →
      (AstNode.markedParts cfg parts).All (WritesIn allowed)
  | [], _ => trivial
  | part :: parts, h =>
    ⟨AstNode.marked_writes cfg part h.left, AstNode.markedParts_writes cfg parts h.right⟩

theorem AstNode.markedArbno_writes (cfg : CompilerConfig) {p : MarkedPat}
    (hp : p.All (WritesIn allowed)) (sub : AstNode) (h : Allows allowed sub.slots sub.staged) :
    (AstNode.markedArbno cfg sub p).All (WritesIn allowed) := by
  cases sub with
  | arbno sub => exact AstNode.markedArbno_writes cfg (AstNode.marked_writes cfg sub h) sub h
  | repetition sub min max =>
    simp only [AstNode.markedArbno]
    split
    · exact AstNode.markedStar_writes cfg (AstNode.marked_writes cfg sub h) sub h
    · exact hp
  | _ => exact hp

theorem AstNode.markedStar_writes (cfg : CompilerConfig) {p : MarkedPat}
    (hp : p.All (WritesIn allowed)) (sub : AstNode) (h : Allows allowed sub.slots sub.staged) :
    (AstNode.markedStar cfg sub p).All (WritesIn allowed) := by
  cases sub with
  | repetition sub min max =>
    simp only [AstNode.markedStar]
    split
    · exact AstNode.markedStar_writes cfg (AstNode.marked_writes cfg sub h) sub h
    · exact hp
  | _ => exact hp

theorem AstNode.markedRepeatStar_writes (cfg : CompilerConfig) {p : MarkedPat}
    (hp : p.All (WritesIn allowed)) (sub : AstNode) (h : Allows allowed sub.slots sub.staged) :
    (AstNode.markedRepeatStar cfg sub p).All (WritesIn allowed) := by
  cases sub with
  | arbno sub => exact AstNode.markedArbno_writes cfg (AstNode.marked_writes cfg sub h) sub h
  | repetition sub min max =>
    simp only [AstNode.markedRepeatStar]
    split
    · exact AstNode.markedRepeatStar_writes cfg (AstNode.marked_writes cfg sub h) sub h
    · exact hp
  | _ => exact hp

end

end

/-- The addresses of the captures of table operations, in the code `b` of the pattern from `a`
on. -/
def stagingAddrs : MarkedPat → Blk → Nat → List Nat
  | .leaf l, .leaf _, a => if l.2 then [a] else []
  | .seq p q, .seq b b', a => stagingAddrs p b a ++ stagingAddrs q b' (a + Blk.size b)
  | .alt p q, .alt b b', a => stagingAddrs p b (a + 9) ++ stagingAddrs q b' (a + 14 + Blk.size b)
  | .loop _ p, .loop _ b, a => stagingAddrs p b (a + 14)
  | _, _, _ => []

/-! ## Compiled patterns -/

/-- The leaf at an address writes what is allowed to leaves of its kind. -/
def WritesAt (staging : List Nat) (allowed : Bool → Slot → Prop) (c : Nat) (l : Leaf Nat) : Prop :=
  ∀ slot ∈ l.writes, allowed (decide (c ∈ staging)) slot ∨ allowed false slot

theorem Leaf.writes_resolve (classes : List CcEntry) (l : Leaf Nat) :
    (l.resolve classes).writes = l.writes := by
  cases l with
  | _ => rfl

/-- The leaves of the code of a pattern. -/
theorem MarkedPat.writesAt {staging : List Nat} {allowed : Bool → Slot → Prop}
    {classes : List CcEntry} {m : MarkedPat} {b : Blk} {a : Nat} (hall : m.All (WritesIn allowed))
    (hshape : b.map (Leaf.resolve classes) LoopSpec.bounds = m.leaves)
    (hstaging : ∀ c ∈ stagingAddrs m b a, c ∈ staging) :
    b.AllAt (WritesAt staging allowed) a := by
  induction b generalizing m a with
  | skip => trivial
  | leaf l =>
    cases m with
    | leaf marked =>
      obtain ⟨l', staged⟩ := marked
      obtain rfl : l.resolve classes = l' := Pat.leaf.inj hshape
      intro slot hslot
      have hallowed : allowed staged slot := by
        refine hall slot ?_
        rwa [Leaf.writes_resolve]
      cases staged with
      | false => exact .inr hallowed
      | true =>
        refine .inl ?_
        rw [decide_eq_true (hstaging a List.mem_cons_self)]
        exact hallowed
    | _ => cases hshape
  | seq p q ihp ihq =>
    cases m with
    | seq m m' =>
      obtain ⟨hp, hq⟩ := Pat.seq.inj hshape
      exact ⟨ihp hall.1 hp fun c hc => hstaging c (List.mem_append_left _ hc),
        ihq hall.2 hq fun c hc => hstaging c (List.mem_append_right _ hc)⟩
    | _ => cases hshape
  | alt p q ihp ihq =>
    cases m with
    | alt m m' =>
      obtain ⟨hp, hq⟩ := Pat.alt.inj hshape
      exact ⟨ihp hall.1 hp fun c hc => hstaging c (List.mem_append_left _ hc),
        ihq hall.2 hq fun c hc => hstaging c (List.mem_append_right _ hc)⟩
    | _ => cases hshape
  | loop k body ih =>
    cases m with
    | loop k' m =>
      have hbody : body.map (Leaf.resolve classes) LoopSpec.bounds = MarkedPat.leaves m :=
        (Pat.loop.inj hshape).2
      exact ih (m := m) hall hbody hstaging
    | _ => cases hshape

theorem Blk.listing_writes {b : Blk} {a c : Nat} {instr : Instr} {staging : List Nat}
    {allowed : Bool → Slot → Prop} (hb : b.AllAt (WritesAt staging allowed) a)
    (hmem : (c, instr) ∈ listing b a) :
    ∀ slot ∈ instr.writes, allowed (decide (c ∈ staging)) slot ∨ allowed false slot := by
  induction b generalizing a with
  | skip => cases hmem
  | leaf l =>
    obtain ⟨rfl, rfl⟩ := Prod.mk.inj (List.mem_singleton.mp hmem)
    have hsame : (l.instr c).writes = l.writes := by cases l <;> rfl
    rw [hsame]
    exact hb
  | seq p q ihp ihq =>
    obtain hmem | hmem := List.mem_append.mp hmem
    · exact ihp hb.1 hmem
    · exact ihq hb.2 hmem
  | alt p q ihp ihq =>
    simp only [listing_of_alt, List.mem_cons, List.mem_append, Prod.mk.injEq] at hmem
    obtain ⟨-, rfl⟩ | hmem | ⟨-, rfl⟩ | hmem := hmem
    · intro slot hslot
      cases hslot
    · exact ihp hb.1 hmem
    · intro slot hslot
      cases hslot
    · exact ihq hb.2 hmem
  | loop k body ih =>
    simp only [listing_of_loop, List.mem_cons, List.mem_append, Prod.mk.injEq, List.not_mem_nil,
      or_false] at hmem
    obtain ⟨-, rfl⟩ | hmem | ⟨-, rfl⟩ := hmem
    · intro slot hslot
      cases hslot
    · exact ih hb hmem
    · intro slot hslot
      cases hslot

/-- What the program of a compiled pattern writes. -/
theorem CompiledAs.writes {cfg : CompilerConfig} {ast : AstNode} {st : CompilerState} {bc : Bytes}
    {b b' : Blk} (h : CompiledAs cfg ast st bc b b') {allowed : Bool → Slot → Prop}
    (hallowed : Allows allowed ast.slots ast.staged) {c : Nat} {instr : Instr}
    (hmem : (c, instr) ∈ b'.program) : ∀ slot ∈ instr.writes,
      allowed (decide (c ∈ stagingAddrs (ast.marked cfg) b 0)) slot ∨ allowed false slot := by
  have hemitted : b.AllAt (WritesAt (stagingAddrs (ast.marked cfg) b 0) allowed) 0 :=
    MarkedPat.writesAt (AstNode.marked_writes cfg ast hallowed)
      (h.pat.trans (AstNode.marked_leaves cfg ast).symm) fun _ => id
  have hall := h.fused.allAt _ 0 (fun _ _ hslot => by cases hslot)
    (fun _ _ _ hslot => by cases hslot) hemitted
  obtain hmem | hmem := List.mem_append.mp hmem
  · exact Blk.listing_writes hall hmem
  · cases List.mem_singleton.mp hmem
    intro slot hslot
    cases hslot

theorem Instr.writes_unbound (instr : Instr) : instr.unbound.writes = instr.writes := by
  cases instr with
  | prim p => cases p <;> rfl
  | _ => rfl

/-- In a run of a compiled pattern with bound tables the instruction at the cursor writes what the
text assigns or, where it belongs to a capture of a table operation, what these stage. -/
theorem CompiledAs.writesWithin {cfg : CompilerConfig} {ast : AstNode} {st : CompilerState}
    {bc : Bytes} {env : VmEnv W} {b b' : Blk} {start : Vm W}
    (hcode : CompiledAs cfg ast st bc b b') (hbound : Rebound bc env.bc b') (hip : start.ip = 0)
    (hjumps : ∀ vm, VmReach env start vm → JumpsToRow env b' vm)
    {vm : Vm W} (hvm : VmReach env start vm) :
    WritesWithin env (fun slot => slot ∈ ast.slots ∨
      vm.ip ∈ stagingAddrs (ast.marked cfg) b 0 ∧ slot ∈ ast.staged) vm := by
  intro instr next hfetch slot hslot
  have hrow := hcode.runs.within_rebound hbound hip (fun vm hvm _ => hjumps vm hvm) hvm
  obtain ⟨hmem, -⟩ := hcode.runs.fetched hrow.ip (hbound _ _ _ hrow.ip hfetch)
  rw [← Instr.writes_unbound] at hslot
  have hallowed : Allows (fun staging slot => slot ∈ ast.slots ∨ staging = true ∧ slot ∈ ast.staged)
      ast.slots ast.staged := ⟨fun _ => .inl, fun _ hslot => .inr ⟨rfl, hslot⟩⟩
  obtain hwrites | hwrites := hcode.writes hallowed hmem slot hslot
  · exact hwrites.imp_right fun h => ⟨of_decide_eq_true h.1, h.2⟩
  · exact hwrites.imp_right fun h => absurd h.1 Bool.false_ne_true

/-! ## Runs -/

variable {env : VmEnv W}

/-- A run whose captures and assignments name slots of a set leaves all others alone, in
every state and at the end. -/
theorem Regs.Frame.run {written : Slot → Prop} {start : Vm W}
    (hwrites : ∀ vm, VmReach env start vm → WritesWithin env written vm) :
    (∀ vm, VmReach env start vm → Regs.Frame written start.regs vm.regs) ∧
      ∀ ok final, VmRun env start ok final → Regs.Frame written start.regs final.regs := by
  have hstart : (vmRunStart start).Keeps (.frame written start.regs) :=
    ⟨trivial, ⟨fun _ _ => rfl, nofun⟩, nofun⟩
  obtain ⟨hreach, hfinal⟩ := vmRun_keeps hstart fun vm hvm h =>
    h.step_free (Invariant.frame_stable _ _) (fun _ => trivial) fun p next hfetch =>
      p.exec_frame h.store.regs (hwrites vm hvm _ next hfetch)
  exact ⟨fun vm hvm => (hreach vm hvm).store.regs,
    fun ok final hrun => (hfinal ok final hrun).store.regs⟩

/-- A host with one table, which holds every key. -/
def oneTable : Host Unit :=
  { Host.bare with tableGet := fun _ id => if id = 0 then some fun _ => some [] else none }

/-- `@r2('b') (T[$v2] | 'z' T['k'])` -/
def captureThenLookup : AstNode :=
  .concat [.cap 2 (.literal [0x62]), .alt (.tableAccess [0x74] (.regRef 2))
    (.concat [.literal [0x7A], .tableAccess [0x74] (.literal [0x6B])])]

/-- Its code. -/
def captureThenLookupBlk : Blk :=
  .seq (.seq (.leaf (.capStart 2)) (.seq (.leaf (.lit [0x62])) (.leaf (.capEnd 2))))
    (.seq (.alt (.seq .skip (.leaf (.tableGet 2 0 [0x74])))
      (.seq (.leaf (.lit [0x7A])) (.seq (.seq (.seq (.leaf (.capStart 0))
        (.seq (.leaf (.lit [0x6B])) (.leaf (.capEnd 0)))) (.leaf (.tableGet 0 0 [0x74]))) .skip)))
      .skip)

def captureThenLookupCode : Bytes :=
  captureThenLookupBlk.encode 0 ++ ([OpCode.accept.code] ++
    trailer (captureThenLookupBlk.size + 1) [] [])

theorem compiledAs_captureThenLookup : CompiledAs .caseSensitive captureThenLookup
    ⟨captureThenLookupCode.take 67, [], 0, [], [14]⟩ captureThenLookupCode captureThenLookupBlk
      captureThenLookupBlk where
  buf := by decide +kernel
  fits := by simp [captureThenLookupBlk, Blk.Fits, Leaf.Fits]
  short := by decide +kernel
  loops := ⟨0, by decide, by simp [captureThenLookupBlk, Blk.LoopIds]⟩
  pat := by decide +kernel
  fused := .refl _
  body := ⟨[], rfl⟩

/-- With `T` bound. -/
def captureThenLookupEnv : VmEnv Unit :=
  VmEnv.ofCode (snobolPatternBindBytecodeTables captureThenLookupCode [some [0x74]]).1 [0x62]
    oneTable

/-- `'a' T['b']` -/
def lookupBehind : AstNode := .concat [.literal [0x61], .tableAccess [0x74] (.literal [0x62])]

/-- Its code with `T` bound. -/
def lookupBehindCode : Bytes :=
  [4, 0, 0, 0, 9, 0, 0, 0, 1, 97, 9, 0, 4, 0, 0, 0, 21, 0, 0, 0, 1, 98, 10, 0, 25, 0, 0, 0, 0, 1,
    116, 0, 0, 0, 0, 0, 0, 0, 0, 0, 83, 78, 66, 76]

end Snobol4
