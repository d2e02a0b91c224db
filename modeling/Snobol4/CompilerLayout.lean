import Snobol4.ClassText
import Snobol4.Code

/-!
# CompilerLayout — the emitters lay out structured code

The backpatching emitters of `compiler_codegen.c` append the layout of a tree to the
code buffer, and that tree has the shape of the pattern: `AstNode.pat` is the pattern
a syntax tree stands for, with character classes in place of class ids, and
`emitNodeC_emits` says that the emitted tree is this pattern once its ids are looked
up in the class table.
-/

namespace Snobol4

/-! ## The pattern of a syntax tree -/

/-- The bounds of a repetition. -/
structure Bounds where
  min : Nat
  max : Nat
  deriving Repr, DecidableEq

/-- A pattern over classes instead of class ids. -/
abbrev SrcPat := Pat (Leaf (Option CcEntry)) Bounds

def LoopSpec.bounds (k : LoopSpec) : Bounds := ⟨k.min, k.max⟩

/-- The case-insensitive literal from `pos` on: one class for each codepoint. -/
def litPat (cfg : CompilerConfig) (text : Bytes) : Nat → Nat → SrcPat
  | 0, _ => .skip
  | fuel + 1, pos =>
      if text.length ≤ pos then .skip
      else
        match utf8PeekNext text pos with
        | none => .seq (.leaf (.lit (slice text pos (pos + 1)))) (litPat cfg text fuel (pos + 1))
        | some (_, cpBytes) =>
            .seq (.leaf (.set .any (some (charclassOf cfg (slice text pos (pos + cpBytes))))))
              (litPat cfg text fuel (pos + cpBytes))

/-- A capture around a pattern. -/
def capPat (reg : Nat) (p : SrcPat) : SrcPat :=
  .seq (.leaf (.capStart (reg % 2 ^ 8))) (.seq p (.leaf (.capEnd (reg % 2 ^ 8))))

/-- The pattern of the key of a table operation. -/
def tableKeyPat : AstNode → SrcPat → SrcPat
  | .regRef _, _ => .skip
  | _, p => capPat 0 p

/-- An unbounded repetition. -/
def starPat (p : SrcPat) : SrcPat := .loop ⟨0, unbounded⟩ p

mutual

/-- The pattern of a syntax tree. -/
def AstNode.pat (cfg : CompilerConfig) : AstNode → SrcPat
  | .literal text =>
      if cfg.caseInsensitive then litPat cfg text text.length 0 else .leaf (.lit text)
  | .concat parts => AstNode.patParts cfg parts
  | .alt left right => .alt (left.pat cfg) (right.pat cfg)
  | .repetition sub min max =>
      if min = 0 ∧ max = -1 then AstNode.patRepeatStar cfg sub (sub.pat cfg)
      else .loop ⟨bits min, bits max⟩ (sub.pat cfg)
  | .span set => .leaf (.set .span (some (charclassOf cfg set)))
  | .break set => .leaf (.set .break (some (charclassOf cfg set)))
  | .any set => .leaf (.set .any (if set.length = 0 then none else some (charclassOf cfg set)))
  | .notany set => .leaf (.set .notany (some (charclassOf cfg set)))
  | .arbno sub => AstNode.patArbno cfg sub (sub.pat cfg)
  | .cap reg sub => capPat (bits reg) (sub.pat cfg)
  | .assign var reg => .leaf (.assign (bits var % 2 ^ 16) (bits reg % 2 ^ 8))
  | .len n => .leaf (.count .len (bits n))
  | .eval fn reg => .leaf (.eval (bits fn % 2 ^ 16) (bits reg % 2 ^ 8))
  | .dynamicEval expr => expr.pat cfg
  | .anchor .anchorStart => .leaf (.anchor 0)
  | .anchor .anchorEnd => .leaf (.anchor 1)
  | .emit (some text) _ => .leaf (.emitLiteral text)
  | .emit none reg => if 0 ≤ reg then .leaf (.emitCapture (bits reg % 2 ^ 8)) else .skip
  | .breakx set => .leaf (.breakx (some (charclassOf cfg set)))
  | .bal openCp closeCp => .leaf (.bal openCp.toNat closeCp.toNat)
  | .fence => .leaf .fence
  | .rem => .leaf .rem
  | .rpos n => .leaf (.count .rpos (bits n))
  | .rtab n => .leaf (.count .rtab (bits n))
  | .pos n => .leaf (.count .pos (bits n))
  | .tab n => .leaf (.count .tab (bits n))
  | .abort => .leaf .abort
  | .fail => .leaf .fail
  | .succeed => .leaf .succeed
  | .label _ target => .seq (.leaf (.label 0)) (target.pat cfg)
  | .goto _ => .leaf (.goto 0)
  | .tableAccess table key =>
      .seq (tableKeyPat key (key.pat cfg))
        (.leaf (.tableGet (tableKeyReg key % 2 ^ 8) 0 table))
  | .tableUpdate table key value =>
      .seq (tableKeyPat key (key.pat cfg))
        (.seq (capPat 1 (value.pat cfg))
          (.leaf (.tableSet (tableKeyReg key % 2 ^ 8) 1 table)))
  | .regRef _ => .skip

/-- The parts of a concatenation. -/
def AstNode.patParts (cfg : CompilerConfig) : List AstNode → SrcPat
  | [] => .skip
  | part :: parts => .seq (part.pat cfg) (AstNode.patParts cfg parts)

/-- `ARBNO` of a node whose own pattern is `p`; a star of a star is one star. -/
def AstNode.patArbno (cfg : CompilerConfig) : AstNode → SrcPat → SrcPat
  | .arbno sub, _ => AstNode.patArbno cfg sub (sub.pat cfg)
  | .repetition sub min max, p =>
      if min = 0 ∧ max = -1 then AstNode.patStar cfg sub (sub.pat cfg) else starPat p
  | _, p => starPat p

/-- A star behind repetitions (0, -1). -/
def AstNode.patStar (cfg : CompilerConfig) : AstNode → SrcPat → SrcPat
  | .repetition sub min max, p =>
      if min = 0 ∧ max = -1 then AstNode.patStar cfg sub (sub.pat cfg) else starPat p
  | _, p => starPat p

/-- `repeat(p, 0, -1)` -/
def AstNode.patRepeatStar (cfg : CompilerConfig) : AstNode → SrcPat → SrcPat
  | .repetition sub min max, p =>
      if min = 0 ∧ max = -1 then AstNode.patRepeatStar cfg sub (sub.pat cfg) else starPat p
  | .arbno sub, _ => AstNode.patArbno cfg sub (sub.pat cfg)
  | _, p => starPat p

end

/-! ## What the emitters guarantee -/

/-- The class a class id stands for. -/
def classAt (classes : List CcEntry) (id : Nat) : Option CcEntry :=
  if id = 0 then none else classes[id - 1]?

/-- Look up the class ids of a leaf; label ids are forgotten. -/
def Leaf.resolve (classes : List CcEntry) : Leaf Nat → Leaf (Option CcEntry)
  | nop => nop
  | lit text => lit text
  | set op id => set op (classAt classes id)
  | capStart reg => capStart reg
  | capEnd reg => capEnd reg
  | assign var reg => assign var reg
  | count op n => count op n
  | eval fn reg => eval fn reg
  | anchor type => anchor type
  | emitLiteral text => emitLiteral text
  | emitCapture reg => emitCapture reg
  | label _ => label 0
  | tableGet key reg name => tableGet key reg name
  | tableSet key reg name => tableSet key reg name
  | bal openCp closeCp => bal openCp closeCp
  | rem => rem
  | accept => accept
  | fail => fail
  | goto _ => goto 0
  | breakx id => breakx (classAt classes id)
  | fence => fence
  | abort => abort
  | succeed => succeed

/-- A table name is short enough for its length byte. -/
def Leaf.NameFits {C : Type} : Leaf C → Prop
  | tableGet _ _ name => name.length < 2 ^ 8
  | tableSet _ _ name => name.length < 2 ^ 8
  | _ => True

namespace Blk

/-- The addresses of the `OP_SPLIT`s of code at `a`. -/
def splitAddrs : Blk → Nat → List Nat
  | .skip, _ => []
  | .leaf _, _ => []
  | .seq p q, a => splitAddrs p a ++ splitAddrs q (a + size p)
  | .alt p q, a => a :: (splitAddrs p (a + 9) ++ splitAddrs q (a + 14 + size p))
  | .loop _ body, a => splitAddrs body (a + 14)

/-- The loop ids lie in `[lo, hi)` and grow with the address, so no two loops share
one. -/
def LoopIds : Blk → Nat → Nat → Prop
  | .skip, lo, hi => lo ≤ hi
  | .leaf _, lo, hi => lo ≤ hi
  | .seq p q, lo, hi => ∃ mid, LoopIds p lo mid ∧ LoopIds q mid hi
  | .alt p q, lo, hi => ∃ mid, LoopIds p lo mid ∧ LoopIds q mid hi
  | .loop k body, lo, hi => lo ≤ k.id ∧ LoopIds body (k.id + 1) hi

theorem LoopIds.le {b : Blk} {lo hi : Nat} (h : LoopIds b lo hi) : lo ≤ hi := by
  induction b generalizing lo hi with
  | skip => exact h
  | leaf l => exact h
  | seq p q ihp ihq | alt p q ihp ihq =>
    obtain ⟨mid, hp, hq⟩ := h
    exact (ihp hp).trans (ihq hq)
  | loop k body ih =>
    have := ih h.2
    have := h.1
    omega

theorem LoopIds.widen {b : Blk} {lo lo' hi : Nat} (h : LoopIds b lo hi) (hlo : lo' ≤ lo) :
    LoopIds b lo' hi := by
  induction b generalizing lo lo' hi with
  | skip => exact hlo.trans h
  | leaf l => exact hlo.trans h
  | seq p q ihp ihq | alt p q ihp ihq =>
    obtain ⟨mid, hp, hq⟩ := h
    exact ⟨mid, ihp hp hlo, hq⟩
  | loop k body ih => exact ⟨hlo.trans h.1, h.2⟩

end Blk

/-- The emitter went from `st` to `st'` by appending the code of `b`, which is the
pattern `t` by the class table. -/
structure Emitted (st st' : CompilerState) (b : Blk) (t : SrcPat) : Prop where
  buf : st'.buf = st.buf ++ b.encode st.buf.length
  splits : st'.splits = st.splits ++ b.splitAddrs st.buf.length
  classes : st.classes <+: st'.classes
  loops : b.LoopIds st.nextLoopId st'.nextLoopId
  loops_le : st.nextLoopId ≤ maxLoops → st'.nextLoopId ≤ maxLoops
  fits : t.All Leaf.NameFits → b.Fits
  pat : ∀ classes, st'.classes <+: classes → classes.length < 2 ^ 16 →
    b.map (Leaf.resolve classes) LoopSpec.bounds = t

/-- Whenever the emitter succeeds it has appended the code of the pattern `t`. -/
def Emits (m : Emit Unit) (t : SrcPat) : Prop :=
  ∀ st st' : CompilerState, m.run st = .done ((), st') → ∃ b, Emitted st st' b t

/-! ## Running the primitives -/

@[simp] theorem run_emit (bytes : Bytes) (st : CompilerState) :
    (emit bytes).run st = .done ((), { st with buf := st.buf ++ bytes }) := rfl

@[simp] theorem run_emitOp (o : OpCode) (st : CompilerState) :
    (emitOp o).run st = .done ((), { st with buf := st.buf ++ [o.code] }) := rfl

@[simp] theorem run_refuse {α : Type} (st : CompilerState) : (refuse : Emit α).run st = .refused :=
  rfl

@[simp] theorem run_useFreed {α : Type} (st : CompilerState) :
    (useFreed : Emit α).run st = .undefined := rfl

@[simp] theorem run_cbPos (st : CompilerState) : cbPos.run st = .done (st.buf.length, st) := rfl

@[simp] theorem run_noteSplit (st : CompilerState) :
    noteSplit.run st = .done ((), { st with splits := st.splits ++ [st.buf.length] }) := rfl

/-- The buffer with the four bytes at `n` replaced. -/
def patched (buf : Bytes) (n v : Nat) : Bytes := buf.take n ++ emitU32 v ++ buf.drop (n + 4)

@[simp] theorem run_patchU32 (n v : Nat) (st : CompilerState) :
    (patchU32 n v).run st = .done ((), { st with buf := patched st.buf n v }) := rfl

@[simp] theorem run_newLoopId (st : CompilerState) :
    newLoopId.run st =
      if maxLoops ≤ st.nextLoopId then .refused
      else .done (st.nextLoopId, { st with nextLoopId := st.nextLoopId + 1 }) := by
  simp only [newLoopId, StateT.run_bind, StateT.run_get, CallResult.pure_def, CallResult.bind_eq_bind,
    CallResult.bind_done]
  split <;> rfl

@[simp] theorem run_addOrGetCharclass (cfg : CompilerConfig) (set : Bytes) (st : CompilerState) :
    (addOrGetCharclass cfg set).run st =
      if (setRanges cfg set set.length 0).length ≤ 32768 then
        .done ((internClass st.classes (charclassOf cfg set)).2,
          { st with classes := (internClass st.classes (charclassOf cfg set)).1 })
      else .undefined := by
  simp only [addOrGetCharclass, StateT.run, addOrGetClass_eq]
  split <;> rfl

/-- Patching a placeholder. -/
theorem patched_placeholder (xs ys : Bytes) (v : Nat) {n : Nat} (hn : n = xs.length) :
    patched (xs ++ emitU32 0 ++ ys) n v = xs ++ emitU32 v ++ ys := by
  subst hn
  rw [patched, show xs.length + 4 = (xs ++ emitU32 0).length by simp, List.drop_left,
    List.append_assoc xs (emitU32 0), List.take_left]

/-- The three patches of `emit_alt_c`. -/
theorem patched_alt (xs left right : Bytes) (a b e : Nat) :
    patched (patched (patched
      (xs ++ [OpCode.split.code] ++ emitU32 0 ++ emitU32 0 ++ left ++ [OpCode.jmp.code] ++
        emitU32 0 ++ right)
      (xs.length + 1) a) (xs.length + 5) b) (xs.length + 9 + left.length + 1) e =
    xs ++ ([OpCode.split.code] ++ emitU32 a ++ emitU32 b ++ left ++
      ([OpCode.jmp.code] ++ emitU32 e) ++ right) := by
  have h₁ := patched_placeholder (xs ++ [OpCode.split.code])
    (emitU32 0 ++ left ++ [OpCode.jmp.code] ++ emitU32 0 ++ right) a (n := xs.length + 1) (by simp)
  have h₂ := patched_placeholder (xs ++ [OpCode.split.code] ++ emitU32 a)
    (left ++ [OpCode.jmp.code] ++ emitU32 0 ++ right) b (n := xs.length + 5) (by simp)
  have h₃ := patched_placeholder
    (xs ++ [OpCode.split.code] ++ emitU32 a ++ emitU32 b ++ left ++ [OpCode.jmp.code])
    right e (n := xs.length + 9 + left.length + 1) (by simp; omega)
  simp only [List.append_assoc] at h₁ h₂ h₃ ⊢
  rw [h₁, h₂, h₃]

/-- The patch of `emit_arbno_c` and `emit_repeat_c`. -/
theorem patched_loop (xs head body step : Bytes) (skip : Nat) :
    patched (xs ++ head ++ emitU32 0 ++ body ++ step) (xs ++ head).length skip =
      xs ++ (head ++ emitU32 skip ++ body ++ step) := by
  have h := patched_placeholder (xs ++ head) (body ++ step) skip rfl
  simp only [List.append_assoc] at h ⊢
  exact h

theorem emitU8_mod (v : Nat) : emitU8 (v % 2 ^ 8) = emitU8 v := by
  simp only [emitU8, List.cons.injEq, and_true]
  apply UInt8.toNat_inj.mp
  simp only [UInt8.toNat_ofNat']
  omega

theorem emitU16_mod (v : Nat) : emitU16 (v % 2 ^ 16) = emitU16 v := by
  simp only [emitU16, List.cons.injEq, and_true]
  constructor <;> apply UInt8.toNat_inj.mp <;> simp only [UInt8.toNat_ofNat'] <;> omega

theorem bits_lt (n : Int32) : bits n < 2 ^ 32 := n.toUInt32.toNat_lt

/-! ## Rules for emitters -/

namespace Emitted

variable {st st₁ st' : CompilerState} {b b' : Blk} {t t' : SrcPat}

/-- One instruction, perhaps with new classes or labels. -/
theorem leaf {l' : Leaf Nat} {l : Leaf (Option CcEntry)}
    (hbuf : st'.buf = st.buf ++ l'.encode st.buf.length) (hsplits : st'.splits = st.splits)
    (hloops : st'.nextLoopId = st.nextLoopId) (hclasses : st.classes <+: st'.classes)
    (hfits : l.NameFits → l'.Fits)
    (hpat : ∀ classes, st'.classes <+: classes → classes.length < 2 ^ 16 →
      l'.resolve classes = l) : Emitted st st' (.leaf l') (.leaf l) where
  buf := hbuf
  splits := by simp [hsplits, Blk.splitAddrs]
  classes := hclasses
  loops := by simp [Blk.LoopIds, hloops]
  loops_le := by simp [hloops]
  fits := hfits
  pat := fun classes hle hlt => by rw [Pat.map, hpat classes hle hlt]

theorem seq (h : Emitted st st₁ b t) (h' : Emitted st₁ st' b' t') :
    Emitted st st' (.seq b b') (.seq t t') := by
  have hlen : st₁.buf.length = st.buf.length + b.size := by
    rw [h.buf, List.length_append, Blk.length_encode]
  constructor
  · rw [h'.buf, h.buf, List.append_assoc, ← h.buf, hlen]
    rfl
  · rw [h'.splits, h.splits, List.append_assoc, hlen]
    rfl
  · exact h.classes.trans h'.classes
  · exact ⟨_, h.loops, h'.loops⟩
  · exact fun hle => h'.loops_le (h.loops_le hle)
  · exact fun hnames => ⟨h.fits hnames.1, h'.fits hnames.2⟩
  · intro classes hle hlt
    rw [Pat.map, h.pat classes (h'.classes.trans hle) hlt, h'.pat classes hle hlt]

/-- An instruction that names a label. -/
theorem named {o : OpCode} {l : Leaf (Option CcEntry)} (mk : Nat → Leaf Nat)
    {st st' : CompilerState} {idx : Nat} {labels : List LabelEntry}
    (hst : st' = { st with buf := st.buf ++ ([o.code] ++ emitU16 idx), labels })
    (hbytes : ∀ id a, (mk id).encode a = [o.code] ++ emitU16 id)
    (hfits : ∀ id, id < 2 ^ 16 → (mk id).Fits) (hpat : ∀ classes id, (mk id).resolve classes = l) :
    Emitted st st' (.leaf (mk (idx % 2 ^ 16))) (.leaf l) := by
  subst hst
  have hbuf : (mk (idx % 2 ^ 16)).encode st.buf.length = [o.code] ++ emitU16 idx := by
    rw [hbytes, emitU16_mod]
  exact .leaf (by rw [hbuf]) rfl rfl (List.prefix_refl _)
    (fun _ => hfits _ (Nat.mod_lt _ (by decide))) fun classes _ _ => hpat classes _

end Emitted

namespace Emits

variable {m m' : Emit Unit} {t t' : SrcPat}

theorem skip : Emits (pure ()) .skip := by
  intro st st' h
  cases h
  refine ⟨.skip, ?_⟩
  constructor <;> simp [Blk.encode, Blk.splitAddrs, Blk.LoopIds, Blk.Fits, Pat.map]

theorem seq (h : Emits m t) (h' : Emits m' t') : Emits (do m; m') (.seq t t') := by
  intro st st' hrun
  simp only [StateT.run_bind, CallResult.bind_eq_bind, CallResult.bind_eq_done_iff] at hrun
  obtain ⟨⟨⟨⟩, st₁⟩, h₁, h₂⟩ := hrun
  obtain ⟨b, hb⟩ := h _ _ h₁
  obtain ⟨b', hb'⟩ := h' _ _ h₂
  exact ⟨_, hb.seq hb'⟩

/-- `emit_alt_c` patches its three placeholders to the addresses of the layout. -/
theorem alt (h : Emits m t) (h' : Emits m' t') : Emits (emitAltC m m') (.alt t t') := by
  intro st st' hrun
  simp only [emitAltC, StateT.run_bind, run_noteSplit, run_emitOp, run_cbPos, run_emit,
    run_patchU32, CallResult.bind_eq_bind, CallResult.bind_done, CallResult.bind_eq_done_iff,
    CallResult.done.injEq, Prod.mk.injEq, true_and] at hrun
  obtain ⟨⟨⟨⟩, st₁⟩, h₁, ⟨⟨⟩, st₂⟩, h₂, hst'⟩ := hrun
  obtain ⟨b, hb⟩ := h _ _ h₁
  obtain ⟨b', hb'⟩ := h' _ _ h₂
  -- the arms start at these addresses, and the right one ends at the end of the buffer
  have hleft : (st.buf ++ [OpCode.split.code] ++ emitU32 0 ++ emitU32 0).length =
      st.buf.length + 9 := by simp
  have hlen₁ : st₁.buf.length = st.buf.length + 9 + b.size := by
    rw [hb.buf, List.length_append, hleft, Blk.length_encode]
  have hright : (st₁.buf ++ [OpCode.jmp.code] ++ emitU32 0).length =
      st.buf.length + 14 + b.size := by
    simp only [List.length_append, hlen₁, List.length_cons, List.length_nil, length_emitU32]
    omega
  have hlen₂ : st₂.buf.length = st.buf.length + 14 + b.size + b'.size := by
    rw [hb'.buf, List.length_append, hright, Blk.length_encode]
  have hbuf := hb'.buf
  simp only [hright] at hbuf
  simp only [hb.buf, hleft] at hbuf
  have hpatch := patched_alt st.buf (b.encode (st.buf.length + 9))
    (b'.encode (st.buf.length + 14 + b.size)) (st.buf.length + 9)
    (st.buf.length + 14 + b.size) (st.buf.length + 14 + b.size + b'.size)
  rw [Blk.length_encode, ← hbuf] at hpatch
  replace hpatch : _ = st.buf ++ Blk.encode (.alt b b') st.buf.length := hpatch
  refine ⟨.alt b b', ?_⟩
  rw [← hst']
  constructor
  · simpa only [hleft, hright, hlen₁, hlen₂, List.length_append, List.length_cons,
      List.length_nil, Nat.zero_add, length_emitU32, Nat.add_assoc, Nat.reduceAdd] using hpatch
  · have hsplits := hb'.splits
    simp only [hright, hb.splits, hleft] at hsplits
    simp [hsplits, Blk.splitAddrs]
  · exact hb.classes.trans hb'.classes
  · exact ⟨_, hb.loops, hb'.loops⟩
  · exact fun hle => hb'.loops_le (hb.loops_le hle)
  · exact fun hnames => ⟨hb.fits hnames.1, hb'.fits hnames.2⟩
  · intro classes hle hlt
    rw [Pat.map, hb.pat classes (hb'.classes.trans hle) hlt, hb'.pat classes hle hlt]

/-- `emit_arbno_c` and `emit_repeat_c` around a body. -/
theorem loop (h : Emits m t) {min max : Nat} (hmin : min < 2 ^ 32) (hmax : max < 2 ^ 32) :
    Emits (do let loopId ← newLoopId; emitLoop loopId min max m) (.loop ⟨min, max⟩ t) := by
  intro st st' hrun
  simp only [emitLoop, StateT.run_bind, run_newLoopId, CallResult.bind_eq_bind] at hrun
  split at hrun
  · simp at hrun
  rename_i hlt
  simp only [run_cbPos, run_emit, run_patchU32, CallResult.bind_done, CallResult.bind_eq_done_iff,
    CallResult.done.injEq, Prod.mk.injEq, true_and] at hrun
  obtain ⟨⟨⟨⟩, st₁⟩, h₁, hst'⟩ := hrun
  obtain ⟨b, hb⟩ := h _ _ h₁
  have hhead : (st.buf ++ ([OpCode.repeatInit.code] ++ emitU8 st.nextLoopId ++ emitU32 min ++
      emitU32 max)).length = st.buf.length + 10 := by simp
  have hbody : (st.buf ++ ([OpCode.repeatInit.code] ++ emitU8 st.nextLoopId ++ emitU32 min ++
      emitU32 max) ++ emitU32 0).length = st.buf.length + 14 := by simp
  have hlen₁ : st₁.buf.length = st.buf.length + 14 + b.size := by
    rw [hb.buf, List.length_append, hbody, Blk.length_encode]
  have hdone : (st₁.buf ++ ([OpCode.repeatStep.code] ++ emitU8 st.nextLoopId ++
      emitU32 (st.buf.length + 14))).length = st.buf.length + 20 + b.size := by
    simp only [List.length_append, hlen₁, List.length_cons, List.length_nil, length_emitU8,
      length_emitU32]
    omega
  have hbuf := hb.buf
  simp only [hbody] at hbuf
  have hpatch := patched_loop st.buf
    ([OpCode.repeatInit.code] ++ emitU8 st.nextLoopId ++ emitU32 min ++ emitU32 max)
    (b.encode (st.buf.length + 14))
    ([OpCode.repeatStep.code] ++ emitU8 st.nextLoopId ++ emitU32 (st.buf.length + 14))
    (st.buf.length + 20 + b.size)
  rw [← hbuf] at hpatch
  replace hpatch : _ = st.buf ++ Blk.encode (.loop ⟨st.nextLoopId, min, max⟩ b) st.buf.length :=
    hpatch
  have hid : st.nextLoopId < maxLoops := by omega
  refine ⟨.loop ⟨st.nextLoopId, min, max⟩ b, ?_⟩
  rw [← hst']
  constructor
  · simpa only [hhead, hbody, hdone] using hpatch
  · have hsplits := hb.splits
    simp only [hbody] at hsplits
    simp [hsplits, Blk.splitAddrs]
  · exact hb.classes
  · exact ⟨le_rfl, hb.loops⟩
  · exact fun _ => hb.loops_le hid
  · exact fun hnames => ⟨⟨hid.trans (by decide), hmin, hmax⟩, hb.fits hnames⟩
  · intro classes hle hlt
    rw [Pat.map, hb.pat classes hle hlt]
    rfl

/-- An instruction without reference to classes, labels or its address. -/
theorem plain {bytes : Bytes} (l' : Leaf Nat) {l : Leaf (Option CcEntry)}
    (hbytes : ∀ a, bytes = l'.encode a) (hfits : l.NameFits → l'.Fits)
    (hpat : ∀ classes, l'.resolve classes = l) : Emits (emit bytes) (.leaf l) := by
  intro st st' hrun
  simp only [run_emit, CallResult.done.injEq, Prod.mk.injEq, true_and] at hrun
  subst hrun
  exact ⟨_, .leaf (by simp [hbytes st.buf.length]) rfl rfl (List.prefix_refl _) hfits
    fun classes _ _ => hpat classes⟩

theorem lit (text : Bytes) : Emits (emitLitBytes text) (.leaf (.lit text)) := by
  intro st st' hrun
  simp only [emitLitBytes, StateT.run_bind, run_cbPos, run_emit, CallResult.bind_eq_bind,
    CallResult.bind_done, CallResult.done.injEq, Prod.mk.injEq, true_and] at hrun
  subst hrun
  exact ⟨.leaf (.lit text), .leaf rfl rfl rfl (List.prefix_refl _) (fun _ => trivial)
    fun _ _ _ => rfl⟩

end Emits

/-- An interned class is found under its id. -/
theorem internClass_spec (classes : List CcEntry) (e : CcEntry) :
    classes <+: (internClass classes e).1 ∧ 0 < (internClass classes e).2 ∧
      (internClass classes e).2 ≤ (internClass classes e).1.length ∧
      (internClass classes e).1[(internClass classes e).2 - 1]? = some e := by
  unfold internClass
  cases hfind : classes.findIdx? (· = e) with
  | none => simp
  | some i =>
    obtain ⟨hlt, heq, -⟩ := List.findIdx?_eq_some_iff_getElem.mp hfind
    simp only [decide_eq_true_eq] at heq
    simp only [List.prefix_refl, Nat.zero_lt_succ, Nat.add_one_sub_one, true_and]
    exact ⟨hlt, by rw [List.getElem?_eq_getElem hlt, heq]⟩

/-- The class of an id that an extended class table has. -/
theorem classAt_of_initial {classes classes' : List CcEntry} {id : Nat} {e : CcEntry}
    (hpre : classes <+: classes') (hlt : classes'.length < 2 ^ 16) (hpos : 0 < id)
    (hle : id ≤ classes.length) (hget : classes[id - 1]? = some e) :
    classAt classes' (id % 2 ^ 16) = some e := by
  have hlen := hpre.length_le
  rw [Nat.mod_eq_of_lt (by omega), classAt, if_neg (by omega)]
  exact (List.prefix_iff_getElem?.mp hpre (id - 1) (by omega)).trans
    ((List.getElem?_eq_getElem (by omega)).symm.trans hget)

namespace Emits

/-- The instructions that name a class. -/
theorem class_op (cfg : CompilerConfig) (set : Bytes) {o : OpCode} (l' : Nat → Leaf Nat)
    {l : Leaf (Option CcEntry)} (hbytes : ∀ id a, [o.code] ++ emitU16 id = (l' id).encode a)
    (hfits : ∀ id, id < 2 ^ 16 → (l' id).Fits)
    (hpat : ∀ classes id, classAt classes id = some (charclassOf cfg set) →
      (l' id).resolve classes = l) : Emits (emitSetOp cfg o set) (.leaf l) := by
  intro st st' hrun
  obtain ⟨hpre, hpos, hle, hget⟩ := internClass_spec st.classes (charclassOf cfg set)
  simp only [emitSetOp, StateT.run_bind, run_addOrGetCharclass, CallResult.bind_eq_bind] at hrun
  split at hrun
  case isFalse => cases hrun
  simp only [run_emit, CallResult.bind_done, CallResult.done.injEq, Prod.mk.injEq, true_and] at hrun
  subst hrun
  refine ⟨.leaf (l' ((internClass st.classes (charclassOf cfg set)).2 % 2 ^ 16)), .leaf
    ?_ rfl rfl hpre (fun _ => hfits _ (Nat.mod_lt _ (by decide))) ?_⟩
  · simp only [← hbytes, emitU16_mod]
  · intro classes hle' hlt
    exact hpat classes _ (classAt_of_initial hle' hlt hpos hle hget)

theorem set_op (cfg : CompilerConfig) (set : Bytes) (op : SetOp) :
    Emits (emitSetOp cfg op.opcode set) (.leaf (.set op (some (charclassOf cfg set)))) :=
  class_op cfg set (Leaf.set op) (fun _ _ => rfl) (fun _ h => h) fun classes id h => by
    rw [Leaf.resolve, h]

theorem breakx (cfg : CompilerConfig) (set : Bytes) :
    Emits (emitSetOp cfg .breakx set) (.leaf (.breakx (some (charclassOf cfg set)))) :=
  class_op cfg set Leaf.breakx (fun _ _ => rfl) (fun _ h => h) fun classes id h => by
    rw [Leaf.resolve, h]

theorem any (cfg : CompilerConfig) (set : Bytes) :
    Emits (emitAnyC cfg set)
      (.leaf (.set .any (if set.length = 0 then none else some (charclassOf cfg set)))) := by
  unfold emitAnyC
  split
  · exact plain (.set .any 0) (fun _ => rfl) (fun _ => Nat.two_pow_pos 16) fun _ => rfl
  · exact set_op cfg set .any

theorem litCaseInsensitive (cfg : CompilerConfig) (text : Bytes) (fuel pos : Nat) :
    Emits (emitLitCaseInsensitiveC cfg text fuel pos) (litPat cfg text fuel pos) := by
  induction fuel generalizing pos with
  | zero => exact skip
  | succ fuel ih =>
    unfold emitLitCaseInsensitiveC litPat
    split
    · exact skip
    · cases utf8PeekNext text pos with
      | none => exact (lit _).seq (ih _)
      | some step => exact (set_op cfg _ .any).seq (ih _)

theorem count (op : CountOp) (n : Int32) :
    Emits (emitCountOp op.opcode n) (.leaf (.count op (bits n))) :=
  plain (.count op (bits n)) (fun _ => rfl) (fun _ => bits_lt n) fun _ => rfl

theorem op {o : OpCode} (l' : Leaf Nat) {l : Leaf (Option CcEntry)}
    (hbytes : ∀ a, [o.code] = l'.encode a) (hfits : l'.Fits)
    (hpat : ∀ classes, l'.resolve classes = l) : Emits (emitOp o) (.leaf l) :=
  plain l' hbytes (fun _ => hfits) hpat

theorem cap {m : Emit Unit} {t : SrcPat} (h : Emits m t) (reg : Nat) :
    Emits (emitCapC reg m) (capPat reg t) := by
  have hlt : reg % 2 ^ 8 < 2 ^ 8 := Nat.mod_lt _ (by decide)
  have hstart : Emits (emit ([OpCode.capStart.code] ++ emitU8 reg))
      (.leaf (.capStart (reg % 2 ^ 8))) :=
    plain (.capStart (reg % 2 ^ 8)) (fun _ => by rw [Leaf.encode, emitU8_mod]) (fun _ => hlt)
      fun _ => rfl
  have hend : Emits (emit ([OpCode.capEnd.code] ++ emitU8 reg))
      (.leaf (.capEnd (reg % 2 ^ 8))) :=
    plain (.capEnd (reg % 2 ^ 8)) (fun _ => by rw [Leaf.encode, emitU8_mod]) (fun _ => hlt)
      fun _ => rfl
  exact hstart.seq (h.seq hend)

theorem emitC (text : Option Bytes) (reg : Int32) :
    Emits (emitEmitC text reg) ((AstNode.emit text reg).pat cfg) := by
  cases text with
  | some text =>
    intro st st' hrun
    simp only [emitEmitC, StateT.run_bind, run_cbPos, run_emit, CallResult.bind_eq_bind,
      CallResult.bind_done, CallResult.done.injEq, Prod.mk.injEq, true_and] at hrun
    subst hrun
    exact ⟨.leaf (.emitLiteral text), .leaf rfl rfl rfl (List.prefix_refl _) (fun _ => trivial)
      fun _ _ _ => rfl⟩
  | none =>
    simp only [emitEmitC, AstNode.pat]
    split
    · exact plain (.emitCapture (bits reg % 2 ^ 8)) (fun _ => by rw [Leaf.encode, emitU8_mod])
        (fun _ => Nat.mod_lt _ (by decide)) fun _ => rfl
    · exact skip

theorem tableKey (key : AstNode) {m : Emit Unit} {t : SrcPat} (h : Emits m t) :
    Emits (emitTableKeyC key m) (tableKeyPat key t) := by
  cases key <;> first | exact skip | exact cap h 0

/-- A loop id may be left unused. -/
theorem newLoop {m : Emit Unit} {t : SrcPat} (h : Emits m t) :
    Emits (do let _ ← newLoopId; m) t := by
  intro st st' hrun
  simp only [StateT.run_bind, run_newLoopId, CallResult.bind_eq_bind] at hrun
  split at hrun
  · simp at hrun
  obtain ⟨b, hb⟩ := h _ _ hrun
  exact ⟨b, hb.buf, hb.splits, hb.classes, hb.loops.widen (Nat.le_succ _),
    fun _ => hb.loops_le (by simp only; omega), hb.fits, hb.pat⟩

theorem star {m : Emit Unit} {t : SrcPat} (h : Emits m t) : Emits (emitArbnoLoop m) (starPat t) :=
  h.loop (by decide) (by decide)

/-- The label table has no part in the code. -/
theorem getOrCreateLabel_spec {name : Bytes} {st st' : CompilerState} {idx : Nat}
    (h : (getOrCreateLabelC name).run st = .done (idx, st')) :
    ∃ labels, st' = { st with labels } := by
  simp only [getOrCreateLabelC, StateT.run_bind, StateT.run_get, CallResult.pure_def,
    CallResult.bind_eq_bind, CallResult.bind_done] at h
  split at h
  · cases h
    exact ⟨_, rfl⟩
  · split at h
    · cases h
    · cases h
      exact ⟨_, rfl⟩

theorem labelOp (name : Bytes) {m : Emit Unit} {t : SrcPat} (h : Emits m t) :
    Emits (emitLabel name m) (.seq (.leaf (.label 0)) t) := by
  intro st st' hrun
  simp only [emitLabel, StateT.run_bind, StateT.run_get, CallResult.pure_def, CallResult.bind_eq_bind,
    CallResult.bind_done] at hrun
  split at hrun
  · simp [CallResult.bind_eq_bind] at hrun
  simp only [StateT.run_bind, CallResult.pure_def, CallResult.bind_done, run_emit,
    StateT.run_modify, CallResult.bind_eq_bind, CallResult.bind_eq_done_iff] at hrun
  obtain ⟨⟨idx, st₁⟩, hidx, hbody⟩ := hrun
  obtain ⟨labels, rfl⟩ := getOrCreateLabel_spec hidx
  obtain ⟨b, hb⟩ := h _ _ hbody
  exact ⟨_, Emitted.seq
    (.named .label rfl (fun _ _ => rfl) (fun _ h => h) fun _ _ => rfl) hb⟩

theorem gotoOp (name : Bytes) : Emits (emitGoto name) (.leaf (.goto 0)) := by
  intro st st' hrun
  simp only [emitGoto, StateT.run_bind, run_emit, StateT.run_modify, CallResult.pure_def,
    CallResult.bind_eq_bind, CallResult.bind_done, CallResult.bind_eq_done_iff, CallResult.done.injEq,
    Prod.mk.injEq, true_and] at hrun
  obtain ⟨⟨idx, st₁⟩, hidx, hst'⟩ := hrun
  obtain ⟨labels, rfl⟩ := getOrCreateLabel_spec hidx
  exact ⟨_, .named .goto hst'.symm (fun _ _ => rfl) (fun _ h => h) fun _ _ => rfl⟩

theorem tableGet (key : Nat) (table : Bytes) :
    Emits (emitTableOp .tableGet key 0 table) (.leaf (.tableGet (key % 2 ^ 8) 0 table)) :=
  plain (.tableGet (key % 2 ^ 8) 0 table)
    (fun _ => by rw [Leaf.encode, emitU8_mod]; rfl)
    (fun hname => ⟨Nat.mod_lt _ (by decide), Nat.two_pow_pos 8, hname⟩) fun _ => rfl

theorem tableSet (key : Nat) (table : Bytes) :
    Emits (emitTableOp .tableSet key 1 table) (.leaf (.tableSet (key % 2 ^ 8) 1 table)) :=
  plain (.tableSet (key % 2 ^ 8) 1 table)
    (fun _ => by rw [Leaf.encode, emitU8_mod]; rfl)
    (fun hname => ⟨Nat.mod_lt _ (by decide), by decide, hname⟩) fun _ => rfl

end Emits

/-! ## The emitted tree of a syntax tree -/

mutual

/-- `emit_node_c` lays out the pattern of the node. -/
theorem emitNodeC_emits (cfg : CompilerConfig) :
    ∀ ast : AstNode, Emits (emitNodeC cfg ast) (ast.pat cfg)
  | .literal text => by
    unfold emitNodeC AstNode.pat
    split
    · exact .litCaseInsensitive cfg text _ _
    · exact .lit text
  | .concat parts => emitPartsC_emits cfg parts
  | .alt left right => .alt (emitNodeC_emits cfg left) (emitNodeC_emits cfg right)
  | .repetition sub min max => by
    have hsub := emitNodeC_emits cfg sub
    unfold emitNodeC AstNode.pat
    split
    · exact .newLoop (emitRepeatStarC_emits cfg hsub sub)
    · exact .loop hsub (bits_lt min) (bits_lt max)
  | .span set => .set_op cfg set .span
  | .break set => .set_op cfg set .break
  | .any set => .any cfg set
  | .notany set => .set_op cfg set .notany
  | .arbno sub => emitArbnoC_emits cfg (emitNodeC_emits cfg sub) sub
  | .cap reg sub => .cap (emitNodeC_emits cfg sub) (bits reg)
  | .assign var reg =>
    .plain (.assign (bits var % 2 ^ 16) (bits reg % 2 ^ 8))
      (fun _ => by rw [Leaf.encode, emitU8_mod, emitU16_mod])
      (fun _ => ⟨Nat.mod_lt _ (by decide), Nat.mod_lt _ (by decide)⟩) fun _ => rfl
  | .len n => .count .len n
  | .eval fn reg =>
    .plain (.eval (bits fn % 2 ^ 16) (bits reg % 2 ^ 8))
      (fun _ => by rw [Leaf.encode, emitU8_mod, emitU16_mod])
      (fun _ => ⟨Nat.mod_lt _ (by decide), Nat.mod_lt _ (by decide)⟩) fun _ => rfl
  | .dynamicEval expr => emitNodeC_emits cfg expr
  | .anchor .anchorStart => .plain (.anchor 0) (fun _ => rfl) (fun _ => Nat.two_pow_pos 8) fun _ => rfl
  | .anchor .anchorEnd =>
    .plain (.anchor 1) (fun _ => rfl) (fun _ => show 1 < 2 ^ 8 by decide) fun _ => rfl
  | .emit (some text) reg => .emitC (some text) reg
  | .emit none reg => .emitC none reg
  | .breakx set => .breakx cfg set
  | .bal openCp closeCp =>
    .plain (.bal openCp.toNat closeCp.toNat) (fun _ => rfl)
      (fun _ => ⟨openCp.toNat_lt, closeCp.toNat_lt⟩) fun _ => rfl
  | .fence => .op .fence (fun _ => rfl) trivial fun _ => rfl
  | .rem => .op .rem (fun _ => rfl) trivial fun _ => rfl
  | .rpos n => .count .rpos n
  | .rtab n => .count .rtab n
  | .pos n => .count .pos n
  | .tab n => .count .tab n
  | .abort => .op .abort (fun _ => rfl) trivial fun _ => rfl
  | .fail => .op .fail (fun _ => rfl) trivial fun _ => rfl
  | .succeed => .op .succeed (fun _ => rfl) trivial fun _ => rfl
  | .label name target => .labelOp name (emitNodeC_emits cfg target)
  | .goto name => .gotoOp name
  | .tableAccess table key =>
    .seq (.tableKey key (emitNodeC_emits cfg key)) (.tableGet _ table)
  | .tableUpdate table key value =>
    .seq (.tableKey key (emitNodeC_emits cfg key))
      (.seq (.cap (emitNodeC_emits cfg value) 1) (.tableSet _ table))
  | .regRef reg => by
    intro st st' hrun
    simp [emitNodeC] at hrun

theorem emitPartsC_emits (cfg : CompilerConfig) :
    ∀ parts : List AstNode, Emits (emitPartsC cfg parts) (AstNode.patParts cfg parts)
  | [] => .skip
  | part :: parts => .seq (emitNodeC_emits cfg part) (emitPartsC_emits cfg parts)

theorem emitArbnoC_emits (cfg : CompilerConfig) {m : Emit Unit} {t : SrcPat} (h : Emits m t)
    (sub : AstNode) : Emits (emitArbnoC cfg sub m) (AstNode.patArbno cfg sub t) := by
  cases sub with
  | arbno sub => exact emitArbnoC_emits cfg (emitNodeC_emits cfg sub) sub
  | repetition sub min max =>
    simp only [emitArbnoC, AstNode.patArbno]
    split
    · exact emitStarC_emits cfg (emitNodeC_emits cfg sub) sub
    · exact .star h
  | _ => exact .star h

theorem emitStarC_emits (cfg : CompilerConfig) {m : Emit Unit} {t : SrcPat} (h : Emits m t)
    (sub : AstNode) : Emits (emitStarC cfg sub m) (AstNode.patStar cfg sub t) := by
  cases sub with
  | repetition sub min max =>
    simp only [emitStarC, AstNode.patStar]
    split
    · exact emitStarC_emits cfg (emitNodeC_emits cfg sub) sub
    · exact .star h
  | _ => exact .star h

theorem emitRepeatStarC_emits (cfg : CompilerConfig) {m : Emit Unit} {t : SrcPat}
    (h : Emits m t) (sub : AstNode) :
    Emits (emitRepeatStarC cfg sub m) (AstNode.patRepeatStar cfg sub t) := by
  cases sub with
  | arbno sub => exact emitArbnoC_emits cfg (emitNodeC_emits cfg sub) sub
  | repetition sub min max =>
    simp only [emitRepeatStarC, AstNode.patRepeatStar]
    split
    · exact emitRepeatStarC_emits cfg (emitNodeC_emits cfg sub) sub
    · exact .star h
  | _ => exact .star h

end

/-- Without an eligible `OP_SPLIT` nothing is fused. -/
theorem fuseSplitAny_of_none {st : FuseState} (h : ∀ pos, eligibleArms st.bc pos = none) :
    fuseSplitAny st = st ∧ ∀ n, unionsFitBelow n st = true := by
  have hat : ∀ pos, fuseAt pos st = st := by
    intro pos
    rw [fuseAt, h pos]
  have hbelow : ∀ n, fuseBelow n st = st ∧ unionsFitBelow n st = true := by
    intro n
    induction n with
    | zero => exact ⟨rfl, rfl⟩
    | succ n ih =>
      refine ⟨by rw [fuseBelow, hat, ih.1], ?_⟩
      rw [unionsFitBelow, hat, ih.2, unionFits, h n]
      rfl
  exact ⟨(hbelow _).1, fun n => (hbelow n).2⟩

/-- Without `OP_SPLIT` bytes none is eligible. -/
theorem eligibleArms_of_no_split {bc : Bytes} (h : OpCode.split.code ∉ bc) (pos : Nat) :
    eligibleArms bc pos = none := by
  have hne : bc[pos]? ≠ some OpCode.split.code := fun hget => h (List.mem_of_getElem? hget)
  unfold eligibleArms
  rw [if_pos (.inl hne)]
  rfl

theorem emitProgram_eq_some_iff {cfg : CompilerConfig} {ast : AstNode} {st : CompilerState} :
    emitProgram cfg ast = some st ↔
      ∃ st₀, (emitNodeC cfg ast).run .init = .done ((), st₀) ∧
        (st₀.labels.any fun l => l.referenced && !l.defined) = false ∧
        st = { st₀ with buf := st₀.buf ++ [OpCode.accept.code] } := by
  rw [emitProgram, CallResult.toOption_eq_some_iff, emitOutcome, CallResult.bind_eq_bind,
    CallResult.bind_eq_done_iff]
  constructor
  · rintro ⟨⟨⟨⟩, st₀⟩, hrun, h⟩
    dsimp only at h
    split at h
    · cases h
    · rename_i hall
      cases h
      exact ⟨st₀, hrun, Bool.not_eq_true _ ▸ hall, rfl⟩
  · rintro ⟨st₀, hrun, hall, rfl⟩
    refine ⟨((), st₀), hrun, ?_⟩
    dsimp only
    rw [hall, if_neg Bool.false_ne_true]

theorem compileAstToBytecodeC_eq_some_iff {cfg : CompilerConfig} {ast : AstNode} {bc : Bytes} :
    compileAstToBytecodeC cfg ast = some bc ↔
      ∃ st, emitProgram cfg ast = some st ∧
        unionsFitBelow st.buf.length ⟨st.buf, st.classes⟩ = true ∧
        bc = (fuseSplitAny ⟨st.buf, st.classes⟩).bc ++
          trailer (fuseSplitAny ⟨st.buf, st.classes⟩).bc.length
            (fuseSplitAny ⟨st.buf, st.classes⟩).classes st.labels := by
  rw [compileAstToBytecodeC, CallResult.toOption_eq_some_iff, compileOutcome, CallResult.bind_eq_bind,
    CallResult.bind_eq_done_iff]
  simp only [emitProgram, CallResult.toOption_eq_some_iff]
  refine exists_congr fun st => and_congr_right fun _ => ?_
  split
  · rename_i hfit
    simp [hfit, eq_comm]
  · rename_i hfit
    simp [hfit]

/-- The bytecode of an emitted program. -/
theorem compileAstToBytecodeC_bytes {cfg : CompilerConfig} {ast : AstNode} {st : CompilerState}
    {bc : Bytes} (hst : emitProgram cfg ast = some st)
    (hbc : compileAstToBytecodeC cfg ast = some bc) :
    bc = (fuseSplitAny ⟨st.buf, st.classes⟩).bc ++
      trailer (fuseSplitAny ⟨st.buf, st.classes⟩).bc.length
        (fuseSplitAny ⟨st.buf, st.classes⟩).classes st.labels := by
  obtain ⟨st', hst', -, rfl⟩ := compileAstToBytecodeC_eq_some_iff.mp hbc
  obtain rfl : st = st' := Option.some.inj (hst.symm.trans hst')
  rfl

/-- Where no `OP_SPLIT` is eligible, nothing is fused. -/
theorem compileAstToBytecodeC_unfused {cfg : CompilerConfig} {ast : AstNode} {st : CompilerState}
    (hst : emitProgram cfg ast = some st) (h : ∀ pos, eligibleArms st.buf pos = none) :
    compileAstToBytecodeC cfg ast =
      some (st.buf ++ trailer st.buf.length st.classes st.labels) := by
  obtain ⟨hfused, hfit⟩ := @fuseSplitAny_of_none ⟨st.buf, st.classes⟩ h
  refine compileAstToBytecodeC_eq_some_iff.mpr ⟨st, hst, hfit _, ?_⟩
  rw [hfused]

/-- The code of a program before the fusion pass: the pattern and `OP_ACCEPT`. -/
theorem emitProgram_layout {cfg : CompilerConfig} {ast : AstNode} {st : CompilerState}
    (h : emitProgram cfg ast = some st) :
    ∃ (b : Blk) (st₀ : CompilerState), Emitted .init st₀ b (ast.pat cfg) ∧
      st = { st₀ with buf := b.encode 0 ++ [OpCode.accept.code] } := by
  obtain ⟨st₀, hrun, -, rfl⟩ := emitProgram_eq_some_iff.mp h
  obtain ⟨b, hb⟩ := emitNodeC_emits cfg ast _ _ hrun
  have hbuf : st₀.buf = b.encode 0 := by simpa [CompilerState.init] using hb.buf
  refine ⟨b, st₀, hb, ?_⟩
  rw [hbuf]

end Snobol4
