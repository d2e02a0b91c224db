import Snobol4.CompilerLayout

/-!
# Fusion — the peephole pass on structured code

`snobol_bc_fuse_split_any` tests every byte position for an `OP_SPLIT` between two
single characters, not only the positions where an instruction starts.  Where it
rewrites emitted `OP_SPLIT`s only, the code stays structured: an alternative of two
characters becomes one `OP_ANY` and `OP_NOP`s of the same size.
-/

namespace Snobol4

/-- The positions that `fuseBelow` takes for an eligible `OP_SPLIT`. -/
def fusedPositions : Nat → FuseState → List Nat
  | 0, _ => []
  | pos + 1, st =>
      if (eligibleArms st.bc pos).isSome then pos :: fusedPositions pos (fuseAt pos st)
      else fusedPositions pos (fuseAt pos st)

/-- The pass rewrites emitted `OP_SPLIT`s only. -/
def CompilerState.FusesSplits (st : CompilerState) : Prop :=
  ∀ pos ∈ fusedPositions st.buf.length ⟨st.buf, st.classes⟩, pos ∈ st.splits

instance (st : CompilerState) : Decidable st.FusesSplits :=
  inferInstanceAs (Decidable (∀ pos ∈ _, pos ∈ _))

theorem lt_of_mem_fusedPositions {pos s : Nat} {st : FuseState}
    (h : s ∈ fusedPositions pos st) : s < pos := by
  induction pos generalizing st with
  | zero => simp [fusedPositions] at h
  | succ pos ih =>
    rw [fusedPositions] at h
    split at h
    · obtain rfl | h := List.mem_cons.mp h
      · exact Nat.lt_succ_self _
      · exact (ih h).trans (Nat.lt_succ_self _)
    · exact (ih h).trans (Nat.lt_succ_self _)

/-! ## The bytes of structured code -/

namespace Blk

/-- Structured code is empty, or starts with a leaf, or with `OP_SPLIT` or
`OP_REPEAT_INIT`. -/
theorem encode_head (b : Blk) (a : Nat) :
    (size b = 0 ∧ encode b a = []) ∨
    (∃ (l : Leaf Nat) (q : Blk), encode b a = l.encode a ++ encode q (a + l.size) ∧
      size b = l.size + size q) ∨
    (∃ rest, encode b a = OpCode.split.code :: rest ∨
      encode b a = OpCode.repeatInit.code :: rest) := by
  induction b generalizing a with
  | skip => exact .inl ⟨rfl, rfl⟩
  | leaf l => exact .inr (.inl ⟨l, .skip, by simp [encode], rfl⟩)
  | seq p q ihp ihq =>
    obtain ⟨hsize, hp⟩ | ⟨l, p', hp, hsize⟩ | ⟨rest, hp⟩ := ihp a
    · simpa [encode, size, hp, hsize] using ihq a
    · refine .inr (.inl ⟨l, .seq p' q, ?_, ?_⟩)
      · simp [encode, hp, hsize, Nat.add_assoc]
      · simp [size, hsize, Nat.add_assoc]
    · refine .inr (.inr ⟨rest ++ encode q (a + size p), ?_⟩)
      obtain hp | hp := hp <;> simp [encode, hp]
  | alt p q ihp ihq =>
    simp only [encode, List.append_assoc, List.cons_append]
    exact .inr (.inr ⟨_, .inl rfl⟩)
  | loop k body ih =>
    simp only [encode, List.append_assoc, List.cons_append]
    exact .inr (.inr ⟨_, .inr rfl⟩)

/-- Behind its leading `OP_NOP`s structured code does not start with `OP_JMP`. -/
theorem encode_dropWhile_nop (b : Blk) (a : Nat) :
    ((encode b a).dropWhile (· = OpCode.nop.code)).head? ≠ some OpCode.jmp.code := by
  induction b generalizing a with
  | skip => simp [encode]
  | leaf l =>
    cases l with
    | set op id => cases op <;> simp [encode, Leaf.encode, SetOp.opcode]
    | count op n => cases op <;> simp [encode, Leaf.encode, CountOp.opcode]
    | _ => simp [encode, Leaf.encode]
  | seq p q ihp ihq =>
    rw [encode, List.dropWhile_append]
    split
    · exact ihq _
    · rename_i hne
      rw [List.isEmpty_iff] at hne
      rw [List.head?_append_of_ne_nil _ hne]
      exact ihp a
  | alt p q ihp ihq => simp [encode]
  | loop k body ih => simp [encode]

/-- Where the `OP_NOP`s of structured code are followed by an `OP_JMP`, it is all
`OP_NOP`s, and the `OP_JMP` is the one behind it. -/
theorem skipNops_eq {bc rest : Bytes} {q : Blk} {a : Nat}
    (h : bc.drop a = encode q a ++ OpCode.jmp.code :: rest)
    (hjmp : bc[skipNops bc a]? = some OpCode.jmp.code) : skipNops bc a = a + size q := by
  rw [skipNops, getElem?_spanBytes, h, List.dropWhile_append] at hjmp
  rw [skipNops, spanBytes, h, List.takeWhile_append]
  have hnop : (fun b => decide (b = OpCode.nop.code)) OpCode.jmp.code = false := by simp
  split at hjmp
  · -- the code is all `OP_NOP`s
    rename_i hempty
    have hall := List.takeWhile_append_dropWhile (p := (· = OpCode.nop.code)) (l := encode q a)
    rw [List.isEmpty_iff.mp hempty, List.append_nil] at hall
    simp [hall]
  · rename_i hne
    rw [List.isEmpty_iff] at hne
    rw [List.head?_append_of_ne_nil _ hne] at hjmp
    exact absurd hjmp (encode_dropWhile_nop q a)

/-! ## The arms of an alternative -/

/-- A single-character instruction is a leaf of structured code. -/
theorem parseSingle_eq {bc rest : Bytes} {p : Blk} {a after : Nat} {mk : Nat → Arm}
    (h : bc.drop a = encode p a ++ OpCode.jmp.code :: rest) (hshort : size p < 2 ^ 32)
    (hparse : parseSingle bc a = some (mk, after)) :
    (∃ q, bc.drop after = encode q after ++ OpCode.jmp.code :: rest ∧
      a + size p = after + size q) ∧ ∀ m, (mk m).merge = m := by
  have hhead : bc[a]? = (bc.drop a).head? := by rw [List.head?_drop]
  unfold parseSingle at hparse
  obtain ⟨hsize, hp⟩ | ⟨l, q, hp, hsize⟩ | ⟨xs, hp⟩ := encode_head p a
  · simp [hhead, h, hp] at hparse
  · have hafter : bc.drop (a + l.size) =
        encode q (a + l.size) ++ OpCode.jmp.code :: rest := by
      rw [← List.drop_drop, h, hp, List.append_assoc, ← Leaf.length_encode l a, List.drop_left]
    have hq : a + size p = a + l.size + size q := by omega
    cases l with
    | lit text =>
      have hlen : (readU32 bc (a + 5)).1 = text.length := by
        have hpre : (Leaf.lit text).encode a <+: bc.drop a := by
          rw [h, hp, List.append_assoc]
          exact List.prefix_append _ _
        rw [Leaf.encode_lit] at hpre
        have hops := prefix_right (fetch_of_initial hpre).2 (n := a + 5) (by simp)
        rw [readU32_of_initial (prefix_left hops) (by simp only [Leaf.size] at hsize; omega)]
      simp only [hhead, h, hp, Leaf.encode, List.append_assoc, List.cons_append, List.head?_cons,
        if_true, hlen, Option.ite_none_right_eq_some, Option.map_eq_some_iff, Prod.mk.injEq] at hparse
      obtain ⟨hone, c, -, rfl, rfl⟩ := hparse
      simp only [Leaf.size, hone] at hafter hq
      exact ⟨⟨q, hafter, hq⟩, fun _ => rfl⟩
    | set op id =>
      cases op with
      | any =>
        simp [hhead, h, hp, Leaf.encode, SetOp.opcode] at hparse
        obtain ⟨-, rfl, rfl⟩ := hparse
        exact ⟨⟨q, hafter, hq⟩, fun _ => rfl⟩
      | _ => simp [hhead, h, hp, Leaf.encode, SetOp.opcode] at hparse
    | count op n => cases op <;> simp [hhead, h, hp, Leaf.encode, CountOp.opcode] at hparse
    | _ => simp [hhead, h, hp, Leaf.encode] at hparse
  · obtain hp | hp := hp <;> simp [hhead, h, hp] at hparse

/-- The left arm of an alternative merges at the target of the `OP_JMP` behind it. -/
theorem parseArmA_merge {bc rest : Bytes} {p : Blk} {a : Nat} {arm : Arm}
    (h : bc.drop a = encode p a ++ OpCode.jmp.code :: rest) (hshort : size p < 2 ^ 32)
    (hparse : parseArmA bc a = some arm) :
    arm.merge = (readU32 bc (a + size p + 1)).1 := by
  simp only [parseArmA, Option.bind_eq_bind, Option.bind_eq_some_iff,
    Option.ite_none_right_eq_some, Option.some.injEq] at hparse
  obtain ⟨⟨mk, after⟩, hsingle, ⟨-, hjmp⟩, rfl⟩ := hparse
  obtain ⟨⟨q, hafter, hsize⟩, hmk⟩ := parseSingle_eq h hshort hsingle
  rw [hmk, skipNops_eq hafter hjmp, hsize]

/-- The arms of an emitted `OP_SPLIT` merge at the end of the alternative. -/
theorem eligibleArms_merge {bc : Bytes} {p q : Blk} {pos : Nat} {armA armB : Arm}
    (h : Code bc (.alt p q) pos) (heligible : eligibleArms bc pos = some (armA, armB)) :
    armA.merge = pos + size (.alt p q) := by
  obtain ⟨hbytes, hshort, -⟩ := h
  simp only [size] at hshort
  simp only [encode, List.append_assoc] at hbytes
  obtain ⟨-, hops⟩ := fetch_of_initial hbytes
  have hleft := readU32_of_initial (prefix_left hops) (by omega)
  have hp := prefix_right (prefix_right hops (n := pos + 5) (by simp)) (n := pos + 9) (by simp)
  have hjmp := prefix_right hp (n := pos + 9 + size p) (by simp)
  have htarget := readU32_of_initial
    (prefix_left (prefix_right hjmp (n := pos + 9 + size p + 1) (by simp))) (by omega)
  obtain ⟨rest, hdrop⟩ := hp
  simp only [eligibleArms, hleft, Option.bind_eq_bind] at heligible
  split at heligible
  · simp at heligible
  split at heligible
  · simp at heligible
  simp only [Option.bind_eq_some_iff, Option.ite_none_right_eq_some, Option.some.injEq,
    Prod.mk.injEq] at heligible
  obtain ⟨armA', hA, armB', hB, hmerge, rfl, rfl⟩ := heligible
  rw [parseArmA_merge (by simpa using hdrop.symm) (by omega) hA, htarget, size]
  omega

/-! ## Fusing one alternative -/

/-- `k` bytes of `OP_NOP`. -/
def nops : Nat → Blk
  | 0 => .skip
  | k + 1 => .seq (.leaf .nop) (nops k)

@[simp] theorem size_nops (k : Nat) : size (nops k) = k := by
  induction k with
  | zero => rfl
  | succ k ih =>
    rw [nops, size, ih]
    exact Nat.add_comm 1 k

@[simp] theorem encode_nops (k a : Nat) :
    encode (nops k) a = List.replicate k OpCode.nop.code := by
  induction k generalizing a with
  | zero => rfl
  | succ k ih => simp [nops, encode, Leaf.encode, ih, List.replicate_succ]

theorem loopIds_nops (k lo : Nat) : LoopIds (nops k) lo lo := by
  induction k with
  | zero => exact le_rfl
  | succ k ih => exact ⟨lo, le_rfl, ih⟩

theorem fits_nops (k : Nat) : Fits (nops k) := by
  induction k with
  | zero => trivial
  | succ k ih => exact ⟨trivial, ih⟩

theorem all_nops {P : Leaf Nat → Prop} (k : Nat) (h : P .nop) : (nops k).All P := by
  induction k with
  | zero => trivial
  | succ k ih => exact ⟨h, ih⟩

/-- Every leaf satisfies `P` at its address. -/
def AllAt (P : Nat → Leaf Nat → Prop) : Blk → Nat → Prop
  | .skip, _ => True
  | .leaf l, a => P a l
  | .seq p q, a => AllAt P p a ∧ AllAt P q (a + size p)
  | .alt p q, a => AllAt P p (a + 9) ∧ AllAt P q (a + 14 + size p)
  | .loop _ body, a => AllAt P body (a + 14)

theorem allAt_nops {P : Nat → Leaf Nat → Prop} (k a : Nat) (h : ∀ c, P c .nop) :
    (nops k).AllAt P a := by
  induction k generalizing a with
  | zero => trivial
  | succ k ih => exact ⟨h a, ih _⟩

theorem le_of_mem_splitAddrs {b : Blk} {a s : Nat} (h : s ∈ splitAddrs b a) : a ≤ s := by
  induction b generalizing a with
  | skip => simp [splitAddrs] at h
  | leaf l => simp [splitAddrs] at h
  | seq p q ihp ihq =>
    obtain h | h := List.mem_append.mp h
    · exact ihp h
    · have := ihq h
      omega
  | alt p q ihp ihq =>
    simp only [splitAddrs, List.mem_cons, List.mem_append] at h
    obtain rfl | h | h := h
    · exact le_rfl
    · have := ihp h
      omega
    · have := ihq h
      omega
  | loop k body ih =>
    have := ih h
    omega

/-- `OP_ANY` and `OP_NOP`s in the place of code of `n` bytes. -/
def anyNops (id n : Nat) : Blk := .seq (.leaf (.set .any id)) (nops (n - 3))

/-- `b'` is `b` with some alternatives replaced by `OP_ANY` and `OP_NOP`s. -/
structure Fused (b b' : Blk) : Prop where
  size : b'.size = b.size
  loops : ∀ lo hi, b.LoopIds lo hi → b'.LoopIds lo hi
  fits : b.Fits → b'.Fits
  all : ∀ P : Leaf Nat → Prop, P .nop → (∀ id, P (.set .any id)) → b.All P → b'.All P
  allAt : ∀ (P : Nat → Leaf Nat → Prop) a, (∀ c, P c .nop) → (∀ c id, P c (.set .any id)) →
    b.AllAt P a → b'.AllAt P a

namespace Fused

theorem refl (b : Blk) : Fused b b :=
  ⟨rfl, fun _ _ h => h, fun h => h, fun _ _ _ h => h, fun _ _ _ _ h => h⟩

theorem trans {b b' b'' : Blk} (h : Fused b b') (h' : Fused b' b'') : Fused b b'' where
  size := h'.size.trans h.size
  loops lo hi hb := h'.loops lo hi (h.loops lo hi hb)
  fits hb := h'.fits (h.fits hb)
  all P hnop hany hb := h'.all P hnop hany (h.all P hnop hany hb)
  allAt P a hnop hany hb := h'.allAt P a hnop hany (h.allAt P a hnop hany hb)

theorem seq {p p' q q' : Blk} (hp : Fused p p') (hq : Fused q q') :
    Fused (.seq p q) (.seq p' q') where
  size := congrArg₂ (· + ·) hp.size hq.size
  loops _ _ := fun ⟨mid, h, h'⟩ => ⟨mid, hp.loops _ _ h, hq.loops _ _ h'⟩
  fits hb := ⟨hp.fits hb.1, hq.fits hb.2⟩
  all P hnop hany hb := ⟨hp.all P hnop hany hb.1, hq.all P hnop hany hb.2⟩
  allAt P a hnop hany hb := by
    refine ⟨hp.allAt P a hnop hany hb.1, ?_⟩
    rw [hp.size]
    exact hq.allAt P _ hnop hany hb.2

theorem alt {p p' q q' : Blk} (hp : Fused p p') (hq : Fused q q') :
    Fused (.alt p q) (.alt p' q') where
  size := by simp only [Blk.size, hp.size, hq.size]
  loops _ _ := fun ⟨mid, h, h'⟩ => ⟨mid, hp.loops _ _ h, hq.loops _ _ h'⟩
  fits hb := ⟨hp.fits hb.1, hq.fits hb.2⟩
  all P hnop hany hb := ⟨hp.all P hnop hany hb.1, hq.all P hnop hany hb.2⟩
  allAt P a hnop hany hb := by
    refine ⟨hp.allAt P _ hnop hany hb.1, ?_⟩
    rw [hp.size]
    exact hq.allAt P _ hnop hany hb.2

theorem loop {k : LoopSpec} {body body' : Blk} (h : Fused body body') :
    Fused (.loop k body) (.loop k body') where
  size := by simp only [Blk.size, h.size]
  loops lo hi hb := ⟨hb.1, h.loops _ _ hb.2⟩
  fits hb := ⟨hb.1, h.fits hb.2⟩
  all P hnop hany hb := h.all P hnop hany hb
  allAt P _ hnop hany hb := h.allAt P _ hnop hany hb

/-- One alternative. -/
theorem anyNops {p q : Blk} {id : Nat} (hid : id < 2 ^ 16) :
    Fused (.alt p q) (anyNops id (Blk.size (.alt p q))) where
  size := by
    simp only [Blk.anyNops, Blk.size, Leaf.size, size_nops]
    omega
  loops lo hi h := ⟨hi, h.le, loopIds_nops _ hi⟩
  fits _ := ⟨hid, fits_nops _⟩
  all P hnop hany _ := ⟨hany id, all_nops _ hnop⟩
  allAt P a hnop hany _ := ⟨hany a id, allAt_nops _ _ hnop⟩

end Fused

/-- An `OP_SPLIT` of the code can be replaced together with its arms. -/
theorem replace_split {b : Blk} {a pos : Nat} (h : pos ∈ splitAddrs b a) :
    ∃ (pre post : Bytes) (p q : Blk), pos = a + pre.length ∧
      encode b a = pre ++ encode (.alt p q) pos ++ post ∧
      (b.Fits → Fits (.alt p q)) ∧ ∀ id < 2 ^ 16, ∃ b', Fused b b' ∧
        encode b' a = pre ++ encode (anyNops id (size (.alt p q))) pos ++ post ∧
        ∀ s < pos, s ∈ splitAddrs b a → s ∈ splitAddrs b' a := by
  induction b generalizing a with
  | skip => simp [splitAddrs] at h
  | leaf l => simp [splitAddrs] at h
  | seq p q ihp ihq =>
    -- sizes agree, so what stands behind keeps its place
    obtain h | h := List.mem_append.mp h
    · obtain ⟨pre, post, p₀, q₀, hpos, henc, hfits, hfuse⟩ := ihp h
      refine ⟨pre, post ++ encode q (a + size p), p₀, q₀, hpos, ?_, fun hb => hfits hb.1, ?_⟩
      · simp [encode, henc]
      · intro id hid
        obtain ⟨p', hp', henc', hsplits⟩ := hfuse id hid
        refine ⟨.seq p' q, hp'.seq (.refl q), ?_, ?_⟩
        · simp [encode, henc', hp'.size]
        · intro s hs hmem
          simp only [splitAddrs, List.mem_append, hp'.size] at hmem ⊢
          exact hmem.imp_left (hsplits s hs)
    · obtain ⟨pre, post, p₀, q₀, hpos, henc, hfits, hfuse⟩ := ihq h
      refine ⟨encode p a ++ pre, post, p₀, q₀, ?_, ?_, fun hb => hfits hb.2, ?_⟩
      · simp [hpos, Nat.add_assoc]
      · simp [encode, henc]
      · intro id hid
        obtain ⟨q', hq', henc', hsplits⟩ := hfuse id hid
        refine ⟨.seq p q', .seq (.refl p) hq', ?_, ?_⟩
        · simp [encode, henc']
        · intro s hs hmem
          simp only [splitAddrs, List.mem_append] at hmem ⊢
          exact hmem.imp_right (hsplits s hs)
  | alt p q ihp ihq =>
    simp only [splitAddrs, List.mem_cons, List.mem_append] at h
    obtain rfl | h | h := h
    -- the alternative itself: every earlier split is outside it
    · refine ⟨[], [], p, q, rfl, by simp, fun hb => hb, ?_⟩
      intro id hid
      refine ⟨_, .anyNops hid, by simp, ?_⟩
      intro s hs hmem
      exact absurd (le_of_mem_splitAddrs hmem) (by omega)
    · obtain ⟨pre, post, p₀, q₀, hpos, henc, hfits, hfuse⟩ := ihp h
      refine ⟨[OpCode.split.code] ++ emitU32 (a + 9) ++ emitU32 (a + 14 + size p) ++ pre,
        post ++ ([OpCode.jmp.code] ++ emitU32 (a + 14 + size p + size q)) ++
          encode q (a + 14 + size p), p₀, q₀, ?_, ?_, fun hb => hfits hb.1, ?_⟩
      · simp [hpos]
        omega
      · simp [encode, henc]
      · intro id hid
        obtain ⟨p', hp', henc', hsplits⟩ := hfuse id hid
        refine ⟨.alt p' q, hp'.alt (.refl q), ?_, ?_⟩
        · simp [encode, henc', hp'.size]
        · intro s hs hmem
          simp only [splitAddrs, List.mem_cons, List.mem_append, hp'.size] at hmem ⊢
          exact hmem.imp_right (Or.imp_left (hsplits s hs))
    · obtain ⟨pre, post, p₀, q₀, hpos, henc, hfits, hfuse⟩ := ihq h
      refine ⟨[OpCode.split.code] ++ emitU32 (a + 9) ++ emitU32 (a + 14 + size p) ++
        encode p (a + 9) ++ ([OpCode.jmp.code] ++ emitU32 (a + 14 + size p + size q)) ++ pre,
        post, p₀, q₀, ?_, ?_, fun hb => hfits hb.2, ?_⟩
      · simp [hpos]
        omega
      · simp [encode, henc]
      · intro id hid
        obtain ⟨q', hq', henc', hsplits⟩ := hfuse id hid
        refine ⟨.alt p q', .alt (.refl p) hq', ?_, ?_⟩
        · simp [encode, henc', hq'.size]
        · intro s hs hmem
          simp only [splitAddrs, List.mem_cons, List.mem_append] at hmem ⊢
          exact hmem.imp_right (Or.imp_right (hsplits s hs))
  | loop k body ih =>
    obtain ⟨pre, post, p₀, q₀, hpos, henc, hfits, hfuse⟩ := ih h
    refine ⟨[OpCode.repeatInit.code] ++ emitU8 k.id ++ emitU32 k.min ++ emitU32 k.max ++
        emitU32 (a + 20 + size body) ++ pre,
      post ++ ([OpCode.repeatStep.code] ++ emitU8 k.id ++ emitU32 (a + 14)), p₀, q₀, ?_, ?_,
      fun hb => hfits hb.2, ?_⟩
    · simp [hpos]
      omega
    · simp [encode, henc]
    · intro id hid
      obtain ⟨body', hbody', henc', hsplits⟩ := hfuse id hid
      exact ⟨.loop k body', hbody'.loop, by simp [encode, henc', hbody'.size], hsplits⟩

/-- Writing the fused code over an alternative. -/
theorem writeFused_eq {pre post : Bytes} {p q : Blk} (id : Nat) :
    writeFused (pre ++ encode (.alt p q) pre.length ++ post) pre.length id
        (pre.length + size (.alt p q)) =
      pre ++ encode (anyNops id (size (.alt p q))) pre.length ++ post := by
  have hsize : 3 ≤ size (.alt p q) := by
    simp only [size]
    omega
  have hend : max (pre.length + 3) (pre.length + size (.alt p q)) =
      (pre ++ encode (.alt p q) pre.length).length := by
    rw [List.length_append, length_encode]
    omega
  rw [writeFused, hend, List.drop_left, List.append_assoc pre, List.take_left,
    Nat.add_sub_add_left]
  simp [anyNops, encode, Leaf.encode, SetOp.opcode]

end Blk

/-! ## The pass -/

/-- One position of the pass. -/
theorem fuseAt_layout {b : Blk} {tail : Bytes} {pos : Nat} {st : FuseState}
    (hbc : st.bc = b.encode 0 ++ tail) (hshort : b.size < 2 ^ 32) (hfits : b.Fits)
    (hsplit : (eligibleArms st.bc pos).isSome → pos ∈ b.splitAddrs 0) :
    ∃ b', Blk.Fused b b' ∧ (fuseAt pos st).bc = b'.encode 0 ++ tail ∧
      st.classes <+: (fuseAt pos st).classes ∧
      ∀ s < pos, s ∈ b.splitAddrs 0 → s ∈ b'.splitAddrs 0 := by
  unfold fuseAt
  split
  · exact ⟨b, .refl b, hbc, List.prefix_refl _, fun _ _ h => h⟩
  rename_i armA armB heligible
  obtain ⟨pre, post, p, q, hpos, henc, hfits', hfuse⟩ :=
    Blk.replace_split (hsplit (by rw [heligible]; rfl))
  have hclasses := (internClass_spec st.classes (fuseUnion st.classes armA armB)).1
  cases hintern : internClass st.classes (fuseUnion st.classes armA armB) with
  | mk classes id =>
  rw [hintern] at hclasses
  by_cases hid : 0xFFFF < id
  · simp only [if_pos hid]
    exact ⟨b, .refl b, hbc, hclasses, fun _ _ h => h⟩
  simp only [if_neg hid]
  obtain ⟨b', hb', henc', hsplits⟩ := hfuse id (by omega)
  refine ⟨b', hb', ?_, hclasses, hsplits⟩
  rw [Nat.zero_add] at hpos
  subst hpos
  -- the alternative stands at `pos`, so its arms merge at its end
  have hcode : Blk.Code st.bc (.alt p q) pre.length := by
    constructor
    · rw [hbc, henc, List.append_assoc, List.append_assoc, List.drop_left]
      exact List.prefix_append _ _
    · have hlen := congrArg List.length henc
      simp only [List.length_append, Blk.length_encode] at hlen
      omega
    · exact hfits' hfits
  have hbc' : st.bc = pre ++ Blk.encode (.alt p q) pre.length ++ (post ++ tail) := by
    rw [hbc, henc, List.append_assoc]
  rw [Blk.eligibleArms_merge hcode heligible, hbc', Blk.writeFused_eq, henc']
  simp only [List.append_assoc]

/-- The pass keeps the code structured where it rewrites emitted `OP_SPLIT`s only. -/
theorem fuseBelow_layout {b : Blk} {tail : Bytes} {pos : Nat} {st : FuseState}
    (hbc : st.bc = b.encode 0 ++ tail) (hshort : b.size < 2 ^ 32) (hfits : b.Fits)
    (hsplits : ∀ s ∈ fusedPositions pos st, s ∈ b.splitAddrs 0) :
    ∃ b', Blk.Fused b b' ∧ (fuseBelow pos st).bc = b'.encode 0 ++ tail ∧
      st.classes <+: (fuseBelow pos st).classes := by
  induction pos generalizing b st with
  | zero => exact ⟨b, .refl b, hbc, List.prefix_refl _⟩
  | succ pos ih =>
    have hhead : (eligibleArms st.bc pos).isSome → pos ∈ b.splitAddrs 0 := by
      intro h
      apply hsplits
      simp [fusedPositions, h]
    have hrest : ∀ s ∈ fusedPositions pos (fuseAt pos st), s ∈ b.splitAddrs 0 := by
      intro s hs
      apply hsplits
      rw [fusedPositions]
      split
      · exact List.mem_cons_of_mem _ hs
      · exact hs
    obtain ⟨b₁, hb₁, hbc₁, hclasses₁, hkeep⟩ := fuseAt_layout hbc hshort hfits hhead
    obtain ⟨b', hb', hbc', hclasses'⟩ := ih hbc₁ (hb₁.size ▸ hshort) (hb₁.fits hfits)
      fun s hs => hkeep s (lt_of_mem_fusedPositions hs) (hrest s hs)
    exact ⟨b', hb₁.trans hb', hbc', hclasses₁.trans hclasses'⟩

/-! ## The compiled pattern -/

/-- The sizes of a compilation stay within the widths of the encoding, and the fusion
pass rewrites emitted `OP_SPLIT`s only. -/
structure WellEncoded (cfg : CompilerConfig) (ast : AstNode) (st : CompilerState) : Prop where
  emitted : emitProgram cfg ast = some st
  short : st.buf.length ≤ 2 ^ 32
  classes : st.classes.length < 2 ^ 16
  names : (ast.pat cfg).All Leaf.NameFits
  fuses : st.FusesSplits

/-- `b` is the code that was emitted for the pattern, and the compiled bytecode starts with
`b'`, what the fusion pass made of it, and `OP_ACCEPT`. -/
structure CompiledAs (cfg : CompilerConfig) (ast : AstNode) (st : CompilerState) (bc : Bytes)
    (b b' : Blk) : Prop where
  buf : st.buf = b.encode 0 ++ [OpCode.accept.code]
  fits : b.Fits
  short : b.size < 2 ^ 32
  loops : ∃ hi ≤ maxLoops, b.LoopIds 0 hi
  pat : b.map (Leaf.resolve st.classes) LoopSpec.bounds = ast.pat cfg
  fused : Blk.Fused b b'
  body : ∃ classes,
    bc = b'.encode 0 ++ ([OpCode.accept.code] ++ trailer (b'.size + 1) classes st.labels)

theorem WellEncoded.compiledAs {cfg : CompilerConfig} {ast : AstNode} {st : CompilerState}
    {bc : Bytes} (h : WellEncoded cfg ast st) (hcompile : compileAstToBytecodeC cfg ast = some bc) :
    ∃ b b' : Blk, CompiledAs cfg ast st bc b b' := by
  obtain ⟨b, st₀, hb, rfl⟩ := emitProgram_layout h.emitted
  have hsize : (b.encode 0 ++ [OpCode.accept.code]).length ≤ 2 ^ 32 := h.short
  simp only [List.length_append, Blk.length_encode, List.length_singleton] at hsize
  have hbfits : b.Fits := hb.fits h.names
  have hfused : ∀ s ∈ fusedPositions (b.encode 0 ++ [OpCode.accept.code]).length
      ⟨b.encode 0 ++ [OpCode.accept.code], st₀.classes⟩, s ∈ b.splitAddrs 0 := by
    intro s hs
    have hmem := h.fuses s hs
    have hsplits : st₀.splits = b.splitAddrs 0 := by simpa [CompilerState.init] using hb.splits
    simpa [hsplits] using hmem
  obtain ⟨b', hb', hbc', -⟩ := fuseBelow_layout rfl (by omega) hbfits hfused
  refine ⟨b, b', rfl, hbfits, by omega, ⟨st₀.nextLoopId, hb.loops_le (Nat.zero_le _), hb.loops⟩,
    hb.pat st₀.classes (List.prefix_refl _) h.classes, hb', ?_⟩
  have hbytes := compileAstToBytecodeC_bytes h.emitted hcompile
  have hlen : (b'.encode 0 ++ [OpCode.accept.code]).length = b'.size + 1 := by
    rw [List.length_append, Blk.length_encode]
    rfl
  simp only [fuseSplitAny, hbc', hlen, List.append_assoc] at hbytes
  exact ⟨_, hbytes⟩

namespace CompiledAs

variable {cfg : CompilerConfig} {ast : AstNode} {st : CompilerState} {bc : Bytes} {b b' : Blk}

/-- The compiled bytecode is structured code. -/
theorem code (h : CompiledAs cfg ast st bc b b') : Blk.Code bc b' 0 := by
  obtain ⟨classes, rfl⟩ := h.body
  constructor
  · rw [List.drop_zero]
    exact List.prefix_append _ _
  · rw [h.fused.size, Nat.zero_add]
    exact h.short
  · exact h.fused.fits h.fits

/-- The end of the pattern stands behind it. -/
theorem fetch_accept (h : CompiledAs cfg ast st bc b b') :
    fetch bc b'.size = some (.accept, b'.size + 1) := by
  obtain ⟨classes, rfl⟩ := h.body
  have hdrop : (b'.encode 0 ++ ([OpCode.accept.code] ++
      trailer (b'.size + 1) classes st.labels)).drop (b'.encode 0).length =
      [OpCode.accept.code] ++ trailer (b'.size + 1) classes st.labels := List.drop_left
  rw [Blk.length_encode] at hdrop
  rw [(fetch_of_drop hdrop).1]
  simp [operands]

end CompiledAs

/-- The compiled bytecode is structured code in front of `OP_ACCEPT`, its loops are
numbered with the address, and its leaves are those of the pattern. -/
theorem WellEncoded.code {cfg : CompilerConfig} {ast : AstNode} {st : CompilerState} {bc : Bytes}
    (h : WellEncoded cfg ast st) (hcompile : compileAstToBytecodeC cfg ast = some bc) :
    ∃ b : Blk, Blk.Code bc b 0 ∧ fetch bc b.size = some (.accept, b.size + 1) ∧
      (∃ hi ≤ maxLoops, b.LoopIds 0 hi) ∧
      ∀ P : Leaf Nat → Prop, P .nop → (∀ id, P (.set .any id)) →
        ((ast.pat cfg).All fun l => ∀ l', l'.resolve st.classes = l → P l') → b.All P := by
  obtain ⟨b, b', hb⟩ := h.compiledAs hcompile
  obtain ⟨hi, hle, hloops⟩ := hb.loops
  refine ⟨b', hb.code, hb.fetch_accept, ⟨hi, hle, hb.fused.loops 0 hi hloops⟩, ?_⟩
  intro P hnop hany hall
  refine hb.fused.all P hnop hany ?_
  rw [← hb.pat, Pat.all_map] at hall
  exact hall.mono fun l hl => hl l rfl

end Snobol4
