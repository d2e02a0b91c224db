import Snobol4.CodeAt
import Snobol4.CompilerLayout
import Snobol4.MatchingProgress

/-!
# Placement — loop ids identify loops

A loop register belongs to one loop of the program, so its static data can be looked
up by the id: the bounds, whether `OP_REPEAT_STEP` takes the greedy shortcut, and the
lag of what follows the loop.  The lag counts the greedy loops that are left open: the
retry of the shortcut moves the cursor one byte back, and the `OP_SPAN` in front of
the body has moved it one byte on before.
-/

namespace Snobol4

namespace Blk

/-- The first instruction is `OP_SPAN`. -/
def startsWithSpan : Blk → Bool
  | .skip => false
  | .leaf l => l.isSpan
  | .seq p q => if size p = 0 then startsWithSpan q else startsWithSpan p
  | .alt _ _ => false
  | .loop _ _ => false

theorem consumes_of_startsWithSpan {b : Blk} (h : startsWithSpan b = true) :
    b.consumes Leaf.isSpan = true := by
  induction b with
  | skip => exact h
  | leaf l => exact h
  | seq p q ihp ihq =>
    rw [startsWithSpan] at h
    rw [Pat.consumes, Bool.or_eq_true]
    split at h
    · exact .inr (ihq h)
    · exact .inl (ihp h)
  | alt p q ihp ihq => exact h
  | loop k body ih => exact h

theorem startsWithSpan_of_size {b : Blk} (h : b.size = 0) : startsWithSpan b = false := by
  induction b with
  | skip => rfl
  | leaf l => exact absurd h l.size_pos.ne'
  | seq p q ihp ihq =>
    simp only [size, Nat.add_eq_zero_iff] at h
    rw [startsWithSpan, if_pos h.1, ihq h.2]
  | alt p q ihp ihq => rfl
  | loop k body ih => rfl

/-- The opcode that the greedy shortcut tests. -/
theorem head?_encode_span (b : Blk) (a : Nat) :
    (encode b a).head? = some OpCode.span.code ↔ startsWithSpan b = true := by
  induction b generalizing a with
  | skip => simp [encode, startsWithSpan]
  | leaf l =>
    cases l with
    | set op id => cases op <;> simp [encode, Leaf.encode, SetOp.opcode, startsWithSpan, Leaf.isSpan]
    | count op n => cases op <;> simp [encode, Leaf.encode, CountOp.opcode, startsWithSpan, Leaf.isSpan]
    | _ => simp [encode, Leaf.encode, startsWithSpan, Leaf.isSpan]
  | seq p q ihp ihq =>
    rw [encode, startsWithSpan]
    by_cases hsize : size p = 0
    · have hp : encode p a = [] := List.eq_nil_of_length_eq_zero (by rw [length_encode, hsize])
      rw [hp, List.nil_append, if_pos hsize]
      exact ihq _
    · have hp : encode p a ≠ [] := fun hnil => hsize (by rw [← length_encode p a, hnil]; rfl)
      rw [List.head?_append_of_ne_nil _ hp, if_neg hsize]
      exact ihp a
  | alt p q ihp ihq => simp [encode, startsWithSpan]
  | loop k body ih => simp [encode, startsWithSpan]

end Blk

/-- `OP_REPEAT_STEP` of the loop takes the greedy shortcut. -/
def isGreedy (k : LoopSpec) (body : Blk) : Bool :=
  decide (k.max = unbounded) && body.startsWithSpan

/-- The code decides the greedy shortcut as `isGreedy` does. -/
theorem isGreedy_iff {bc : Bytes} {k : LoopSpec} {body : Blk} {a : Nat}
    (h : Blk.Code bc (.loop k body) a) :
    isGreedy k body = true ↔
      k.max = unbounded ∧ bc[a + 14]? = some OpCode.span.code := by
  obtain ⟨-, hbody, hstep⟩ := h.loop
  rw [isGreedy, Bool.and_eq_true, decide_eq_true_iff]
  refine and_congr_right fun _ => ?_
  by_cases hsize : body.size = 0
  · -- behind an empty body stands `OP_REPEAT_STEP`
    rw [Blk.startsWithSpan_of_size hsize]
    rw [hsize, Nat.add_zero] at hstep
    constructor
    · exact fun h => absurd h (by simp)
    · intro hspan
      simp only [fetch, hspan, Option.map_some, operands, OpCode.ofByte_code, Option.some.injEq,
        Prod.mk.injEq] at hstep
      exact absurd hstep.1 (by simp)
  · obtain ⟨rest, hrest⟩ := hbody.bytes
    have hne : body.encode (a + 14) ≠ [] := fun hnil => hsize (by
      rw [← Blk.length_encode body (a + 14), hnil]; rfl)
    rw [← Blk.head?_encode_span body (a + 14), ← List.head?_drop, ← hrest,
      List.head?_append_of_ne_nil _ hne]

/-! ## The loop table -/

/-- The static data of a loop. -/
structure LoopInfo where
  spec : LoopSpec
  greedy : Bool
  lag : Nat

/-- The loops by their ids. -/
abbrev LoopTable := Nat → LoopInfo

/-- What stands behind a pattern: its lag and the ids of the open loops. -/
structure Ctx where
  lag : Nat
  ids : List Nat

/-- The context in front of a pattern. -/
def Ctx.before (p : Blk) (ctx : Ctx) : Ctx :=
  { ctx with lag := ctx.lag - (p.consumes Leaf.isSpan).toNat }

/-- The context behind the body of a loop. -/
def Ctx.inside (k : LoopSpec) (body : Blk) (ctx : Ctx) : Ctx where
  lag := ctx.lag + (isGreedy k body).toNat
  ids := k.id :: ctx.ids

/-- The loops of the pattern are those of the table, their ids are not in use, and
there are no jumps. -/
def Placed (Γ : LoopTable) : Ctx → Blk → Prop
  | _, .skip => True
  | _, .leaf l => l.IsStraight
  | ctx, .seq p q => Placed Γ (ctx.before q) p ∧ Placed Γ ctx q
  | ctx, .alt p q => Placed Γ ctx p ∧ Placed Γ ctx q
  | ctx, .loop k body =>
      (Γ k.id = ⟨k, isGreedy k body, ctx.lag⟩ ∧ k.id ∉ ctx.ids ∧ k.id < maxLoops) ∧
        Placed Γ (ctx.inside k body) body

/-- A table matters only at the ids of the pattern. -/
theorem Placed.congr {Γ Γ' : LoopTable} {b : Blk} {ctx : Ctx} {lo hi : Nat}
    (hids : b.LoopIds lo hi) (heq : ∀ i, lo ≤ i → i < hi → Γ i = Γ' i) (h : Placed Γ ctx b) :
    Placed Γ' ctx b := by
  induction b generalizing ctx lo hi with
  | skip => trivial
  | leaf l => exact h
  | seq p q ihp ihq =>
    obtain ⟨mid, hp, hq⟩ := hids
    have := hp.le
    have := hq.le
    exact ⟨ihp hp (fun i hlo hhi => heq i hlo (by omega)) h.1,
      ihq hq (fun i hlo hhi => heq i (by omega) hhi) h.2⟩
  | alt p q ihp ihq =>
    obtain ⟨mid, hp, hq⟩ := hids
    have := hp.le
    have := hq.le
    exact ⟨ihp hp (fun i hlo hhi => heq i hlo (by omega)) h.1,
      ihq hq (fun i hlo hhi => heq i (by omega) hhi) h.2⟩
  | loop k body ih =>
    obtain ⟨hlo, hbody⟩ := hids
    have := hbody.le
    obtain ⟨⟨hinfo, hfresh⟩, hb⟩ := h
    exact ⟨⟨heq k.id hlo (by omega) ▸ hinfo, hfresh⟩,
      ih hbody (fun i hlo hhi => heq i (by omega) hhi) hb⟩

/-- Two tables, one below `mid` and one from `mid` on. -/
private theorem split_table (Γ Γ' : LoopTable) (mid : Nat) :
    ∃ Δ : LoopTable, (∀ i < mid, Γ i = Δ i) ∧ ∀ i, mid ≤ i → Γ' i = Δ i := by
  refine ⟨fun i => if i < mid then Γ i else Γ' i, ?_, ?_⟩
  · intro i hi
    exact (if_pos hi).symm
  · intro i hi
    exact (if_neg (by omega)).symm

/-- Loops numbered with the address have a table. -/
theorem exists_placed {b : Blk} {lo hi : Nat} (hids : b.LoopIds lo hi) (hmax : hi ≤ maxLoops)
    (hstraight : b.All Leaf.IsStraight) (ctx : Ctx) (hfresh : ∀ i ∈ ctx.ids, i < lo) :
    ∃ Γ, Placed Γ ctx b := by
  induction b generalizing ctx lo hi with
  | skip => exact ⟨fun _ => ⟨⟨0, 0, 0⟩, false, 0⟩, trivial⟩
  | leaf l => exact ⟨fun _ => ⟨⟨0, 0, 0⟩, false, 0⟩, hstraight⟩
  | seq p q ihp ihq =>
    obtain ⟨mid, hp, hq⟩ := hids
    have hle := hp.le
    have hle' := hq.le
    obtain ⟨Γ, hΓ⟩ := ihp hp (by omega) hstraight.1 (ctx.before q) hfresh
    obtain ⟨Γ', hΓ'⟩ := ihq hq hmax hstraight.2 ctx fun i hi => (hfresh i hi).trans_le hle
    obtain ⟨Δ, hΔ, hΔ'⟩ := split_table Γ Γ' mid
    exact ⟨Δ, hΓ.congr hp fun i _ hi => hΔ i hi, hΓ'.congr hq fun i hi _ => hΔ' i hi⟩
  | alt p q ihp ihq =>
    obtain ⟨mid, hp, hq⟩ := hids
    have hle := hp.le
    have hle' := hq.le
    obtain ⟨Γ, hΓ⟩ := ihp hp (by omega) hstraight.1 ctx hfresh
    obtain ⟨Γ', hΓ'⟩ := ihq hq hmax hstraight.2 ctx fun i hi => (hfresh i hi).trans_le hle
    obtain ⟨Δ, hΔ, hΔ'⟩ := split_table Γ Γ' mid
    exact ⟨Δ, hΓ.congr hp fun i _ hi => hΔ i hi, hΓ'.congr hq fun i hi _ => hΔ' i hi⟩
  | loop k body ih =>
    obtain ⟨hlo, hbody⟩ := hids
    have hle := hbody.le
    have hinner : ∀ i ∈ (ctx.inside k body).ids, i < k.id + 1 := by
      intro i hi
      obtain rfl | hi := List.mem_cons.mp hi
      · exact Nat.lt_succ_self _
      · have := hfresh i hi
        omega
    obtain ⟨Γ, hΓ⟩ := ih hbody hmax hstraight (ctx.inside k body) hinner
    obtain ⟨Δ, hΔ, hΔ'⟩ :=
      split_table (fun _ => ⟨k, isGreedy k body, ctx.lag⟩) Γ (k.id + 1)
    refine ⟨Δ, ⟨(hΔ k.id (Nat.lt_succ_self _)).symm, ?_, by omega⟩,
      hΓ.congr hbody fun i hi _ => hΔ' i hi⟩
    intro hmem
    have := hfresh k.id hmem
    omega

/-! ## Items -/

/-- The context of items. -/
def ctxOf : List BlkItem → Ctx
  | [] => ⟨0, []⟩
  | .pat p :: κ => (ctxOf κ).before p
  | .join :: κ => ctxOf κ
  | .iter k body _ _ :: κ => (ctxOf κ).inside k body

/-- The items are placed one in front of the other. -/
def ItemsPlaced (Γ : LoopTable) : List BlkItem → Prop
  | [] => True
  | .pat p :: κ => Placed Γ (ctxOf κ) p ∧ ItemsPlaced Γ κ
  | .join :: κ => ItemsPlaced Γ κ
  | .iter k body _ _ :: κ => Placed Γ (ctxOf κ) (.loop k body) ∧ ItemsPlaced Γ κ

variable {Γ : LoopTable} {κ κ' : List BlkItem}

/-- A silent step keeps the items placed and the open loops, and the lag does not
grow. -/
theorem Silent.placed (h : Silent κ κ') (hκ : ItemsPlaced Γ κ) :
    ItemsPlaced Γ κ' ∧ (ctxOf κ').ids = (ctxOf κ).ids ∧ (ctxOf κ').lag ≤ (ctxOf κ).lag := by
  cases h with
  | skip => exact ⟨hκ.2, rfl, le_rfl⟩
  | seq p q κ =>
    refine ⟨⟨hκ.1.1, hκ.1.2, hκ.2⟩, rfl, ?_⟩
    simp only [ctxOf, Ctx.before, Pat.consumes]
    cases p.consumes Leaf.isSpan <;> cases q.consumes Leaf.isSpan <;>
      simp only [Bool.or_true, Bool.or_false, Bool.toNat_true, Bool.toNat_false] <;> omega
  | join => exact ⟨hκ, rfl, le_rfl⟩

theorem Silents.placed (h : Silents κ κ') (hκ : ItemsPlaced Γ κ) :
    ItemsPlaced Γ κ' ∧ (ctxOf κ').ids = (ctxOf κ).ids ∧ (ctxOf κ').lag ≤ (ctxOf κ).lag := by
  induction h with
  | refl => exact ⟨hκ, rfl, le_rfl⟩
  | tail _ hstep ih =>
    obtain ⟨hκ', hids, hlag⟩ := hstep.placed ih.1
    exact ⟨hκ', hids.trans ih.2.1, hlag.trans ih.2.2⟩

end Snobol4
