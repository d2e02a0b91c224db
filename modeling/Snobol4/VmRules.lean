import Snobol4.Placement

/-!
# VmRules — the search that `vm_run` performs

The loop instructions of the VM as rules of a search: `OP_REPEAT_INIT` always starts
the body, `OP_REPEAT_STEP` decides by counter and last position, and the greedy
shortcut leaves the loop at the end of a run, with one retry.
-/

namespace Snobol4

variable {W : Type}

/-- The per-iteration branch of `OP_REPEAT_STEP` on a subject of `len` bytes. -/
def loopIterate (len : Nat) (k : LoopSpec) (count mark : Nat) (st : Local) : Pat.LoopMove Local :=
  let count := (count + 1) % 2 ^ 32
  if count < k.min then .again count st.pos false
  else if k.max = unbounded ∨ count < k.max then
    if k.max = unbounded ∧ st.pos = mark then .exit st none
    else if k.max = unbounded ∧ len + 1 < count then .exit st none
    else .again count st.pos true
  else .exit st none

/-- The greedy branch: on to `stop`, perhaps with a retry one byte before or where
the run ends again. -/
def GreedyExit (len : Nat) (st : Local) (m : Pat.LoopMove Local) : Prop :=
  ∃ (stop : Nat) (retry : Option Nat),
    m = .exit { st with pos := stop } (retry.map fun pos => { st with pos }) ∧
      st.pos ≤ stop ∧ stop ≤ len ∧ ∀ r ∈ retry, stop ≤ r + 1 ∧ r ≤ stop

/-- The rules of `vm_run`.  A retry finds the registers it was saved with only in
`exact` runs; the others hold for any registers. -/
def vmRules (env : VmEnv W) (exact : Bool) :
    Pat.Rules (Leaf Nat) LoopSpec Local (Globals W) where
  leaf l st g m :=
    ∃ regs, (exact = true → regs = st.regs) ∧
      m = l.exec env.s env.host env.ranges ⟨st.pos, regs⟩ g
  enter k _ st m := m = .again 0 st.pos (decide (k.min = 0))
  step k body count mark st m :=
    if isGreedy k body then GreedyExit env.s.length st m
    else k.min < 2 ^ 32 ∧ k.max < 2 ^ 32 ∧ m = loopIterate env.s.length k count mark st

/-- How far a counter is from its end; it counts modulo 2³². -/
def counterRank (count : Nat) : Nat :=
  if count < 2 ^ 32 - 1 then 2 ^ 32 - count
  else if count = 2 ^ 32 - 1 then 2 ^ 32 + 1
  else 2 ^ 32 + 2

/-- Without progress an iteration is followed by another one only below the bounds. -/
theorem counterRank_lt {k : LoopSpec} {count : Nat} (hmin : k.min < 2 ^ 32)
    (hmax : k.max < 2 ^ 32)
    (h : (count + 1) % 2 ^ 32 < k.min ∨ k.max ≠ unbounded ∧ (count + 1) % 2 ^ 32 < k.max) :
    counterRank ((count + 1) % 2 ^ 32) < counterRank count := by
  have hunb : unbounded = 2 ^ 32 - 1 := rfl
  have hend : (count + 1) % 2 ^ 32 < 2 ^ 32 - 1 := by omega
  rw [counterRank, if_pos hend, counterRank]
  split
  · omega
  split <;> omega

theorem loopIterate_again {len count mark count' mark' : Nat} {k : LoopSpec} {st : Local}
    {saved : Bool} (hmin : k.min < 2 ^ 32) (hmax : k.max < 2 ^ 32) (hmark : mark ≤ st.pos)
    (h : loopIterate len k count mark st = .again count' mark' saved) :
    mark' = st.pos ∧ (mark < st.pos ∨ counterRank count' < counterRank count) := by
  simp only [loopIterate] at h
  split at h
  · rename_i hlt
    cases h
    exact ⟨rfl, .inr (counterRank_lt hmin hmax (.inl hlt))⟩
  split at h
  · rename_i hcont
    split at h
    · cases h
    rename_i hprogress
    split at h
    · cases h
    cases h
    refine ⟨rfl, ?_⟩
    by_cases hunb : k.max = unbounded
    · exact .inl (lt_of_le_of_ne hmark fun heq => hprogress ⟨hunb, heq.symm⟩)
    · exact .inr (counterRank_lt hmin hmax (.inr ⟨hunb, hcont.resolve_left hunb⟩))
  · cases h

theorem loopIterate_exit {len count mark : Nat} {k : LoopSpec} {st st' : Local}
    {retry : Option Local} (h : loopIterate len k count mark st = .exit st' retry) :
    st' = st ∧ retry = none := by
  simp only [loopIterate] at h
  split at h
  · cases h
  split at h
  · split at h
    · cases h
      exact ⟨rfl, rfl⟩
    split at h
    · cases h
      exact ⟨rfl, rfl⟩
    · cases h
  · cases h
    exact ⟨rfl, rfl⟩

/-- The search of the VM always makes progress. -/
theorem vmRules_progress (env : VmEnv W) (exact : Bool) :
    Pat.Progress (vmRules env exact) Local.pos env.s.length Leaf.isSpan (fun _ => counterRank) where
  next := by
    intro l st g st' g' h hleaf
    obtain ⟨regs, -, hmove⟩ := hleaf
    have hpos : (⟨st.pos, regs⟩ : Local).pos ≤ env.s.length := h
    obtain ⟨hnext, hle⟩ := Leaf.exec_next hpos hmove.symm
    exact ⟨hnext, hle⟩
  choice := by
    intro l st g st' g' retry h hleaf
    obtain ⟨regs, -, hmove⟩ := hleaf
    have hpos : (⟨st.pos, regs⟩ : Local).pos ≤ env.s.length := h
    obtain ⟨⟨hnext, hle⟩, hlt, hle'⟩ := Leaf.exec_choice hpos hmove.symm
    exact ⟨⟨hnext, hle⟩, (Nat.le_of_add_right_le hnext).trans_lt hlt, hle'⟩
  cut := by
    intro l st g st' g' h hleaf
    obtain ⟨regs, -, hmove⟩ := hleaf
    have hpos : (⟨st.pos, regs⟩ : Local).pos ≤ env.s.length := h
    obtain ⟨hnext, hle⟩ := Leaf.exec_cut hpos hmove.symm
    exact ⟨hnext, hle⟩
  enter_again := by
    intro k body st count mark saved h
    cases h
    rfl
  enter_exit := by
    intro k body st st' retry _ h
    cases h
  step_again := by
    intro k body count mark st count' mark' saved hmark h
    simp only [vmRules] at h
    split at h
    · obtain ⟨stop, retry, hm, -⟩ := h
      cases hm
    · obtain ⟨hmin, hmax, hm⟩ := h
      exact loopIterate_again hmin hmax hmark hm.symm
  step_exit := by
    intro k body count mark st st' retry hpos h
    simp only [vmRules] at h
    split at h
    · rename_i hgreedy
      obtain ⟨stop, retry', hm, hle, hstop, hretry⟩ := h
      cases hm
      have hcons := Blk.consumes_of_startsWithSpan (Bool.and_eq_true_iff.mp hgreedy).2
      refine ⟨⟨hle, hstop⟩, ?_⟩
      intro r hr
      obtain ⟨n, hn, rfl⟩ := Option.map_eq_some_iff.mp hr
      have := hretry n hn
      exact ⟨hcons, by simp only; omega, by simp only; omega⟩
    · obtain ⟨-, -, hm⟩ := h
      obtain ⟨rfl, rfl⟩ := loopIterate_exit hm.symm
      exact ⟨⟨le_rfl, hpos⟩, fun r hr => by cases hr⟩

end Snobol4
