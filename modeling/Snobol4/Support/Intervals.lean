/-!
# Intervals — normal forms of finite unions of intervals

A list of intervals of numbers, given by their ends, is normal when the intervals are
nonempty, ascending, and leave a gap between neighbours.  A set of numbers has at most one
normal form.
-/

namespace Intervals

variable {α : Type} {lo hi : α → Nat} {xs ys : List α} {x : α} {n : Nat}

/-- The number lies in one of the intervals. -/
def Covers (lo hi : α → Nat) (xs : List α) (n : Nat) : Prop := ∃ x ∈ xs, lo x ≤ n ∧ n ≤ hi x

/-- Nonempty, ascending, and neither overlapping nor touching. -/
structure Normal (lo hi : α → Nat) (xs : List α) : Prop where
  valid : ∀ x ∈ xs, lo x ≤ hi x
  apart : xs.Pairwise fun x y => hi x + 1 < lo y

theorem not_covers_nil : ¬Covers lo hi [] n := by
  rintro ⟨x, hx, -⟩
  cases hx

theorem covers_cons : Covers lo hi (x :: xs) n ↔ (lo x ≤ n ∧ n ≤ hi x) ∨ Covers lo hi xs n := by
  simp only [Covers, List.mem_cons, exists_eq_or_imp]

namespace Normal

theorem tail (h : Normal lo hi (x :: xs)) : Normal lo hi xs where
  valid y hy := h.valid y (List.mem_cons_of_mem x hy)
  apart := (List.pairwise_cons.mp h.apart).2

theorem head_valid (h : Normal lo hi (x :: xs)) : lo x ≤ hi x := h.valid x List.mem_cons_self

/-- Behind the first interval and the gap after it. -/
theorem gap (h : Normal lo hi (x :: xs)) (hn : Covers lo hi xs n) : hi x + 1 < n := by
  obtain ⟨y, hy, hle, -⟩ := hn
  have hlt := (List.pairwise_cons.mp h.apart).1 y hy
  omega

/-- The first interval starts at the least number. -/
theorem head_le (h : Normal lo hi (x :: xs)) (hn : Covers lo hi (x :: xs) n) : lo x ≤ n := by
  obtain hx | hn := covers_cons.mp hn
  · exact hx.1
  · have hgap := h.gap hn
    have hvalid := h.head_valid
    omega

theorem covers_head (h : Normal lo hi (x :: xs)) : Covers lo hi (x :: xs) (lo x) :=
  covers_cons.mpr (.inl ⟨Nat.le_refl _, h.head_valid⟩)

/-- The first interval goes as far as the numbers do. -/
theorem head_hi_le {y : α} (h : Normal lo hi (x :: xs)) (hlo : lo x = lo y)
    (hsub : ∀ n, Covers lo hi (y :: ys) n → Covers lo hi (x :: xs) n) : hi y ≤ hi x := by
  have hvalid := h.head_valid
  refine Nat.le_of_not_lt fun hlt => ?_
  have hnext := hsub (hi x + 1) (covers_cons.mpr (.inl ⟨by omega, by omega⟩))
  obtain hin | hrest := covers_cons.mp hnext
  · omega
  · have hgap := h.gap hrest
    omega

theorem covers_tail (h : Normal lo hi (x :: xs)) :
    Covers lo hi xs n ↔ Covers lo hi (x :: xs) n ∧ hi x < n := by
  constructor
  · intro hn
    have hgap := h.gap hn
    exact ⟨covers_cons.mpr (.inr hn), by omega⟩
  · rintro ⟨hn, hlt⟩
    obtain hin | hn := covers_cons.mp hn
    · omega
    · exact hn

/-- Normal forms of the same set are the same. -/
theorem ends_eq (hx : Normal lo hi xs) (hy : Normal lo hi ys)
    (h : ∀ n, Covers lo hi xs n ↔ Covers lo hi ys n) :
    xs.map (fun x => (lo x, hi x)) = ys.map fun y => (lo y, hi y) := by
  induction xs generalizing ys with
  | nil =>
    cases ys with
    | nil => rfl
    | cons y ys => exact absurd ((h _).mpr hy.covers_head) not_covers_nil
  | cons x xs ih =>
    cases ys with
    | nil => exact absurd ((h _).mp hx.covers_head) not_covers_nil
    | cons y ys =>
      have hlo : lo x = lo y :=
        Nat.le_antisymm (hx.head_le ((h _).mpr hy.covers_head))
          (hy.head_le ((h _).mp hx.covers_head))
      have hhi : hi x = hi y :=
        Nat.le_antisymm (hy.head_hi_le hlo.symm fun n => (h n).mp)
          (hx.head_hi_le hlo fun n => (h n).mpr)
      rw [List.map_cons, List.map_cons, hlo, hhi, ih hx.tail hy.tail]
      intro n
      rw [hx.covers_tail, hy.covers_tail, h n, hhi]

end Normal

end Intervals
