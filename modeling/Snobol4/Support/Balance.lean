import Mathlib.Data.List.Count
import Mathlib.Tactic.Common

/-!
# Balance — blocks of nested delimiters

A block opens at its first symbol and closes, for the first time, at its last.  Counting the
depth finds it: the block ends where the depth comes back to zero.
-/

namespace Balance

variable {α : Type}

/-- A symbol that opens, closes, or does neither. -/
structure Delims (α : Type) where
  isOpen : α → Bool
  isClose : α → Bool
  disjoint : ∀ a, isOpen a = true → isClose a = false

namespace Delims

variable (D : Delims α)

/-- How many more symbols open than close. -/
def depth (w : List α) : Int := w.countP D.isOpen - w.countP D.isClose

/-- The word opens with its first symbol, and no part of it from there on is balanced but the
whole. -/
structure IsBlock (w : List α) : Prop where
  opens : ∃ a v, w = a :: v ∧ D.isOpen a = true
  balanced : w.countP D.isOpen = w.countP D.isClose
  inside : ∀ v, v <+: w → v ≠ [] → v ≠ w → v.countP D.isClose < v.countP D.isOpen

/-- From a depth on, the depth stays below the limit while it is positive. -/
def Below (limit d : Int) (w : List α) : Prop :=
  ∀ n ≤ w.length, (∀ m ≤ n, 0 < m → 0 < d + D.depth (w.take m)) → d + D.depth (w.take n) < limit

/-- The number of symbols up to the one that brings the depth to zero by closing. -/
def scan : Int → List α → Option Nat
  | _, [] => none
  | d, a :: w =>
      if D.isOpen a then (scan (d + 1) w).map (· + 1)
      else if D.isClose a then
        if d - 1 = 0 then some 1 else (scan (d - 1) w).map (· + 1)
      else (scan d w).map (· + 1)

variable {D}

theorem depth_nil : D.depth [] = 0 := rfl

theorem depth_cons (a : α) (w : List α) :
    D.depth (a :: w) =
      D.depth w + if D.isOpen a then 1 else if D.isClose a then -1 else 0 := by
  have hdisjoint := D.disjoint a
  unfold depth
  rw [List.countP_cons, List.countP_cons]
  cases hopen : D.isOpen a with
  | true =>
    rw [hdisjoint hopen]
    simp
    omega
  | false =>
    cases hclose : D.isClose a with
    | true =>
      simp
      omega
    | false => simp

theorem depth_singleton (a : α) :
    D.depth [a] = if D.isOpen a then 1 else if D.isClose a then -1 else 0 := by
  rw [depth_cons, depth_nil, Int.zero_add]

theorem depth_take_succ (a : α) (w : List α) (m : Nat) :
    D.depth ((a :: w).take (m + 1)) = D.depth [a] + D.depth (w.take m) := by
  rw [List.take_succ_cons, depth_cons, depth_singleton, Int.add_comm]

theorem Below.lt {limit d : Int} {w : List α} (h : D.Below limit d w) : d < limit := by
  have hlt := h 0 (Nat.zero_le _) fun m hm hpos => absurd hpos (Nat.not_lt.mpr hm)
  rwa [List.take_zero, depth_nil, Int.add_zero] at hlt

/-- Behind a symbol that leaves the depth positive. -/
theorem Below.tail {limit d : Int} {a : α} {w : List α} (h : D.Below limit d (a :: w))
    (hpos : 0 < d + D.depth [a]) : D.Below limit (d + D.depth [a]) w := by
  have hcons : ∀ m, d + D.depth ((a :: w).take (m + 1)) = d + D.depth [a] + D.depth (w.take m) := by
    intro m
    rw [depth_take_succ, Int.add_assoc]
  intro n hn hparts
  rw [← hcons]
  refine h (n + 1) (Nat.succ_le_succ hn) ?_
  intro m hm hzero
  obtain ⟨m, rfl⟩ := Nat.exists_eq_succ_of_ne_zero (Nat.pos_iff_ne_zero.mp hzero)
  rw [hcons]
  cases m with
  | zero => rwa [List.take_zero, depth_nil, Int.add_zero]
  | succ m => exact hparts (m + 1) (Nat.le_of_succ_le_succ hm) (Nat.succ_pos m)

/-- While the depth stays positive, the part ends one symbol later than in the tail. -/
theorem scan_later {d d' : Int} {a : α} {w : List α} {n : Nat} (hd : 0 < d)
    (heq : d' = d + D.depth [a])
    (h : ∀ k, D.scan d' w = some k ↔
      k ≤ w.length ∧ d' + D.depth (w.take k) = 0 ∧ ∀ m < k, 0 < d' + D.depth (w.take m)) :
    (D.scan d' w).map (· + 1) = some n ↔
      n ≤ (a :: w).length ∧ d + D.depth ((a :: w).take n) = 0 ∧
        ∀ m < n, 0 < d + D.depth ((a :: w).take m) := by
  have hcons : ∀ m, d + D.depth ((a :: w).take (m + 1)) = d' + D.depth (w.take m) := by
    intro m
    rw [depth_take_succ, heq, Int.add_assoc]
  cases n with
  | zero =>
    simp only [List.take_zero, depth_nil]
    constructor
    · intro h
      obtain ⟨k, -, hk⟩ := Option.map_eq_some_iff.mp h
      omega
    · rintro ⟨-, hzero, -⟩
      omega
  | succ n =>
    rw [Option.map_eq_some_iff]
    constructor
    · rintro ⟨k, hk, hkn⟩
      obtain rfl : k = n := by omega
      obtain ⟨hle, hzero, hpos⟩ := (h k).mp hk
      refine ⟨Nat.succ_le_succ hle, by rw [hcons]; exact hzero, ?_⟩
      intro m hm
      cases m with
      | zero => simpa [depth_nil] using hd
      | succ m =>
        rw [hcons]
        exact hpos m (Nat.lt_of_succ_lt_succ hm)
    · rintro ⟨hle, hzero, hpos⟩
      refine ⟨n, (h n).mpr ⟨Nat.le_of_succ_le_succ hle, ?_, ?_⟩, rfl⟩
      · rw [← hcons]
        exact hzero
      · intro m hm
        rw [← hcons]
        exact hpos (m + 1) (Nat.succ_lt_succ hm)

/-- From a positive depth the scan ends where the depth first is zero. -/
theorem scan_eq_some_iff {d : Int} {w : List α} {n : Nat} (hd : 0 < d) :
    D.scan d w = some n ↔
      n ≤ w.length ∧ d + D.depth (w.take n) = 0 ∧ ∀ m < n, 0 < d + D.depth (w.take m) := by
  induction w generalizing d n with
  | nil =>
    simp only [scan, List.length_nil, List.take_nil, depth_nil, Int.add_zero]
    constructor
    · intro h
      cases h
    · rintro ⟨-, hzero, -⟩
      omega
  | cons a w ih =>
    rw [scan]
    cases hopen : D.isOpen a with
    | true =>
      have hplus : D.depth [a] = 1 := by rw [depth_singleton, hopen, if_pos rfl]
      rw [if_pos rfl]
      exact scan_later hd (by rw [hplus]) fun k => ih (by omega)
    | false =>
      rw [if_neg (by decide)]
      cases hclose : D.isClose a with
      | false =>
        have hzero : D.depth [a] = 0 := by
          rw [depth_singleton, hopen, hclose, if_neg Bool.false_ne_true,
            if_neg Bool.false_ne_true]
        rw [if_neg (by decide)]
        exact scan_later hd (by rw [hzero, Int.add_zero]) fun k => ih hd
      | true =>
        rw [if_pos rfl]
        have hminus : D.depth [a] = -1 := by
          rw [depth_singleton, hopen, hclose, if_neg Bool.false_ne_true, if_pos rfl]
        by_cases hlast : d - 1 = 0
        · -- the symbol closes the block: no shorter part does
          rw [if_pos hlast]
          have htake : ∀ m, d + D.depth ((a :: w).take (m + 1)) = D.depth (w.take m) := by
            intro m
            rw [depth_take_succ, hminus]
            omega
          constructor
          · rintro ⟨⟩
            refine ⟨by simp, by rw [htake]; rfl, ?_⟩
            intro m hm
            obtain rfl : m = 0 := by omega
            simpa [depth_nil] using hd
          · rintro ⟨-, hzero, hpos⟩
            cases n with
            | zero =>
              rw [List.take_zero, depth_nil] at hzero
              omega
            | succ n =>
              cases n with
              | zero => rfl
              | succ n =>
                have hmid := hpos 1 (by omega)
                rw [htake 0, List.take_zero, depth_nil] at hmid
                omega
        · rw [if_neg hlast]
          exact scan_later hd (by rw [hminus, Int.sub_eq_add_neg]) fun k => ih (by omega)

/-- From an opening symbol the scan finds the block at the front. -/
theorem scan_eq_some_iff_block {a : α} {w : List α} {n : Nat} (ha : D.isOpen a = true) :
    (D.scan 1 w).map (· + 1) = some n ↔
      ∃ v, v <+: a :: w ∧ D.IsBlock v ∧ v.length = n := by
  have hcons : ∀ m, D.depth ((a :: w).take (m + 1)) = 1 + D.depth (w.take m) := by
    intro m
    rw [List.take_succ_cons, depth_cons, if_pos ha]
    omega
  rw [Option.map_eq_some_iff]
  constructor
  · rintro ⟨k, hk, rfl⟩
    obtain ⟨hle, hzero, hpos⟩ := (scan_eq_some_iff (by decide)).mp hk
    refine ⟨(a :: w).take (k + 1), List.take_prefix _ _, ⟨⟨a, w.take k, rfl, ha⟩, ?_, ?_⟩, ?_⟩
    · have hdepth := hcons k
      rw [hzero, depth] at hdepth
      omega
    · intro v hv hne hshorter
      -- a shorter part that is not empty is one of those the scan goes over
      have hlength := hv.length_le
      rw [List.length_take, List.length_cons] at hlength
      cases v with
      | nil => exact absurd rfl hne
      | cons b v =>
        have hmore : v.length < k := by
          by_contra hge
          rw [List.length_cons] at hlength
          refine hshorter (hv.eq_of_length ?_)
          rw [List.length_take, List.length_cons, List.length_cons]
          omega
        have hdepth := hcons v.length
        have hat : (a :: w).take (v.length + 1) = b :: v :=
          (List.prefix_iff_eq_take.mp (hv.trans (List.take_prefix _ _))).symm
        have hinside := hpos v.length hmore
        rw [← hdepth, hat, depth] at hinside
        omega
    · rw [List.length_take, List.length_cons]
      omega
  · rintro ⟨v, hv, hblock, rfl⟩
    obtain ⟨⟨b, v, rfl, -⟩, hbalanced, hinside⟩ := hblock
    obtain ⟨rfl, hv'⟩ := List.cons_prefix_cons.mp hv
    have hat := List.prefix_iff_eq_take.mp hv'
    refine ⟨v.length, (scan_eq_some_iff (by decide)).mpr ⟨hv'.length_le, ?_, ?_⟩, rfl⟩
    · rw [← hcons, List.take_succ_cons, ← hat, depth, hbalanced]
      omega
    · intro m hm
      rw [← hcons, List.take_succ_cons, depth]
      have hpart : b :: w.take m <+: b :: v := by
        rw [hat, List.cons_prefix_cons]
        exact ⟨rfl, List.take_prefix_take_left (Nat.le_of_lt hm)⟩
      have hmore := hinside _ hpart (List.cons_ne_nil _ _) (by
        intro heq
        have hlen := congrArg List.length (List.cons.inj heq).2
        rw [List.length_take] at hlen
        have := hv'.length_le
        omega)
      omega

end Delims

end Balance
