import Mathlib.Data.List.Basic
import Mathlib.Tactic.Common

/-!
# Lanes — registers of byte lanes

A register of `w` lanes holds a byte in each.  Most instructions work lane by lane; a table of
256 bytes is looked up in all lanes at once by its sixteen rows, with the low nibble of a lane
as the column and its high nibble as the row.
-/

/-- A register of `w` byte lanes. -/
abbrev Lanes (w : Nat) := Fin w → UInt8

namespace Lanes

variable {w : Nat}

/-- The same byte in every lane. -/
def splat (b : UInt8) : Lanes w := fun _ => b

/-- The bytes of a memory from an address on. -/
def load (mem : List UInt8) (i : Nat) : Lanes w := fun k => mem.getD (i + k) 0

/-- All ones in the lanes that are equal, and all zeros in the others. -/
def equal (a b : Lanes w) : Lanes w := fun k => if a k = b k then 0xFF else 0

/-- The sign bits of the lanes. -/
def signs (a : Lanes w) : BitVec w :=
  .ofNat w ((List.finRange w).foldl (fun m k => m ||| if 0x80 ≤ a k then 1 <<< k.val else 0) 0)

/-- Lanes of one register or the other, by the sign bits of a third. -/
def blend (a b mask : Lanes w) : Lanes w := fun k => if 0x80 ≤ mask k then b k else a k

/-- Bits of one register or the other, by the bits of a third. -/
def select (mask a b : Lanes w) : Lanes w := fun k => (mask k &&& a k) ||| (~~~mask k &&& b k)

/-- The smallest lane. -/
def minimum (a : Lanes w) : UInt8 := (List.ofFn a).foldl min 0xFF

/-! ## Masks -/

theorem testBit_foldl_or {α : Type} (l : List α) (f : α → Nat) (m i : Nat) :
    (l.foldl (fun m k => m ||| f k) m).testBit i =
      (m.testBit i || l.any fun k => (f k).testBit i) := by
  induction l generalizing m with
  | nil => rw [List.foldl_nil, List.any_nil, Bool.or_false]
  | cons a l ih => rw [List.foldl_cons, ih, Nat.testBit_or, List.any_cons, Bool.or_assoc]

theorem testBit_lane (c : Prop) [Decidable c] (k i : Nat) :
    (if c then 1 <<< k else 0 : Nat).testBit i = (decide c && decide (k = i)) := by
  by_cases hc : c
  · rw [if_pos hc, decide_eq_true hc, Bool.true_and, Nat.one_shiftLeft, Nat.testBit_two_pow]
  · rw [if_neg hc, decide_eq_false hc, Bool.false_and, Nat.zero_testBit]

/-- The mask has the sign bit of each lane. -/
theorem getLsbD_signs (a : Lanes w) {k : Nat} (hk : k < w) :
    a.signs.getLsbD k = decide (0x80 ≤ a ⟨k, hk⟩) := by
  rw [signs, BitVec.getLsbD_ofNat, decide_eq_true hk, Bool.true_and, testBit_foldl_or,
    Nat.zero_testBit, Bool.false_or, Bool.eq_iff_iff, List.any_eq_true]
  constructor
  · rintro ⟨j, -, hj⟩
    rw [testBit_lane, Bool.and_eq_true, decide_eq_true_eq, decide_eq_true_eq] at hj
    obtain ⟨hsign, rfl⟩ := hj
    exact decide_eq_true hsign
  · intro hsign
    refine ⟨⟨k, hk⟩, List.mem_finRange _, ?_⟩
    rw [testBit_lane, Bool.and_eq_true, decide_eq_true_eq, decide_eq_true_eq]
    exact ⟨of_decide_eq_true hsign, rfl⟩

theorem getLsbD_signs_equal (a b : Lanes w) {k : Nat} (hk : k < w) :
    (equal a b).signs.getLsbD k = decide (a ⟨k, hk⟩ = b ⟨k, hk⟩) := by
  rw [getLsbD_signs _ hk, equal]
  by_cases heq : a ⟨k, hk⟩ = b ⟨k, hk⟩
  · rw [if_pos heq, decide_eq_true heq]
    rfl
  · rw [if_neg heq, decide_eq_false heq]
    rfl

theorem blend_equal (a b x y : Lanes w) (k : Fin w) :
    blend a b (equal x y) k = if x k = y k then b k else a k := by
  unfold blend equal
  by_cases heq : x k = y k
  · rw [if_pos heq, if_pos heq, if_pos (by decide)]
  · rw [if_neg heq, if_neg heq, if_neg (by decide)]

theorem select_equal (a b x y : Lanes w) (k : Fin w) :
    select (equal x y) a b k = if x k = y k then a k else b k := by
  unfold select equal
  by_cases heq : x k = y k
  · rw [if_pos heq, if_pos heq, show ~~~(0xFF : UInt8) = 0 from rfl, UInt8.zero_and,
      UInt8.or_zero]
    exact UInt8.neg_one_and
  · rw [if_neg heq, if_neg heq, UInt8.zero_and, UInt8.zero_or]
    exact UInt8.neg_one_and

theorem min_eq_zero {a b : UInt8} : min a b = 0 ↔ a = 0 ∨ b = 0 := by
  have hmin : min a b = if a ≤ b then a else b := rfl
  have hzero : (0 : UInt8).toNat = 0 := rfl
  rw [hmin, ← UInt8.toNat_inj, ← UInt8.toNat_inj, ← UInt8.toNat_inj, hzero]
  by_cases hle : a ≤ b
  · rw [if_pos hle]
    rw [UInt8.le_iff_toNat_le] at hle
    omega
  · rw [if_neg hle]
    rw [UInt8.le_iff_toNat_le] at hle
    omega

theorem foldl_min_eq_zero {l : List UInt8} {b : UInt8} :
    l.foldl min b = 0 ↔ b = 0 ∨ 0 ∈ l := by
  induction l generalizing b with
  | nil => rw [List.foldl_nil, List.mem_nil_iff, or_false]
  | cons a l ih => rw [List.foldl_cons, ih, min_eq_zero, List.mem_cons, or_assoc, @eq_comm _ a]

/-- The smallest lane is zero just if a lane is. -/
theorem minimum_eq_zero {a : Lanes w} : a.minimum = 0 ↔ ∃ k, a k = 0 := by
  rw [minimum, foldl_min_eq_zero, List.mem_ofFn, or_iff_right (by decide)]

/-! ## Looking up a table -/

/-- Rows blended one after the other: the row of the lane's high nibble stays. -/
theorem foldl_rows {α : Type} (row : Nat → α) (hi : UInt8) (x : α) {n : Nat} (hn : n ≤ 256) :
    (List.range n).foldl (fun x g => if hi = UInt8.ofNat g then row g else x) x =
      if hi.toNat < n then row hi.toNat else x := by
  induction n with
  | zero => rfl
  | succ n ih =>
    have hmod : (UInt8.ofNat n).toNat = n := by
      rw [UInt8.toNat_ofNat', Nat.mod_eq_of_lt (by omega)]
    rw [List.range_succ, List.foldl_append, ih (by omega), List.foldl_cons, List.foldl_nil]
    by_cases heq : hi = UInt8.ofNat n
    · have hhi : hi.toNat = n := by rw [heq, hmod]
      rw [if_pos heq, if_pos (by omega), hhi]
    · have hhi : hi.toNat ≠ n := by
        intro hhi
        exact heq (UInt8.toNat_inj.mp (hhi.trans hmod.symm))
      rw [if_neg heq]
      by_cases hlt : hi.toNat < n
      · rw [if_pos hlt, if_pos (by omega)]
      · rw [if_neg hlt, if_neg (by omega)]

theorem nibble_toNat (b : UInt8) : (b &&& 0x0F).toNat = b.toNat % 16 := by
  rw [UInt8.toNat_and]
  exact Nat.and_two_pow_sub_one_eq_mod b.toNat 4

theorem high_toNat (b : UInt8) : (b >>> 4).toNat = b.toNat / 16 := by
  rw [UInt8.toNat_shiftRight]
  exact Nat.shiftRight_eq_div_pow b.toNat 4

theorem nibbles (b : UInt8) : (b >>> 4).toNat * 16 + (b &&& 0x0F).toNat = b.toNat := by
  rw [nibble_toNat, high_toNat]
  omega

/-- What a shift of a wider word brings into a lane is masked away. -/
theorem high_masked (b c : UInt8) :
    (b >>> 4 ||| c <<< 4) &&& (0x0F : UInt8) = b >>> 4 := by
  apply UInt8.toNat_inj.mp
  apply Nat.eq_of_testBit_eq
  intro i
  have hfour : (4 : UInt8).toNat % 8 = 4 := rfl
  have hmask : (0x0F : UInt8).toNat = 2 ^ 4 - 1 := rfl
  rw [UInt8.toNat_and, UInt8.toNat_or, UInt8.toNat_shiftRight, UInt8.toNat_shiftLeft, hfour,
    hmask, Nat.testBit_and, Nat.testBit_or, Nat.testBit_two_pow_sub_one, Nat.testBit_mod_two_pow,
    Nat.testBit_shiftLeft, Nat.testBit_shiftRight]
  by_cases hi : i < 4
  · have hlow : ¬ i ≥ 4 := by omega
    simp [hi, hlow]
  · -- the mask is over, and so is the byte
    have hbyte : b.toNat.testBit (4 + i) = false := by
      apply Nat.testBit_lt_two_pow
      exact Nat.lt_of_lt_of_le b.toNat_lt (Nat.pow_le_pow_right (by decide) (by omega))
    simp [hi, hbyte]

end Lanes
