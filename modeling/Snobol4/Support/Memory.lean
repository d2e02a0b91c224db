import Mathlib.Algebra.Ring.Nat

/-!
# Memory — a block of bytes that is read and overwritten in place

What was stored is read back, and a store leaves the bytes before it and behind it alone.  Words
have four bytes, the lowest first.
-/

namespace Memory

abbrev Block := List UInt8

/-- The `n` bytes at an offset. -/
def read (data : Block) (off n : Nat) : Block := (data.drop off).take n

/-- The bytes at an offset, replaced. -/
def overwrite (data : Block) (off : Nat) (bytes : Block) : Block :=
  data.take off ++ bytes ++ data.drop (off + bytes.length)

/-- A number modulo `2 ^ 32` as a word. -/
def wordBytes (w : Nat) : Block :=
  [UInt8.ofNat w, UInt8.ofNat (w / 256), UInt8.ofNat (w / 65536), UInt8.ofNat (w / 16777216)]

def storeWord (data : Block) (off w : Nat) : Block := overwrite data off (wordBytes w)

def wordOf : Block → Nat
  | [b₀, b₁, b₂, b₃] =>
      b₀.toNat + 256 * b₁.toNat + 65536 * b₂.toNat + 16777216 * b₃.toNat
  | _ => 0

def loadWord (data : Block) (off : Nat) : Nat := wordOf (read data off 4)

variable {data data' bytes : Block} {off pos n k w : Nat}

/-! ## Reading -/

theorem take_congr (h : data.take k = data'.take k) (hn : n ≤ k) : data.take n = data'.take n := by
  rw [← Nat.min_eq_left hn, ← List.take_take, h, List.take_take]

/-- Blocks with a common front agree on it. -/
theorem read_congr (h : data.take k = data'.take k) (hpos : off + n ≤ k) :
    read data off n = read data' off n := by
  have htake : ∀ d : Block, read d off n = ((d.take k).drop off).take n := by
    intro d
    rw [List.drop_take, List.take_take, read]
    congr 1
    omega
  rw [htake, htake, h]

/-! ## Storing -/

theorem length_overwrite (h : off + bytes.length ≤ data.length) :
    (overwrite data off bytes).length = data.length := by
  simp only [overwrite, List.length_append, List.length_take, List.length_drop]
  omega

/-- The bytes before a store. -/
theorem take_overwrite (h : k ≤ off) (hoff : off ≤ data.length) :
    (overwrite data off bytes).take k = data.take k := by
  rw [overwrite, List.append_assoc, List.take_append_of_le_length, List.take_take]
  · rw [Nat.min_eq_left h]
  · rw [List.length_take]
    omega

theorem read_overwrite (h : off + bytes.length ≤ data.length) :
    read (overwrite data off bytes) off bytes.length = bytes := by
  have hfront : (data.take off).length = off := List.length_take_of_le (by omega)
  rw [read, overwrite, List.append_assoc, List.drop_append_of_le_length (by omega),
    List.drop_of_length_le (by omega), List.nil_append, List.take_left]

theorem read_overwrite_before (h : pos + n ≤ off) (hoff : off ≤ data.length) :
    read (overwrite data off bytes) pos n = read data pos n :=
  read_congr (take_overwrite h hoff) (Nat.le_refl _)

theorem read_overwrite_behind (hoff : off + bytes.length ≤ data.length)
    (h : off + bytes.length ≤ pos) :
    read (overwrite data off bytes) pos n = read data pos n := by
  have hfront : (data.take off ++ bytes).length = off + bytes.length := by
    rw [List.length_append, List.length_take]
    omega
  have hdrop : (overwrite data off bytes).drop pos = data.drop pos := by
    rw [overwrite, List.drop_append, List.drop_of_length_le (by omega), List.nil_append,
      List.drop_drop, hfront]
    congr 1
    omega
  rw [read, hdrop, read]

/-! ## Words -/

theorem wordOf_wordBytes (hw : w < 2 ^ 32) : wordOf (wordBytes w) = w := by
  simp only [wordBytes, wordOf, UInt8.toNat_ofNat']
  omega

theorem loadWord_storeWord (h : off + 4 ≤ data.length) (hw : w < 2 ^ 32) :
    loadWord (storeWord data off w) off = w := by
  rw [loadWord, storeWord, show 4 = (wordBytes w).length from rfl, read_overwrite h,
    wordOf_wordBytes hw]

end Memory
