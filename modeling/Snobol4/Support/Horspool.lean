import Mathlib.Data.List.Infix
import Mathlib.Tactic.Common

/-!
# Horspool — looking for a word in a text

A search for a word need not try every place of the text.  A scan goes on to the first place
that passes a test; the bad-character shift looks at the last letter of the window at a place,
and steps over the places at which the word has another letter there.
-/

namespace Horspool

variable {α : Type} {w v s : List α} {i j k : Nat} {a : α}

/-- The word stands in the text at a place. -/
def Stands (w s : List α) (i : Nat) : Prop := w <+: s.drop i

namespace Stands

theorem getElem? (h : Stands w s i) (hk : k < w.length) : s[i + k]? = w[k]? := by
  rw [← List.getElem?_drop, List.getElem?_eq_getElem hk]
  exact List.prefix_iff_getElem?.mp h k hk

theorem lt_length (h : Stands w s i) (hw : w ≠ []) : i < s.length := by
  have hlen := List.IsPrefix.length_le h
  have hpos := List.length_pos_of_ne_nil hw
  rw [List.length_drop] at hlen
  omega

/-- A word stands only where its prefixes stand. -/
theorem shorten (h : Stands w s i) (hpre : v <+: w) : Stands v s i := hpre.trans h

end Stands

/-! ## Scans -/

/-- The first of the `n` places from `i` on that passes the test. -/
def firstFrom (test : Nat → Bool) : Nat → Nat → Option Nat
  | 0, _ => none
  | n + 1, i => if test i then some i else firstFrom test n (i + 1)

/-- The places before the one found do not pass. -/
theorem firstFrom_skips {test : Nat → Bool} {n : Nat} (hij : i ≤ j) (hjn : j < i + n)
    (h : ∀ stop ∈ firstFrom test n i, j < stop) : test j = false := by
  induction n generalizing i with
  | zero => omega
  | succ n ih =>
    rw [firstFrom] at h
    by_cases hi : test i = true
    · rw [if_pos hi] at h
      have hlt := h i rfl
      omega
    · rw [if_neg hi] at h
      by_cases heq : j = i
      · rw [heq]
        exact Bool.eq_false_iff.mpr hi
      · exact ih (by omega) (by omega) h

theorem le_of_mem_firstFrom {test : Nat → Bool} {n stop : Nat} (h : stop ∈ firstFrom test n i) :
    i ≤ stop ∧ test stop = true := by
  induction n generalizing i with
  | zero => cases h
  | succ n ih =>
    rw [firstFrom] at h
    by_cases hi : test i = true
    · rw [if_pos hi] at h
      cases h
      exact ⟨Nat.le_refl _, hi⟩
    · rw [if_neg hi] at h
      obtain ⟨hle, htest⟩ := ih h
      exact ⟨Nat.le_of_succ_le hle, htest⟩

/-! ## Bad-character shifts -/

variable [DecidableEq α]

/-- The table after the first `n` letters of the word are entered. -/
def enter (w : List α) (n : Nat) : α → Nat :=
  (List.range n).foldl (fun table i a => if w[i]? = some a then w.length - 1 - i else table a)
    fun _ => w.length

/-- The shift for the last letter of a window: all letters of the word but the last one are
entered, later ones over earlier ones. -/
def shift (w : List α) : α → Nat := enter w (w.length - 1)

theorem enter_succ (w : List α) (n : Nat) (a : α) :
    enter w (n + 1) a = if w[n]? = some a then w.length - 1 - n else enter w n a := by
  rw [enter, List.range_succ, List.foldl_append]
  rfl

theorem enter_le_length (w : List α) (n : Nat) (a : α) : enter w n a ≤ w.length := by
  induction n with
  | zero => exact Nat.le_refl _
  | succ n ih =>
    rw [enter_succ]
    split
    · omega
    · exact ih

/-- A letter that is entered bounds the shift. -/
theorem enter_le {n : Nat} (hk : k < n) (h : w[k]? = some a) : enter w n a ≤ w.length - 1 - k := by
  induction n with
  | zero => cases hk
  | succ n ih =>
    rw [enter_succ]
    by_cases hn : w[n]? = some a
    · rw [if_pos hn]
      omega
    · rw [if_neg hn]
      have hne : k ≠ n := by
        rintro rfl
        exact hn h
      exact ih (by omega)

/-- The word stands at no place that a shift steps over. -/
theorem not_stands_of_lt_shift (hlast : s[i + w.length - 1]? = some a) (hij : i < j)
    (hlt : j < i + shift w a) : ¬Stands w s j := by
  intro hat
  have hle : shift w a ≤ w.length := enter_le_length w _ a
  -- the last letter of the window is letter `k` of the word at `j`
  obtain ⟨k, hk⟩ : ∃ k, j + k = i + w.length - 1 := ⟨i + w.length - 1 - j, by omega⟩
  have hletter : w[k]? = some a := by
    rw [← hat.getElem? (by omega), hk]
    exact hlast
  have hshift : shift w a ≤ w.length - 1 - k := enter_le (by omega) hletter
  omega

end Horspool
