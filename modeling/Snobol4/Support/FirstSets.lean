import Mathlib.Computability.Language

/-!
# FirstSets — reading a product of languages from the front

A scanner with one symbol of lookahead takes a symbol, a run of symbols or an optional part off
the front of a text.  It accepts a product of languages if what may come next never starts like
the part that is optional or repeated.
-/

namespace FirstSets

open Computability Language

variable {α : Type}

/-- One symbol that passes the test. -/
def oneOf (p : α → Bool) : Language α := {s | ∃ c, p c = true ∧ s = [c]}

/-- A text or nothing. -/
def optional (l : Language α) : Language α := 1 + l

/-- The text starts with a symbol that passes the test. -/
def startsWith (p : α → Bool) (s : List α) : Bool := s.head?.any p

/-- No text of the language starts with such a symbol. -/
def Avoids (p : α → Bool) (l : Language α) : Prop := ∀ s ∈ l, startsWith p s = false

section

variable {p q : α → Bool} {l m : Language α} {s : List α}

theorem mem_optional : s ∈ optional l ↔ s = [] ∨ s ∈ l := by
  rw [optional, mem_add, mem_one]

/-! ## What starts how -/

theorem Avoids.one : Avoids p (1 : Language α) := by
  intro s hs
  rw [(mem_one s).mp hs]
  rfl

theorem Avoids.oneOf_mul (h : ∀ c, q c = true → p c = false) : Avoids p (oneOf q * l) := by
  intro s hs
  obtain ⟨_, ⟨c, hc, rfl⟩, b, -, rfl⟩ := mem_mul.mp hs
  exact h c hc

theorem Avoids.optional_mul (h : Avoids p (l * m)) (hm : Avoids p m) :
    Avoids p (optional l * m) := by
  intro s hs
  obtain ⟨a, ha, b, hb, rfl⟩ := mem_mul.mp hs
  rcases mem_optional.mp ha with rfl | ha
  · exact hm b hb
  · exact h _ (mem_mul.mpr ⟨a, ha, b, hb, rfl⟩)

theorem Avoids.optional (h : Avoids p l) : Avoids p (optional l) := by
  intro s hs
  rcases mem_optional.mp hs with rfl | hs
  · rfl
  · exact h s hs

/-! ## Taking parts off the front -/

/-- A symbol is there, and the rest goes on. -/
theorem mem_oneOf_mul : s ∈ oneOf p * l ↔ startsWith p s = true ∧ s.tail ∈ l := by
  rw [mem_mul]
  constructor
  · rintro ⟨_, ⟨c, hc, rfl⟩, b, hb, rfl⟩
    exact ⟨hc, hb⟩
  · rintro ⟨hstart, htail⟩
    cases s with
    | nil => cases hstart
    | cons c s => exact ⟨[c], ⟨c, hstart, rfl⟩, s, htail, rfl⟩

/-- An optional part is there if it starts. -/
theorem mem_optional_mul (hm : Avoids p m) :
    s ∈ optional (oneOf p * l) * m ↔
      if startsWith p s = true then s.tail ∈ l * m else s ∈ m := by
  have hsplit : s ∈ optional (oneOf p * l) * m ↔ s ∈ m ∨ s ∈ oneOf p * (l * m) := by
    rw [optional, add_mul, one_mul, mul_assoc, mem_add]
  rw [hsplit, mem_oneOf_mul]
  by_cases hstart : startsWith p s = true
  · rw [if_pos hstart]
    constructor
    · rintro (hs | ⟨-, hs⟩)
      · rw [hm s hs] at hstart
        cases hstart
      · exact hs
    · intro hs
      exact .inr ⟨hstart, hs⟩
  · rw [if_neg hstart]
    exact or_iff_left fun h => hstart h.1

theorem mem_optional_oneOf : s ∈ FirstSets.optional (oneOf p * l) ↔
    if startsWith p s = true then s.tail ∈ l else s = [] := by
  have h := mem_optional_mul (l := l) (s := s) (Avoids.one (p := p))
  rwa [mul_one, mul_one, mem_one] at h

theorem mem_optional_oneOf_mul (hm : Avoids p m) :
    s ∈ optional (oneOf p) * m ↔ (if startsWith p s = true then s.tail else s) ∈ m := by
  have h := mem_optional_mul (l := 1) (s := s) hm
  rw [mul_one, one_mul] at h
  rw [h]
  split <;> exact Iff.rfl

/-- A run goes as far as it can. -/
theorem mem_star_mul (hl : Avoids p l) : s ∈ (oneOf p)∗ * l ↔ s.dropWhile p ∈ l := by
  have hone : (oneOf p)∗ * l = l + oneOf p * ((oneOf p)∗ * l) := by
    rw [← mul_assoc, ← one_add_self_mul_kstar_eq_kstar, add_mul, one_mul,
      one_add_self_mul_kstar_eq_kstar]
  induction s with
  | nil =>
    rw [hone, mem_add, mem_oneOf_mul]
    exact or_iff_left fun h => Bool.false_ne_true h.1
  | cons c s ih =>
    rw [hone, mem_add, mem_oneOf_mul]
    cases hc : p c with
    | true =>
      rw [List.dropWhile_cons_of_pos hc]
      refine Iff.trans ?_ ih
      constructor
      · rintro (hs | ⟨-, hs⟩)
        · have hnot : p c = false := hl _ hs
          rw [hc] at hnot
          cases hnot
        · exact hs
      · intro hs
        exact .inr ⟨hc, hs⟩
    | false =>
      rw [List.dropWhile_cons_of_neg (by rw [hc]; exact Bool.false_ne_true)]
      have hstart : startsWith p (c :: s) = false := hc
      rw [hstart]
      exact or_iff_left fun h => Bool.false_ne_true h.1

end

end FirstSets
