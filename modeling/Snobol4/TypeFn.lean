import Snobol4.Lexer
import Snobol4.Support.FirstSets

/-!
# TypeFn — the type predicates (`type_fn.c`)

The scanners of `INTEGER` and `REAL` go over the string with an index.  What may follow an
optional part never starts like it, so they accept exactly a product of languages.
-/

namespace Snobol4

open Computability FirstSets

/-! ## The scanners -/

/-- `'+'` or `'-'` -/
def isSign (c : UInt8) : Bool := c = ch '+' || c = ch '-'

/-- `'.'` -/
def isPoint (c : UInt8) : Bool := c = ch '.'

/-- `'e'` or `'E'` -/
def isExponent (c : UInt8) : Bool := c = ch 'e' || c = ch 'E'

/-- `i < len` and the byte at `i` passes the test. -/
def byteAt (str : Bytes) (p : UInt8 → Bool) (i : Nat) : Bool := str[i]?.any p

/-- The optional sign. -/
def skipSign (str : Bytes) (i : Nat) : Nat := if byteAt str isSign i then i + 1 else i

/-- `snobol_integer` -/
def snobolInteger (str : Bytes) : Bool :=
  if str = [] then false
  else
    let digitStart := skipSign str 0
    if str.length ≤ digitStart then false
    else
      let i := spanBytes str isDigit digitStart
      i = str.length && digitStart < i

/-- The optional decimal part of `snobol_real`. -/
def skipDecimals (str : Bytes) (i : Nat) : Nat :=
  if byteAt str isPoint i then spanBytes str isDigit (i + 1) else i

/-- `snobol_real` -/
def snobolReal (str : Bytes) : Bool :=
  if str = [] then false
  else
    let i := skipSign str 0
    if byteAt str isDigit i then
      let i := skipDecimals str (spanBytes str isDigit i)
      if byteAt str isExponent i then
        let i := skipSign str (i + 1)
        if byteAt str isDigit i then spanBytes str isDigit i = str.length else false
      else i = str.length
    else false

/-- `snobol_numeric` -/
def snobolNumeric (str : Bytes) : Bool := snobolInteger str || snobolReal str

/-! ## The languages -/

/-- One or more digits. -/
def digitRun : Language UInt8 := oneOf isDigit * (oneOf isDigit)∗

/-- An optional sign and digits. -/
def integers : Language UInt8 := optional (oneOf isSign) * digitRun

/-- An optional point with any digits behind it. -/
def decimals : Language UInt8 := optional (oneOf isPoint * (oneOf isDigit)∗)

/-- An optional exponent. -/
def exponents : Language UInt8 := optional (oneOf isExponent * integers)

/-- A sign, digits, decimals and an exponent, of which only the digits have to be there. -/
def reals : Language UInt8 := optional (oneOf isSign) * (digitRun * (decimals * exponents))

/-! ## Texts from an index on -/

section

variable {str : Bytes} {p : UInt8 → Bool} {l : Language UInt8} {i : Nat}

theorem startsWith_drop (str : Bytes) (p : UInt8 → Bool) (i : Nat) :
    startsWith p (str.drop i) = byteAt str p i := by
  rw [startsWith, List.head?_drop, byteAt]

theorem tail_drop (str : Bytes) (i : Nat) : (str.drop i).tail = str.drop (i + 1) :=
  List.tail_drop

theorem dropWhile_drop (str : Bytes) (p : UInt8 → Bool) (i : Nat) :
    (str.drop i).dropWhile p = str.drop (spanBytes str p i) := by
  have hsplit := @List.takeWhile_append_dropWhile _ p (str.drop i)
  calc (str.drop i).dropWhile p
      = ((str.drop i).takeWhile p ++ (str.drop i).dropWhile p).drop
          ((str.drop i).takeWhile p).length := List.drop_left.symm
    _ = str.drop (spanBytes str p i) := by rw [hsplit, List.drop_drop, spanBytes]

theorem byteAt_lt (h : byteAt str p i = true) : i < str.length := by
  obtain ⟨b, hb, -⟩ := exists_of_any h
  exact (List.getElem?_eq_some_iff.mp hb).1

/-- A byte that passes the test begins a run, which ends within the string. -/
theorem spanBytes_of_byteAt (h : byteAt str p i = true) :
    spanBytes str p i = spanBytes str p (i + 1) ∧ i < spanBytes str p i ∧
      spanBytes str p i ≤ str.length := by
  obtain ⟨b, hb, hp⟩ := exists_of_any h
  have hmore := spanBytes_more hb hp
  have hlt := byteAt_lt h
  refine ⟨hmore, ?_, ?_⟩
  · rw [hmore, spanBytes]
    omega
  · have hle := (List.takeWhile_sublist (l := str.drop i) p).length_le
    rw [List.length_drop] at hle
    rw [spanBytes]
    omega

theorem spanBytes_lt_iff : i < spanBytes str p i ↔ byteAt str p i = true := by
  constructor
  · intro hlt
    cases hget : str[i]? with
    | none =>
      rw [spanBytes_end p (List.getElem?_eq_none_iff.mp hget)] at hlt
      exact absurd hlt (Nat.lt_irrefl i)
    | some b =>
      cases hp : p b with
      | true => rw [byteAt, hget, Option.any_some, hp]
      | false =>
        rw [spanBytes_here hget hp] at hlt
        exact absurd hlt (Nat.lt_irrefl i)
  · intro h
    exact (spanBytes_of_byteAt h).2.1

theorem skipDecimals_le (hi : i ≤ str.length) : skipDecimals str i ≤ str.length := by
  unfold skipDecimals
  split
  · rename_i hpoint
    have hlt := byteAt_lt hpoint
    have hle := (List.takeWhile_sublist (l := str.drop (i + 1)) isDigit).length_le
    rw [List.length_drop] at hle
    rw [spanBytes]
    omega
  · exact hi

/-! ## What the symbols of a number are -/

theorem isDigit_of_other {c : UInt8}
    (h : isSign c = true ∨ isPoint c = true ∨ isExponent c = true) : isDigit c = false := by
  simp only [isSign, isPoint, isExponent, Bool.or_eq_true, decide_eq_true_eq] at h
  rcases h with (rfl | rfl) | rfl | rfl | rfl <;> decide

theorem not_isDigit {c : UInt8} (hc : isDigit c = true) : isSign c = false := by
  by_contra hsign
  rw [Bool.not_eq_false] at hsign
  rw [isDigit_of_other (.inl hsign)] at hc
  cases hc

theorem isPoint_of_isExponent {c : UInt8} (hc : isExponent c = true) : isPoint c = false := by
  rw [isExponent, Bool.or_eq_true, decide_eq_true_eq, decide_eq_true_eq] at hc
  rcases hc with rfl | rfl <;> decide

theorem avoids_exponents : Avoids isDigit exponents ∧ Avoids isPoint exponents := by
  constructor
  · exact .optional (.oneOf_mul fun c hc => isDigit_of_other (.inr (.inr hc)))
  · exact .optional (.oneOf_mul fun c hc => isPoint_of_isExponent hc)

theorem avoids_decimals : Avoids isDigit (decimals * exponents) := by
  apply Avoids.optional_mul _ avoids_exponents.1
  rw [mul_assoc]
  exact .oneOf_mul fun c hc => isDigit_of_other (.inr (.inl hc))

/-! ## The scanners and the languages -/

/-- Digits, as many as there are. -/
theorem mem_digits_mul (hl : Avoids isDigit l) :
    str.drop i ∈ digitRun * l ↔
      byteAt str isDigit i = true ∧ str.drop (spanBytes str isDigit i) ∈ l := by
  rw [digitRun, mul_assoc, mem_oneOf_mul, startsWith_drop, tail_drop, mem_star_mul hl,
    dropWhile_drop]
  apply and_congr_right
  intro hdigit
  rw [(spanBytes_of_byteAt hdigit).1]

theorem mem_sign_mul (hl : Avoids isSign l) :
    str.drop i ∈ optional (oneOf isSign) * l ↔ str.drop (skipSign str i) ∈ l := by
  rw [mem_optional_oneOf_mul hl, startsWith_drop, tail_drop, skipSign]
  split <;> rfl

/-- A digit is no sign. -/
theorem avoids_digits : Avoids isSign (digitRun * l) := by
  rw [digitRun, mul_assoc]
  exact .oneOf_mul fun c hc => not_isDigit hc

theorem mem_integers :
    str.drop i ∈ integers ↔
      byteAt str isDigit (skipSign str i) = true ∧
        spanBytes str isDigit (skipSign str i) = str.length := by
  rw [integers, ← mul_one digitRun, mem_sign_mul avoids_digits, mem_digits_mul .one,
    Language.mem_one, List.drop_eq_nil_iff]
  apply and_congr_right
  intro hdigit
  have hle := (spanBytes_of_byteAt hdigit).2.2
  exact ⟨fun h => Nat.le_antisymm hle h, fun h => Nat.le_of_eq h.symm⟩

theorem mem_decimals_mul :
    str.drop i ∈ decimals * exponents ↔ str.drop (skipDecimals str i) ∈ exponents := by
  rw [decimals, mem_optional_mul avoids_exponents.2, startsWith_drop, tail_drop,
    mem_star_mul avoids_exponents.1, dropWhile_drop, skipDecimals]
  split <;> rfl

theorem mem_exponents :
    str.drop i ∈ exponents ↔
      if byteAt str isExponent i = true then str.drop (i + 1) ∈ integers
      else str.length ≤ i := by
  rw [exponents, mem_optional_oneOf, startsWith_drop, tail_drop, List.drop_eq_nil_iff]

theorem mem_reals :
    str.drop i ∈ reals ↔
      byteAt str isDigit (skipSign str i) = true ∧
        str.drop (skipDecimals str (spanBytes str isDigit (skipSign str i))) ∈ exponents := by
  rw [reals, mem_sign_mul avoids_digits, mem_digits_mul avoids_decimals, mem_decimals_mul]

end

theorem byteAt_nil (p : UInt8 → Bool) (i : Nat) : byteAt [] p i = false := rfl

theorem snobolInteger_iff (str : Bytes) : snobolInteger str = true ↔ str ∈ integers := by
  have hmem := @mem_integers str 0
  rw [List.drop_zero] at hmem
  rw [hmem, snobolInteger]
  split
  · rename_i hnil
    rw [hnil, byteAt_nil]
    exact iff_of_false Bool.false_ne_true fun h => Bool.false_ne_true h.1
  · dsimp only
    split
    · -- nothing is behind the sign
      rename_i hend
      refine iff_of_false Bool.false_ne_true fun h => ?_
      exact absurd (byteAt_lt h.1) (Nat.not_lt_of_le hend)
    · rw [Bool.and_eq_true, decide_eq_true_eq, decide_eq_true_eq, spanBytes_lt_iff]
      exact and_comm

theorem snobolReal_iff (str : Bytes) : snobolReal str = true ↔ str ∈ reals := by
  have hmem := @mem_reals str 0
  rw [List.drop_zero] at hmem
  rw [hmem, snobolReal]
  split
  · rename_i hnil
    rw [hnil, byteAt_nil]
    exact iff_of_false Bool.false_ne_true fun h => Bool.false_ne_true h.1
  · dsimp only
    split
    · rename_i hdigit
      have hle := skipDecimals_le (spanBytes_of_byteAt hdigit).2.2
      rw [hdigit, and_iff_right rfl, mem_exponents]
      split
      · rw [mem_integers]
        split
        · rename_i hexponent
          rw [decide_eq_true_eq, and_iff_right hexponent]
        · rename_i hexponent
          exact iff_of_false Bool.false_ne_true fun h => hexponent h.1
      · rw [decide_eq_true_eq]
        exact ⟨fun h => Nat.le_of_eq h.symm, fun h => Nat.le_antisymm hle h⟩
    · rename_i hdigit
      exact iff_of_false Bool.false_ne_true fun h => hdigit h.1

/-- Every integer is a real. -/
theorem mem_reals_of_mem_integers {s : Bytes} (hs : s ∈ integers) : s ∈ reals := by
  have hone : ([] : Bytes) ∈ decimals * exponents :=
    Language.mem_mul.mpr ⟨[], mem_optional.mpr (.inl rfl), [], mem_optional.mpr (.inl rfl), rfl⟩
  rw [integers] at hs
  rw [reals, ← mul_assoc]
  exact Language.mem_mul.mpr ⟨s, hs, [], hone, List.append_nil s⟩

/-- The predicates accept the integers, the reals, and both, which are the reals. -/
theorem typePredicates_iff (str : Bytes) :
    (snobolInteger str = true ↔ str ∈ integers) ∧ (snobolReal str = true ↔ str ∈ reals) ∧
      (snobolNumeric str = true ↔ str ∈ integers ∨ str ∈ reals) ∧
      (snobolNumeric str = true ↔ snobolReal str = true) := by
  have hnumeric : snobolNumeric str = true ↔ str ∈ integers ∨ str ∈ reals := by
    rw [snobolNumeric, Bool.or_eq_true, snobolInteger_iff, snobolReal_iff]
  refine ⟨snobolInteger_iff str, snobolReal_iff str, hnumeric, ?_⟩
  rw [hnumeric, snobolReal_iff]
  exact or_iff_right_of_imp mem_reals_of_mem_integers

end Snobol4
