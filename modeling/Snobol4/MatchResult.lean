import Snobol4.VmPath

/-!
# MatchResult — captures in a match record (`api.c`)

After a search the variables of the VM are noted in the match record as offsets and
lengths; `snobol_match_get_variable` copies the text of a register when it is first asked
for.
-/

namespace Snobol4

/-- `SNOBOL_API_MAX_VARS` -/
def apiMaxVars : Nat := 64

/-- `snobol_match_t` without its output.  A pointer into the subject is the rest of the
subject. -/
structure SnobolMatch where
  success : Bool
  position : Nat
  length : Nat
  varCount : Nat
  varSubject : Option Bytes
  varOff : Nat → Nat
  varLen : Nat → Nat
  varValues : Nat → Option Bytes
  varLens : Nat → Nat

/-- A zeroed record. -/
def SnobolMatch.zero : SnobolMatch where
  success := false
  position := 0
  length := 0
  varCount := 0
  varSubject := none
  varOff _ := 0
  varLen _ := 0
  varValues _ := none
  varLens _ := 0

/-- `match_store_capture` -/
def matchStoreCapture (m : SnobolMatch) (subject : Bytes) (i vs ve subjectLen : Nat) : SnobolMatch :=
  if ve ≤ vs ∨ subjectLen < ve then m
  else
    { m with
      varSubject := some subject
      varOff := Function.update m.varOff i vs
      varLen := Function.update m.varLen i (ve - vs)
      varValues := Function.update m.varValues i none
      varLens := Function.update m.varLens i 0 }

/-- The loop that stores the first variables; `window` starts at the match. -/
def storeCaptures (window : Bytes) (regs : Regs) : Nat → SnobolMatch → SnobolMatch
  | 0, m => m
  | n + 1, m =>
      matchStoreCapture (storeCaptures window regs n m) window n (regs.varStart n) (regs.varEnd n)
        window.length

/-- The record that `snobol_pattern_match` and `snobol_pattern_search` return for a search
that found `[start, stop)` and left the VM with these registers. -/
def matchFound (subject : Bytes) (start stop : Nat) (regs : Regs) : SnobolMatch :=
  storeCaptures (subject.drop start) regs (min regs.varCount apiMaxVars)
    { SnobolMatch.zero with
      success := true
      position := start
      length := stop - start
      varCount := min regs.varCount apiMaxVars }

/-! ## Register names -/

/-- `isspace` -/
def isSpaceByte (b : UInt8) : Bool := b == 0x20 || (0x09 ≤ b && b ≤ 0x0D)

/-- `isdigit` -/
def isDigitByte (b : UInt8) : Bool := 0x30 ≤ b && b ≤ 0x39

/-- The number that decimal digits write. -/
def ofDigits (digits : Bytes) : Nat := digits.foldl (fun n d => n * 10 + (d - 0x30).toNat) 0

/-- The digits of `strtol`, kept in the range of `long`; without a digit nothing is read. -/
def strtolDigits (negative : Bool) (s : Bytes) : Option Int :=
  match s.takeWhile isDigitByte with
  | [] => none
  | digits =>
      if negative then some (-(min (ofDigits digits) (2 ^ 63) : Nat))
      else some (min (ofDigits digits) (2 ^ 63 - 1) : Nat)

/-- `strtol` in base 10 -/
def strtol (s : Bytes) : Option Int :=
  match s.dropWhile isSpaceByte with
  | 0x2D :: rest => strtolDigits true rest
  | 0x2B :: rest => strtolDigits false rest
  | rest => strtolDigits false rest

/-- The register that a variable name means. -/
def registerOfName (name : Bytes) : Option Nat :=
  match strtol (if name.head? = some 0x76 then name.drop 1 else name) with
  | none => none
  | some idx => if idx < 0 ∨ apiMaxVars < idx then none else some idx.toNat

/-- The decimal name of a register, with or without the "v". -/
def registerName (withV : Bool) (r : Nat) : Bytes :=
  (if withV then [0x76] else []) ++ (Nat.toDigits 10 r).map fun c => c.toNat.toUInt8

theorem registerOfName_registerName (withV : Bool) (r : Fin maxCaps) :
    registerOfName (registerName withV r) = some r.val := by
  revert withV r
  decide

/-! ## Asking for a variable -/

/-- The text of a register as the caller gets it. -/
def SnobolMatch.text (m : SnobolMatch) (i : Nat) : Option Bytes :=
  match m.varValues i with
  | some value => some (value.take (m.varLens i))
  | none => m.varSubject.map fun subject => (subject.drop (m.varOff i)).take (m.varLen i)

/-- Copy the text of a register, if that has not been done. -/
def SnobolMatch.materialize (m : SnobolMatch) (i : Nat) : SnobolMatch :=
  match m.varValues i, m.varSubject with
  | none, some subject =>
      { m with
        varValues :=
          Function.update m.varValues i (some ((subject.drop (m.varOff i)).take (m.varLen i)))
        varLens := Function.update m.varLens i (m.varLen i) }
  | _, _ => m

/-- `snobol_match_get_variable`: the bytes at the pointer returned, and the record with the
copy. -/
def snobolMatchGetVariable (m : SnobolMatch) (name : Bytes) : Option Bytes × SnobolMatch :=
  if m.success then
    match registerOfName name with
    | none => (none, m)
    | some i =>
        if m.varCount ≤ i then (none, m)
        else
          ((m.materialize i).varValues i |>.map (·.take ((m.materialize i).varLens i)), m.materialize i)
  else (none, m)

namespace SnobolMatch

variable (m : SnobolMatch)

theorem materialize_of_value {i : Nat} {value : Bytes} (h : m.varValues i = some value) :
    m.materialize i = m := by
  unfold materialize
  rw [h]

theorem materialize_of_no_subject {i : Nat} (h : m.varSubject = none) : m.materialize i = m := by
  unfold materialize
  rw [h]
  cases m.varValues i <;> rfl

theorem materialize_success (i : Nat) : (m.materialize i).success = m.success := by
  unfold materialize
  split <;> rfl

theorem materialize_varCount (i : Nat) : (m.materialize i).varCount = m.varCount := by
  unfold materialize
  split <;> rfl

/-- Copying a register changes no text. -/
theorem materialize_text (i j : Nat) : (m.materialize i).text j = m.text j := by
  cases hvalue : m.varValues i with
  | some value => rw [m.materialize_of_value hvalue]
  | none =>
    cases hsubject : m.varSubject with
    | none => rw [m.materialize_of_no_subject hsubject]
    | some subject =>
      unfold materialize text
      simp only [hvalue, hsubject]
      by_cases hij : j = i
      · subst hij
        simp only [Function.update_self, hvalue, Option.map_some, List.take_take, Nat.min_self]
      · simp only [Function.update_of_ne hij]

/-- What is handed out is the text. -/
theorem materialize_value (i : Nat) :
    ((m.materialize i).varValues i).map (·.take ((m.materialize i).varLens i)) = m.text i := by
  cases hvalue : m.varValues i with
  | some value =>
    rw [m.materialize_of_value hvalue]
    unfold text
    rw [hvalue]
    rfl
  | none =>
    cases hsubject : m.varSubject with
    | none =>
      rw [m.materialize_of_no_subject hsubject]
      unfold text
      rw [hvalue, hsubject]
      rfl
    | some subject =>
      unfold materialize text
      simp only [hvalue, hsubject, Function.update_self, Option.map_some, List.take_take,
        Nat.min_self]

end SnobolMatch

theorem snobolMatchGetVariable_eq (m : SnobolMatch) (withV : Bool) (r : Fin maxCaps) :
    (snobolMatchGetVariable m (registerName withV r)).1 =
      if m.success = true ∧ (r : Nat) < m.varCount then m.text r else none := by
  unfold snobolMatchGetVariable
  rw [registerOfName_registerName]
  by_cases hsuccess : m.success = true
  · by_cases hr : (r : Nat) < m.varCount
    · simp only [if_pos hsuccess, if_neg (Nat.not_le_of_lt hr), if_pos (And.intro hsuccess hr)]
      exact m.materialize_value r
    · simp only [if_pos hsuccess, if_pos (Nat.le_of_not_lt hr)]
      rw [if_neg fun h => hr h.2]
  · rw [if_neg hsuccess, if_neg fun h => hsuccess h.1]

/-- The record after these variables have been asked for. -/
def askedFor (m : SnobolMatch) (names : List Bytes) : SnobolMatch :=
  names.foldl (fun m name => (snobolMatchGetVariable m name).2) m

/-- Asking for variables changes no answer. -/
theorem askedFor_text (m : SnobolMatch) (names : List Bytes) :
    (askedFor m names).success = m.success ∧ (askedFor m names).varCount = m.varCount ∧
      ∀ i, (askedFor m names).text i = m.text i := by
  induction names generalizing m with
  | nil => exact ⟨rfl, rfl, fun _ => rfl⟩
  | cons name names ih =>
    have hone : (snobolMatchGetVariable m name).2 = m ∨
        ∃ i, (snobolMatchGetVariable m name).2 = m.materialize i := by
      unfold snobolMatchGetVariable
      split
      · split
        · exact .inl rfl
        · split
          · exact .inl rfl
          · exact .inr ⟨_, rfl⟩
      · exact .inl rfl
    obtain ⟨hsuccess, hcount, htext⟩ := ih (snobolMatchGetVariable m name).2
    unfold askedFor at hsuccess hcount htext ⊢
    rw [List.foldl_cons]
    obtain heq | ⟨i, heq⟩ := hone
    · rw [heq] at hsuccess hcount htext ⊢
      exact ⟨hsuccess, hcount, htext⟩
    · rw [heq] at hsuccess hcount htext ⊢
      exact ⟨hsuccess.trans (m.materialize_success i), hcount.trans (m.materialize_varCount i),
        fun j => (htext j).trans (m.materialize_text i j)⟩

/-! ## What is stored -/

/-- The variable is stored: it is not empty and lies in the window. -/
def Regs.Stored (regs : Regs) (window : Bytes) (i : Nat) : Prop :=
  regs.varStart i < regs.varEnd i ∧ regs.varEnd i ≤ window.length

instance (regs : Regs) (window : Bytes) (i : Nat) : Decidable (regs.Stored window i) :=
  inferInstanceAs (Decidable (_ ∧ _))

theorem matchStoreCapture_of_stored {regs : Regs} {window : Bytes} {i : Nat} (h : regs.Stored window i)
    (m : SnobolMatch) :
    matchStoreCapture m window i (regs.varStart i) (regs.varEnd i) window.length =
      { m with
        varSubject := some window
        varOff := Function.update m.varOff i (regs.varStart i)
        varLen := Function.update m.varLen i (regs.varEnd i - regs.varStart i)
        varValues := Function.update m.varValues i none
        varLens := Function.update m.varLens i 0 } := by
  have hstored := h
  unfold Regs.Stored at hstored
  unfold matchStoreCapture
  rw [if_neg (by omega)]

theorem matchStoreCapture_of_not_stored {regs : Regs} {window : Bytes} {i : Nat}
    (h : ¬regs.Stored window i) (m : SnobolMatch) :
    matchStoreCapture m window i (regs.varStart i) (regs.varEnd i) window.length = m := by
  unfold Regs.Stored at h
  unfold matchStoreCapture
  rw [if_pos (by omega)]

/-- The record after the first `n` variables. -/
theorem storeCaptures_spec (window : Bytes) (regs : Regs) (n : Nat) {m : SnobolMatch}
    (hvalues : m.varValues = fun _ => none) (hsubject : m.varSubject = none)
    (hlen : m.varLen = fun _ => 0) :
    (storeCaptures window regs n m).success = m.success ∧
      (storeCaptures window regs n m).varCount = m.varCount ∧
      (storeCaptures window regs n m).varValues = (fun _ => none) ∧
      ((storeCaptures window regs n m).varSubject =
        if ∃ i < n, regs.Stored window i then some window else none) ∧
      ∀ i, (i < n ∧ regs.Stored window i → (storeCaptures window regs n m).varOff i = regs.varStart i ∧
          (storeCaptures window regs n m).varLen i = regs.varEnd i - regs.varStart i) ∧
        (¬(i < n ∧ regs.Stored window i) → (storeCaptures window regs n m).varLen i = 0) := by
  induction n with
  | zero =>
    refine ⟨rfl, rfl, hvalues, ?_, fun i => ⟨?_, fun _ => congrFun hlen i⟩⟩
    · rw [if_neg (by simp)]
      exact hsubject
    · rintro ⟨hi, -⟩
      cases hi
  | succ n ih =>
    obtain ⟨hsuccess, hcount, hnone, hsub, hregs⟩ := ih
    rw [storeCaptures]
    by_cases hstored : regs.Stored window n
    · rw [matchStoreCapture_of_stored hstored]
      refine ⟨hsuccess, hcount, ?_, ?_, fun i => ?_⟩
      · simp only [hnone]
        exact Function.update_eq_self n _
      · rw [if_pos ⟨n, Nat.lt_succ_self n, hstored⟩]
      · by_cases hi : i = n
        · subst hi
          exact ⟨fun _ => ⟨Function.update_self .., Function.update_self ..⟩,
            fun hnot => absurd ⟨Nat.lt_succ_self i, hstored⟩ hnot⟩
        · simp only [Function.update_of_ne hi]
          refine ⟨fun h => (hregs i).1 ⟨by omega, h.2⟩, fun hnot => (hregs i).2 fun h => hnot ⟨by omega, h.2⟩⟩
    · rw [matchStoreCapture_of_not_stored hstored]
      have hsame : ∀ i, (i < n + 1 ∧ regs.Stored window i) ↔ (i < n ∧ regs.Stored window i) := by
        intro i
        constructor
        · rintro ⟨hi, h⟩
          have hne : i ≠ n := by
            rintro rfl
            exact hstored h
          exact ⟨by omega, h⟩
        · rintro ⟨hi, h⟩
          exact ⟨by omega, h⟩
      refine ⟨hsuccess, hcount, hnone, ?_, fun i => ?_⟩
      · simp only [hsame]
        exact hsub
      · simp only [hsame]
        exact hregs i

theorem matchFound_fields (subject : Bytes) (start stop : Nat) (regs : Regs) :
    (matchFound subject start stop regs).success = true ∧
      (matchFound subject start stop regs).varCount = min regs.varCount apiMaxVars := by
  obtain ⟨hsuccess, hcount, -⟩ := storeCaptures_spec (subject.drop start) regs
    (min regs.varCount apiMaxVars)
    (m := { SnobolMatch.zero with
      success := true
      position := start
      length := stop - start
      varCount := min regs.varCount apiMaxVars }) rfl rfl rfl
  exact ⟨hsuccess, hcount⟩

/-- What a register of a record is, once the variables are stored. -/
theorem matchFound_text (subject : Bytes) (start stop : Nat) (regs : Regs) (i : Nat) :
    (matchFound subject start stop regs).text i =
      if i < min regs.varCount apiMaxVars ∧ regs.Stored (subject.drop start) i then
        some (slice (subject.drop start) (regs.varStart i) (regs.varEnd i))
      else if ∃ j < min regs.varCount apiMaxVars, regs.Stored (subject.drop start) j then some []
      else none := by
  obtain ⟨-, -, hnone, hsubject, hregs⟩ := storeCaptures_spec (subject.drop start) regs
    (min regs.varCount apiMaxVars)
    (m := { SnobolMatch.zero with
      success := true
      position := start
      length := stop - start
      varCount := min regs.varCount apiMaxVars }) rfl rfl rfl
  unfold matchFound SnobolMatch.text
  simp only [hnone, hsubject]
  by_cases hi : i < min regs.varCount apiMaxVars ∧ regs.Stored (subject.drop start) i
  · obtain ⟨hoff, hlen⟩ := (hregs i).1 hi
    rw [if_pos hi, if_pos ⟨i, hi⟩, hoff, hlen]
    rfl
  · rw [if_neg hi, (hregs i).2 hi]
    split
    · rw [Option.map_some, List.take_zero]
    · rfl

/-- The text that `snobol_match_get_variable` hands out: that of the variable if it is stored, and
an empty one if only others are.  What has been asked for before does not matter. -/
theorem snobolMatchGetVariable_eq_some_iff (subject : Bytes) (start stop : Nat) (regs : Regs)
    (asked : List Bytes) (withV : Bool) (r : Fin maxCaps) (text : Bytes) :
    (snobolMatchGetVariable (askedFor (matchFound subject start stop regs) asked)
        (registerName withV r)).1 = some text ↔
    (r : Nat) < regs.varCount ∧
      (regs.Stored (subject.drop start) r ∧
          slice (subject.drop start) (regs.varStart r) (regs.varEnd r) = text ∨
        ¬regs.Stored (subject.drop start) r ∧ text = [] ∧
          ∃ i < min regs.varCount apiMaxVars, regs.Stored (subject.drop start) i) := by
  obtain ⟨hsuccess, hcount, htext⟩ := askedFor_text (matchFound subject start stop regs) asked
  obtain ⟨hfound, hvars⟩ := matchFound_fields subject start stop regs
  have hmax : maxCaps = apiMaxVars := rfl
  have hr := r.isLt
  rw [snobolMatchGetVariable_eq, htext, matchFound_text, hsuccess, hcount, hfound, hvars]
  by_cases hlt : (r : Nat) < regs.varCount
  · have hmin : (r : Nat) < min regs.varCount apiMaxVars := by omega
    rw [if_pos ⟨rfl, hmin⟩]
    by_cases hstored : regs.Stored (subject.drop start) r
    · rw [if_pos ⟨hmin, hstored⟩]
      simp [hlt, hstored]
    · rw [if_neg fun h => hstored h.2]
      split
      · rename_i hsome
        rw [Option.some.injEq, eq_comm]
        simp only [hlt, hstored, hsome, true_and, false_and, false_or, not_false_eq_true, and_true]
      · rename_i hnothing
        simp only [hlt, hstored, hnothing, false_and, false_or, and_false, reduceCtorEq]
  · rw [if_neg fun h => hlt (by omega)]
    simp [hlt]

/-- The code of `(@r0('a') 'x' | @r0('ab')) @r1('')`. -/
def pairThenEmpty : Bytes :=
  [3, 0, 0, 0, 9, 0, 0, 0, 38, 9, 0, 4, 0, 0, 0, 20, 0, 0, 0, 1, 97, 10, 0, 4, 0, 0, 0, 32, 0, 0, 0, 1,
   120, 2, 0, 0, 0, 53, 9, 0, 4, 0, 0, 0, 49, 0, 0, 0, 2, 97, 98, 10, 0, 9, 1, 4, 0, 0, 0, 64, 0, 0, 0,
   0, 10, 1, 0, 0, 0, 0, 0, 0, 0, 0, 0, 83, 78, 66, 76]

def pairThenEmptyEnv : VmEnv Unit := VmEnv.ofCode pairThenEmpty [0x61, 0x62] .bare

/-- The last state of the run on "ab". -/
def pairThenEmptyLast : Walked Unit :=
  walkSteps pairThenEmptyEnv 11 ⟨vmRunStart (vmExecStart (.zero ⟨[], ()⟩)), [], []⟩

/-- The code of `@r0('') 'a'`. -/
def emptyThenLetter : Bytes :=
  [9, 0, 4, 0, 0, 0, 11, 0, 0, 0, 0, 10, 0, 4, 0, 0, 0, 22, 0, 0, 0, 1, 97, 0, 0, 0, 0, 0, 0, 0, 0, 0,
   83, 78, 66, 76]

end Snobol4
