import Mathlib.Tactic.Ring
import Snobol4.Bytes
import Snobol4.Support.Occurrences

/-!
# Replace — replacing a text (`string_fn.c`)

The loop of `REPLACE` puts the new text where the old one stands under the cursor and copies a
byte elsewhere, so it writes the parts of the string between the leftmost occurrences, with the
new text between them.
-/

namespace Snobol4

open Occurrences

/-- The loop of `snobol_replace`, with the cursor and the bytes in `out`; every turn takes at
least one byte of the string. -/
def replaceLoop (str from' to' : Bytes) : Nat → Nat → Bytes → Nat × Bytes
  | 0, i, out => (i, out)
  | fuel + 1, i, out =>
      if i + from'.length ≤ str.length then
        if slice str i (i + from'.length) = from' then
          replaceLoop str from' to' fuel (i + from'.length) (out ++ to')
        else replaceLoop str from' to' fuel (i + 1) (out ++ slice str i (i + 1))
      else (i, out)

/-- `snobol_replace` -/
def snobolReplace (str from' to' : Bytes) : Bytes :=
  if from' = [] then str
  else
    let (i, out) := replaceLoop str from' to' (str.length + 1) 0 []
    -- the bytes that remain
    if i < str.length then out ++ str.drop i else out

section

variable {str from' to' : Bytes}

/-- The text stands under the cursor. -/
theorem prefix_drop_iff {i : Nat} :
    from' <+: str.drop i ↔ slice str i (i + from'.length) = from' := by
  rw [slice, Nat.add_sub_cancel_left, List.prefix_iff_eq_take]
  exact eq_comm

/-- From the cursor on the loop, with the bytes that remain, writes the parts. -/
theorem replaceLoop_parts (hne : from' ≠ []) (to' : Bytes) {fuel i : Nat} (hi : i ≤ str.length)
    (hfuel : str.length < i + fuel) (out : Bytes) :
    ∃ parts, Parts from' (str.drop i) parts ∧
      (replaceLoop str from' to' fuel i out).2 ++
          str.drop (replaceLoop str from' to' fuel i out).1 =
        out ++ to'.intercalate parts := by
  have hpos : 0 < from'.length := List.length_pos_iff.mpr hne
  induction fuel generalizing i out with
  | zero => exact absurd hi (Nat.not_le_of_lt hfuel)
  | succ fuel ih =>
    rw [replaceLoop]
    by_cases hroom : i + from'.length ≤ str.length
    · rw [if_pos hroom]
      by_cases hhere : slice str i (i + from'.length) = from'
      · rw [if_pos hhere]
        obtain ⟨parts, hparts, hloop⟩ := ih hroom (by omega) (out ++ to')
        obtain ⟨after, hafter⟩ := prefix_drop_iff.mpr hhere
        have hdrop : str.drop (i + from'.length) = after := by
          rw [← List.drop_drop, ← hafter, List.drop_left]
        rw [hdrop] at hparts
        refine ⟨[] :: parts, hafter ▸ hparts.here, ?_⟩
        rw [hloop, List.intercalate_cons_of_ne_nil hparts.ne_nil, List.nil_append,
          List.append_assoc]
      · rw [if_neg hhere]
        obtain ⟨parts, hparts, hloop⟩ :=
          @ih (i + 1) (by omega) (by omega) (out ++ slice str i (i + 1))
        obtain ⟨part, parts, rfl⟩ := List.exists_cons_of_ne_nil hparts.ne_nil
        have hlt : i < str.length := by omega
        have hdrop : str.drop i = str[i] :: str.drop (i + 1) := List.drop_eq_getElem_cons hlt
        have hbyte : slice str i (i + 1) = [str[i]] := by
          rw [slice, hdrop, Nat.add_sub_cancel_left]
          rfl
        have hnot : ¬ from' <+: str[i] :: str.drop (i + 1) := by
          rw [← hdrop, prefix_drop_iff]
          exact hhere
        refine ⟨(str[i] :: part) :: parts, hdrop ▸ hparts.later hnot, ?_⟩
        rw [hloop, hbyte, List.intercalate_cons_cons_left, List.append_assoc]
        rfl
    · -- the text is longer than the rest
      rw [if_neg hroom]
      refine ⟨[str.drop i], .of_short ?_, ?_⟩
      · rw [List.length_drop]
        omega
      · rw [List.intercalate_singleton]

theorem snobolReplace_eq (hne : from' ≠ []) {parts : List Bytes} (h : Parts from' str parts) :
    snobolReplace str from' to' = to'.intercalate parts := by
  obtain ⟨parts', hparts, hloop⟩ :=
    @replaceLoop_parts str from' hne to' (str.length + 1) 0 (Nat.zero_le _) (by omega) []
  obtain rfl := hparts.unique h
  rw [List.nil_append] at hloop
  rw [snobolReplace, if_neg hne]
  dsimp only
  split
  · exact hloop
  · rename_i hend
    rw [List.drop_eq_nil_of_le (Nat.le_of_not_lt hend), List.append_nil] at hloop
    exact hloop

end

/-- `REPLACE` puts the new text between the parts of the string, which are those between the
leftmost occurrences of the old one. -/
theorem snobolReplace_parts (str from' to' : Bytes) (hne : from' ≠ []) :
    ∃ parts, Parts from' str parts ∧ (∀ parts', Parts from' str parts' → parts' = parts) ∧
      str = from'.intercalate parts ∧ snobolReplace str from' to' = to'.intercalate parts ∧
      ((snobolReplace str from' to').length : Int) =
        str.length + ((parts.length - 1 : Nat) : Int) * (to'.length - from'.length) := by
  obtain ⟨parts, hparts, -⟩ :=
    @replaceLoop_parts str from' hne to' (str.length + 1) 0 (Nat.zero_le _) (by omega) []
  rw [List.drop_zero] at hparts
  have hreplaced : snobolReplace str from' to' = to'.intercalate parts :=
    snobolReplace_eq hne hparts
  refine ⟨parts, hparts, fun _ h => h.unique hparts, hparts.intercalate_eq.symm, hreplaced, ?_⟩
  have hstr := length_intercalate from' hparts.ne_nil
  rw [hparts.intercalate_eq] at hstr
  rw [hreplaced, length_intercalate to' hparts.ne_nil]
  push_cast
  rw [hstr]
  push_cast
  ring

/-- In `aaab` the first `aa` is replaced, and the `a` behind it is not. -/
theorem snobolReplace_parts_overlap :
    ∃ parts, Parts (ascii "aa") (ascii "aaab") parts ∧
      ascii "xab" = (ascii "x").intercalate parts := by
  obtain ⟨parts, hparts, -, -, hreplaced, -⟩ :=
    snobolReplace_parts (ascii "aaab") (ascii "aa") (ascii "x") (by decide)
  have hvalue : snobolReplace (ascii "aaab") (ascii "aa") (ascii "x") = ascii "xab" := by decide
  exact ⟨parts, hparts, hvalue.symm.trans hreplaced⟩

end Snobol4
