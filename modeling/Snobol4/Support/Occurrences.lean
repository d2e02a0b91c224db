import Mathlib.Data.List.Infix

/-!
# Occurrences — a list cut at the leftmost occurrences of another

The first part ends at the leftmost occurrence of the word, and the others are the parts of what
comes behind that occurrence, so no two occurrences overlap.  There is one way to cut a list.
-/

namespace Occurrences

variable {α : Type}

/-- The parts of a list between the occurrences of `w`, each of which is the leftmost in what is
left of the list. -/
inductive Parts (w : List α) : List α → List (List α) → Prop where
  | last {s : List α} (h : ¬ w <:+: s) : Parts w s [s]
  | hit {part rest : List α} {parts : List (List α)}
      (hfirst : ∀ before after, part ++ w ++ rest = before ++ w ++ after →
        part.length ≤ before.length)
      (h : Parts w rest parts) : Parts w (part ++ w ++ rest) (part :: parts)

namespace Parts

variable {w s : List α} {parts parts' : List (List α)}

theorem ne_nil (h : Parts w s parts) : parts ≠ [] := by
  cases h with
  | last | hit => exact List.cons_ne_nil _ _

/-- With the word between them the parts are the list. -/
theorem intercalate_eq (h : Parts w s parts) : w.intercalate parts = s := by
  induction h with
  | last => exact List.intercalate_singleton
  | hit _ h ih => rw [List.intercalate_cons_of_ne_nil h.ne_nil, ih]

theorem unique (h : Parts w s parts) (h' : Parts w s parts') : parts = parts' := by
  induction h generalizing parts' with
  | last hnone =>
    cases h' with
    | last => rfl
    | hit => exact absurd ⟨_, _, rfl⟩ hnone
  | @hit part rest parts hfirst h ih =>
    generalize hs : part ++ w ++ rest = s at h'
    cases h' with
    | last hnone =>
      rw [← hs] at hnone
      exact absurd ⟨_, _, rfl⟩ hnone
    | @hit part' rest' parts' hfirst' h' =>
      -- each of the two occurrences is no further right than the other
      have hlen : part.length = part'.length :=
        Nat.le_antisymm (hfirst _ _ hs) (hfirst' _ _ hs.symm)
      rw [List.append_assoc, List.append_assoc] at hs
      obtain ⟨rfl, htail⟩ := List.append_inj hs hlen
      obtain rfl := List.append_cancel_left htail
      rw [ih h']

/-! ## From the front of the list -/

/-- A list shorter than the word is one part. -/
theorem of_short (h : s.length < w.length) : Parts w s [s] := by
  apply last
  intro hinfix
  exact absurd hinfix.length_le (Nat.not_le_of_lt h)

/-- The word is in front. -/
theorem here (h : Parts w s parts) : Parts w (w ++ s) ([] :: parts) :=
  @hit _ w [] s parts (fun _ _ _ => Nat.zero_le _) h

/-- The word is not in front: the first part is longer by an element. -/
theorem later {c : α} {part : List α} (hnot : ¬ w <+: c :: s) (h : Parts w s (part :: parts)) :
    Parts w (c :: s) ((c :: part) :: parts) := by
  cases h with
  | last hnone =>
    apply last
    rintro ⟨before, after, heq⟩
    cases before with
    | nil => exact hnot ⟨after, heq⟩
    | cons d before =>
      cases heq
      exact hnone ⟨before, after, rfl⟩
  | @hit _ rest _ hfirst h =>
    refine @hit _ w (c :: part) rest parts ?_ h
    intro before after heq
    cases before with
    | nil => exact absurd ⟨after, heq.symm⟩ hnot
    | cons d before =>
      obtain ⟨-, htail⟩ := List.cons.inj heq
      exact Nat.succ_le_succ (hfirst before after htail)

end Parts

/-- Every word put between parts adds its length once less than there are parts. -/
theorem length_intercalate (w : List α) {parts : List (List α)} (h : parts ≠ []) :
    (w.intercalate parts).length =
      parts.flatten.length + (parts.length - 1) * w.length := by
  induction parts with
  | nil => exact absurd rfl h
  | cons part parts ih =>
    cases parts with
    | nil =>
      rw [List.intercalate_singleton, List.flatten_singleton, List.length_singleton, Nat.sub_self,
        Nat.zero_mul, Nat.add_zero]
    | cons part' parts =>
      rw [List.intercalate_cons_cons, List.length_append, List.length_append,
        ih (List.cons_ne_nil _ _)]
      simp only [List.flatten_cons, List.length_append, List.length_cons, Nat.add_sub_cancel,
        Nat.add_mul, Nat.one_mul]
      omega

end Occurrences
