import Mathlib.Data.List.Count
import Mathlib.Algebra.Ring.Nat

/-!
# References — objects with reference counts

An object is free while its count is 0.  References are taken and given back one at a time,
and neither may be done to an object that is free.  The owners stand in cells, and what they hold
of an object together is a sum over the cells.
-/

namespace References

variable {α : Type} [DecidableEq α]

/-- Take a reference; the count stays below the limit. -/
def retain (limit : Nat) (counts : α → Nat) (a : α) : Option (α → Nat) :=
  if counts a = 0 ∨ limit ≤ counts a + 1 then none
  else some (Function.update counts a (counts a + 1))

/-- Give a reference back. -/
def release (counts : α → Nat) (a : α) : Option (α → Nat) :=
  if counts a = 0 then none else some (Function.update counts a (counts a - 1))

/-- Take references one after the other. -/
def retainAll (limit : Nat) : (α → Nat) → List α → Option (α → Nat)
  | counts, [] => some counts
  | counts, a :: as => (retain limit counts a).bind (retainAll limit · as)

/-- Give references back one after the other. -/
def releaseAll : (α → Nat) → List α → Option (α → Nat)
  | counts, [] => some counts
  | counts, a :: as => (release counts a).bind (releaseAll · as)

variable {limit : Nat} {counts : α → Nat} {as : List α}

/-- References to objects that are not free can be taken while there is room. -/
theorem retainAll_eq (hfree : ∀ a ∈ as, 0 < counts a)
    (hroom : ∀ a ∈ as, counts a + as.count a < limit) :
    retainAll limit counts as = some fun a => counts a + as.count a := by
  induction as generalizing counts with
  | nil => rfl
  | cons a as ih =>
    have hhead := hroom a List.mem_cons_self
    have hpos := hfree a List.mem_cons_self
    rw [List.count_cons_self] at hhead
    rw [retainAll, retain, if_neg (by omega), Option.bind_some, ih]
    · congr 1
      funext b
      rw [List.count_cons]
      by_cases hb : b = a
      · subst hb
        rw [Function.update_self, beq_self_eq_true, if_pos rfl]
        omega
      · rw [Function.update_of_ne hb, if_neg (by simpa using Ne.symm hb), Nat.add_zero]
    · intro b hb
      have hold := hfree b (List.mem_cons_of_mem a hb)
      by_cases hba : b = a
      · subst hba
        rw [Function.update_self]
        omega
      · rwa [Function.update_of_ne hba]
    · intro b hb
      have hold := hroom b (List.mem_cons_of_mem a hb)
      rw [List.count_cons] at hold
      by_cases hba : b = a
      · subst hba
        rw [beq_self_eq_true, if_pos rfl] at hold
        rw [Function.update_self]
        omega
      · rw [Function.update_of_ne hba]
        omega

/-- References that are counted can be given back. -/
theorem releaseAll_eq (h : ∀ a ∈ as, as.count a ≤ counts a) :
    releaseAll counts as = some fun a => counts a - as.count a := by
  induction as generalizing counts with
  | nil => rfl
  | cons a as ih =>
    have hhead := h a List.mem_cons_self
    rw [List.count_cons_self] at hhead
    rw [releaseAll, release, if_neg (by omega), Option.bind_some, ih]
    · congr 1
      funext b
      rw [List.count_cons]
      by_cases hb : b = a
      · subst hb
        rw [Function.update_self, beq_self_eq_true, if_pos rfl]
        omega
      · rw [Function.update_of_ne hb, if_neg (by simpa using Ne.symm hb), Nat.add_zero]
    · intro b hb
      have hold := h b (List.mem_cons_of_mem a hb)
      rw [List.count_cons] at hold
      by_cases hba : b = a
      · subst hba
        rw [beq_self_eq_true, if_pos rfl] at hold
        rw [Function.update_self]
        omega
      · rw [Function.update_of_ne hba]
        omega

/-! ## Owners -/

section

variable {O : Type} (holds : O → List α)

/-- What one cell holds of an object. -/
def heldBy (a : α) (cell : Option O) : Nat := cell.elim 0 fun o => (holds o).count a

/-- What the owners hold of an object. -/
def held (cells : List (Option O)) (a : α) : Nat := (cells.map (heldBy holds a)).sum

variable {cells : List (Option O)} {i : Nat} {cell : Option O}

/-- When a cell changes, what it held is gone and what it holds is there. -/
theorem held_set (h : cells[i]? = some cell) (new : Option O) (a : α) :
    held holds (cells.set i new) a + heldBy holds a cell =
      held holds cells a + heldBy holds a new := by
  induction cells generalizing i with
  | nil => cases h
  | cons c cells ih =>
    cases i with
    | zero =>
      cases h
      simp only [held, List.set_cons_zero, List.map_cons, List.sum_cons]
      omega
    | succ i =>
      have hrest := ih h
      simp only [held, List.set_cons_succ, List.map_cons, List.sum_cons] at hrest ⊢
      omega

/-- A cell holds no more than all of them. -/
theorem heldBy_le (h : cells[i]? = some cell) (a : α) : heldBy holds a cell ≤ held holds cells a := by
  have hnone := held_set holds h none a
  have hzero : heldBy holds a (none : Option O) = 0 := rfl
  omega

theorem held_replicate (n : Nat) (a : α) : held holds (List.replicate n none) a = 0 := by
  induction n with
  | zero => rfl
  | succ n ih =>
    rw [List.replicate_succ, held, List.map_cons, List.sum_cons]
    exact (Nat.zero_add _).trans ih

theorem held_eq_zero (h : ∀ cell ∈ cells, cell = none) (a : α) : held holds cells a = 0 := by
  rw [List.eq_replicate_of_mem h]
  exact held_replicate holds _ a

end

end References
