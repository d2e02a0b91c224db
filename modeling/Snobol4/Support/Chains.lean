import Mathlib.Data.List.Perm.Basic

/-!
# Chains — hash tables with chained buckets

A table is a list of buckets, each a chain of entries.  An entry stands in the bucket of its
home, so a lookup goes through one chain only; what the table holds is the entries of all
chains, and every operation changes these as one on a bag would.
-/

namespace Chains

variable {E : Type}

/-- Every entry is in the bucket of its home. -/
def Placed (home : E → Nat) (b : List (List E)) : Prop :=
  ∀ i chain, b[i]? = some chain → ∀ e ∈ chain, home e = i

/-- The first entry of a bucket that passes the test. -/
def find (b : List (List E)) (i : Nat) (p : E → Bool) : Option E := (b[i]?.getD []).find? p

/-- Put an entry at the front of a bucket. -/
def insert (b : List (List E)) (i : Nat) (e : E) : List (List E) := b.modify i (e :: ·)

/-- Take the first entry that passes the test out of a bucket. -/
def erase (b : List (List E)) (i : Nat) (p : E → Bool) : List (List E) := b.modify i (·.eraseP p)

/-- Take the first entry out of the first bucket that has one. -/
def pop : List (List E) → Option (E × List (List E))
  | [] => none
  | [] :: b => (pop b).map fun r => (r.1, [] :: r.2)
  | (e :: chain) :: b => some (e, chain :: b)

section

variable {home : E → Nat} {b b' : List (List E)} {i : Nat} {e : E} {p : E → Bool}

/-- A placed entry is in its bucket. -/
theorem Placed.mem (h : Placed home b) (he : e ∈ b.flatten) : e ∈ b[home e]?.getD [] := by
  obtain ⟨chain, hchain, he⟩ := List.mem_flatten.mp he
  obtain ⟨j, hj⟩ := List.getElem?_of_mem hchain
  rw [h j chain hj e he, hj]
  exact he

theorem mem_flatten_of_bucket (he : e ∈ b[i]?.getD []) : e ∈ b.flatten := by
  cases hb : b[i]? with
  | none =>
    rw [hb] at he
    cases he
  | some chain =>
    rw [hb] at he
    exact List.mem_flatten.mpr ⟨chain, List.mem_of_getElem? hb, he⟩

/-- A lookup finds an entry of the table that passes the test. -/
theorem find_spec (h : find b i p = some e) : e ∈ b.flatten ∧ p e = true :=
  ⟨mem_flatten_of_bucket (List.mem_of_find?_eq_some h), List.find?_some h⟩

/-- It finds one if there is one with this home. -/
theorem find_ne_none (h : Placed home b) (he : e ∈ b.flatten) (hhome : home e = i)
    (hp : p e = true) : find b i p ≠ none := by
  intro hnone
  have hmem := h.mem he
  rw [hhome] at hmem
  exact List.find?_eq_none.mp hnone e hmem hp

/-- One bucket changes, and what comes into it has its home there. -/
theorem Placed.modify (h : Placed home b) {f : List E → List E}
    (hf : ∀ chain, ∀ x ∈ f chain, x ∈ chain ∨ home x = i) : Placed home (b.modify i f) := by
  intro j chain hj x hx
  rw [List.getElem?_modify] at hj
  obtain ⟨old, hold, rfl⟩ := Option.map_eq_some_iff.mp hj
  by_cases heq : i = j
  · rw [if_pos heq] at hx
    rcases hf old x hx with hx | hhome
    · exact h j old hold x hx
    · exact hhome.trans heq
  · rw [if_neg heq] at hx
    exact h j old hold x hx

/-! ## Inserting -/

theorem length_insert : (insert b i e).length = b.length := List.length_modify ..

theorem insert_perm (hi : i < b.length) : (insert b i e).flatten.Perm (e :: b.flatten) := by
  unfold insert
  induction b generalizing i with
  | nil => cases hi
  | cons chain b ih =>
    cases i with
    | zero =>
      rw [List.modify_zero_cons, List.flatten_cons, List.flatten_cons]
      exact .refl _
    | succ i =>
      rw [List.modify_succ_cons, List.flatten_cons, List.flatten_cons]
      exact ((ih (Nat.lt_of_succ_lt_succ hi)).append_left chain).trans List.perm_middle

theorem Placed.insert (h : Placed home b) (he : home e = i) : Placed home (insert b i e) := by
  apply h.modify
  intro chain x hx
  rcases List.mem_cons.mp hx with rfl | hx
  · exact .inr he
  · exact .inl hx

/-! ## Erasing -/

theorem length_erase : (erase b i p).length = b.length := List.length_modify ..

/-- The entry found is the one that is taken out. -/
theorem erase_perm (h : find b i p = some e) : b.flatten.Perm (e :: (erase b i p).flatten) := by
  unfold find erase at *
  induction b generalizing i with
  | nil => cases h
  | cons chain b ih =>
    cases i with
    | zero =>
      rw [List.modify_zero_cons, List.flatten_cons, List.flatten_cons, ← List.cons_append]
      refine List.Perm.append_right _ ?_
      -- the chain splits at the entry that is found, and no earlier one passes the test
      obtain ⟨hp, as, bs, rfl, has⟩ := List.find?_eq_some_iff_append.mp h
      have herase : (as ++ e :: bs).eraseP p = as ++ bs := by
        rw [List.eraseP_append_right _ (by simpa using has), List.eraseP_cons_of_pos hp]
      show (as ++ e :: bs).Perm (e :: (as ++ e :: bs).eraseP p)
      rw [herase]
      exact List.perm_middle
    | succ i =>
      rw [List.modify_succ_cons, List.flatten_cons, List.flatten_cons]
      exact ((ih h).append_left chain).trans List.perm_middle

theorem Placed.erase (h : Placed home b) (p : E → Bool) : Placed home (erase b i p) := by
  apply h.modify
  intro chain x hx
  exact .inl (List.mem_of_mem_eraseP hx)

/-! ## Taking any entry -/

theorem pop_some (h : pop b = some (e, b')) :
    b.flatten = e :: b'.flatten ∧ b'.length = b.length := by
  induction b generalizing b' with
  | nil => cases h
  | cons chain b ih =>
    cases chain with
    | nil =>
      obtain ⟨⟨e', b''⟩, hpop, heq⟩ := Option.map_eq_some_iff.mp h
      cases heq
      obtain ⟨hflat, hlen⟩ := ih hpop
      exact ⟨hflat, congrArg (· + 1) hlen⟩
    | cons e' chain =>
      cases h
      exact ⟨rfl, rfl⟩

theorem pop_none (h : pop b = none) : b.flatten = [] := by
  induction b with
  | nil => rfl
  | cons chain b ih =>
    cases chain with
    | nil => exact ih (Option.map_eq_none_iff.mp h)
    | cons e chain => cases h

theorem Placed.pop (h : Placed home b) (hpop : pop b = some (e, b')) : Placed home b' := by
  -- no chain gets longer, and none moves
  suffices hgen : ∀ j chain', b'[j]? = some chain' →
      ∃ chain, b[j]? = some chain ∧ ∀ x ∈ chain', x ∈ chain by
    intro j chain' hj x hx
    obtain ⟨chain, hchain, hsub⟩ := hgen j chain' hj
    exact h j chain hchain x (hsub x hx)
  clear h
  induction b generalizing b' with
  | nil => cases hpop
  | cons chain b ih =>
    cases chain with
    | nil =>
      obtain ⟨⟨e', b''⟩, hpop', heq⟩ := Option.map_eq_some_iff.mp hpop
      cases heq
      intro j chain' hj
      cases j with
      | zero => exact ⟨[], rfl, by cases hj; exact fun x hx => hx⟩
      | succ j => exact ih hpop' j chain' hj
    | cons e' chain =>
      cases hpop
      intro j chain' hj
      cases j with
      | zero =>
        cases hj
        exact ⟨_, rfl, fun x hx => List.mem_cons_of_mem _ hx⟩
      | succ j => exact ⟨chain', hj, fun x hx => hx⟩

/-- A table of empty buckets. -/
theorem placed_replicate (n : Nat) : Placed home (List.replicate n []) := by
  intro i chain hchain e he
  obtain rfl := (List.mem_replicate.mp (List.mem_of_getElem? hchain)).2
  cases he

end

end Chains
