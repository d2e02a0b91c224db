import Mathlib.Algebra.Order.Group.Nat
import Mathlib.Data.Finset.Card
import Mathlib.Data.Nat.Find

/-!
# Probing — hash tables with linear probing

A key is stored in the first slot from its home slot on that was free, so a lookup may
stop at the first free slot.  That stays true under insertion; a slot may be freed only
when it is on the way to no other key.
-/

namespace Probing

variable {K V : Type}

/-- The slots of a table and their contents. -/
abbrev Slots (K V : Type) := Nat → Option (K × V)

/-- The slot `d` places behind `a`, round the end of the table. -/
def walk (n a d : Nat) : Nat := (a + d) % n

/-- The number of places from `a` on to `i`. -/
def dist (n a i : Nat) : Nat := (i + n - a) % n

/-- The first slot from `i` on that is free or holds a key that satisfies `p`; nothing
when there is none among `fuel` slots. -/
def probe (n : Nat) (slots : Slots K V) (p : K → Bool) : Nat → Nat → Option Nat
  | 0, _ => none
  | fuel + 1, i =>
      match slots i with
      | none => some i
      | some (k, _) => if p k then some i else probe n slots p fuel ((i + 1) % n)

/-! ## Walking round the table -/

section

variable {n a i d : Nat}

theorem walk_lt (hn : 0 < n) (a d : Nat) : walk n a d < n := Nat.mod_lt _ hn

theorem dist_lt (hn : 0 < n) (a i : Nat) : dist n a i < n := Nat.mod_lt _ hn

@[simp] theorem walk_zero (h : a < n) : walk n a 0 = a := Nat.mod_eq_of_lt h

theorem walk_succ (n a d : Nat) : (walk n a d + 1) % n = walk n a (d + 1) := by
  unfold walk
  rw [Nat.mod_add_mod, Nat.add_assoc]

theorem walk_dist (ha : a < n) (hi : i < n) : walk n a (dist n a i) = i := by
  unfold walk dist
  rw [Nat.add_mod_mod, show a + (i + n - a) = i + n by omega, Nat.add_mod_right,
    Nat.mod_eq_of_lt hi]

theorem dist_walk (ha : a < n) (hd : d < n) : dist n a (walk n a d) = d := by
  unfold walk dist
  by_cases hlt : a + d < n
  · rw [Nat.mod_eq_of_lt hlt, show a + d + n - a = d + n by omega, Nat.add_mod_right,
      Nat.mod_eq_of_lt hd]
  · have hwrap : (a + d) % n = a + d - n := by
      rw [Nat.mod_eq_sub_mod (by omega), Nat.mod_eq_of_lt (by omega)]
    rw [hwrap, show a + d - n + n - a = d by omega, Nat.mod_eq_of_lt hd]

end

/-! ## Tables -/

/-- A key stands in one slot, and all slots on the way to it are taken. -/
structure Ok (n : Nat) (home : K → Nat) (slots : Slots K V) : Prop where
  unique : ∀ {k v v' i j}, i < n → j < n → slots i = some (k, v) → slots j = some (k, v') → i = j
  way : ∀ {k v i}, i < n → slots i = some (k, v) →
    ∀ d < dist n (home k) i, slots (walk n (home k) d) ≠ none

/-- The pair stands in a slot. -/
def Holds (n : Nat) (slots : Slots K V) (k : K) (v : V) : Prop := ∃ i < n, slots i = some (k, v)

section

variable {n : Nat} {home : K → Nat} {slots : Slots K V} {k : K} {v : V} {i : Nat}

theorem Ok.empty (n : Nat) (home : K → Nat) : Ok n home (fun _ => none : Slots K V) where
  unique _ _ h _ := absurd h (by simp)
  way _ h := absurd h (by simp)

/-- Slots that are taken by keys without `p` are passed. -/
theorem probe_pass {p : K → Bool} {a d : Nat} (ha : a < n)
    (h : ∀ e < d, ∃ k v, slots (walk n a e) = some (k, v) ∧ p k = false) (hd : d ≤ n) :
    probe n slots p n a = probe n slots p (n - d) (walk n a d) := by
  induction d with
  | zero => rw [walk_zero ha, Nat.sub_zero]
  | succ d ih =>
    obtain ⟨k, v, hslot, hp⟩ := h d (Nat.lt_succ_self d)
    rw [ih (fun e he => h e (he.trans (Nat.lt_succ_self d))) (by omega),
      show n - d = n - (d + 1) + 1 by omega, probe, hslot]
    simp only [hp, Bool.false_eq_true, if_false, walk_succ]

theorem probe_stop {p : K → Bool} {a d : Nat} (ha : a < n) (hat : walk n a d = i) (hd : d < n)
    (h : ∀ e < d, ∃ k v, slots (walk n a e) = some (k, v) ∧ p k = false)
    (hstop : ∀ k v, slots i = some (k, v) → p k = true) : probe n slots p n a = some i := by
  rw [probe_pass ha h hd.le, hat, show n - d = n - d - 1 + 1 by omega, probe]
  cases hslot : slots i with
  | none => rfl
  | some kv =>
    obtain ⟨k, v⟩ := kv
    simp only [hstop k v hslot, if_true]

/-- A key that the table holds is found. -/
theorem Ok.probe_holds [DecidableEq K] (h : Ok n home slots) (hhome : home k < n) (hi : i < n)
    (hslot : slots i = some (k, v)) : probe n slots (fun k' => decide (k' = k)) n (home k) = some i := by
  have hn : 0 < n := by omega
  have hat : walk n (home k) (dist n (home k) i) = i := walk_dist hhome hi
  refine probe_stop hhome hat (dist_lt hn _ _) ?_ ?_
  · intro e he
    cases hother : slots (walk n (home k) e) with
    | none => exact absurd hother (h.way hi hslot e he)
    | some kv =>
      obtain ⟨k', v'⟩ := kv
      refine ⟨k', v', rfl, ?_⟩
      -- the key itself stands only at the end of the way
      by_contra hp
      obtain rfl : k' = k := by simpa using hp
      have heq := h.unique (walk_lt hn _ _) hi hother hslot
      have hdist := dist_walk hhome (he.trans (dist_lt hn _ _))
      rw [heq] at hdist
      omega
  · rw [hslot]
    intro k' v' heq
    cases heq
    exact decide_eq_true rfl

/-- The first free slot from `a` on. -/
def FreeFrom (n : Nat) (slots : Slots K V) (a i : Nat) : Prop :=
  i < n ∧ slots i = none ∧ ∀ d < dist n a i, slots (walk n a d) ≠ none

theorem exists_freeFrom {a : Nat} (ha : a < n) (h : ∃ i < n, slots i = none) :
    ∃ i, FreeFrom n slots a i := by
  obtain ⟨i, hi, hfree⟩ := h
  have hn : 0 < n := by omega
  have hexists : ∃ d, slots (walk n a d) = none := ⟨dist n a i, by rw [walk_dist ha hi]; exact hfree⟩
  classical
  have hle := Nat.find_min' hexists (show slots (walk n a (dist n a i)) = none by
    rw [walk_dist ha hi]; exact hfree)
  refine ⟨walk n a (Nat.find hexists), walk_lt hn _ _, Nat.find_spec hexists, ?_⟩
  intro d hd
  rw [dist_walk ha (hle.trans_lt (dist_lt hn _ _))] at hd
  exact Nat.find_min hexists hd

/-- A probe for nothing in the table stops at the first free slot. -/
theorem probe_free {p : K → Bool} {a : Nat} (ha : a < n)
    (habsent : ∀ i < n, ∀ k v, slots i = some (k, v) → p k = false) (hfree : FreeFrom n slots a i) :
    probe n slots p n a = some i := by
  obtain ⟨hi, hnone, hway⟩ := hfree
  have hn : 0 < n := by omega
  have hat : walk n a (dist n a i) = i := walk_dist ha hi
  refine probe_stop ha hat (dist_lt hn _ _) ?_ ?_
  · intro e he
    cases hslot : slots (walk n a e) with
    | none => exact absurd hslot (hway e he)
    | some kv => exact ⟨kv.1, kv.2, rfl, habsent _ (walk_lt hn _ _) kv.1 kv.2 hslot⟩
  · rw [hnone]
    intro k v heq
    cases heq

/-- With a free slot a probe stops, at the first slot that is free or hit. -/
theorem probe_ends {p : K → Bool} {a : Nat} (ha : a < n) (h : ∃ i < n, slots i = none) :
    ∃ d < n, probe n slots p n a = some (walk n a d) ∧
      (∀ e < d, ∃ k v, slots (walk n a e) = some (k, v) ∧ p k = false) ∧
      ∀ k v, slots (walk n a d) = some (k, v) → p k = true := by
  obtain ⟨i, hi, hfree⟩ := h
  have hn : 0 < n := by omega
  have hstop : ∃ d, ∀ k v, slots (walk n a d) = some (k, v) → p k = true := by
    refine ⟨dist n a i, fun k v hslot => ?_⟩
    rw [walk_dist ha hi, hfree] at hslot
    cases hslot
  classical
  have hlt : Nat.find hstop < n := by
    refine (Nat.find_min' hstop fun k v hslot => ?_).trans_lt (dist_lt hn a i)
    rw [walk_dist ha hi, hfree] at hslot
    cases hslot
  have hpass : ∀ e < Nat.find hstop, ∃ k v, slots (walk n a e) = some (k, v) ∧ p k = false := by
    intro e he
    have hnot := Nat.find_min hstop he
    push Not at hnot
    obtain ⟨k, v, hslot, hp⟩ := hnot
    exact ⟨k, v, hslot, Bool.eq_false_of_not_eq_true hp⟩
  exact ⟨_, hlt, probe_stop ha rfl hlt hpass (Nat.find_spec hstop), hpass, Nat.find_spec hstop⟩

/-- In a full table a probe for nothing in it does not stop. -/
theorem probe_full {p : K → Bool} {a : Nat} (ha : a < n)
    (habsent : ∀ i < n, ∃ k v, slots i = some (k, v) ∧ p k = false) :
    probe n slots p n a = none := by
  have hn : 0 < n := by omega
  rw [probe_pass ha (fun e _ => habsent _ (walk_lt hn _ _)) le_rfl, Nat.sub_self, probe]

/-! ## Writing -/

/-- A new key goes into the first free slot from its home on. -/
theorem Ok.insert (h : Ok n home slots) (habsent : ∀ v, ¬Holds n slots k v)
    (hfree : FreeFrom n slots (home k) i) (v : V) :
    Ok n home (Function.update slots i (some (k, v))) := by
  obtain ⟨hi, hnone, hway⟩ := hfree
  have hkeep : ∀ j, slots j ≠ none → Function.update slots i (some (k, v)) j ≠ none := by
    intro j hj
    by_cases hji : j = i
    · rw [hji, Function.update_self]
      simp
    · rw [Function.update_of_ne hji]
      exact hj
  constructor
  · intro k' v₁ v₂ j j' hj hj' hslot hslot'
    by_cases hji : j = i
    · subst hji
      rw [Function.update_self] at hslot
      cases hslot
      by_cases hj'i : j' = j
      · exact hj'i.symm
      · rw [Function.update_of_ne hj'i] at hslot'
        exact absurd ⟨j', hj', hslot'⟩ (habsent v₂)
    · rw [Function.update_of_ne hji] at hslot
      by_cases hj'i : j' = i
      · rw [hj'i, Function.update_self] at hslot'
        cases hslot'
        exact absurd ⟨j, hj, hslot⟩ (habsent v₁)
      · rw [Function.update_of_ne hj'i] at hslot'
        exact h.unique hj hj' hslot hslot'
  · intro k' v' j hj hslot d hd
    apply hkeep
    by_cases hji : j = i
    · subst hji
      rw [Function.update_self] at hslot
      cases hslot
      exact hway d hd
    · rw [Function.update_of_ne hji] at hslot
      exact h.way hj hslot d hd

theorem holds_insert (hi : i < n) (hnone : slots i = none) (v : V) (k' : K) (v' : V) :
    Holds n (Function.update slots i (some (k, v))) k' v' ↔
      (k' = k ∧ v' = v) ∨ Holds n slots k' v' := by
  constructor
  · rintro ⟨j, hj, hslot⟩
    by_cases hji : j = i
    · rw [hji, Function.update_self] at hslot
      cases hslot
      exact .inl ⟨rfl, rfl⟩
    · rw [Function.update_of_ne hji] at hslot
      exact .inr ⟨j, hj, hslot⟩
  · rintro (⟨rfl, rfl⟩ | ⟨j, hj, hslot⟩)
    · exact ⟨i, hi, Function.update_self ..⟩
    · have hji : j ≠ i := by
        rintro rfl
        rw [hnone] at hslot
        cases hslot
      exact ⟨j, hj, by rw [Function.update_of_ne hji]; exact hslot⟩

/-- The value of a key is replaced in its slot. -/
theorem Ok.replace (h : Ok n home slots) (hslot : slots i = some (k, v)) (v' : V) :
    Ok n home (Function.update slots i (some (k, v'))) := by
  have hold : ∀ {j k₁ v₁}, Function.update slots i (some (k, v')) j = some (k₁, v₁) →
      ∃ v₂, slots j = some (k₁, v₂) := by
    intro j k₁ v₁ hj
    by_cases hji : j = i
    · subst hji
      rw [Function.update_self] at hj
      cases hj
      exact ⟨v, hslot⟩
    · rw [Function.update_of_ne hji] at hj
      exact ⟨v₁, hj⟩
  constructor
  · intro k' v₁ v₂ j j' hj hj' hj₁ hj₂
    obtain ⟨w₁, hw₁⟩ := hold hj₁
    obtain ⟨w₂, hw₂⟩ := hold hj₂
    exact h.unique hj hj' hw₁ hw₂
  · intro k' v₁ j hj hj₁ d hd
    obtain ⟨w₁, hw₁⟩ := hold hj₁
    have hway := h.way hj hw₁ d hd
    by_cases heq : walk n (home k') d = i
    · rw [heq, Function.update_self]
      simp
    · rw [Function.update_of_ne heq]
      exact hway

theorem Ok.holds_replace (h : Ok n home slots) (hi : i < n) (hslot : slots i = some (k, v))
    (v' : V) (k₁ : K) (v₁ : V) :
    Holds n (Function.update slots i (some (k, v'))) k₁ v₁ ↔
      (k₁ = k ∧ v₁ = v') ∨ (k₁ ≠ k ∧ Holds n slots k₁ v₁) := by
  constructor
  · rintro ⟨j, hj, hj₁⟩
    by_cases hji : j = i
    · rw [hji, Function.update_self] at hj₁
      cases hj₁
      exact .inl ⟨rfl, rfl⟩
    · rw [Function.update_of_ne hji] at hj₁
      have hne : k₁ ≠ k := by
        rintro rfl
        exact hji (h.unique hj hi hj₁ hslot)
      exact .inr ⟨hne, j, hj, hj₁⟩
  · rintro (⟨rfl, rfl⟩ | ⟨heq, j, hj, hj₁⟩)
    · exact ⟨i, hi, Function.update_self ..⟩
    · have hji : j ≠ i := by
        rintro rfl
        rw [hslot] at hj₁
        cases hj₁
        exact heq rfl
      exact ⟨j, hj, by rw [Function.update_of_ne hji]; exact hj₁⟩

/-! ## Freeing a slot -/

/-- The slot is on the way to no other key. -/
def Unpassed (n : Nat) (home : K → Nat) (slots : Slots K V) (i : Nat) : Prop :=
  ∀ j < n, j ≠ i → ∀ k v, slots j = some (k, v) → ¬dist n (home k) i < dist n (home k) j

theorem Ok.erase (h : Ok n home slots) (hi : i < n) (hhome : ∀ k, home k < n)
    (hunpassed : Unpassed n home slots i) : Ok n home (Function.update slots i none) := by
  have hn : 0 < n := by omega
  have hold : ∀ {j k₁ v₁}, Function.update slots i none j = some (k₁, v₁) →
      j ≠ i ∧ slots j = some (k₁, v₁) := by
    intro j k₁ v₁ hj
    by_cases hji : j = i
    · rw [hji, Function.update_self] at hj
      cases hj
    · rw [Function.update_of_ne hji] at hj
      exact ⟨hji, hj⟩
  constructor
  · intro k v₁ v₂ j j' hj hj' hj₁ hj₂
    exact h.unique hj hj' (hold hj₁).2 (hold hj₂).2
  · intro k v₁ j hj hj₁ d hd
    obtain ⟨hji, hslot⟩ := hold hj₁
    have hne : walk n (home k) d ≠ i := by
      intro heq
      have hdist := dist_walk (hhome k) (hd.trans (dist_lt hn _ _))
      rw [heq] at hdist
      exact hunpassed j hj hji k v₁ hslot (by omega)
    rw [Function.update_of_ne hne]
    exact h.way hj hslot d hd

theorem Ok.holds_erase (h : Ok n home slots) (hi : i < n) (hslot : slots i = some (k, v))
    (k₁ : K) (v₁ : V) :
    Holds n (Function.update slots i none) k₁ v₁ ↔ k₁ ≠ k ∧ Holds n slots k₁ v₁ := by
  constructor
  · rintro ⟨j, hj, hj₁⟩
    by_cases hji : j = i
    · rw [hji, Function.update_self] at hj₁
      cases hj₁
    · rw [Function.update_of_ne hji] at hj₁
      refine ⟨?_, j, hj, hj₁⟩
      rintro rfl
      exact hji (h.unique hj hi hj₁ hslot)
  · rintro ⟨hne, j, hj, hj₁⟩
    have hji : j ≠ i := by
      rintro rfl
      rw [hslot] at hj₁
      cases hj₁
      exact hne rfl
    exact ⟨j, hj, by rw [Function.update_of_ne hji]; exact hj₁⟩

/-- A key whose way passes a freed slot is lost: its probe stops at a free slot. -/
theorem Ok.probe_lost [DecidableEq K] (h : Ok n home slots) (hhome : home k < n) (hi : i < n)
    {j : Nat} (hj : j < n) (hslot : slots j = some (k, v))
    (hpassed : dist n (home k) i < dist n (home k) j) :
    probe n (Function.update slots i none) (fun k' => decide (k' = k)) n (home k) = some i := by
  have hn : 0 < n := by omega
  have hat : walk n (home k) (dist n (home k) i) = i := walk_dist hhome hi
  refine probe_stop hhome hat (dist_lt hn _ _) ?_ ?_
  · intro e he
    have hdist := dist_walk hhome (he.trans (dist_lt hn _ _))
    have hne : walk n (home k) e ≠ i := by
      intro heq
      rw [heq] at hdist
      omega
    rw [Function.update_of_ne hne]
    cases hother : slots (walk n (home k) e) with
    | none => exact absurd hother (h.way hj hslot e (he.trans hpassed))
    | some kv =>
      obtain ⟨k', v'⟩ := kv
      refine ⟨k', v', rfl, ?_⟩
      by_contra hp
      obtain rfl : k' = k := by simpa using hp
      have heq := h.unique (walk_lt hn _ _) hj hother hslot
      rw [heq] at hdist
      omega
  · rw [Function.update_self]
    intro k' v' heq
    cases heq

/-! ## Counting -/

/-- A table with fewer keys than slots has a free slot. -/
theorem Ok.exists_free (h : Ok n home slots) (keys : Finset K)
    (hkeys : ∀ k v, Holds n slots k v → k ∈ keys) (hcard : keys.card < n) :
    ∃ i < n, slots i = none := by
  by_contra hfull
  push Not at hfull
  have hex : ∀ i, ∃ k, i < n → ∃ v, slots i = some (k, v) := by
    intro i
    by_cases hi : i < n
    · obtain ⟨⟨k, v⟩, hslot⟩ := Option.ne_none_iff_exists'.mp (hfull i hi)
      exact ⟨k, fun _ => ⟨v, hslot⟩⟩
    · obtain ⟨⟨k, v⟩, -⟩ := Option.ne_none_iff_exists'.mp (hfull 0 (by omega))
      exact ⟨k, fun hlt => absurd hlt hi⟩
  choose key hkey using hex
  have hle : (Finset.range n).card ≤ keys.card := by
    refine Finset.card_le_card_of_injOn key ?_ ?_
    · intro i hi
      obtain ⟨v, hslot⟩ := hkey i (Finset.mem_range.mp hi)
      exact hkeys _ v ⟨i, Finset.mem_range.mp hi, hslot⟩
    · intro i hi j hj heq
      have hi := Finset.mem_range.mp hi
      have hj := Finset.mem_range.mp hj
      obtain ⟨v, hslot⟩ := hkey i hi
      obtain ⟨v', hslot'⟩ := hkey j hj
      rw [← heq] at hslot'
      exact h.unique hi hj hslot hslot'
  rw [Finset.card_range] at hle
  omega

/-- A table with as many keys as slots is full. -/
theorem full_of_card (keys : Finset K) (hkeys : ∀ k ∈ keys, ∃ v, Holds n slots k v)
    (hcard : keys.card = n) : ∀ i < n, slots i ≠ none := by
  intro i hi hnone
  have hex : ∀ k, ∃ j, k ∈ keys → j < n ∧ ∃ v, slots j = some (k, v) := by
    intro k
    by_cases hk : k ∈ keys
    · obtain ⟨v, j, hj, hslot⟩ := hkeys k hk
      exact ⟨j, fun _ => ⟨hj, v, hslot⟩⟩
    · exact ⟨0, fun hmem => absurd hmem hk⟩
  choose slot hslot using hex
  have hle : keys.card ≤ ((Finset.range n).erase i).card := by
    refine Finset.card_le_card_of_injOn slot ?_ ?_
    · intro k hk
      obtain ⟨hj, v, heq⟩ := hslot k hk
      refine Finset.mem_erase.mpr ⟨?_, Finset.mem_range.mpr hj⟩
      rintro hji
      rw [hji, hnone] at heq
      cases heq
    · intro k hk k' hk' heq
      obtain ⟨-, v, hv⟩ := hslot k hk
      obtain ⟨-, v', hv'⟩ := hslot k' hk'
      rw [heq, hv'] at hv
      cases hv
      rfl
  rw [Finset.card_erase_of_mem (Finset.mem_range.mpr hi), Finset.card_range] at hle
  omega

end

end Probing
