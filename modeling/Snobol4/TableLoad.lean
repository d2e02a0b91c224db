import Mathlib.Data.Nat.Count
import Snobol4.Array
import Snobol4.Bytecode
import Snobol4.TableMap

/-!
# TableLoad — the load of the hash tables (`table.c`, `array.c`)

A probe loop ends at a slot that is not active.  The counters of the load check drift from the
number of active slots, since a reused entry is counted again and a resize drops entries that stay
counted; but `size` and the sum of the counters stay at least that number, so the table grows in
time.  Beyond 2^32 slots, of which the mask reaches no more, that is not enough.
-/

namespace Snobol4

namespace OpenTable

variable {K C : Type} {κ : Keying K C} {t : OpenTable C} {entries : Nat → Entry C}

/-! ## Counting active slots -/

/-- The active slots below `n`. -/
def activeBelow (entries : Nat → Entry C) (n : Nat) : Nat :=
  Nat.count (fun i => (entries i).active = true) n

/-- The number of active slots. -/
def activeCount (t : OpenTable C) : Nat := activeBelow t.entries t.capacity

/-- A resize moves the entry (`entry->active && entry->value != nullptr`). -/
def moves (entry : Entry C) : Bool := entry.active && entry.value.isSome

/-- The entries below `n` that a resize moves. -/
def movingBelow (entries : Nat → Entry C) (n : Nat) : Nat :=
  Nat.count (fun i => moves (entries i) = true) n

/-- The number of entries that a resize moves. -/
def movingCount (t : OpenTable C) : Nat := movingBelow t.entries t.capacity

section counting

variable {i n m : Nat} {entry : Entry C}

theorem activeBelow_succ (entries : Nat → Entry C) (n : Nat) :
    activeBelow entries (n + 1) = activeBelow entries n + if (entries n).active then 1 else 0 :=
  Nat.count_succ _ n

theorem activeBelow_mono (h : m ≤ n) : activeBelow entries m ≤ activeBelow entries n :=
  Nat.count_monotone _ h

theorem movingBelow_succ (entries : Nat → Entry C) (n : Nat) :
    movingBelow entries (n + 1) = movingBelow entries n + if moves (entries n) then 1 else 0 :=
  Nat.count_succ _ n

theorem movingBelow_le (entries : Nat → Entry C) (n : Nat) :
    movingBelow entries n ≤ activeBelow entries n :=
  Nat.count_mono_left fun _ _ hmoves => (Bool.and_eq_true_iff.mp hmoves).1

/-- Behind the last active slot nothing is counted. -/
theorem activeBelow_beyond (h : ∀ i, n ≤ i → (entries i).active = false) (m : Nat) :
    activeBelow entries m ≤ activeBelow entries n := by
  induction m with
  | zero => exact Nat.zero_le _
  | succ m ih =>
    by_cases hm : m < n
    · exact activeBelow_mono hm
    · rw [activeBelow_succ, h m (Nat.le_of_not_lt hm), if_neg Bool.false_ne_true]
      exact ih

theorem activeBelow_eq_zero (h : ∀ i, (entries i).active = false) (n : Nat) :
    activeBelow entries n = 0 :=
  Nat.count_iff_forall_not.mpr fun i _ => Bool.eq_false_iff.mp (h i)

theorem activeBelow_update_of_le (h : n ≤ i) :
    activeBelow (Function.update entries i entry) n = activeBelow entries n := by
  induction n with
  | zero => rfl
  | succ n ih =>
    rw [activeBelow_succ, activeBelow_succ, ih (Nat.le_of_succ_le h),
      Function.update_of_ne (Nat.ne_of_lt h)]

/-- One entry is replaced. -/
theorem activeBelow_update (h : i < n) :
    activeBelow (Function.update entries i entry) n + (if (entries i).active then 1 else 0) =
      activeBelow entries n + (if entry.active then 1 else 0) := by
  induction n with
  | zero => exact absurd h (Nat.not_lt_zero i)
  | succ n ih =>
    rw [activeBelow_succ, activeBelow_succ]
    rcases Nat.lt_succ_iff_lt_or_eq.mp h with hlt | rfl
    · rw [Function.update_of_ne (Nat.ne_of_gt hlt)]
      have hrest := ih hlt
      omega
    · rw [activeBelow_update_of_le (Nat.le_refl i), Function.update_self]
      omega

theorem beyond_update (h : ∀ j, n ≤ j → (entries j).active = false) (hi : i < n) :
    ∀ j, n ≤ j → (Function.update entries i entry j).active = false := by
  intro j hj
  rw [Function.update_of_ne (Nat.ne_of_gt (hi.trans_le hj))]
  exact h j hj

/-- A slot is free exactly if fewer are active than there are. -/
theorem activeBelow_lt_iff : activeBelow entries n < n ↔ ∃ i < n, (entries i).active = false := by
  have hfull : activeBelow entries n = n ↔ ∀ i < n, (entries i).active = true :=
    Nat.count_iff_forall
  have hle : activeBelow entries n ≤ n := Nat.count_le _
  rw [Nat.lt_iff_le_and_ne, ne_eq, hfull, and_iff_right hle]
  simp only [not_forall, Bool.not_eq_true, exists_prop]

end counting

/-! ## Probes with a free slot -/

/-- The active entries, each for itself. -/
def own (entries : Nat → Entry C) : Probing.Slots (Entry C) Unit := fun i =>
  if (entries i).active then some (entries i, ()) else none

theorem own_eq_none {i : Nat} : own entries i = none ↔ (entries i).active = false := by
  unfold own
  cases (entries i).active with
  | true => simp
  | false => simp

theorem own_eq_some {i : Nat} {entry : Entry C} :
    own entries i = some (entry, ()) ↔ (entries i).active = true ∧ entries i = entry := by
  unfold own
  cases (entries i).active with
  | true => simp
  | false => simp

section probes

variable {e a d : Nat} {hit : Entry C → Bool}

theorem probe_own (he : 0 < e) (fuel idx : Nat) :
    probe entries (tableMask (2 ^ e)) hit fuel idx =
      Probing.probe (tableSlots (2 ^ e)) (own entries) hit fuel idx := by
  induction fuel generalizing idx with
  | zero => rfl
  | succ fuel ih =>
    rw [probe, Probing.probe, own]
    by_cases hactive : (entries idx).active = true
    · rw [if_pos hactive, if_pos hactive, next_tableMask he, ih]
    · rw [if_neg hactive, if_neg hactive]

/-- With a free slot within reach a probe stops, at the first slot that is free or hit. -/
theorem probe_ends (he : 0 < e) (hfree : ∃ i < tableSlots (2 ^ e), (entries i).active = false)
    (hit : Entry C → Bool) (ha : a < tableSlots (2 ^ e)) :
    ∃ d < tableSlots (2 ^ e),
      probe entries (tableMask (2 ^ e)) hit (tableMask (2 ^ e) + 1) a =
        some (Probing.walk (tableSlots (2 ^ e)) a d) ∧
      (∀ e' < d, (entries (Probing.walk (tableSlots (2 ^ e)) a e')).active = true ∧
        hit (entries (Probing.walk (tableSlots (2 ^ e)) a e')) = false) ∧
      ((entries (Probing.walk (tableSlots (2 ^ e)) a d)).active = true →
        hit (entries (Probing.walk (tableSlots (2 ^ e)) a d)) = true) := by
  obtain ⟨i, hi, hinactive⟩ := hfree
  obtain ⟨d, hd, hprobe, hpass, hstop⟩ :=
    @Probing.probe_ends _ _ _ (own entries) hit a ha ⟨i, hi, own_eq_none.mpr hinactive⟩
  refine ⟨d, hd, (probe_own he _ _).trans hprobe, fun e' he' => ?_, fun hactive => ?_⟩
  · obtain ⟨entry, ⟨⟩, hslot, hmiss⟩ := hpass e' he'
    obtain ⟨hactive, rfl⟩ := own_eq_some.mp hslot
    exact ⟨hactive, hmiss⟩
  · exact hstop _ () (own_eq_some.mpr ⟨hactive, rfl⟩)

/-- The first entry without a value among the first `d` from `a` on. -/
def reusable (entries : Nat → Entry C) (n a : Nat) : Nat → Option Nat
  | 0 => none
  | d + 1 =>
      if (entries (Probing.walk n a d)).value.isNone && (reusable entries n a d).isNone then
        some (Probing.walk n a d)
      else reusable entries n a d

theorem walk_of_reusable {n i : Nat} (h : reusable entries n a d = some i) :
    ∃ e < d, Probing.walk n a e = i := by
  induction d with
  | zero => cases h
  | succ d ih =>
    rw [reusable] at h
    split at h
    · exact ⟨d, Nat.lt_succ_self d, Option.some.inj h⟩
    · obtain ⟨e, he, hwalk⟩ := ih h
      exact ⟨e, Nat.lt_succ_of_lt he, hwalk⟩

theorem value_of_reusable_eq_none {n : Nat} (h : reusable entries n a d = none) :
    ∀ e < d, (entries (Probing.walk n a e)).value ≠ none := by
  induction d with
  | zero => exact fun e he => absurd he (Nat.not_lt_zero e)
  | succ d ih =>
    rw [reusable] at h
    split at h
    · cases h
    · rename_i hnot
      rw [h, Option.isNone_none, Bool.and_true] at hnot
      intro e he
      rcases Nat.lt_succ_iff_lt_or_eq.mp he with hlt | rfl
      · exact ih h e hlt
      · rintro hvalue
        rw [hvalue] at hnot
        exact hnot rfl

variable [DecidableEq C] {key : K}

/-- The probe of a set passes active entries of other keys. -/
theorem setProbe_pass (he : 0 < e) (ha : a < tableSlots (2 ^ e))
    (hpass : ∀ e' < d, (entries (Probing.walk (tableSlots (2 ^ e)) a e')).active = true ∧
      (entries (Probing.walk (tableSlots (2 ^ e)) a e')).holds κ key = false) (fuel : Nat) :
    setProbe κ entries (tableMask (2 ^ e)) key (fuel + d) a none =
      setProbe κ entries (tableMask (2 ^ e)) key fuel (Probing.walk (tableSlots (2 ^ e)) a d)
        (reusable entries (tableSlots (2 ^ e)) a d) := by
  induction d generalizing fuel with
  | zero => rw [Probing.walk_zero ha, reusable, Nat.add_zero]
  | succ d ih =>
    obtain ⟨hactive, hmiss⟩ := hpass d (Nat.lt_succ_self d)
    have hbefore := ih (fun e' he' => hpass e' (Nat.lt_succ_of_lt he')) (fuel + 1)
    rw [Nat.add_right_comm] at hbefore
    rw [← Nat.add_assoc, hbefore, setProbe, if_pos hactive, hmiss, if_neg Bool.false_ne_true,
      next_tableMask he, Probing.walk_succ, reusable]

theorem setProbe_stop (he : 0 < e) (ha : a < tableSlots (2 ^ e)) (hd : d < tableSlots (2 ^ e))
    (hpass : ∀ e' < d, (entries (Probing.walk (tableSlots (2 ^ e)) a e')).active = true ∧
      (entries (Probing.walk (tableSlots (2 ^ e)) a e')).holds κ key = false)
    (hstop : (entries (Probing.walk (tableSlots (2 ^ e)) a d)).active = true →
      (entries (Probing.walk (tableSlots (2 ^ e)) a d)).holds κ key = true) :
    setProbe κ entries (tableMask (2 ^ e)) key (tableMask (2 ^ e) + 1) a none =
      some (Probing.walk (tableSlots (2 ^ e)) a d, reusable entries (tableSlots (2 ^ e)) a d) := by
  have hfuel : tableMask (2 ^ e) + 1 = tableMask (2 ^ e) - d + 1 + d := by
    unfold tableSlots at hd
    omega
  rw [hfuel, setProbe_pass he ha hpass, setProbe]
  by_cases hactive : (entries (Probing.walk (tableSlots (2 ^ e)) a d)).active = true
  · rw [if_pos hactive, if_pos (hstop hactive)]
  · rw [if_neg hactive]

end probes

/-! ## The counters -/

/-- Entries are active only within reach of the mask, where a slot is free; no counter says that
there are fewer. -/
structure Loaded (t : OpenTable C) : Prop where
  capacity : ∃ e, 4 ≤ e ∧ t.capacity = 2 ^ e
  beyond : ∀ i, tableSlots t.capacity ≤ i → (t.entries i).active = false
  sized : activeBelow t.entries (tableSlots t.capacity) ≤ t.size
  sizeLt : t.size < 2 ^ 64
  tombstonesLt : t.tombstones < 2 ^ 64
  load : activeBelow t.entries (tableSlots t.capacity) ≤ (t.size + t.tombstones) % 2 ^ 64
  room : activeBelow t.entries (tableSlots t.capacity) < tableSlots t.capacity

namespace Loaded

variable {i j : Nat} {blank : C}

theorem slots_le (h : t.Loaded) : tableSlots t.capacity ≤ t.capacity := by
  obtain ⟨e, he, hcap⟩ := h.capacity
  rw [hcap]
  exact tableSlots_le (by omega)

theorem activeCount_eq (h : t.Loaded) :
    t.activeCount = activeBelow t.entries (tableSlots t.capacity) :=
  Nat.le_antisymm (activeBelow_beyond h.beyond _) (activeBelow_mono h.slots_le)

theorem exists_free (h : t.Loaded) : ∃ i < tableSlots t.capacity, (t.entries i).active = false :=
  activeBelow_lt_iff.mp h.room

/-- An entry stays active, with another value. -/
theorem updated (h : t.Loaded) (hi : i < tableSlots t.capacity)
    (hactive : (t.entries i).active = true) {entry : Entry C} (hentry : entry.active = true) :
    Loaded { t with entries := Function.update t.entries i entry } := by
  have hcount := @activeBelow_update _ t.entries _ _ entry hi
  rw [hactive, hentry, Nat.add_right_cancel_iff] at hcount
  refine ⟨h.capacity, beyond_update h.beyond hi, ?_, h.sizeLt, h.tombstonesLt, ?_, ?_⟩
  · exact hcount ▸ h.sized
  · exact hcount ▸ h.load
  · exact hcount ▸ h.room

/-- An entry is deleted. -/
theorem dropped (h : t.Loaded) (hi : i < tableSlots t.capacity)
    (hactive : (t.entries i).active = true) : (t.drop blank i).Loaded := by
  have hcount := @activeBelow_update _ t.entries _ _ ⟨blank, none, (t.entries i).hash, false⟩ hi
  rw [hactive, if_pos rfl, if_neg Bool.false_ne_true] at hcount
  obtain ⟨hcap, hbeyond, hsized, hsizeLt, htombstonesLt, hload, hroom⟩ := h
  refine ⟨hcap, beyond_update hbeyond hi, ?_, ?_, ?_, ?_, ?_⟩
  · simp only [drop]
    omega
  · simp only [drop]
    omega
  · simp only [drop]
    omega
  · simp only [drop]
    omega
  · simp only [drop]
    omega

variable {key : K} {value : Option Bytes}

/-- An entry without a value is used again; it is counted once more. -/
theorem reused (h : t.Loaded) (hi : i < tableSlots t.capacity)
    (hactive : (t.entries i).active = true) (hsize : t.size + 1 < 2 ^ 64) :
    (t.insertAt κ j (some i) key value).Loaded := by
  have hcount := @activeBelow_update _ t.entries _ _ ⟨κ.cell key, value, κ.hash key, true⟩ hi
  rw [hactive, Nat.add_right_cancel_iff] at hcount
  obtain ⟨hcap, hbeyond, hsized, hsizeLt, htombstonesLt, hload, hroom⟩ := h
  refine ⟨hcap, beyond_update hbeyond hi, ?_, ?_, ?_, ?_, ?_⟩
  · simp only [insertAt, Option.getD_some]
    omega
  · simp only [insertAt]
    omega
  · simp only [insertAt, Option.isSome_some, if_true]
    omega
  · simp only [insertAt, Option.getD_some, Option.isSome_some, if_true]
    omega
  · simp only [insertAt, Option.getD_some]
    omega

/-- A free slot is taken. -/
theorem inserted (h : t.Loaded) (hi : i < tableSlots t.capacity)
    (hinactive : (t.entries i).active = false) (hsize : t.size + 1 < 2 ^ 64)
    (hsum : (t.size + t.tombstones) % 2 ^ 64 + 1 < 2 ^ 64)
    (hroom : activeBelow t.entries (tableSlots t.capacity) + 1 < tableSlots t.capacity) :
    (t.insertAt κ i none key value).Loaded := by
  have hcount := @activeBelow_update _ t.entries _ _ ⟨κ.cell key, value, κ.hash key, true⟩ hi
  rw [hinactive, if_neg Bool.false_ne_true, if_pos rfl] at hcount
  obtain ⟨hcap, hbeyond, hsized, hsizeLt, htombstonesLt, hload, -⟩ := h
  refine ⟨hcap, beyond_update hbeyond hi, ?_, ?_, ?_, ?_, ?_⟩
  · simp only [insertAt, Option.getD_none]
    omega
  · simp only [insertAt]
    omega
  · simp only [insertAt, Option.isSome_none, Bool.false_eq_true, if_false]
    exact htombstonesLt
  · simp only [insertAt, Option.getD_none, Option.isSome_none, Bool.false_eq_true, if_false]
    omega
  · simp only [insertAt, Option.getD_none]
    omega

/-- All entries are removed. -/
theorem cleared (h : t.Loaded) : (t.clear blank).Loaded := by
  have hnone : ∀ i, ((t.clear blank).entries i).active = false := by
    intro i
    simp only [clear]
    split
    · rfl
    · rename_i hnot
      by_contra hactive
      rw [Bool.not_eq_false] at hactive
      rw [hactive, Bool.and_true, decide_eq_true_eq] at hnot
      have hbeyond := h.beyond i (h.slots_le.trans (Nat.le_of_not_lt hnot))
      rw [hactive] at hbeyond
      cases hbeyond
  have hcount := activeBelow_eq_zero hnone
  refine ⟨h.capacity, fun i _ => hnone i, ?_, Nat.two_pow_pos 64, Nat.two_pow_pos 64, ?_, ?_⟩
  · rw [hcount]
    exact Nat.zero_le _
  · rw [hcount]
    exact Nat.zero_le _
  · rw [hcount]
    exact tableSlots_pos _

end Loaded

/-! ### The check for the load -/

/-- The slot is active, and so are all from `a` to it. -/
def Reached (entries : Nat → Entry C) (n a i : Nat) : Prop :=
  i < n ∧ ∀ d ≤ Probing.dist n a i, (entries (Probing.walk n a d)).active = true

theorem Reached.active {n a i : Nat} (h : Reached entries n a i) (ha : a < n) :
    (entries i).active = true := by
  have hactive := h.2 _ (Nat.le_refl _)
  rw [Probing.walk_dist ha h.1] at hactive
  exact hactive

theorem active_update {i j : Nat} {entry : Entry C} (hentry : entry.active = true)
    (h : (entries j).active = true) : (Function.update entries i entry j).active = true := by
  by_cases hj : j = i
  · rw [hj, Function.update_self]
    exact hentry
  · rw [Function.update_of_ne hj]
    exact h

/-- The entry that moves is put behind active ones. -/
theorem Reached.new {n a d : Nat} {entry : Entry C} (ha : a < n) (hd : d < n)
    (hpass : ∀ e < d, (entries (Probing.walk n a e)).active = true)
    (hentry : entry.active = true) :
    Reached (Function.update entries (Probing.walk n a d) entry) n a (Probing.walk n a d) := by
  refine ⟨Probing.walk_lt (Nat.zero_lt_of_lt ha) a d, fun e he => ?_⟩
  rw [Probing.dist_walk ha hd] at he
  rcases Nat.lt_or_eq_of_le he with hlt | rfl
  · exact active_update hentry (hpass e hlt)
  · rw [Function.update_self]
    exact hentry

theorem rehash_moves {entry : Entry C} (h : moves entry = true) (mask : Nat) :
    rehash mask entry entries =
      (probe entries mask (fun _ => false) (mask + 1) (entry.hash.toNat &&& mask)).map
        fun idx => Function.update entries idx entry :=
  if_pos h

theorem rehash_stays {entry : Entry C} (h : ¬moves entry = true) (mask : Nat) :
    rehash mask entry entries = some entries :=
  if_neg h

/-- What the loop of a resize has made of the old entries below `n`: those that move can be found
where they were put, and no other entry is active. -/
structure Rehashed (old : Nat → Entry C) (e n : Nat) (entries : Nat → Entry C) : Prop where
  beyond : ∀ i, tableSlots (2 ^ e) ≤ i → (entries i).active = false
  few : activeBelow entries (tableSlots (2 ^ e)) ≤ movingBelow old n
  found : ∀ j < n, moves (old j) = true → ∃ i, entries i = old j ∧
    Reached entries (tableSlots (2 ^ e)) ((old j).hash.toNat &&& tableMask (2 ^ e)) i

namespace Rehashed

variable {old : Nat → Entry C} {e n : Nat}

theorem start_lt (he : 0 < e) (entry : Entry C) :
    entry.hash.toNat &&& tableMask (2 ^ e) < tableSlots (2 ^ e) := by
  rw [and_tableMask he]
  exact Nat.mod_lt _ (tableSlots_pos _)

theorem zero (old : Nat → Entry C) (e : Nat) (blank : C) :
    Rehashed old e 0 fun _ => .zero blank := by
  refine ⟨fun _ _ => rfl, ?_, fun j hj => absurd hj (Nat.not_lt_zero j)⟩
  rw [activeBelow_eq_zero fun _ => rfl]
  exact Nat.zero_le _

/-- The next entry moves to a slot that is free. -/
theorem put (h : Rehashed old e n entries) (he : 0 < e) {i : Nat} (hmoves : moves (old n) = true)
    (hfree : (entries i).active = false)
    (hnew : Reached (Function.update entries i (old n)) (tableSlots (2 ^ e))
      ((old n).hash.toNat &&& tableMask (2 ^ e)) i) :
    Rehashed old e (n + 1) (Function.update entries i (old n)) := by
  have hactive : (old n).active = true := (Bool.and_eq_true_iff.mp hmoves).1
  refine ⟨beyond_update h.beyond hnew.1, ?_, fun j hj hjmoves => ?_⟩
  · have hfew := h.few
    have hupdate := @activeBelow_update _ entries _ _ (old n) hnew.1
    rw [hfree, hactive, if_neg Bool.false_ne_true, if_pos rfl] at hupdate
    rw [movingBelow_succ, if_pos hmoves]
    omega
  · rcases Nat.lt_succ_iff_lt_or_eq.mp hj with hlt | rfl
    · -- an entry stays where it is, since its slot was not free
      obtain ⟨i', hentry, hreached⟩ := h.found j hlt hjmoves
      have hne : i' ≠ i := by
        rintro rfl
        rw [hreached.active (start_lt he _)] at hfree
        cases hfree
      refine ⟨i', (Function.update_of_ne hne _ _).trans hentry, hreached.1, fun d hd => ?_⟩
      exact active_update hactive (hreached.2 d hd)
    · exact ⟨i, Function.update_self i _ _, hnew⟩

/-- The next entry does not move. -/
theorem skip (h : Rehashed old e n entries) (hmoves : ¬moves (old n) = true) :
    Rehashed old e (n + 1) entries := by
  refine ⟨h.beyond, ?_, fun j hj hjmoves => ?_⟩
  · rw [movingBelow_succ, if_neg hmoves]
    exact h.few
  · rcases Nat.lt_succ_iff_lt_or_eq.mp hj with hlt | rfl
    · exact h.found j hlt hjmoves
    · exact absurd hjmoves hmoves

/-- A turn of the loop ends if there is room for the entries that move. -/
theorem step (h : Rehashed old e n entries) (he : 0 < e)
    (hfits : movingBelow old (n + 1) ≤ tableSlots (2 ^ e)) :
    ∃ entries', rehash (tableMask (2 ^ e)) (old n) entries = some entries' ∧
      Rehashed old e (n + 1) entries' := by
  by_cases hmoves : moves (old n) = true
  · have hfew := h.few
    rw [movingBelow_succ, if_pos hmoves] at hfits
    have hroom : activeBelow entries (tableSlots (2 ^ e)) < tableSlots (2 ^ e) := by omega
    obtain ⟨d, hd, hprobe, hpass, hstop⟩ :=
      probe_ends he (activeBelow_lt_iff.mp hroom) (fun _ => false) (start_lt he (old n))
    have hactive : (old n).active = true := (Bool.and_eq_true_iff.mp hmoves).1
    have hnew := Reached.new (start_lt he _) hd (fun e' he' => (hpass e' he').1) hactive
    rw [rehash_moves hmoves, hprobe]
    refine ⟨_, rfl, h.put he hmoves ?_ hnew⟩
    by_contra htaken
    cases hstop (Bool.eq_true_of_not_eq_false htaken)
  · exact ⟨entries, rehash_stays hmoves _, h.skip hmoves⟩

/-- The loop ends, since there is room for every entry that moves. -/
theorem run (he : 0 < e) (blank : C) (hfits : ∀ n, movingBelow old n ≤ tableSlots (2 ^ e))
    (n : Nat) :
    ∃ entries, rehashBelow blank old (tableMask (2 ^ e)) n = some entries ∧
      Rehashed old e n entries := by
  induction n with
  | zero => exact ⟨_, rfl, .zero old e blank⟩
  | succ n ih =>
    obtain ⟨entries, hrun, h⟩ := ih
    rw [rehashBelow, hrun, Option.bind_some]
    exact h.step he (hfits (n + 1))

end Rehashed

/-- After a resize there is room for one more entry, as far as the mask reaches. -/
theorem Loaded.resized (h : t.Loaded) (blank : C) :
    ∃ t', t.resize blank (t.capacity * 2) = some t' ∧ t'.Loaded ∧
      t'.activeCount + 1 < t'.capacity ∧ t'.activeCount ≤ t.movingCount ∧
      (t'.size = t.size ∧ t'.tombstones = 0) ∧
      ∀ j < t.capacity, moves (t.entries j) = true → ∃ i, t'.entries i = t.entries j ∧
        Reached t'.entries (tableSlots t'.capacity)
          ((t.entries j).hash.toNat &&& tableMask t'.capacity) i := by
  obtain ⟨e, he, hcap⟩ := h.capacity
  have hcap16 : 16 ≤ 2 ^ e := Nat.pow_le_pow_right (n := 2) (by omega) he
  have hdouble : t.capacity * 2 = 2 ^ (e + 1) := by rw [hcap, Nat.pow_succ]
  have hslots : tableSlots t.capacity ≤ tableSlots (t.capacity * 2) := by
    rw [hdouble, hcap, tableSlots_eq (by omega), tableSlots_eq (by omega)]
    exact Nat.pow_le_pow_right (by omega) (by omega)
  have hmoving : ∀ n, movingBelow t.entries n ≤ activeBelow t.entries (tableSlots t.capacity) :=
    fun n => (movingBelow_le _ n).trans (activeBelow_beyond h.beyond n)
  have hfits : ∀ n, movingBelow t.entries n ≤ tableSlots (2 ^ (e + 1)) := fun n =>
    (hmoving n).trans (h.room.le.trans (hdouble ▸ hslots))
  obtain ⟨entries, hrun, hbeyond, hcount, hfound⟩ :=
    Rehashed.run (by omega) blank hfits t.capacity
  rw [← hdouble] at hrun hbeyond hcount hfound
  have hmoved := hcount.trans (hmoving t.capacity)
  have hsized := h.sized
  have hroom := h.room
  have hle := h.slots_le
  have hloaded : Loaded { t with entries, capacity := t.capacity * 2, tombstones := 0 } := by
    refine ⟨⟨e + 1, by omega, hdouble⟩, hbeyond, hmoved.trans hsized, h.sizeLt,
      Nat.two_pow_pos 64, ?_, hmoved.trans_lt (hroom.trans_le hslots)⟩
    show _ ≤ (t.size + 0) % 2 ^ 64
    rw [Nat.add_zero, Nat.mod_eq_of_lt h.sizeLt]
    exact hmoved.trans hsized
  unfold resize
  rw [hrun, Option.map_some]
  refine ⟨_, rfl, hloaded, ?_, ?_, ⟨rfl, rfl⟩, hfound⟩
  · rw [hloaded.activeCount_eq]
    show activeBelow entries (tableSlots (t.capacity * 2)) + 1 < t.capacity * 2
    omega
  · rw [hloaded.activeCount_eq]
    exact hcount

/-! ## Operations with room -/

section operations

variable [DecidableEq C]

/-- The slot is active, and so are all from the home of the key to it. -/
def OnWay (κ : Keying K C) (t : OpenTable C) (key : K) (i : Nat) : Prop :=
  Reached t.entries (tableSlots t.capacity) (home κ t.capacity key) i

/-- There is room for the key among the entries: it is there, or there is one without a value to be
used, or fewer than 2^32 - 1 slots are active; and no counter wraps. -/
def Fits (κ : Keying K C) (t : OpenTable C) (key : K) : Prop :=
  (∃ i, t.OnWay κ key i ∧ (t.entries i).holds κ key = true) ∨
    t.size + 1 < 2 ^ 64 ∧
      ((∃ i, t.OnWay κ key i ∧ (t.entries i).value = none) ∨
        t.activeCount + 1 < 2 ^ 32 ∧ (t.size + t.tombstones) % 2 ^ 64 + 1 < 2 ^ 64)

/-- There is room for the key among the entries that a resize moves. -/
def FitsMoved (κ : Keying K C) (t : OpenTable C) (key : K) : Prop :=
  (∃ i < t.capacity, moves (t.entries i) = true ∧ (t.entries i).holds κ key = true) ∨
    t.size + 1 < 2 ^ 64 ∧ t.movingCount + 1 < 2 ^ 32

/-- The operation leaves a slot free. -/
def Roomy (κ : Keying K C) (t : OpenTable C) : EntryOp K → Prop
  | .set key _ =>
      if t.capacity * 3 / 4 < (t.size + t.tombstones) % 2 ^ 64 then t.FitsMoved κ key
      else t.Fits κ key
  | .delete _ | .clear => True

/-- Every probe loop starts with a free slot within reach, so it ends, and the counters, as they
are added, are no less than the number of active slots. -/
structure ProbesEnd (κ : Keying K C) (t : OpenTable C) : Prop where
  room : ∃ i < tableSlots t.capacity, (t.entries i).active = false
  checked : ∃ t', t.maybeResize κ.blank = some t' ∧
    ∃ i < tableSlots t'.capacity, (t'.entries i).active = false
  get : ∀ key, (t.getEx κ key).isSome = true
  delete : ∀ key, (t.deleteEx κ key).isSome = true
  set : ∀ key value, (t.setEx κ key value).isSome = true
  load : t.activeCount ≤ (t.size + t.tombstones) % 2 ^ 64

namespace Loaded

/-- After the check there is room for one more entry, as far as the mask reaches. -/
theorem checked (h : t.Loaded) (κ : Keying K C) :
    ∃ t', t.maybeResize κ.blank = some t' ∧ t'.Loaded ∧ t'.activeCount + 1 < t'.capacity ∧
      ∀ key value, t.Roomy κ (.set key value) → t'.Fits κ key := by
  unfold maybeResize Roomy
  by_cases hfull : t.capacity * 3 / 4 < (t.size + t.tombstones) % 2 ^ 64
  · simp only [if_pos hfull]
    obtain ⟨t', hresize, h', hroom, hmoved, ⟨hsize, htombstones⟩, hfound⟩ := h.resized κ.blank
    refine ⟨t', hresize, h', hroom, ?_⟩
    rintro key - (⟨j, hj, hmoves, hholds⟩ | ⟨hsizeLt, hfew⟩)
    · obtain ⟨i, hentry, hreached⟩ := hfound j hj hmoves
      have hhash : (t.entries j).hash = κ.hash key :=
        eq_of_beq (Bool.and_eq_true_iff.mp hholds).1
      rw [hhash] at hreached
      exact .inl ⟨i, hreached, hentry ▸ hholds⟩
    · refine .inr ⟨hsize ▸ hsizeLt, .inr ⟨by omega, ?_⟩⟩
      rw [hsize, htombstones, Nat.add_zero t.size, Nat.mod_eq_of_lt h.sizeLt]
      exact hsizeLt
  · simp only [if_neg hfull]
    have hload := h.load
    have hcap : 16 ≤ t.capacity := by
      obtain ⟨e, he, hcap⟩ := h.capacity
      rw [hcap]
      exact Nat.pow_le_pow_right (n := 2) (by omega) he
    refine ⟨t, rfl, h, ?_, fun _ _ hfits => hfits⟩
    rw [h.activeCount_eq]
    omega

/-- A lookup stops within reach of the mask. -/
theorem find_ends (h : t.Loaded) (κ : Keying K C) (key : K) :
    ∃ i < tableSlots t.capacity, t.find κ key = some i := by
  obtain ⟨e, he, hcap⟩ := h.capacity
  have hfree := h.exists_free
  have hhome : home κ (2 ^ e) key < tableSlots (2 ^ e) := home_lt (by omega) key
  unfold find
  rw [hcap] at hfree ⊢
  obtain ⟨d, -, hprobe, -⟩ :=
    probe_ends (by omega) hfree (Entry.holds κ key) hhome
  exact ⟨_, Probing.walk_lt (tableSlots_pos _) _ _, hprobe⟩

theorem delete (h : t.Loaded) (κ : Keying K C) (key : K) :
    ∃ r, t.deleteEx κ key = some r ∧ r.2.Loaded := by
  obtain ⟨i, hi, hfind⟩ := h.find_ends κ key
  rw [deleteEx, hfind, Option.map_some]
  refine ⟨_, rfl, ?_⟩
  split
  · rename_i hactive
    exact h.dropped hi hactive
  · exact h

/-- The probe of a set stops at a slot that is free or the one of the key, and remembers the first
entry without a value on its way. -/
theorem setProbe_ends (h : t.Loaded) (κ : Keying K C) (key : K) :
    let walk := Probing.walk (tableSlots t.capacity) (home κ t.capacity key)
    ∃ d < tableSlots t.capacity,
      setProbe κ t.entries (tableMask t.capacity) key (tableMask t.capacity + 1)
          ((κ.hash key).toNat &&& tableMask t.capacity) none =
        some (walk d, reusable t.entries (tableSlots t.capacity) (home κ t.capacity key) d) ∧
      (∀ e < d, (t.entries (walk e)).active = true ∧
        (t.entries (walk e)).holds κ key = false) ∧
      ((t.entries (walk d)).active = true → (t.entries (walk d)).holds κ key = true) := by
  obtain ⟨e, he, hcap⟩ := h.capacity
  have hfree := h.exists_free
  have hhome : home κ (2 ^ e) key < tableSlots (2 ^ e) := home_lt (by omega) key
  rw [hcap] at hfree ⊢
  obtain ⟨d, hd, -, hpass, hstop⟩ := probe_ends (by omega) hfree (Entry.holds κ key) hhome
  exact ⟨d, hd, setProbe_stop (by omega) hhome hd hpass hstop, hpass, hstop⟩

omit [DecidableEq C] in
/-- A slot on the way is passed before the probe comes to a free one. -/
theorem passed {key : K} {i d : Nat} (h : t.Loaded) (hway : t.OnWay κ key i)
    (hstop : (t.entries (Probing.walk (tableSlots t.capacity) (home κ t.capacity key) d)).active ≠
      true) :
    ∃ e < d, Probing.walk (tableSlots t.capacity) (home κ t.capacity key) e = i := by
  obtain ⟨e, he, hcap⟩ := h.capacity
  have hhome : home κ t.capacity key < tableSlots t.capacity := by
    rw [hcap]
    exact home_lt (by omega) key
  refine ⟨_, ?_, Probing.walk_dist hhome hway.1⟩
  by_contra hge
  exact hstop (hway.2 d (Nat.le_of_not_lt hge))

omit [DecidableEq C] in
/-- One more active slot leaves one free. -/
theorem room_succ (h : t.Loaded) (hroom : t.activeCount + 1 < t.capacity)
    (hfew : t.activeCount + 1 < 2 ^ 32) :
    activeBelow t.entries (tableSlots t.capacity) + 1 < tableSlots t.capacity := by
  rw [h.activeCount_eq] at hroom hfew
  obtain ⟨e, he, hcap⟩ := h.capacity
  rw [hcap] at hroom hfew ⊢
  rcases tableSlots_cases (show 0 < e by omega) with ⟨-, hslots⟩ | hslots
  · rw [hslots] at hroom ⊢
    exact hroom
  · rw [hslots] at hfew ⊢
    exact hfew

/-- A set ends, and with room for it the table stays as it should be. -/
theorem set (h : t.Loaded) (key : K) (value : Option Bytes) :
    ∃ t', t.setEx κ key value = some t' ∧ (t.Roomy κ (.set key value) → t'.Loaded) := by
  obtain ⟨t₁, hcheck, h₁, hroom, hfits⟩ := h.checked κ
  obtain ⟨d, hd, hprobe, hpass, hstop⟩ := h₁.setProbe_ends κ key
  have hi := Probing.walk_lt (tableSlots_pos t₁.capacity) (home κ t₁.capacity key) d
  simp only [setEx, hcheck, Option.bind_eq_bind, Option.bind_some, hprobe]
  by_cases hactive :
      (t₁.entries (Probing.walk (tableSlots t₁.capacity) (home κ t₁.capacity key) d)).active = true
  · rw [if_pos hactive]
    cases value with
    | some v => exact ⟨_, rfl, fun _ => h₁.updated hi hactive hactive⟩
    | none => exact ⟨_, rfl, fun _ => h₁.dropped hi hactive⟩
  · rw [if_neg hactive]
    refine ⟨_, rfl, fun hroomy => ?_⟩
    rcases hfits key value hroomy with ⟨i, hway, hholds⟩ | ⟨hsize, hreuse⟩
    · -- the probe would have stopped at the key
      obtain ⟨e, he, rfl⟩ := h₁.passed hway hactive
      rw [(hpass e he).2] at hholds
      cases hholds
    · cases hreusable : reusable t₁.entries (tableSlots t₁.capacity)
          (home κ t₁.capacity key) d with
      | some i =>
        obtain ⟨e, he, rfl⟩ := walk_of_reusable hreusable
        exact h₁.reused (Probing.walk_lt (tableSlots_pos _) _ _) (hpass e he).1 hsize
      | none =>
        rcases hreuse with ⟨i, hway, hvalue⟩ | ⟨hfew, hsum⟩
        · -- the probe would have remembered the entry
          obtain ⟨e, he, rfl⟩ := h₁.passed hway hactive
          exact absurd hvalue (value_of_reusable_eq_none hreusable e he)
        · exact h₁.inserted hi (Bool.eq_false_of_not_eq_true hactive) hsize hsum
            (h₁.room_succ hroom hfew)

theorem probesEnd (h : t.Loaded) : t.ProbesEnd κ where
  room := h.exists_free
  checked := by
    obtain ⟨t', hcheck, h', -⟩ := h.checked κ
    exact ⟨t', hcheck, h'.exists_free⟩
  get key := by
    obtain ⟨i, -, hfind⟩ := h.find_ends κ key
    rw [getEx, hfind]
    rfl
  delete key := by
    obtain ⟨r, hdelete, -⟩ := h.delete κ key
    rw [hdelete]
    rfl
  set key value := by
    obtain ⟨t', hset, -⟩ := h.set key value
    rw [hset]
    rfl
  load := h.activeCount_eq ▸ h.load

/-- An operation ends, and with room for it the table stays as it should be. -/
theorem step (h : t.Loaded) (op : EntryOp K) :
    ∃ t', t.run κ op = some t' ∧ (t.Roomy κ op → t'.Loaded) := by
  cases op with
  | set key value => exact h.set key value
  | delete key =>
    obtain ⟨r, hdelete, hr⟩ := h.delete κ key
    refine ⟨r.2, ?_, fun _ => hr⟩
    rw [run, hdelete]
    rfl
  | clear => exact ⟨_, rfl, fun _ => h.cleared⟩

end Loaded

omit [DecidableEq C] in
theorem loaded_create (blank : C) {e : Nat} (he : 4 ≤ e) :
    Loaded ⟨fun _ => .zero blank, 2 ^ e, 0, 0⟩ := by
  have hnone : activeBelow (fun _ => Entry.zero blank) (tableSlots (2 ^ e)) = 0 :=
    activeBelow_eq_zero (fun _ => rfl) _
  refine ⟨⟨e, he, rfl⟩, fun _ _ => rfl, ?_, Nat.two_pow_pos 64, Nat.two_pow_pos 64, ?_, ?_⟩
  · rw [hnone]
  · rw [hnone]
    exact Nat.zero_le _
  · rw [hnone]
    exact tableSlots_pos _

/-- After operations that all had room every probe ends. -/
theorem runAll_loaded {start : OpenTable C} (hstart : start.Loaded) {ops : List (EntryOp K)}
    (h : ∀ pre op, pre ++ [op] <+: ops → ∀ t, runAll κ start pre = some t → t.Roomy κ op) :
    ∃ t, runAll κ start ops = some t ∧ t.Loaded := by
  induction ops using List.reverseRecOn with
  | nil => exact ⟨start, rfl, hstart⟩
  | append_singleton ops op ih =>
    obtain ⟨t, hrun, ht⟩ := ih fun pre op' hpre =>
      h pre op' (hpre.trans (List.prefix_append ops [op]))
    obtain ⟨t', hop, hkeep⟩ := ht.step op
    exact ⟨t', (runAll_append hrun op).trans hop, hkeep (h ops op List.prefix_rfl t hrun)⟩

end operations

end OpenTable

/-! ## Tables and arrays -/

/-- `OpenTable.ProbesEnd` of the functions of `table.c`. -/
structure SnobolTable.ProbesEnd (t : SnobolTable) : Prop where
  room : ∃ i < tableSlots t.capacity, (t.entries i).active = false
  checked : ∃ t', tableMaybeResize t = some t' ∧
    ∃ i < tableSlots t'.capacity, (t'.entries i).active = false
  get : ∀ key, (tableGetEx t key).isSome = true
  delete : ∀ key, (tableDeleteEx t key).isSome = true
  set : ∀ key value, (tableSetEx t key value).isSome = true
  load : t.toOpen.activeCount ≤ (t.size + t.tombstones) % 2 ^ 64

/-- The operation leaves a slot free, and no counter wraps. -/
def SnobolTable.Roomy (t : SnobolTable) (op : TableOp) : Prop :=
  t.toOpen.Roomy tableKeying op.toEntryOp

theorem OpenTable.ProbesEnd.table {t : SnobolTable} (h : t.toOpen.ProbesEnd tableKeying) :
    t.ProbesEnd where
  room := h.room
  checked := by
    obtain ⟨u, hcheck, hfree⟩ := h.checked
    rw [← tableMaybeResize_eq] at hcheck
    obtain ⟨t', hcheck', rfl⟩ := Option.map_eq_some_iff.mp hcheck
    exact ⟨t', hcheck', hfree⟩
  get key := by
    rw [tableGetEx_eq]
    exact h.get key
  delete key := by
    have hdelete := h.delete key
    rw [← Option.isSome_map (f := Prod.snd), ← tableDeleteEx_eq, Option.isSome_map] at hdelete
    exact hdelete
  set key value := by
    have hset := h.set key value
    rw [← tableSetEx_eq, Option.isSome_map] at hset
    exact hset
  load := h.load

theorem tableRun_loaded {ops : List TableOp}
    (h : ∀ pre op, pre ++ [op] <+: ops → ∀ t, tableRun pre = some t → t.Roomy op) :
    ∃ t, tableRun ops = some t ∧ t.ProbesEnd := by
  have hstart : tableCreate.toOpen.Loaded := OpenTable.loaded_create none (le_refl 4)
  obtain ⟨u, hrun, hloaded⟩ := OpenTable.runAll_loaded hstart (tableRun_ops h)
  rw [← tableRun_eq] at hrun
  obtain ⟨t, ht, rfl⟩ := Option.map_eq_some_iff.mp hrun
  exact ⟨t, ht, hloaded.probesEnd.table⟩

theorem arrayRun_loaded {boundsHint : Int32} {ops : List (EntryOp Int32)}
    (h : ∀ pre op, pre ++ [op] <+: ops → ∀ a, arrayRun boundsHint pre = some a →
      OpenTable.Roomy arrayKeying a op) :
    ∃ a, arrayRun boundsHint ops = some a ∧ OpenTable.ProbesEnd arrayKeying a := by
  obtain ⟨e, he, hcap⟩ := snobolArrayCreate_capacity boundsHint
  have hcreate : snobolArrayCreate boundsHint = ⟨fun _ => .zero 0, 2 ^ e, 0, 0⟩ := by
    rw [← hcap]
    rfl
  have hloaded : OpenTable.Loaded (snobolArrayCreate boundsHint) := by
    rw [hcreate]
    exact OpenTable.loaded_create 0 he
  obtain ⟨a, hrun, ha⟩ := OpenTable.runAll_loaded hloaded
    fun pre op hpre a (hrun : OpenTable.runAll arrayKeying _ pre = some a) =>
      h pre op hpre a ((arrayRun_eq boundsHint pre).trans hrun)
  exact ⟨a, (arrayRun_eq boundsHint ops).trans hrun, ha.probesEnd⟩

/-- Where every operation on a table or an array has room when it is performed, every probe loop,
before and after every operation, starts with a free slot within reach and ends, and the counters
are no less than the number of active slots. -/
theorem probes_end (ops : List TableOp) (boundsHint : Int32) (arrayOps : List (EntryOp Int32)) :
    ((∀ pre op, pre ++ [op] <+: ops → ∀ t, tableRun pre = some t → t.Roomy op) →
      ∀ pre, pre <+: ops → ∃ t, tableRun pre = some t ∧ t.ProbesEnd) ∧
      ((∀ pre op, pre ++ [op] <+: arrayOps → ∀ a, arrayRun boundsHint pre = some a →
          OpenTable.Roomy arrayKeying a op) →
        ∀ pre, pre <+: arrayOps → ∃ a, arrayRun boundsHint pre = some a ∧
          OpenTable.ProbesEnd arrayKeying a) := by
  constructor
  · exact fun h pre hpre => tableRun_loaded fun pre' op hop => h pre' op (hop.trans hpre)
  · exact fun h pre hpre => arrayRun_loaded fun pre' op hop => h pre' op (hop.trans hpre)

/-- The capacity and the counters are small. -/
def OpenTable.Small {C : Type} (t : OpenTable C) : Prop :=
  t.capacity + 1 < 2 ^ 32 ∧ t.size + 1 < 2 ^ 64 ∧ (t.size + t.tombstones) % 2 ^ 64 + 1 < 2 ^ 64

instance {C : Type} (t : OpenTable C) : Decidable t.Small :=
  inferInstanceAs (Decidable (_ ∧ _ ∧ _))

/-- A small table has room. -/
theorem OpenTable.Small.roomy {K C : Type} [DecidableEq K] [DecidableEq C] {κ : Keying K C}
    {t : OpenTable C} (h : t.Small) (op : EntryOp K) : t.Roomy κ op := by
  obtain ⟨hcap, hsize, hsum⟩ := h
  have hactive : t.activeCount ≤ t.capacity := Nat.count_le _
  have hmoving : t.movingCount ≤ t.capacity := Nat.count_le _
  cases op with
  | set key value =>
    rw [Roomy]
    split
    · exact .inr ⟨hsize, by omega⟩
    · exact .inr ⟨hsize, .inr ⟨by omega, hsum⟩⟩
  | delete key => trivial
  | clear => trivial

/-- Fourteen keys, so that the table grows, then two deletions, and a deleted key is set again. -/
def grownTable : List TableOp :=
  (List.range 14).map (fun k => .set [UInt8.ofNat k] (some [120])) ++
    [.delete [3], .set [4] none, .set [3] (some [121])]

/-- The same for an array. -/
def grownArray : List (EntryOp Int32) :=
  (List.range 14).map (fun k => .set (Int32.ofNat k) (some [120])) ++
    [.delete 3, .set 4 none, .set 3 (some [121])]

/-- The table and the array grow, and every operation on them has room. -/
theorem probes_end_grown :
    (∃ t, tableRun grownTable = some t ∧ t.ProbesEnd) ∧
      (∃ a, arrayRun 0 grownArray = some a ∧ OpenTable.ProbesEnd arrayKeying a) ∧
      (tableRun grownTable).map (·.capacity) = some 32 ∧
      (arrayRun 0 grownArray).map (·.capacity) = some 32 := by
  have hsmall : ∀ n < 17, (∀ t ∈ tableRun (grownTable.take n), t.toOpen.Small) ∧
      ∀ a ∈ arrayRun 0 (grownArray.take n), OpenTable.Small a := by
    decide +kernel
  have hends := probes_end grownTable 0 grownArray
  refine ⟨hends.1 ?_ _ List.prefix_rfl, hends.2 ?_ _ List.prefix_rfl, by decide +kernel,
    by decide +kernel⟩
  · intro pre op hpre t hrun
    have hlt : pre.length < 17 := by
      have hle := hpre.length_le
      rw [List.length_append, show grownTable.length = 17 from rfl] at hle
      exact hle
    rw [List.prefix_iff_eq_take.mp ((List.prefix_append pre [op]).trans hpre)] at hrun
    exact ((hsmall _ hlt).1 t hrun).roomy _
  · intro pre op hpre a hrun
    have hlt : pre.length < 17 := by
      have hle := hpre.length_le
      rw [List.length_append, show grownArray.length = 17 from rfl] at hle
      exact hle
    rw [List.prefix_iff_eq_take.mp ((List.prefix_append pre [op]).trans hpre)] at hrun
    exact ((hsmall _ hlt).2 a hrun).roomy _
/-! ## A full table -/

namespace OpenTable

section full

variable {K C : Type} {κ : Keying K C} [DecidableEq K] [DecidableEq C] {start : OpenTable C}

/-- Fewer than 2^32 keys are all stored. -/
theorem runAll_sets (hstart : start.Represents κ ∅ 1) (v : Bytes) {keys : List K}
    (hnodup : keys.Nodup) (hfew : keys.length < 2 ^ 32) :
    ∃ t m, runAll κ start (keys.map fun k => .set k (some v)) = some t ∧
      t.Represents κ m 1 ∧ (∀ k, k ∈ m ↔ k ∈ keys) ∧ m.keys.card = keys.length := by
  induction keys using List.reverseRecOn with
  | nil =>
    exact ⟨start, ∅, rfl, hstart, fun _ => iff_of_false Finmap.notMem_empty List.not_mem_nil, rfl⟩
  | append_singleton keys k ih =>
    rw [List.length_append, List.length_singleton] at hfew ⊢
    obtain ⟨hkeys, -, hnew⟩ := List.nodup_append.mp hnodup
    obtain ⟨t, m, hrun, hrep, hmem, hcard⟩ := ih hkeys (by omega)
    have hlookup : m.lookup k = none := by
      rw [Finmap.lookup_eq_none, hmem]
      exact fun hk => hnew k hk k (List.mem_singleton.mpr rfl) rfl
    obtain ⟨t', hset, hsafe, -⟩ := hrep.setSome k v
    refine ⟨t', m.insert k v, ?_, hsafe (.inr (.inr ?_)), fun k' => ?_, ?_⟩
    · rw [List.map_append]
      exact (runAll_append hrun _).trans hset
    · rw [hrep.size, hcard]
      exact hfew
    · rw [Finmap.mem_insert, hmem, List.mem_append, List.mem_singleton, or_comm]
    · rw [Represents.card_insert_of_none v hlookup, hcard]

/-- With 2^32 keys no slot within reach is free, and the probe for another key does not end. -/
theorem runAll_full (hstart : start.Represents κ ∅ 1) (v : Bytes) {keys : List K} {last key : K}
    (hnodup : (keys ++ [last]).Nodup) (hmany : keys.length + 1 = 2 ^ 32)
    (hkey : key ∉ keys ++ [last]) :
    ∃ t, runAll κ start ((keys ++ [last]).map fun k => .set k (some v)) = some t ∧
      (∀ i < tableSlots t.capacity, (t.entries i).active = true) ∧ t.getEx κ key = none := by
  obtain ⟨hkeys, -, hnew⟩ := List.nodup_append.mp hnodup
  obtain ⟨t, m, hrun, hrep, hmem, hcard⟩ := runAll_sets hstart v hkeys (by omega)
  have hlookup : m.lookup last = none := by
    rw [Finmap.lookup_eq_none, hmem]
    exact fun hlast => hnew last hlast last (List.mem_singleton.mpr rfl) rfl
  obtain ⟨t₁, i, hsize, h₁, hfree, hset⟩ := hrep.setNew hlookup (some v)
  have hfull : ¬t₁.size + 1 < 2 ^ 32 := by
    rw [hsize, hrep.size, hcard]
    omega
  have habsent : key ∉ (m.insert last v).keys := by
    rw [Finmap.mem_keys, Finmap.mem_insert, hmem, or_comm, ← List.mem_singleton, ← List.mem_append]
    exact hkey
  refine ⟨t₁.insertAt κ i none last (some v), ?_, h₁.full_insert hlookup hfree v hfull, ?_⟩
  · rw [List.map_append]
    exact (runAll_append hrun _).trans hset
  · rw [getEx, h₁.find_full hlookup hfree v hfull habsent]
    rfl

end full

end OpenTable

theorem emitU32_inj {m n : Nat} (hm : m < 2 ^ 32) (hn : n < 2 ^ 32) (h : emitU32 m = emitU32 n) :
    m = n := by
  have hread := readU32_behind [] [] hm rfl
  rw [h, readU32_behind [] [] hn rfl] at hread
  exact hread.symm

/-- The texts of four bytes fill 2^32 slots, and `table_get_ex` of the empty text does not
return. -/
theorem table_probe_hangs :
    ∃ t, tableRun ((List.range (2 ^ 32)).map fun n => .set (emitU32 n) (some [])) = some t ∧
      (∀ i < tableSlots t.capacity, (t.entries i).active = true) ∧ tableGetEx t [] = none := by
  obtain ⟨n, hn⟩ : ∃ n, 2 ^ 32 = n + 1 := ⟨2 ^ 32 - 1, by omega⟩
  have hnodup : ((List.range (2 ^ 32)).map emitU32).Nodup := by
    refine List.Nodup.map_on (fun m hm n hn h => ?_) List.nodup_range
    exact emitU32_inj (List.mem_range.mp hm) (List.mem_range.mp hn) h
  have hempty : [] ∉ (List.range (2 ^ 32)).map emitU32 := by
    rw [List.mem_map]
    rintro ⟨m, -, hm⟩
    exact absurd (congrArg List.length hm) (by rw [length_emitU32]; decide)
  have hkeys : (List.range (2 ^ 32)).map emitU32 = (List.range n).map emitU32 ++ [emitU32 n] := by
    rw [hn, List.range_succ, List.map_append]
    rfl
  rw [hkeys] at hnodup hempty
  have hlength : ((List.range n).map emitU32).length + 1 = 2 ^ 32 := by
    rw [List.length_map, List.length_range, hn]
  obtain ⟨u, hrun, hfull, hget⟩ :=
    OpenTable.runAll_full tableCreate_represents [] hnodup hlength hempty
  have hops : ((List.range (2 ^ 32)).map fun n => TableOp.set (emitU32 n) (some [])).map
      TableOp.toEntryOp = ((List.range n).map emitU32 ++ [emitU32 n]).map
        fun k => .set k (some []) := by
    rw [← hkeys, List.map_map, List.map_map]
    rfl
  rw [← hops, ← tableRun_eq] at hrun
  obtain ⟨t, ht, rfl⟩ := Option.map_eq_some_iff.mp hrun
  exact ⟨t, ht, hfull, (tableGetEx_eq t []).trans hget⟩

end Snobol4
