import Snobol4.OpenTable

/-!
# Array — sparse arrays (`array.c`)

An array is a table with open addressing whose keys are `int32_t`.  There are no more than
2^32 of them, so a missing key always leaves a slot free.  The keys and the values are
listed slot by slot.
-/

namespace Snobol4

/-- `array_hash_int` -/
def arrayHashInt (key : Int32) : UInt32 := key.toUInt32 * 2654435761

/-- The keys of an array stand in the entries as they are; a deleted one is 0. -/
def arrayKeying : Keying Int32 Int32 := ⟨id, id, fun _ => rfl, arrayHashInt, 0⟩

/-- `snobol_array_t` -/
abbrev SnobolArray := OpenTable Int32

/-- `ARRAY_INITIAL_CAPACITY` -/
def arrayInitialCapacity : Nat := 16

/-- The loop of `snobol_array_create` that doubles `cap` until it reaches the hint. -/
def doubledUntil (hint : Nat) : Nat → Nat → Nat
  | 0, cap => cap
  | fuel + 1, cap => if cap < hint then doubledUntil hint fuel (cap * 2) else cap

/-- `snobol_array_create` -/
def snobolArrayCreate (boundsHint : Int32) : SnobolArray where
  entries _ := .zero 0
  capacity :=
    if 0 < boundsHint ∧ arrayInitialCapacity < boundsHint.toInt.toNat then
      doubledUntil boundsHint.toInt.toNat 32 1
    else arrayInitialCapacity
  size := 0
  tombstones := 0

/-- `snobol_array_set_ex` -/
def snobolArraySetEx (a : SnobolArray) (key : Int32) (value : Option Bytes) : Option SnobolArray :=
  a.setEx arrayKeying key value

/-- `snobol_array_get_ex` -/
def snobolArrayGetEx (a : SnobolArray) (key : Int32) : Option (Option Bytes) :=
  a.getEx arrayKeying key

/-- `snobol_array_has` -/
def snobolArrayHas (a : SnobolArray) (key : Int32) : Option Bool := a.hasEx arrayKeying key

/-- `snobol_array_delete` -/
def snobolArrayDelete (a : SnobolArray) (key : Int32) : Option (Bool × SnobolArray) :=
  a.deleteEx arrayKeying key

/-- `snobol_array_clear` -/
def snobolArrayClear (a : SnobolArray) : SnobolArray := a.clear 0

/-- `snobol_array_size` -/
def snobolArraySize (a : SnobolArray) : Nat := a.size

/-- The entries that `snobol_array_keys` and `snobol_array_values` list. -/
def SnobolArray.listed (a : SnobolArray) : List (Entry Int32) :=
  ((List.range a.capacity).map a.entries).filter fun e => e.active && e.value.isSome

/-- `snobol_array_keys` -/
def snobolArrayKeys (a : SnobolArray) : List Int32 := a.listed.map (·.key)

/-- `snobol_array_values` -/
def snobolArrayValues (a : SnobolArray) : List Bytes := a.listed.map fun e => e.value.getD []

/-- `array_maybe_resize` -/
def arrayMaybeResize (a : SnobolArray) : Option SnobolArray := a.maybeResize 0

/-! ## Sequences of operations -/

/-- The operation on the array. -/
def arrayOp (a : SnobolArray) : EntryOp Int32 → Option SnobolArray
  | .set key value => snobolArraySetEx a key value
  | .delete key => (snobolArrayDelete a key).map (·.2)
  | .clear => some (snobolArrayClear a)

/-- The array after the operations, from `snobol_array_create` on. -/
def arrayRun (boundsHint : Int32) (ops : List (EntryOp Int32)) : Option SnobolArray :=
  ops.foldlM arrayOp (snobolArrayCreate boundsHint)

/-- Lookups, size and listings are those of the map. -/
structure SnobolArray.Agrees (a : SnobolArray) (m : KeyMap Int32) : Prop where
  get : ∀ key, snobolArrayGetEx a key = some (m.lookup key)
  has : ∀ key, snobolArrayHas a key = some (m.lookup key).isSome
  size : snobolArraySize a = m.keys.card
  nodup : (snobolArrayKeys a).Nodup
  mem_keys : ∀ key, key ∈ snobolArrayKeys a ↔ key ∈ m
  values : (snobolArrayValues a).map some = (snobolArrayKeys a).map fun key => m.lookup key

/-- The operation keeps the array in step with the map: a deletion breaks no way, and no
value is set for a key that is not there. -/
def SnobolArray.Safe (a : SnobolArray) : EntryOp Int32 → Prop
  | .set _ (some _) => True
  | .set key none =>
      snobolArrayHas a key = some true ∧
        ∀ a' ∈ arrayMaybeResize a, OpenTable.Droppable arrayKeying a' key
  | .delete key => OpenTable.Droppable arrayKeying a key
  | .clear => True

/-! ## Arrays as finite maps -/

theorem arrayOp_eq (a : SnobolArray) (op : EntryOp Int32) : arrayOp a op = a.run arrayKeying op := by
  cases op with
  | set key value | delete key | clear => rfl

theorem arrayRun_eq (boundsHint : Int32) (ops : List (EntryOp Int32)) :
    arrayRun boundsHint ops = OpenTable.runAll arrayKeying (snobolArrayCreate boundsHint) ops := by
  have hop : arrayOp = OpenTable.run arrayKeying := by
    funext a op
    exact arrayOp_eq a op
  rw [arrayRun, OpenTable.runAll, hop]

/-- `int32_t` has 2^32 values. -/
theorem fewKeys_int32 : FewKeys Int32 := by
  intro keys
  have hle : keys.card ≤ (Finset.range (2 ^ 32)).card := by
    refine Finset.card_le_card_of_injOn (fun key => key.toUInt32.toNat) ?_ ?_
    · intro key _
      exact Finset.mem_coe.mpr (Finset.mem_range.mpr key.toUInt32.toNat_lt)
    · intro key _ key' _ heq
      have hbits : key.toUInt32 = key'.toUInt32 := UInt32.toNat_inj.mp heq
      rw [← key.toInt32_toUInt32, hbits, key'.toInt32_toUInt32]
  rw [Finset.card_range] at hle
  exact hle

theorem safe_iff (a : SnobolArray) (op : EntryOp Int32) :
    OpenTable.Safe arrayKeying a op ↔ a.Safe op := by
  cases op with
  | set key value =>
    cases value with
    | some value => exact iff_of_true (.inr (.inl fewKeys_int32)) trivial
    | none => exact Iff.rfl
  | delete key | clear => exact Iff.rfl

/-- Doubling ends at a power of two that reaches the hint, or after `fuel` steps. -/
theorem doubledUntil_spec (hint fuel e : Nat) :
    ∃ e', doubledUntil hint fuel (2 ^ e) = 2 ^ e' ∧ (hint ≤ 2 ^ e' ∨ e' = e + fuel) := by
  induction fuel generalizing e with
  | zero => exact ⟨e, rfl, .inr rfl⟩
  | succ fuel ih =>
    rw [doubledUntil]
    by_cases hlt : 2 ^ e < hint
    · obtain ⟨e', heq, hreach⟩ := ih (e + 1)
      rw [if_pos hlt, ← Nat.pow_succ]
      exact ⟨e', heq, hreach.imp_right fun h => by omega⟩
    · rw [if_neg hlt]
      exact ⟨e, rfl, .inl (Nat.le_of_not_lt hlt)⟩

/-- The capacity of a new array is a power of two, of 16 or more. -/
theorem snobolArrayCreate_capacity (boundsHint : Int32) :
    ∃ e, 4 ≤ e ∧ (snobolArrayCreate boundsHint).capacity = 2 ^ e := by
  simp only [snobolArrayCreate]
  split
  · rename_i hlarge
    obtain ⟨e, heq, hreach⟩ := doubledUntil_spec boundsHint.toInt.toNat 32 0
    refine ⟨e, ?_, heq⟩
    obtain hreach | rfl := hreach
    · by_contra hlt
      have hle : 2 ^ e ≤ 2 ^ 3 := Nat.pow_le_pow_right (by omega) (by omega)
      have hhint := hlarge.2
      unfold arrayInitialCapacity at hhint
      omega
    · omega
  · exact ⟨4, le_rfl, rfl⟩

theorem snobolArrayCreate_represents (boundsHint : Int32) :
    (snobolArrayCreate boundsHint).Represents arrayKeying ∅ 1 := by
  obtain ⟨e, he, hcap⟩ := snobolArrayCreate_capacity boundsHint
  have hcreate : snobolArrayCreate boundsHint = ⟨fun _ => .zero 0, 2 ^ e, 0, 0⟩ := by
    rw [← hcap]
    rfl
  rw [hcreate]
  exact (OpenTable.Represents.create arrayKeying he).mono

/-- An array that represents the map lists its keys once, with their values. -/
theorem OpenTable.Represents.listed {a : SnobolArray} {m : KeyMap Int32} {slack : Nat}
    (h : a.Represents arrayKeying m slack) :
    (snobolArrayKeys a).Nodup ∧ (∀ key, key ∈ snobolArrayKeys a ↔ key ∈ m) ∧
      (snobolArrayValues a).map some = (snobolArrayKeys a).map fun key => m.lookup key := by
  obtain ⟨e, he, hcap, hstores⟩ := h.stores
  -- an active entry is a pair of the map in its slot
  have hentry : ∀ i, (a.entries i).active = true → ∃ k v, i < tableSlots (2 ^ e) ∧
      a.entries i = ⟨k, some v, arrayHashInt k, true⟩ ∧ m.lookup k = some v := by
    intro i hactive
    obtain ⟨k, v, heq⟩ := hstores.entriesOk i hactive
    have hi : i < tableSlots (2 ^ e) := by
      by_contra hge
      rw [hstores.beyond i (Nat.le_of_not_lt hge)] at hactive
      cases hactive
    have hslot := (OpenTable.view_eq_some hstores.entriesOk).mpr heq
    exact ⟨k, v, hi, heq, (hstores.holds k v).mp ⟨i, hi, hslot⟩⟩
  have hlisted : ∀ entry ∈ SnobolArray.listed a, m.lookup entry.key = some (entry.value.getD []) := by
    intro entry hmem
    obtain ⟨hmem, hactive⟩ := List.mem_filter.mp hmem
    obtain ⟨i, -, rfl⟩ := List.mem_map.mp hmem
    rw [Bool.and_eq_true] at hactive
    obtain ⟨k, v, -, heq, hlookup⟩ := hentry i hactive.1
    rw [heq]
    exact hlookup
  refine ⟨?_, ?_, ?_⟩
  · rw [snobolArrayKeys, SnobolArray.listed, List.filter_map, List.map_map]
    refine List.Nodup.map_on ?_ (List.nodup_range.filter _)
    intro i hi j hj hkey
    have hactive : ∀ i, i ∈ (List.range a.capacity).filter
        ((fun e => e.active && e.value.isSome) ∘ a.entries) → (a.entries i).active = true := by
      intro i hi
      have htest := (List.mem_filter.mp hi).2
      simp only [Function.comp_apply, Bool.and_eq_true] at htest
      exact htest.1
    obtain ⟨k, v, hi', heq, -⟩ := hentry i (hactive i hi)
    obtain ⟨k', v', hj', heq', -⟩ := hentry j (hactive j hj)
    simp only [Function.comp_apply, heq, heq'] at hkey
    subst hkey
    exact hstores.ok.unique hi' hj' ((OpenTable.view_eq_some hstores.entriesOk).mpr heq)
      ((OpenTable.view_eq_some hstores.entriesOk).mpr heq')
  · intro key
    rw [snobolArrayKeys, List.mem_map, Finmap.mem_iff]
    constructor
    · rintro ⟨entry, hmem, rfl⟩
      exact ⟨_, hlisted entry hmem⟩
    · rintro ⟨v, hlookup⟩
      obtain ⟨i, hi, heq⟩ := hstores.slot hlookup
      have hle := tableSlots_le (show 0 < e by omega)
      refine ⟨a.entries i, ?_, by rw [heq]; rfl⟩
      refine List.mem_filter.mpr ⟨List.mem_map_of_mem (List.mem_range.mpr ?_), by rw [heq]; rfl⟩
      rw [hcap]
      exact hi.trans_le hle
  · rw [snobolArrayValues, snobolArrayKeys, List.map_map, List.map_map]
    refine List.map_congr_left fun entry hmem => ?_
    exact (hlisted entry hmem).symm

theorem OpenTable.Represents.arrayAgrees {a : SnobolArray} {m : KeyMap Int32}
    (h : a.Represents arrayKeying m 1) : SnobolArray.Agrees a m where
  get := h.agrees.get
  has := h.agrees.has
  size := h.size
  nodup := h.listed.1
  mem_keys := h.listed.2.1
  values := h.listed.2.2

/-- Lookups, size and listings are those of the map after every operation of the sequence
exactly if every operation is safe when it is performed. -/
theorem arrayRun_agrees_iff (boundsHint : Int32) (ops : List (EntryOp Int32)) :
    (∀ pre, pre <+: ops → ∃ a, arrayRun boundsHint pre = some a ∧
        SnobolArray.Agrees a (mapAfter pre)) ↔
      ∀ pre op, pre ++ [op] <+: ops → ∀ a, arrayRun boundsHint pre = some a →
        SnobolArray.Safe a op := by
  have hrun := OpenTable.runAll_iff (snobolArrayCreate_represents boundsHint)
    (fun _ _ h => h.arrayAgrees)
    (fun a m (h : SnobolArray.Agrees a m) => ⟨h.get, h.has, h.size⟩) ops
  simp only [arrayRun_eq]
  rw [hrun]
  simp only [safe_iff]

/-- The keys 1 and 17 have the same home: the deletion of 1 hides 17. -/
theorem arrayRun_delete_hides :
    ¬∃ a, arrayRun 0 [.set 1 (some [0x31]), .set 17 (some [0x32]), .delete 1] = some a ∧
      SnobolArray.Agrees a
        (mapAfter [.set 1 (some [0x31]), .set 17 (some [0x32]), .delete 1]) := by
  rintro ⟨a, hrun, hagrees⟩
  have hlost : (arrayRun 0 [.set 1 (some [0x31]), .set 17 (some [0x32]), .delete 1]).bind
      (snobolArrayGetEx · 17) = some none := by decide +kernel
  have hkept : (mapAfter [.set 1 (some [0x31]), .set 17 (some [0x32]), .delete 1]).lookup
      (17 : Int32) = some [0x32] := by decide +kernel
  have hget := hagrees.get 17
  rw [hkept] at hget
  rw [hrun, Option.bind_some, hget] at hlost
  cases hlost

end Snobol4
