import Mathlib.Algebra.Order.Group.Nat
import Mathlib.Data.Fintype.EquivFin
import Mathlib.Data.Nat.ModEq
import Snobol4.Support.Probing
import Snobol4.Table

/-!
# OpenTable — what tables and arrays share (`table.c`, `array.c`)

The two hash tables differ in their keys, the hash of a key and what stands in the entry
of a deleted one.  Entries that are all active with a key and a value form a table with
linear probing.  Setting a value and clearing keep it one; a deletion frees a slot, which
hides the keys whose way passes it.
-/

namespace Snobol4

/-- How the keys stand in the entries, their hashes, and what stands there for no key. -/
structure Keying (K C : Type) where
  cell : K → C
  key : C → K
  key_cell : ∀ k, key (cell k) = k
  hash : K → UInt32
  blank : C

/-- `table_entry_t`, `array_entry_t` -/
structure Entry (C : Type) where
  key : C
  value : Option Bytes
  hash : UInt32
  active : Bool
  deriving Repr, DecidableEq

/-- An entry of a new array of entries. -/
def Entry.zero (blank : C) : Entry C := ⟨blank, none, 0, false⟩

/-- The entry is the one of the key. -/
def Entry.holds [DecidableEq C] (κ : Keying K C) (key : K) (e : Entry C) : Bool :=
  e.hash == κ.hash key && e.key == κ.cell key

/-- `snobol_table_t`, `snobol_array_t` -/
structure OpenTable (C : Type) where
  entries : Nat → Entry C
  capacity : Nat
  size : Nat
  tombstones : Nat

/-- An operation that changes a table. -/
inductive EntryOp (K : Type) where
  | set (key : K) (value : Option Bytes)
  | delete (key : K)
  | clear
  deriving Repr, DecidableEq

/-- A finite map to byte strings. -/
abbrev KeyMap (K : Type) := Finmap fun _ : K => Bytes

/-- The operation on a map: to set no value is to delete. -/
def EntryOp.act [DecidableEq K] (m : KeyMap K) : EntryOp K → KeyMap K
  | .set key (some value) => m.insert key value
  | .set key none => m.erase key
  | .delete key => m.erase key
  | .clear => ∅

/-- The map after the operations. -/
def mapAfter [DecidableEq K] (ops : List (EntryOp K)) : KeyMap K := ops.foldl EntryOp.act ∅

theorem mapAfter_append [DecidableEq K] (ops : List (EntryOp K)) (op : EntryOp K) :
    mapAfter (ops ++ [op]) = op.act (mapAfter ops) := by
  unfold mapAfter
  rw [List.foldl_append]
  rfl

namespace OpenTable

section

variable {K C : Type}

/-- The probe loop: the first slot from `idx` on that is not active or is hit. -/
def probe (entries : Nat → Entry C) (mask : Nat) (hit : Entry C → Bool) : Nat → Nat → Option Nat
  | 0, _ => none
  | fuel + 1, idx =>
      if (entries idx).active then
        if hit (entries idx) then some idx
        else probe entries mask hit fuel ((idx + 1) % 2 ^ 32 &&& mask)
      else some idx

/-- The body of the loop of the resize. -/
def rehash (mask : Nat) (e : Entry C) (entries : Nat → Entry C) : Option (Nat → Entry C) :=
  if e.active && e.value.isSome then
    (probe entries mask (fun _ => false) (mask + 1) (e.hash.toNat &&& mask)).map
      fun idx => Function.update entries idx e
  else some entries

/-- The loop of the resize over the first entries. -/
def rehashBelow (blank : C) (old : Nat → Entry C) (mask : Nat) : Nat → Option (Nat → Entry C)
  | 0 => some fun _ => .zero blank
  | n + 1 => (rehashBelow blank old mask n).bind (rehash mask (old n))

/-- `table_resize`, `array_resize` -/
def resize (blank : C) (t : OpenTable C) (newCapacity : Nat) : Option (OpenTable C) :=
  (rehashBelow blank t.entries (tableMask newCapacity) t.capacity).map fun entries =>
    { t with entries, capacity := newCapacity, tombstones := 0 }

/-- `table_maybe_resize`, `array_maybe_resize` -/
def maybeResize (blank : C) (t : OpenTable C) : Option (OpenTable C) :=
  if t.capacity * 3 / 4 < (t.size + t.tombstones) % 2 ^ 64 then t.resize blank (t.capacity * 2)
  else some t

/-- Delete the entry at `idx`. -/
def drop (blank : C) (t : OpenTable C) (idx : Nat) : OpenTable C :=
  { t with
    entries :=
      Function.update t.entries idx
        { t.entries idx with key := blank, value := none, active := false }
    size := (t.size + 2 ^ 64 - 1) % 2 ^ 64
    tombstones := (t.tombstones + 1) % 2 ^ 64 }

/-- `table_clear`, `snobol_array_clear` -/
def clear (blank : C) (t : OpenTable C) : OpenTable C :=
  { t with
    entries := fun i =>
      if i < t.capacity && (t.entries i).active then
        { t.entries i with key := blank, value := none, active := false }
      else t.entries i
    size := 0
    tombstones := 0 }

variable [DecidableEq C]

/-- The probe of a key as lookups and deletions do it. -/
def find (κ : Keying K C) (t : OpenTable C) (key : K) : Option Nat :=
  probe t.entries (tableMask t.capacity) (Entry.holds κ key) (tableMask t.capacity + 1)
    ((κ.hash key).toNat &&& tableMask t.capacity)

/-- The probe loop of `table_set_ex` and `snobol_array_set_ex`: it remembers the first
active entry without a value. -/
def setProbe (κ : Keying K C) (entries : Nat → Entry C) (mask : Nat) (key : K) :
    Nat → Nat → Option Nat → Option (Nat × Option Nat)
  | 0, _, _ => none
  | fuel + 1, idx, tombstone =>
      if (entries idx).active then
        if (entries idx).holds κ key then some (idx, tombstone)
        else
          setProbe κ entries mask key fuel ((idx + 1) % 2 ^ 32 &&& mask)
            (if (entries idx).value.isNone && tombstone.isNone then some idx else tombstone)
      else some (idx, tombstone)

/-- Insert a new entry where `setProbe` has stopped. -/
def insertAt (κ : Keying K C) (t : OpenTable C) (idx : Nat) (tombstone : Option Nat) (key : K)
    (value : Option Bytes) : OpenTable C :=
  { t with
    entries :=
      Function.update t.entries (tombstone.getD idx) ⟨κ.cell key, value, κ.hash key, true⟩
    tombstones := if tombstone.isSome then (t.tombstones + 2 ^ 64 - 1) % 2 ^ 64 else t.tombstones
    size := (t.size + 1) % 2 ^ 64 }

/-- `table_set_ex`, `snobol_array_set_ex` -/
def setEx (κ : Keying K C) (t : OpenTable C) (key : K) (value : Option Bytes) :
    Option (OpenTable C) := do
  let t ← t.maybeResize κ.blank
  let mask := tableMask t.capacity
  let (idx, tombstone) ←
    setProbe κ t.entries mask key (mask + 1) ((κ.hash key).toNat &&& mask) none
  if (t.entries idx).active then
    match value with
    | some v =>
        return { t with
          entries := Function.update t.entries idx { t.entries idx with value := some v } }
    | none => return t.drop κ.blank idx
  else return t.insertAt κ idx tombstone key value

/-- `table_get_ex`, `snobol_array_get_ex` -/
def getEx (κ : Keying K C) (t : OpenTable C) (key : K) : Option (Option Bytes) :=
  (t.find κ key).map fun idx => if (t.entries idx).active then (t.entries idx).value else none

/-- `table_has_ex`, `snobol_array_has` -/
def hasEx (κ : Keying K C) (t : OpenTable C) (key : K) : Option Bool :=
  (t.getEx κ key).map (·.isSome)

/-- `table_delete_ex`, `snobol_array_delete` -/
def deleteEx (κ : Keying K C) (t : OpenTable C) (key : K) : Option (Bool × OpenTable C) :=
  (t.find κ key).map fun idx =>
    if (t.entries idx).active then (true, t.drop κ.blank idx) else (false, t)

/-- The operation on the table. -/
def run (κ : Keying K C) (t : OpenTable C) : EntryOp K → Option (OpenTable C)
  | .set key value => t.setEx κ key value
  | .delete key => (t.deleteEx κ key).map (·.2)
  | .clear => some (t.clear κ.blank)

/-- The table after the operations. -/
def runAll (κ : Keying K C) (start : OpenTable C) (ops : List (EntryOp K)) : Option (OpenTable C) :=
  ops.foldlM (run κ) start

theorem runAll_append {κ : Keying K C} {start t : OpenTable C} {ops : List (EntryOp K)}
    (h : runAll κ start ops = some t) (op : EntryOp K) :
    runAll κ start (ops ++ [op]) = t.run κ op := by
  unfold runAll at h ⊢
  rw [List.foldlM_append, h]
  simp

end

end OpenTable

/-- There are at most 2^32 keys. -/
def FewKeys (K : Type) : Prop := ∀ keys : Finset K, keys.card ≤ 2 ^ 32

/-- A missing key leaves room for one more. -/
theorem FewKeys.card_lt {K : Type} [DecidableEq K] {m : KeyMap K} (h : FewKeys K) {k : K}
    (hlookup : m.lookup k = none) : m.keys.card < 2 ^ 32 := by
  have hk : k ∉ m.keys := fun hk => Finmap.lookup_eq_none.mp hlookup (Finmap.mem_keys.mp hk)
  have hcard := h (insert k m.keys)
  rw [Finset.card_insert_of_notMem hk] at hcard
  exact hcard

/-! ## Slots -/

/-- The number of slots that the mask can reach. -/
def tableSlots (capacity : Nat) : Nat := tableMask capacity + 1

theorem tableSlots_eq {e : Nat} (he : 0 < e) : tableSlots (2 ^ e) = 2 ^ min e 32 := by
  unfold tableSlots tableMask
  have hpos : 0 < 2 ^ e := Nat.two_pow_pos e
  by_cases hle : e ≤ 32
  · have hcap : 2 ^ e ≤ 2 ^ 32 := Nat.pow_le_pow_right (by omega) hle
    rw [Nat.mod_eq_of_lt (by omega), Nat.min_eq_left hle]
    omega
  · obtain ⟨d, rfl⟩ : ∃ d, e = d + 32 := ⟨e - 32, by omega⟩
    have hd : 0 < 2 ^ d := Nat.two_pow_pos d
    rw [Nat.min_eq_right (by omega), Nat.pow_add]
    obtain ⟨c, hc⟩ : ∃ c, 2 ^ d = c + 1 := ⟨2 ^ d - 1, by omega⟩
    rw [hc, show (c + 1) * 2 ^ 32 - 1 = (2 ^ 32 - 1) + 2 ^ 32 * c by omega, Nat.add_mul_mod_self_left]
    rfl

/-- What the mask does. -/
theorem and_tableMask {e : Nat} (he : 0 < e) (x : Nat) :
    x &&& tableMask (2 ^ e) = x % tableSlots (2 ^ e) := by
  have hslots := tableSlots_eq he
  have hmask : tableMask (2 ^ e) = 2 ^ min e 32 - 1 := by
    rw [← hslots, tableSlots, Nat.add_sub_cancel]
  rw [hslots, hmask, Nat.and_two_pow_sub_one_eq_mod]

theorem next_tableMask {e : Nat} (he : 0 < e) (x : Nat) :
    x % 2 ^ 32 &&& tableMask (2 ^ e) = x % tableSlots (2 ^ e) := by
  rw [and_tableMask he, tableSlots_eq he]
  exact Nat.mod_mod_of_dvd x (pow_dvd_pow 2 (Nat.min_le_right e 32))

theorem tableSlots_le {e : Nat} (he : 0 < e) : tableSlots (2 ^ e) ≤ 2 ^ e := by
  rw [tableSlots_eq he]
  exact Nat.pow_le_pow_right (by omega) (Nat.min_le_left e 32)

/-- Up to 2^32 slots the mask reaches them all, and beyond it reaches 2^32. -/
theorem tableSlots_cases {e : Nat} (he : 0 < e) :
    (2 ^ e < 2 ^ 32 ∧ tableSlots (2 ^ e) = 2 ^ e) ∨ tableSlots (2 ^ e) = 2 ^ 32 := by
  rw [tableSlots_eq he]
  by_cases hlt : e < 32
  · exact .inl ⟨Nat.pow_lt_pow_right (by omega) hlt, by rw [Nat.min_eq_left hlt.le]⟩
  · exact .inr (by rw [Nat.min_eq_right (Nat.le_of_not_lt hlt)])

/-- The load keeps a slot free. -/
theorem lt_tableSlots {e n : Nat} (he : 4 ≤ e) (hroom : n < 2 ^ 32)
    (hload : 2 ^ e < 2 ^ 32 → n ≤ 2 ^ e * 3 / 4 + 1) : n < tableSlots (2 ^ e) := by
  have hcap : 16 ≤ 2 ^ e := Nat.pow_le_pow_right (n := 2) (by omega) he
  rcases tableSlots_cases (show 0 < e by omega) with ⟨hlt, hslots⟩ | hslots
  · have := hload hlt
    rw [hslots]
    omega
  · rw [hslots]
    exact hroom

theorem tableSlots_pos (capacity : Nat) : 0 < tableSlots capacity := Nat.succ_pos _

/-- An active entry has a key with its hash, and a value. -/
def Entry.Ok {K C : Type} (κ : Keying K C) (e : Entry C) : Prop :=
  e.active = true → ∃ k v, e = ⟨κ.cell k, some v, κ.hash k, true⟩

namespace OpenTable

section

variable {K C : Type} {κ : Keying K C}

/-- The slot lies on the way to no other entry. -/
def Unpassed (t : OpenTable C) (i : Nat) : Prop :=
  ∀ j < tableSlots t.capacity, j ≠ i → (t.entries j).active = true →
    ¬Probing.dist (tableSlots t.capacity) ((t.entries j).hash.toNat &&& tableMask t.capacity) i <
      Probing.dist (tableSlots t.capacity) ((t.entries j).hash.toNat &&& tableMask t.capacity) j

/-- The slot at which a probe starts. -/
def home (κ : Keying K C) (capacity : Nat) (key : K) : Nat :=
  (κ.hash key).toNat &&& tableMask capacity

/-- The entries as pairs of key and value. -/
def view (κ : Keying K C) (entries : Nat → Entry C) : Probing.Slots K Bytes := fun i =>
  if (entries i).active then some (κ.key (entries i).key, (entries i).value.getD []) else none

theorem home_lt {e : Nat} (he : 0 < e) (key : K) :
    home κ (2 ^ e) key < tableSlots (2 ^ e) := by
  unfold home
  rw [and_tableMask he]
  exact Nat.mod_lt _ (tableSlots_pos _)

/-- The loop probes the pairs of key and value. -/
theorem probe_eq {entries : Nat → Entry C} {hit : Entry C → Bool} {p : K → Bool}
    {e : Nat} (he : 0 < e) (hok : ∀ i, (entries i).Ok κ)
    (hhit : ∀ k v, hit ⟨κ.cell k, some v, κ.hash k, true⟩ = p k) (fuel idx : Nat) :
    probe entries (tableMask (2 ^ e)) hit fuel idx =
      Probing.probe (tableSlots (2 ^ e)) (view κ entries) p fuel idx := by
  induction fuel generalizing idx with
  | zero => rfl
  | succ fuel ih =>
    rw [probe, Probing.probe, view]
    by_cases hactive : (entries idx).active = true
    · obtain ⟨k, v, heq⟩ := hok idx hactive
      rw [if_pos hactive, if_pos hactive, heq, hhit k v, next_tableMask he, ih]
      simp only [κ.key_cell]
    · rw [if_neg hactive, if_neg hactive]

theorem view_eq_some {entries : Nat → Entry C} (hok : ∀ i, (entries i).Ok κ) {i : Nat}
    {k : K} {v : Bytes} : view κ entries i = some (k, v) ↔
      entries i = ⟨κ.cell k, some v, κ.hash k, true⟩ := by
  unfold view
  by_cases hactive : (entries i).active = true
  · obtain ⟨k', v', heq⟩ := hok i hactive
    rw [if_pos hactive, heq, κ.key_cell]
    constructor
    · intro h
      cases h
      rfl
    · intro h
      injection h with hcell hvalue
      injection hvalue with hvalue
      rw [← κ.key_cell k', hcell, κ.key_cell, hvalue]
      rfl
  · rw [if_neg hactive]
    constructor
    · intro h
      cases h
    · intro h
      rw [h] at hactive
      exact absurd rfl hactive

theorem view_eq_none {entries : Nat → Entry C} {i : Nat} :
    view κ entries i = none ↔ (entries i).active = false := by
  unfold view
  by_cases hactive : (entries i).active = true
  · rw [if_pos hactive, hactive]
    simp
  · rw [if_neg hactive, Bool.eq_false_of_not_eq_true hactive]
    simp

theorem view_update (entries : Nat → Entry C) (i : Nat) (k : K) (v : Bytes) :
    view κ (Function.update entries i ⟨κ.cell k, some v, κ.hash k, true⟩) =
      Function.update (view κ entries) i (some (k, v)) := by
  funext j
  unfold view
  by_cases hji : j = i
  · subst hji
    simp [κ.key_cell]
  · rw [Function.update_of_ne hji, Function.update_of_ne hji]

theorem view_update_none (entries : Nat → Entry C) (i : Nat) {e : Entry C}
    (h : e.active = false) :
    view κ (Function.update entries i e) = Function.update (view κ entries) i none := by
  funext j
  unfold view
  by_cases hji : j = i
  · subst hji
    simp [h]
  · rw [Function.update_of_ne hji, Function.update_of_ne hji]

section

variable [DecidableEq C]

/-- Without active entries that lack a value the probe of a set remembers nothing. -/
theorem setProbe_eq {entries : Nat → Entry C} (hok : ∀ i, (entries i).Ok κ) (mask : Nat)
    (key : K) (fuel idx : Nat) :
    setProbe κ entries mask key fuel idx none =
      (probe entries mask (Entry.holds κ key) fuel idx).map (·, none) := by
  induction fuel generalizing idx with
  | zero => rfl
  | succ fuel ih =>
    rw [setProbe, probe]
    by_cases hactive : (entries idx).active = true
    · rw [if_pos hactive, if_pos hactive]
      by_cases hholds : (entries idx).holds κ key = true
      · rw [if_pos hholds, if_pos hholds]
        rfl
      · obtain ⟨k, v, heq⟩ := hok idx hactive
        have hvalue : ((entries idx).value.isNone && (none : Option Nat).isNone) = false := by
          rw [heq]
          rfl
        rw [if_neg hholds, if_neg hholds, hvalue]
        exact ih _
    · rw [if_neg hactive, if_neg hactive]
      rfl

theorem holds_ok [DecidableEq K] (key k : K) (v : Bytes) :
    Entry.holds κ key ⟨κ.cell k, some v, κ.hash k, true⟩ = decide (k = key) := by
  unfold Entry.holds
  by_cases heq : k = key
  · subst heq
    simp
  · have hcell : κ.cell k ≠ κ.cell key := by
      intro hcell
      apply heq
      rw [← κ.key_cell k, hcell, κ.key_cell]
    simp [heq, hcell]

end

/-! ## Entries that store a map -/

variable [DecidableEq K]

/-- The entries store the map, each key in reach of its probe. -/
structure Stores (κ : Keying K C) (e : Nat) (entries : Nat → Entry C) (m : KeyMap K) : Prop where
  entriesOk : ∀ i, (entries i).Ok κ
  beyond : ∀ i, tableSlots (2 ^ e) ≤ i → (entries i).active = false
  ok : Probing.Ok (tableSlots (2 ^ e)) (home κ (2 ^ e)) (view κ entries)
  holds : ∀ k v, Probing.Holds (tableSlots (2 ^ e)) (view κ entries) k v ↔ m.lookup k = some v

namespace Stores

variable {e : Nat} {entries : Nat → Entry C} {m : KeyMap K}

theorem empty (e : Nat) {entries : Nat → Entry C} (h : ∀ i, (entries i).active = false) :
    Stores κ e entries ∅ where
  entriesOk i hactive := by
    rw [h i] at hactive
    cases hactive
  beyond i _ := h i
  ok := by
    have hview : view κ entries = fun _ => none := by
      funext i
      exact view_eq_none.mpr (h i)
    rw [hview]
    exact .empty _ _
  holds k v := by
    constructor
    · rintro ⟨i, -, hslot⟩
      rw [view_eq_none.mpr (h i)] at hslot
      cases hslot
    · intro hlookup
      rw [Finmap.lookup_empty] at hlookup
      cases hlookup

/-- A key of the map is in its slot. -/
theorem slot (h : Stores κ e entries m) {k : K} {v : Bytes} (hlookup : m.lookup k = some v) :
    ∃ i < tableSlots (2 ^ e), entries i = ⟨κ.cell k, some v, κ.hash k, true⟩ := by
  obtain ⟨i, hi, hslot⟩ := (h.holds k v).mpr hlookup
  exact ⟨i, hi, (view_eq_some h.entriesOk).mp hslot⟩

theorem mem_keys (h : Stores κ e entries m) {k : K} {v : Bytes}
    (hholds : Probing.Holds (tableSlots (2 ^ e)) (view κ entries) k v) : k ∈ m.keys :=
  Finmap.mem_keys.mpr (Finmap.mem_of_lookup_eq_some ((h.holds k v).mp hholds))

/-- A probe for a key of the map stops at its slot. -/
theorem probe_some [DecidableEq C] (h : Stores κ e entries m) (he : 0 < e) {k : K} {v : Bytes}
    (hlookup : m.lookup k = some v) :
    ∃ i < tableSlots (2 ^ e), entries i = ⟨κ.cell k, some v, κ.hash k, true⟩ ∧
      probe entries (tableMask (2 ^ e)) (Entry.holds κ k) (tableSlots (2 ^ e))
        (home κ (2 ^ e) k) = some i := by
  obtain ⟨i, hi, heq⟩ := h.slot hlookup
  refine ⟨i, hi, heq, ?_⟩
  rw [probe_eq he h.entriesOk fun k' v' => holds_ok k k' v']
  exact h.ok.probe_holds (home_lt he k) hi ((view_eq_some h.entriesOk).mpr heq)

/-- A probe that hits nothing stops at the first free slot. -/
theorem probe_none (h : Stores κ e entries m) (he : 0 < e) {k : K} {hit : Entry C → Bool}
    {p : K → Bool} (hhit : ∀ k v, hit ⟨κ.cell k, some v, κ.hash k, true⟩ = p k)
    (habsent : ∀ k v, m.lookup k = some v → p k = false)
    (hfree : ∃ i < tableSlots (2 ^ e), view κ entries i = none) :
    ∃ i, Probing.FreeFrom (tableSlots (2 ^ e)) (view κ entries) (home κ (2 ^ e) k) i ∧
      probe entries (tableMask (2 ^ e)) hit (tableSlots (2 ^ e)) (home κ (2 ^ e) k) =
        some i := by
  have hhome : home κ (2 ^ e) k < tableSlots (2 ^ e) := home_lt he k
  obtain ⟨i, hi⟩ := Probing.exists_freeFrom hhome hfree
  refine ⟨i, hi, ?_⟩
  rw [probe_eq he h.entriesOk hhit]
  refine Probing.probe_free hhome ?_ hi
  intro j hj k' v' hslot
  exact habsent k' v' ((h.holds k' v').mp ⟨j, hj, hslot⟩)

/-- A new key in the first free slot. -/
theorem insert (h : Stores κ e entries m) {k : K} (habsent : m.lookup k = none) {i : Nat}
    (hfree : Probing.FreeFrom (tableSlots (2 ^ e)) (view κ entries) (home κ (2 ^ e) k) i)
    (v : Bytes) :
    Stores κ e (Function.update entries i ⟨κ.cell k, some v, κ.hash k, true⟩)
      (m.insert k v) where
  entriesOk j hactive := by
    by_cases hji : j = i
    · rw [hji, Function.update_self]
      exact ⟨k, v, rfl⟩
    · rw [Function.update_of_ne hji] at hactive ⊢
      exact h.entriesOk j hactive
  beyond j hj := by
    have hji : j ≠ i := by
      have := hfree.1
      omega
    rw [Function.update_of_ne hji]
    exact h.beyond j hj
  ok := by
    rw [view_update]
    refine h.ok.insert ?_ hfree v
    intro v' hholds
    rw [h.holds, habsent] at hholds
    cases hholds
  holds k' v' := by
    rw [view_update, Probing.holds_insert hfree.1 hfree.2.1, h.holds]
    by_cases heq : k' = k
    · subst heq
      rw [Finmap.lookup_insert, habsent]
      simp [eq_comm]
    · rw [Finmap.lookup_insert_of_ne _ heq]
      simp [heq]

/-- A new value for a key. -/
theorem replace (h : Stores κ e entries m) {k : K} {v : Bytes} {i : Nat} (hi : i < tableSlots (2 ^ e))
    (heq : entries i = ⟨κ.cell k, some v, κ.hash k, true⟩) (v' : Bytes) :
    Stores κ e (Function.update entries i ⟨κ.cell k, some v', κ.hash k, true⟩)
      (m.insert k v') where
  entriesOk j hactive := by
    by_cases hji : j = i
    · rw [hji, Function.update_self]
      exact ⟨k, v', rfl⟩
    · rw [Function.update_of_ne hji] at hactive ⊢
      exact h.entriesOk j hactive
  beyond j hj := by
    rw [Function.update_of_ne (show j ≠ i by omega)]
    exact h.beyond j hj
  ok := by
    rw [view_update]
    exact h.ok.replace ((view_eq_some h.entriesOk).mpr heq) v'
  holds k₁ v₁ := by
    rw [view_update, h.ok.holds_replace hi ((view_eq_some h.entriesOk).mpr heq),
      h.holds]
    by_cases hk : k₁ = k
    · subst hk
      rw [Finmap.lookup_insert]
      simp [eq_comm]
    · rw [Finmap.lookup_insert_of_ne _ hk]
      simp [hk]

/-- A slot on no other way is freed. -/
theorem erase (h : Stores κ e entries m) (he : 0 < e) {k : K} {v : Bytes} {i : Nat}
    (hi : i < tableSlots (2 ^ e)) (heq : entries i = ⟨κ.cell k, some v, κ.hash k, true⟩)
    (hunpassed : Probing.Unpassed (tableSlots (2 ^ e)) (home κ (2 ^ e)) (view κ entries) i)
    {e' : Entry C} (hinactive : e'.active = false) :
    Stores κ e (Function.update entries i e') (m.erase k) where
  entriesOk j hactive := by
    by_cases hji : j = i
    · rw [hji, Function.update_self, hinactive] at hactive
      cases hactive
    · rw [Function.update_of_ne hji] at hactive ⊢
      exact h.entriesOk j hactive
  beyond j hj := by
    rw [Function.update_of_ne (show j ≠ i by omega)]
    exact h.beyond j hj
  ok := by
    rw [view_update_none _ _ hinactive]
    exact h.ok.erase hi (home_lt he) hunpassed
  holds k₁ v₁ := by
    rw [view_update_none _ _ hinactive,
      h.ok.holds_erase hi ((view_eq_some h.entriesOk).mpr heq), h.holds]
    by_cases hk : k₁ = k
    · subst hk
      rw [Finmap.lookup_erase]
      simp
    · rw [Finmap.lookup_erase_ne hk]
      simp [hk]

/-- Fewer keys than slots leave a slot free. -/
theorem exists_free (h : Stores κ e entries m) (hcard : m.keys.card < tableSlots (2 ^ e)) :
    ∃ i < tableSlots (2 ^ e), view κ entries i = none :=
  h.ok.exists_free m.keys (fun _ _ hholds => h.mem_keys hholds) hcard

/-! ## Rehashing -/

/-- One entry moves. -/
theorem moved (h : Stores κ e entries m) (he : 0 < e) {k : K} {v : Bytes}
    (habsent : m.lookup k = none) (hcard : m.keys.card < tableSlots (2 ^ e)) :
    ∃ entries', rehash (tableMask (2 ^ e)) ⟨κ.cell k, some v, κ.hash k, true⟩ entries =
      some entries' ∧ Stores κ e entries' (m.insert k v) := by
  obtain ⟨i, hfree, hprobe⟩ : ∃ i,
      Probing.FreeFrom (tableSlots (2 ^ e)) (view κ entries) (home κ (2 ^ e) k) i ∧
      probe entries (tableMask (2 ^ e)) (fun _ => false) (tableSlots (2 ^ e))
        (home κ (2 ^ e) k) = some i :=
    h.probe_none he (p := fun _ => false) (fun _ _ => rfl) (fun _ _ _ => rfl) (h.exists_free hcard)
  refine ⟨_, ?_, h.insert habsent hfree v⟩
  simp only [rehash, Option.isSome_some, Bool.and_self, if_true]
  exact congrArg (Option.map _) hprobe

/-- The loop moves the entries below `n`. -/
theorem movedBelow {old : Nat → Entry C} {e' : Nat} (h : Stores κ e old m) (he' : 0 < e')
    (hcard : m.keys.card ≤ tableSlots (2 ^ e')) (n : Nat) :
    ∃ entries m', rehashBelow κ.blank old (tableMask (2 ^ e')) n = some entries ∧
      Stores κ e' entries m' ∧
      ∀ k v, m'.lookup k = some v ↔ m.lookup k = some v ∧ ∃ i < n, view κ old i = some (k, v) := by
  induction n with
  | zero =>
    refine ⟨fun _ => .zero κ.blank, ∅, rfl, .empty e' fun _ => rfl, ?_⟩
    intro k v
    rw [Finmap.lookup_empty]
    simp
  | succ n ih =>
    obtain ⟨entries, m', hrun, hstores, hlookup⟩ := ih
    rw [rehashBelow, hrun, Option.bind_some]
    by_cases hactive : (old n).active = true
    · obtain ⟨k, v, heq⟩ := h.entriesOk n hactive
      have hview := (view_eq_some h.entriesOk).mpr heq
      have hn : n < tableSlots (2 ^ e) := by
        by_contra hge
        rw [h.beyond n (Nat.le_of_not_lt hge)] at hactive
        cases hactive
      have hm : m.lookup k = some v := (h.holds k v).mp ⟨n, hn, hview⟩
      have habsent : m'.lookup k = none := by
        -- the key stands in one slot only
        rw [Option.eq_none_iff_forall_ne_some]
        intro v' hv'
        obtain ⟨hv, i, hi, hslot⟩ := (hlookup k v').mp hv'
        have hin := h.ok.unique (hi.trans hn) hn hslot hview
        omega
      have hsub : m'.keys ⊂ m.keys := by
        refine Finset.ssubset_iff_subset_ne.mpr ⟨fun k' hk' => ?_, fun hsame => ?_⟩
        · obtain ⟨v', hv'⟩ := Finmap.mem_iff.mp (Finmap.mem_keys.mp hk')
          exact Finmap.mem_keys.mpr (Finmap.mem_of_lookup_eq_some ((hlookup k' v').mp hv').1)
        · have hk : k ∈ m'.keys := by
            rw [hsame]
            exact Finmap.mem_keys.mpr (Finmap.mem_of_lookup_eq_some hm)
          exact Finmap.lookup_eq_none.mp habsent (Finmap.mem_keys.mp hk)
      obtain ⟨entries', hentry, hstores'⟩ := hstores.moved he' (v := v) habsent
        ((Finset.card_lt_card hsub).trans_le hcard)
      refine ⟨entries', m'.insert k v, heq ▸ hentry, hstores', ?_⟩
      intro k' v'
      by_cases hk : k' = k
      · subst hk
        rw [Finmap.lookup_insert, hm]
        constructor
        · intro hv
          obtain rfl : v = v' := Option.some.inj hv
          exact ⟨rfl, n, Nat.lt_succ_self n, hview⟩
        · exact fun hv => hv.1
      · have hother : view κ old n ≠ some (k', v') := by
          rw [hview]
          intro hslot
          cases hslot
          exact hk rfl
        rw [Finmap.lookup_insert_of_ne _ hk, hlookup, Nat.exists_lt_succ_right,
          or_iff_left hother]
    · refine ⟨entries, m', ?_, hstores, ?_⟩
      · unfold rehash
        rw [Bool.eq_false_of_not_eq_true hactive, Bool.false_and, if_neg (by simp)]
      · intro k v
        have hnone : view κ old n ≠ some (k, v) := by
          rw [view_eq_none.mpr (Bool.eq_false_of_not_eq_true hactive)]
          exact Option.some_ne_none _ ∘ Eq.symm
        rw [hlookup, Nat.exists_lt_succ_right, or_iff_left hnone]

/-- All entries move. -/
theorem movedAll {old : Nat → Entry C} {e' : Nat} (h : Stores κ e old m) (he : 0 < e)
    (he' : 0 < e') (hcard : m.keys.card ≤ tableSlots (2 ^ e')) :
    ∃ entries, rehashBelow κ.blank old (tableMask (2 ^ e')) (2 ^ e) = some entries ∧
      Stores κ e' entries m := by
  obtain ⟨entries, m', hrun, hstores, hlookup⟩ := h.movedBelow he' hcard (2 ^ e)
  have heq : m' = m := by
    refine Finmap.ext_lookup fun k => Option.ext fun v => ?_
    rw [hlookup]
    constructor
    · exact fun hv => hv.1
    · intro hv
      obtain ⟨i, hi, hslot⟩ := (h.holds k v).mpr hv
      exact ⟨hv, i, hi.trans_le (tableSlots_le he), hslot⟩
  exact ⟨entries, hrun, heq ▸ hstores⟩

end Stores

/-! ## Tables that represent a map -/

/-- The table stores the map and counts its keys; below 2^32 slots the load leaves
slots free, from then on a missing key does. -/
structure Represents (κ : Keying K C) (t : OpenTable C) (m : KeyMap K) (slack : Nat) : Prop where
  stores : ∃ e, 4 ≤ e ∧ t.capacity = 2 ^ e ∧ Stores κ e t.entries m
  size : t.size = m.keys.card
  few : t.size ≤ 2 ^ 32
  room : ∀ k, m.lookup k = none → t.size < 2 ^ 32
  load : t.capacity < 2 ^ 32 → t.size + t.tombstones ≤ t.capacity * 3 / 4 + slack

namespace Represents

variable {t : OpenTable C} {m : KeyMap K} {slack : Nat}

/-- A table without keys. -/
theorem create (κ : Keying K C) {e : Nat} (he : 4 ≤ e) :
    Represents κ ⟨fun _ => .zero κ.blank, 2 ^ e, 0, 0⟩ ∅ 0 where
  stores := ⟨e, he, rfl, .empty e fun _ => rfl⟩
  size := rfl
  few := Nat.zero_le _
  room _ _ := Nat.two_pow_pos 32
  load _ := Nat.zero_le _

theorem mono (h : t.Represents κ m 0) : t.Represents κ m 1 where
  stores := h.stores
  size := h.size
  few := h.few
  room := h.room
  load hlt := (h.load hlt).trans (Nat.le_succ _)

/-- A table after the check for its load. -/
theorem resized (h : t.Represents κ m 1) :
    ∃ t', t.maybeResize κ.blank = some t' ∧ t'.size = t.size ∧ t'.Represents κ m 0 := by
  obtain ⟨e, he, hcap, hstores⟩ := h.stores
  have hsize := h.size
  have hfew := h.few
  have hroom := h.room
  have hload := h.load
  have hcap16 : 16 ≤ 2 ^ e := Nat.pow_le_pow_right (n := 2) (by omega) he
  have hdouble : 2 ^ (e + 1) = 2 ^ e * 2 := Nat.pow_succ 2 e
  rw [hcap] at hload
  unfold maybeResize
  by_cases hfull : t.capacity * 3 / 4 < (t.size + t.tombstones) % 2 ^ 64
  · rw [if_pos hfull]
    have hcard : m.keys.card ≤ tableSlots (2 ^ (e + 1)) := by
      rcases tableSlots_cases (show 0 < e + 1 by omega) with ⟨hlt, hslots⟩ | hslots
      · have := hload (by omega)
        omega
      · omega
    obtain ⟨entries, hrun, hstores'⟩ := hstores.movedAll (by omega) (show 0 < e + 1 by omega) hcard
    rw [← hcap, hdouble, ← hcap] at hrun
    unfold resize
    rw [hrun]
    refine ⟨_, rfl, rfl, ⟨e + 1, by omega, ?_, hstores'⟩, hsize, hfew, hroom, ?_⟩
    · rw [hdouble, ← hcap]
    · intro hlt
      simp only [hcap] at hlt ⊢
      have := hload (by omega)
      omega
  · rw [if_neg hfull]
    refine ⟨t, rfl, rfl, ⟨e, he, hcap, hstores⟩, hsize, hfew, hroom, ?_⟩
    intro hlt
    rw [hcap] at hlt hfull ⊢
    have hsum := hload hlt
    rw [Nat.mod_eq_of_lt (by omega)] at hfull
    omega

theorem keys_insert (m : KeyMap K) (k : K) (v : Bytes) : (m.insert k v).keys = insert k m.keys := by
  ext k'
  rw [Finmap.mem_keys, Finmap.mem_insert, Finset.mem_insert, Finmap.mem_keys]

theorem card_insert_of_some {k : K} {v : Bytes} (v' : Bytes) (h : m.lookup k = some v) :
    (m.insert k v').keys.card = m.keys.card := by
  rw [keys_insert, Finset.insert_eq_self.mpr
    (Finmap.mem_keys.mpr (Finmap.mem_of_lookup_eq_some h))]

theorem card_insert_of_none {k : K} (v : Bytes) (h : m.lookup k = none) :
    (m.insert k v).keys.card = m.keys.card + 1 := by
  rw [keys_insert, Finset.card_insert_of_notMem]
  rw [Finmap.mem_keys]
  exact Finmap.lookup_eq_none.mp h

theorem card_erase_of_some {k : K} {v : Bytes} (h : m.lookup k = some v) :
    (m.erase k).keys.card + 1 = m.keys.card := by
  rw [Finmap.keys_erase, Finset.card_erase_add_one
    (Finmap.mem_keys.mpr (Finmap.mem_of_lookup_eq_some h))]

/-- A new value for a key of the map. -/
theorem replaced (h : t.Represents κ m 0) {k : K} {v : Bytes} (hlookup : m.lookup k = some v)
    {i : Nat} (hi : i < tableSlots t.capacity)
    (heq : t.entries i = ⟨κ.cell k, some v, κ.hash k, true⟩) (v' : Bytes) :
    Represents κ
      { t with entries := Function.update t.entries i { t.entries i with value := some v' } }
      (m.insert k v') 0 := by
  obtain ⟨e, he, hcap, hstores⟩ := h.stores
  rw [hcap] at hi
  refine ⟨⟨e, he, hcap, ?_⟩, ?_, h.few, ?_, h.load⟩
  · rw [heq]
    exact hstores.replace hi heq v'
  · rw [card_insert_of_some v' hlookup]
    exact h.size
  · intro k' hk'
    refine h.room k' ?_
    have hne : k' ≠ k := by
      rintro rfl
      rw [Finmap.lookup_insert] at hk'
      cases hk'
    rw [Finmap.lookup_insert_of_ne _ hne] at hk'
    exact hk'

/-- A new key, where the next one finds a free slot again. -/
theorem inserted (h : t.Represents κ m 0) {k : K} (hlookup : m.lookup k = none) {i : Nat}
    (hfree : Probing.FreeFrom (tableSlots t.capacity) (view κ t.entries)
      (home κ t.capacity k) i) (v : Bytes) (hroom : FewKeys K ∨ t.size + 1 < 2 ^ 32) :
    (t.insertAt κ i none k (some v)).Represents κ (m.insert k v) 1 := by
  obtain ⟨e, he, hcap, hstores⟩ := h.stores
  rw [hcap] at hfree
  have hfew := h.room k hlookup
  have hsize : (t.size + 1) % 2 ^ 64 = t.size + 1 := Nat.mod_eq_of_lt (by omega)
  have hcard := card_insert_of_none v hlookup
  rw [← h.size] at hcard
  refine ⟨⟨e, he, hcap, hstores.insert hlookup hfree v⟩, ?_, ?_, ?_, ?_⟩
  · rw [hcard]
    exact hsize
  · exact hsize.trans_le hfew
  · intro k' hk'
    refine hsize.trans_lt ?_
    obtain hkeys | hlt := hroom
    · rw [← hcard]
      exact hkeys.card_lt hk'
    · exact hlt
  · intro hlt
    have := h.load hlt
    simp only [insertAt, hsize, Option.isSome_none, Bool.false_eq_true, if_false]
    omega

/-- The condition on the slots is the one on keys. -/
theorem unpassed_iff {e : Nat} (hcap : t.capacity = 2 ^ e) (hstores : Stores κ e t.entries m)
    (i : Nat) : t.Unpassed i ↔
      Probing.Unpassed (tableSlots (2 ^ e)) (home κ (2 ^ e)) (view κ t.entries) i := by
  unfold Unpassed Probing.Unpassed
  rw [hcap]
  refine forall_congr' fun j => forall_congr' fun _ => forall_congr' fun _ => ?_
  constructor
  · intro h k v hslot
    have heq := (view_eq_some hstores.entriesOk).mp hslot
    rw [heq] at h
    exact h rfl
  · intro h hactive
    obtain ⟨k, v, heq⟩ := hstores.entriesOk j hactive
    have hslot := h k v ((view_eq_some hstores.entriesOk).mpr heq)
    rw [heq]
    exact hslot

/-- A deletion that breaks no way. -/
theorem dropped (h : t.Represents κ m slack) {k : K} {v : Bytes} (hlookup : m.lookup k = some v)
    {i : Nat} (hi : i < tableSlots t.capacity)
    (heq : t.entries i = ⟨κ.cell k, some v, κ.hash k, true⟩) (hunpassed : t.Unpassed i) :
    (t.drop κ.blank i).Represents κ (m.erase k) slack := by
  obtain ⟨e, he, hcap, hstores⟩ := h.stores
  have hcard := card_erase_of_some hlookup
  have hfew := h.few
  have hsize := h.size
  have hload := h.load
  have hdec : (t.size + 2 ^ 64 - 1) % 2 ^ 64 = t.size - 1 := by omega
  rw [unpassed_iff hcap hstores] at hunpassed
  rw [hcap] at hi
  refine ⟨⟨e, he, hcap, hstores.erase (by omega) hi heq hunpassed rfl⟩, ?_, ?_, ?_, ?_⟩
  · simp only [drop, hdec]
    omega
  · simp only [drop, hdec]
    omega
  · intro _ _
    simp only [drop, hdec]
    omega
  · intro hlt
    have := hload hlt
    simp only [drop, hdec] at hlt ⊢
    omega

/-- `table_clear`, `snobol_array_clear` -/
theorem clear (h : t.Represents κ m 1) : (t.clear κ.blank).Represents κ ∅ 1 := by
  obtain ⟨e, he, hcap, hstores⟩ := h.stores
  refine ⟨⟨e, he, hcap, .empty e fun i => ?_⟩, rfl, Nat.zero_le _,
    fun _ _ => Nat.two_pow_pos 32, fun _ => Nat.zero_le _⟩
  simp only [OpenTable.clear]
  split
  · rfl
  · rename_i hnot
    by_contra hactive
    have hactive' : (t.entries i).active = true := by simpa using hactive
    have hbeyond := hstores.beyond i
    have hle := tableSlots_le (show 0 < e by omega)
    rw [hactive', Bool.and_true, decide_eq_true_eq, hcap] at hnot
    rw [hbeyond (by omega)] at hactive'
    cases hactive'

section

variable [DecidableEq C]

/-- The probe of a key of the map. -/
theorem probe_some (h : t.Represents κ m 1) {k : K} {v : Bytes} (hlookup : m.lookup k = some v) :
    ∃ i < tableSlots t.capacity, t.entries i = ⟨κ.cell k, some v, κ.hash k, true⟩ ∧
      t.find κ k = some i := by
  obtain ⟨e, he, hcap, hstores⟩ := h.stores
  unfold find
  rw [hcap]
  exact hstores.probe_some (by omega) hlookup

/-- The probe of another key stops at a free slot. -/
theorem probe_none (h : t.Represents κ m 1) {k : K} (hlookup : m.lookup k = none) :
    ∃ i, Probing.FreeFrom (tableSlots t.capacity) (view κ t.entries) (home κ t.capacity k) i ∧
      t.find κ k = some i := by
  obtain ⟨e, he, hcap, hstores⟩ := h.stores
  unfold find
  have hcard : m.keys.card < tableSlots (2 ^ e) := by
    have hroom := h.room k hlookup
    have hload := h.load
    rw [hcap] at hload
    rw [h.size] at hroom hload
    exact lt_tableSlots he hroom fun hlt => (Nat.le_add_right _ _).trans (hload hlt)
  rw [hcap]
  refine hstores.probe_none (by omega) (fun k' v' => holds_ok k k' v') ?_ (hstores.exists_free hcard)
  intro k' v' hv'
  refine decide_eq_false ?_
  rintro rfl
  rw [hlookup] at hv'
  cases hv'

theorem get_eq (h : t.Represents κ m 1) (key : K) : t.getEx κ key = some (m.lookup key) := by
  unfold getEx
  cases hlookup : m.lookup key with
  | none =>
    obtain ⟨i, hfree, hprobe⟩ := h.probe_none hlookup
    rw [hprobe, Option.map_some, view_eq_none.mp hfree.2.1]
    rfl
  | some v =>
    obtain ⟨i, -, heq, hprobe⟩ := h.probe_some hlookup
    rw [hprobe, Option.map_some, heq]
    rfl

/-- The probe for a key to be set. -/
theorem setProbe_eq (h : t.Represents κ m 1) (key : K) :
    setProbe κ t.entries (tableMask t.capacity) key (tableMask t.capacity + 1)
      ((κ.hash key).toNat &&& tableMask t.capacity) none =
        (t.find κ key).map (·, none) := by
  obtain ⟨e, he, hcap, hstores⟩ := h.stores
  exact OpenTable.setProbe_eq hstores.entriesOk ..

theorem has_eq (h : t.Represents κ m 1) (key : K) :
    t.hasEx κ key = some (m.lookup key).isSome := by
  unfold hasEx
  rw [h.get_eq]
  rfl

theorem erase_eq_self {k : K} (h : m.lookup k = none) : m.erase k = m := by
  refine Finmap.ext_lookup fun k' => ?_
  by_cases hk : k' = k
  · rw [hk, Finmap.lookup_erase, h]
  · rw [Finmap.lookup_erase_ne hk]

end

end Represents

section

variable [DecidableEq C]

/-! ## Safe operations -/

/-- The entry of the key lies on the way to no other entry. -/
def Droppable (κ : Keying K C) (t : OpenTable C) (key : K) : Prop :=
  ∀ i ∈ t.find κ key, (t.entries i).active = true → t.Unpassed i

/-- Lookups and size are those of the map. -/
structure Agrees (κ : Keying K C) (t : OpenTable C) (m : KeyMap K) : Prop where
  get : ∀ key, t.getEx κ key = some (m.lookup key)
  has : ∀ key, t.hasEx κ key = some (m.lookup key).isSome
  size : t.size = m.keys.card

/-- The operation keeps the table in step with the map: a deletion breaks no way, no value
is set for a key that is not there, and the keys do not fill 2^32 slots while others are
missing. -/
def Safe (κ : Keying K C) (t : OpenTable C) : EntryOp K → Prop
  | .set key (some _) => t.hasEx κ key = some true ∨ FewKeys K ∨ t.size + 1 < 2 ^ 32
  | .set key none =>
      t.hasEx κ key = some true ∧ ∀ t' ∈ t.maybeResize κ.blank, t'.Droppable κ key
  | .delete key => t.Droppable κ key
  | .clear => True

namespace Represents

variable {t : OpenTable C} {m : KeyMap K} {slack : Nat}

theorem agrees (h : t.Represents κ m 1) : t.Agrees κ m where
  get := h.get_eq
  has := h.has_eq
  size := h.size

/-- A deletion that breaks a way loses a key. -/
theorem not_agrees_drop (h : t.Represents κ m slack) {k : K} {v : Bytes} (hlookup : m.lookup k = some v)
    {i : Nat} (hi : i < tableSlots t.capacity)
    (heq : t.entries i = ⟨κ.cell k, some v, κ.hash k, true⟩) (hpassed : ¬t.Unpassed i) :
    ¬(t.drop κ.blank i).Agrees κ (m.erase k) := by
  obtain ⟨e, he, hcap, hstores⟩ := h.stores
  rw [unpassed_iff hcap hstores] at hpassed
  unfold Probing.Unpassed at hpassed
  push Not at hpassed
  obtain ⟨j, hj, hji, k', v', hslot, hlt⟩ := hpassed
  rw [hcap] at hi
  have hlookup' := (hstores.holds k' v').mp ⟨j, hj, hslot⟩
  have hne : k' ≠ k := by
    rintro rfl
    exact hji (hstores.ok.unique hj hi hslot ((view_eq_some hstores.entriesOk).mpr heq))
  intro hagrees
  -- the probe of the lost key stops at the freed slot
  have hok : ∀ j, (Function.update t.entries i
      { t.entries i with key := κ.blank, value := none, active := false } j).Ok κ := by
    intro j hactive
    by_cases heq' : j = i
    · rw [heq', Function.update_self] at hactive
      cases hactive
    · rw [Function.update_of_ne heq'] at hactive ⊢
      exact hstores.entriesOk j hactive
  have hprobe : (t.drop κ.blank i).find κ k' = some i := by
    have hlost := hstores.ok.probe_lost (home_lt (by omega) k') hi hj hslot hlt
    unfold find
    simp only [drop, hcap]
    rw [probe_eq (by omega) hok fun k₁ v₁ => holds_ok k' k₁ v₁,
      view_update_none _ _ rfl]
    exact hlost
  have hget := hagrees.get k'
  rw [Finmap.lookup_erase_ne hne, hlookup'] at hget
  unfold getEx at hget
  rw [hprobe, Option.map_some] at hget
  simp [drop] at hget

omit [DecidableEq C] in
/-- The last key that fits. -/
theorem full_insert (h : t.Represents κ m 0) {k : K} (hlookup : m.lookup k = none) {i : Nat}
    (hfree : Probing.FreeFrom (tableSlots t.capacity) (view κ t.entries)
      (home κ t.capacity k) i) (v : Bytes) (hmany : ¬t.size + 1 < 2 ^ 32) :
    ∀ j < tableSlots t.capacity, ((t.insertAt κ i none k (some v)).entries j).active = true := by
  obtain ⟨e, he, hcap, hstores⟩ := h.stores
  rw [hcap] at hfree ⊢
  have hstores' := hstores.insert hlookup hfree v
  have hcard := card_insert_of_none v hlookup
  have hfew := h.room k hlookup
  have hslots : tableSlots (2 ^ e) = 2 ^ 32 := by
    rcases tableSlots_cases (show 0 < e by omega) with ⟨hlt, -⟩ | hslots
    · have hload := h.load
      rw [hcap] at hload
      have := hload hlt
      omega
    · exact hslots
  rw [← h.size, show t.size + 1 = tableSlots (2 ^ e) by omega] at hcard
  have hfull : ∀ j < tableSlots (2 ^ e), view κ (t.insertAt κ i none k (some v)).entries j ≠ none :=
    Probing.full_of_card _ (fun k' hk' => ?_) hcard
  · intro j hj
    by_contra hactive
    exact hfull j hj (view_eq_none.mpr (Bool.eq_false_of_not_eq_true hactive))
  · obtain ⟨v', hv'⟩ := Finmap.mem_iff.mp (Finmap.mem_keys.mp hk')
    exact ⟨v', (hstores'.holds k' v').mpr hv'⟩

/-- With 2^32 keys a probe for another one does not end. -/
theorem find_full (h : t.Represents κ m 0) {k : K} (hlookup : m.lookup k = none) {i : Nat}
    (hfree : Probing.FreeFrom (tableSlots t.capacity) (view κ t.entries)
      (home κ t.capacity k) i) (v : Bytes) (hmany : ¬t.size + 1 < 2 ^ 32) {k' : K}
    (hk' : k' ∉ (m.insert k v).keys) : (t.insertAt κ i none k (some v)).find κ k' = none := by
  have hfull := h.full_insert hlookup hfree v hmany
  obtain ⟨e, he, hcap, hstores⟩ := h.stores
  rw [hcap] at hfree hfull
  have hstores' := hstores.insert hlookup hfree v
  unfold find
  simp only [insertAt, hcap, Option.getD_none] at hfull ⊢
  rw [probe_eq (by omega) hstores'.entriesOk fun k₁ v₁ => holds_ok k' k₁ v₁]
  refine Probing.probe_full (home_lt (by omega) k') ?_
  intro j hj
  obtain ⟨k₁, v₁, heq⟩ := hstores'.entriesOk j (hfull j hj)
  have hslot := (view_eq_some hstores'.entriesOk).mpr heq
  refine ⟨k₁, v₁, hslot, decide_eq_false ?_⟩
  rintro rfl
  exact hk' (hstores'.mem_keys ⟨j, hj, hslot⟩)

theorem not_agrees_insert (h : t.Represents κ m 0) {k : K} (hlookup : m.lookup k = none) {i : Nat}
    (hfree : Probing.FreeFrom (tableSlots t.capacity) (view κ t.entries)
      (home κ t.capacity k) i) (v : Bytes)
    (hkeys : ¬FewKeys K) (hmany : ¬t.size + 1 < 2 ^ 32) :
    ¬(t.insertAt κ i none k (some v)).Agrees κ (m.insert k v) := by
  have hcard := card_insert_of_none v hlookup
  have hfew := h.room k hlookup
  rw [← h.size] at hcard
  unfold FewKeys at hkeys
  push Not at hkeys
  obtain ⟨more, hmore⟩ := hkeys
  obtain ⟨k', -, hk'⟩ := Finset.exists_mem_notMem_of_card_lt_card
    (show (m.insert k v).keys.card < more.card by omega)
  intro hagrees
  have hget := hagrees.get k'
  unfold getEx at hget
  rw [h.find_full hlookup hfree v hmany hk'] at hget
  cases hget

/-- A key is deleted. -/
theorem delete (h : t.Represents κ m 1) (key : K) :
    ∃ t', t.run κ (.delete key) = some t' ∧
      (t.Droppable κ key → t'.Represents κ (m.erase key) 1) ∧
      (¬t.Droppable κ key → ¬t'.Agrees κ (m.erase key)) := by
  simp only [run, deleteEx]
  unfold Droppable
  cases hlookup : m.lookup key with
  | none =>
    obtain ⟨i, hfree, hprobe⟩ := h.probe_none hlookup
    have hinactive := view_eq_none.mp hfree.2.1
    rw [hprobe]
    refine ⟨t, by simp [hinactive], ?_, ?_⟩
    · rw [erase_eq_self hlookup]
      exact fun _ => h
    · intro hnot
      refine absurd ?_ hnot
      intro j hj hactive
      obtain rfl : i = j := Option.some.inj hj
      rw [hinactive] at hactive
      cases hactive
  | some v =>
    obtain ⟨i, hi, heq, hprobe⟩ := h.probe_some hlookup
    rw [hprobe]
    refine ⟨t.drop κ.blank i, by simp [heq], ?_, ?_⟩
    · intro hdrop
      exact h.dropped hlookup hi heq (hdrop i rfl (by rw [heq]))
    · intro hnot
      refine h.not_agrees_drop hlookup hi heq fun hunpassed => hnot ?_
      intro j hj _
      obtain rfl : i = j := Option.some.inj hj
      exact hunpassed

/-- A missing key is inserted where its probe ends. -/
theorem setNew (h : t.Represents κ m 1) {key : K} (hlookup : m.lookup key = none)
    (value : Option Bytes) :
    ∃ (t₁ : OpenTable C) (i : Nat), t₁.size = t.size ∧ t₁.Represents κ m 0 ∧
      Probing.FreeFrom (tableSlots t₁.capacity) (view κ t₁.entries) (home κ t₁.capacity key) i ∧
      t.run κ (.set key value) = some (t₁.insertAt κ i none key value) := by
  obtain ⟨t₁, hresize, hsize, h₁⟩ := h.resized
  obtain ⟨i, hfree, hprobe⟩ := h₁.mono.probe_none hlookup
  have hinactive := view_eq_none.mp hfree.2.1
  refine ⟨t₁, i, hsize, h₁, hfree, ?_⟩
  simp only [run, setEx, hresize, Option.bind_eq_bind, Option.bind_some, h₁.mono.setProbe_eq,
    hprobe]
  simp [hinactive]

/-- A value is set. -/
theorem setSome (h : t.Represents κ m 1) (key : K) (value : Bytes) :
    ∃ t', t.run κ (.set key (some value)) = some t' ∧
      (t.Safe κ (.set key (some value)) → t'.Represents κ (m.insert key value) 1) ∧
      (¬t.Safe κ (.set key (some value)) → ¬t'.Agrees κ (m.insert key value)) := by
  simp only [Safe, h.has_eq]
  cases hlookup : m.lookup key with
  | none =>
    obtain ⟨t₁, i, hsize, h₁, hfree, hrun⟩ := h.setNew hlookup (some value)
    refine ⟨_, hrun, ?_, ?_⟩
    · intro hsafe
      refine h₁.inserted hlookup hfree value ?_
      rw [hsize]
      simpa using hsafe
    · intro hnot
      refine h₁.not_agrees_insert hlookup hfree value (fun hkeys => hnot (.inr (.inl hkeys))) ?_
      rw [hsize]
      exact fun hroom => hnot (.inr (.inr hroom))
  | some v =>
    obtain ⟨t₁, hresize, hsize, h₁⟩ := h.resized
    obtain ⟨i, hi, heq, hprobe⟩ := h₁.mono.probe_some hlookup
    simp only [run, setEx, hresize, Option.bind_eq_bind, Option.bind_some, h₁.mono.setProbe_eq,
      hprobe]
    refine ⟨_, by simp [heq]; rfl, ?_, ?_⟩
    · intro _
      have hreplaced := h₁.replaced hlookup hi heq value
      rw [heq] at hreplaced
      exact hreplaced.mono
    · intro hnot
      exact absurd (.inl rfl) hnot

/-- No value is set. -/
theorem setNone (h : t.Represents κ m 1) (key : K) :
    ∃ t', t.run κ (.set key none) = some t' ∧
      (t.Safe κ (.set key none) → t'.Represents κ (m.erase key) 1) ∧
      (¬t.Safe κ (.set key none) → ¬t'.Agrees κ (m.erase key)) := by
  cases hlookup : m.lookup key with
  | none =>
    obtain ⟨t₁, i, -, h₁, -, hrun⟩ := h.setNew hlookup none
    simp only [Safe, h.has_eq, hlookup]
    refine ⟨_, hrun, ?_, ?_⟩
    · rintro ⟨hhas, -⟩
      cases hhas
    · -- the entry without a value is counted
      intro _ hagrees
      have hcount := hagrees.size
      have hfew := h₁.few
      rw [erase_eq_self hlookup, ← h₁.size] at hcount
      simp only [insertAt] at hcount
      omega
  | some v =>
    obtain ⟨t₁, hresize, hsize, h₁⟩ := h.resized
    obtain ⟨i, hi, heq, hprobe⟩ := h₁.mono.probe_some hlookup
    simp only [run, setEx, hresize, Option.bind_eq_bind, Option.bind_some, h₁.mono.setProbe_eq,
      hprobe, Safe, h.has_eq, hlookup]
    refine ⟨t₁.drop κ.blank i, by simp [heq], ?_, ?_⟩
    · rintro ⟨-, hdrop⟩
      exact (h₁.dropped hlookup hi heq (hdrop t₁ rfl i hprobe (by rw [heq]))).mono
    · intro hnot
      refine h₁.not_agrees_drop hlookup hi heq fun hunpassed => hnot ⟨rfl, ?_⟩
      intro t' ht' j hj _
      obtain rfl : t₁ = t' := Option.some.inj ht'
      obtain rfl : i = j := Option.some.inj (hprobe.symm.trans hj)
      exact hunpassed

/-- A safe operation keeps table and map in step, any other one does not. -/
theorem step (h : t.Represents κ m 1) (op : EntryOp K) :
    ∃ t', t.run κ op = some t' ∧ (t.Safe κ op → t'.Represents κ (op.act m) 1) ∧
      (¬t.Safe κ op → ¬t'.Agrees κ (op.act m)) := by
  cases op with
  | set key value =>
    cases value with
    | some value => exact h.setSome key value
    | none => exact h.setNone key
  | delete key => exact h.delete key
  | clear => exact ⟨_, rfl, fun _ => h.clear, fun hnot => absurd trivial hnot⟩

end Represents

/-! ## Runs -/

/-- After safe operations. -/
theorem runAll_represents {start : OpenTable C} (hstart : start.Represents κ ∅ 1)
    {ops : List (EntryOp K)}
    (h : ∀ pre op, pre ++ [op] <+: ops → ∀ t, runAll κ start pre = some t → t.Safe κ op) :
    ∃ t, runAll κ start ops = some t ∧ t.Represents κ (mapAfter ops) 1 := by
  induction ops using List.reverseRecOn with
  | nil => exact ⟨start, rfl, hstart⟩
  | append_singleton ops op ih =>
    obtain ⟨t, hrun, hrep⟩ := ih fun pre op' hpre =>
      h pre op' (hpre.trans (List.prefix_append ops [op]))
    obtain ⟨t', hop, hsafe, -⟩ := hrep.step op
    refine ⟨t', (runAll_append hrun op).trans hop, ?_⟩
    rw [mapAfter_append]
    exact hsafe (h ops op List.prefix_rfl t hrun)

/-- What every table that represents the map does, and what is no less than to agree with
it, holds after every operation exactly if every operation is safe. -/
theorem runAll_iff {start : OpenTable C} (hstart : start.Represents κ ∅ 1)
    {P : OpenTable C → KeyMap K → Prop} (hP : ∀ t m, t.Represents κ m 1 → P t m)
    (hagrees : ∀ t m, P t m → t.Agrees κ m) (ops : List (EntryOp K)) :
    (∀ pre, pre <+: ops → ∃ t, runAll κ start pre = some t ∧ P t (mapAfter pre)) ↔
      ∀ pre op, pre ++ [op] <+: ops → ∀ t, runAll κ start pre = some t → t.Safe κ op := by
  constructor
  · intro hruns pre op hpre
    -- by induction on the number of operations before
    induction hn : pre.length using Nat.strong_induction_on generalizing pre op with
    | _ n ih =>
      subst hn
      have hbefore : ∀ pre' op', pre' ++ [op'] <+: pre → ∀ t, runAll κ start pre' = some t →
          t.Safe κ op' := by
        intro pre' op' hpre'
        have hlen := hpre'.length_le
        rw [List.length_append, List.length_singleton] at hlen
        exact ih pre'.length (by omega) pre' op'
          ((hpre'.trans (List.prefix_append pre [op])).trans hpre) rfl
      obtain ⟨t, hrun, hrep⟩ := runAll_represents hstart hbefore
      intro t₁ hrun₁
      obtain rfl : t = t₁ := Option.some.inj (hrun.symm.trans hrun₁)
      by_contra hunsafe
      obtain ⟨t', hop, -, hnot⟩ := hrep.step op
      obtain ⟨t'', hrun', hP'⟩ := hruns _ hpre
      obtain rfl : t' = t'' :=
        Option.some.inj (((runAll_append hrun op).trans hop).symm.trans hrun')
      rw [mapAfter_append] at hP'
      exact hnot hunsafe (hagrees t' _ hP')
  · intro hsafe pre hpre
    obtain ⟨t, hrun, hrep⟩ := runAll_represents hstart fun pre' op hpre' =>
      hsafe pre' op (hpre'.trans hpre)
    exact ⟨t, hrun, hP t _ hrep⟩

end

end

end OpenTable

end Snobol4
