import Mathlib.Data.Finmap
import Snobol4.Bytes

/-!
# Table — associative tables (`table.c`)

A table is an array of entries with open addressing.  Keys and values are copied byte
strings, a null pointer is `none`.  Allocations succeed.  A probe that has passed every
slot goes round for ever, which is `none` as the result of an operation.
-/

namespace Snobol4

/-- `table_hash_bytes`: FNV-1a. -/
def tableHashBytes (s : Bytes) : UInt32 :=
  s.foldl (fun hash b => (hash ^^^ b.toUInt32) * 16777619) 2166136261

/-- `table_entry_t` -/
structure TableEntry where
  key : Option Bytes
  value : Option Bytes
  hash : UInt32
  active : Bool
  deriving Repr, DecidableEq

/-- An entry of a new array. -/
def TableEntry.zero : TableEntry := ⟨none, none, 0, false⟩

/-- The entry is the one of the key. -/
def TableEntry.holds (key : Bytes) (e : TableEntry) : Bool :=
  e.hash == tableHashBytes key && e.key == some key

/-- `snobol_table_t` -/
structure SnobolTable where
  entries : Nat → TableEntry
  capacity : Nat
  size : Nat
  tombstones : Nat

/-- `TABLE_INITIAL_CAPACITY` -/
def tableInitialCapacity : Nat := 16

/-- `table_create` -/
def tableCreate : SnobolTable where
  entries _ := .zero
  capacity := tableInitialCapacity
  size := 0
  tombstones := 0

/-- `(uint32_t)(capacity - 1)` -/
def tableMask (capacity : Nat) : Nat := (capacity - 1) % 2 ^ 32

/-- The probe loop: the first slot from `idx` on that is not active or is hit. -/
def probeEntries (entries : Nat → TableEntry) (mask : Nat) (hit : TableEntry → Bool) :
    Nat → Nat → Option Nat
  | 0, _ => none
  | fuel + 1, idx =>
      if (entries idx).active then
        if hit (entries idx) then some idx
        else probeEntries entries mask hit fuel ((idx + 1) % 2 ^ 32 &&& mask)
      else some idx

/-- The body of the loop of `table_resize`. -/
def rehashEntry (mask : Nat) (e : TableEntry) (entries : Nat → TableEntry) :
    Option (Nat → TableEntry) :=
  if e.active && e.value.isSome then
    (probeEntries entries mask (fun _ => false) (mask + 1) (e.hash.toNat &&& mask)).map
      fun idx => Function.update entries idx e
  else some entries

/-- The loop of `table_resize` over the first entries. -/
def rehashBelow (old : Nat → TableEntry) (mask : Nat) : Nat → Option (Nat → TableEntry)
  | 0 => some fun _ => .zero
  | n + 1 => (rehashBelow old mask n).bind (rehashEntry mask (old n))

/-- `table_resize` -/
def tableResize (t : SnobolTable) (newCapacity : Nat) : Option SnobolTable :=
  (rehashBelow t.entries (tableMask newCapacity) t.capacity).map fun entries =>
    { t with entries, capacity := newCapacity, tombstones := 0 }

/-- `table_maybe_resize` -/
def tableMaybeResize (t : SnobolTable) : Option SnobolTable :=
  if t.capacity * 3 / 4 < (t.size + t.tombstones) % 2 ^ 64 then tableResize t (t.capacity * 2)
  else some t

/-- The probe of a key as `table_get_ex` and `table_delete_ex` do it. -/
def tableProbe (t : SnobolTable) (key : Bytes) : Option Nat :=
  probeEntries t.entries (tableMask t.capacity) (TableEntry.holds key) (tableMask t.capacity + 1)
    ((tableHashBytes key).toNat &&& tableMask t.capacity)

/-- The probe loop of `table_set_ex`: it remembers the first active entry without a
value. -/
def setProbe (entries : Nat → TableEntry) (mask : Nat) (key : Bytes) :
    Nat → Nat → Option Nat → Option (Nat × Option Nat)
  | 0, _, _ => none
  | fuel + 1, idx, tombstone =>
      if (entries idx).active then
        if (entries idx).holds key then some (idx, tombstone)
        else
          setProbe entries mask key fuel ((idx + 1) % 2 ^ 32 &&& mask)
            (if (entries idx).value.isNone && tombstone.isNone then some idx else tombstone)
      else some (idx, tombstone)

/-- Delete the entry at `idx`. -/
def SnobolTable.drop (t : SnobolTable) (idx : Nat) : SnobolTable :=
  { t with
    entries :=
      Function.update t.entries idx
        { t.entries idx with key := none, value := none, active := false }
    size := (t.size + 2 ^ 64 - 1) % 2 ^ 64
    tombstones := (t.tombstones + 1) % 2 ^ 64 }

/-- Insert a new entry where `table_set_ex` has stopped. -/
def SnobolTable.insertAt (t : SnobolTable) (idx : Nat) (tombstone : Option Nat) (key : Bytes)
    (value : Option Bytes) : SnobolTable :=
  { t with
    entries :=
      Function.update t.entries (tombstone.getD idx) ⟨some key, value, tableHashBytes key, true⟩
    tombstones := if tombstone.isSome then (t.tombstones + 2 ^ 64 - 1) % 2 ^ 64 else t.tombstones
    size := (t.size + 1) % 2 ^ 64 }

/-- `table_set_ex` -/
def tableSetEx (t : SnobolTable) (key : Bytes) (value : Option Bytes) : Option SnobolTable := do
  let t ← tableMaybeResize t
  let mask := tableMask t.capacity
  let (idx, tombstone) ←
    setProbe t.entries mask key (mask + 1) ((tableHashBytes key).toNat &&& mask) none
  if (t.entries idx).active then
    match value with
    | some v =>
        return { t with
          entries := Function.update t.entries idx { t.entries idx with value := some v } }
    | none => return t.drop idx
  else return t.insertAt idx tombstone key value

/-- `table_get_ex` -/
def tableGetEx (t : SnobolTable) (key : Bytes) : Option (Option Bytes) :=
  (tableProbe t key).map fun idx =>
    if (t.entries idx).active then (t.entries idx).value else none

/-- `table_has_ex` -/
def tableHasEx (t : SnobolTable) (key : Bytes) : Option Bool := (tableGetEx t key).map (·.isSome)

/-- `table_delete_ex` -/
def tableDeleteEx (t : SnobolTable) (key : Bytes) : Option (Bool × SnobolTable) :=
  (tableProbe t key).map fun idx =>
    if (t.entries idx).active then (true, t.drop idx) else (false, t)

/-- `table_clear` -/
def tableClear (t : SnobolTable) : SnobolTable :=
  { t with
    entries := fun i =>
      if i < t.capacity && (t.entries i).active then
        { t.entries i with key := none, value := none, active := false }
      else t.entries i
    size := 0
    tombstones := 0 }

/-- `table_size` -/
def tableSize (t : SnobolTable) : Nat := t.size

/-! ## Sequences of operations -/

/-- An operation that changes a table. -/
inductive TableOp where
  | set (key : Bytes) (value : Option Bytes)
  | delete (key : Bytes)
  | clear
  deriving Repr, DecidableEq

/-- A finite map from byte strings to byte strings. -/
abbrev ByteMap := Finmap fun _ : Bytes => Bytes

/-- The operation on the table. -/
def TableOp.run (t : SnobolTable) : TableOp → Option SnobolTable
  | .set key value => tableSetEx t key value
  | .delete key => (tableDeleteEx t key).map (·.2)
  | .clear => some (tableClear t)

/-- The operation on a map: to set no value is to delete. -/
def TableOp.act (m : ByteMap) : TableOp → ByteMap
  | .set key (some value) => m.insert key value
  | .set key none => m.erase key
  | .delete key => m.erase key
  | .clear => ∅

/-- The table after the operations, from `table_create` on. -/
def tableRun (ops : List TableOp) : Option SnobolTable := ops.foldlM TableOp.run tableCreate

/-- The map after the operations. -/
def mapRun (ops : List TableOp) : ByteMap := ops.foldl TableOp.act ∅

/-- Lookups and size are those of the map. -/
structure SnobolTable.Agrees (t : SnobolTable) (m : ByteMap) : Prop where
  get : ∀ key, tableGetEx t key = some (m.lookup key)
  has : ∀ key, tableHasEx t key = some (m.lookup key).isSome
  size : tableSize t = m.keys.card

end Snobol4
