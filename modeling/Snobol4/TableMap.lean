import Snobol4.OpenTable

/-!
# TableMap — tables as finite maps

A table is an open table whose keys are byte strings and whose entries hold no key where
one was deleted.  The functions of `table.c` do what those on open tables do, so lookups
and size are those of a finite map as long as every operation is safe.
-/

namespace Snobol4

/-! ## Safe operations -/

/-- The slot lies on the way to no other entry. -/
def SnobolTable.Unpassed (t : SnobolTable) (i : Nat) : Prop :=
  ∀ j < tableSlots t.capacity, j ≠ i → (t.entries j).active = true →
    ¬Probing.dist (tableSlots t.capacity) ((t.entries j).hash.toNat &&& tableMask t.capacity) i <
      Probing.dist (tableSlots t.capacity) ((t.entries j).hash.toNat &&& tableMask t.capacity) j

/-- The entry of the key lies on the way to no other entry. -/
def SnobolTable.Droppable (t : SnobolTable) (key : Bytes) : Prop :=
  ∀ i ∈ tableProbe t key, (t.entries i).active = true → t.Unpassed i

/-- The operation keeps the table in step with the map: a deletion breaks no way, no
value is set for a key that is not there, and there are less than 2^32 keys. -/
def SnobolTable.Safe (t : SnobolTable) : TableOp → Prop
  | .set key (some _) => tableHasEx t key = some true ∨ t.size + 1 < 2 ^ 32
  | .set key none =>
      tableHasEx t key = some true ∧ ∀ t' ∈ tableMaybeResize t, t'.Droppable key
  | .delete key => t.Droppable key
  | .clear => True

/-! ## Tables as open tables -/

/-- The keys of a table; a deleted one is the null pointer. -/
def tableKeying : Keying Bytes (Option Bytes) :=
  ⟨some, (·.getD []), fun _ => rfl, tableHashBytes, none⟩

def TableEntry.toEntry (e : TableEntry) : Entry (Option Bytes) := ⟨e.key, e.value, e.hash, e.active⟩

def SnobolTable.toOpen (t : SnobolTable) : OpenTable (Option Bytes) :=
  ⟨TableEntry.toEntry ∘ t.entries, t.capacity, t.size, t.tombstones⟩

def TableOp.toEntryOp : TableOp → EntryOp Bytes
  | .set key value => .set key value
  | .delete key => .delete key
  | .clear => .clear

section

variable {entries : Nat → TableEntry}

theorem toEntry_update (i : Nat) (e : TableEntry) :
    TableEntry.toEntry ∘ Function.update entries i e =
      Function.update (TableEntry.toEntry ∘ entries) i e.toEntry :=
  Function.comp_update ..

theorem holds_toEntry (key : Bytes) (e : TableEntry) :
    e.holds key = e.toEntry.holds tableKeying key := by
  unfold TableEntry.holds Entry.holds
  rw [Bool.eq_iff_iff]
  simp [tableKeying, TableEntry.toEntry]

theorem probeEntries_eq {p : TableEntry → Bool} {q : Entry (Option Bytes) → Bool}
    (hhit : ∀ e, p e = q e.toEntry) (mask fuel idx : Nat) :
    probeEntries entries mask p fuel idx =
      OpenTable.probe (TableEntry.toEntry ∘ entries) mask q fuel idx := by
  induction fuel generalizing idx with
  | zero => rfl
  | succ fuel ih =>
    rw [probeEntries, OpenTable.probe, ih, hhit]
    rfl

theorem rehashEntry_eq (mask : Nat) (e : TableEntry) :
    (rehashEntry mask e entries).map (TableEntry.toEntry ∘ ·) =
      OpenTable.rehash mask e.toEntry (TableEntry.toEntry ∘ entries) := by
  unfold rehashEntry OpenTable.rehash
  rw [probeEntries_eq (q := fun _ => false) fun _ => rfl]
  have hmoves : (e.toEntry.active && e.toEntry.value.isSome) = (e.active && e.value.isSome) := rfl
  rw [hmoves]
  by_cases hmove : (e.active && e.value.isSome) = true
  · rw [if_pos hmove, if_pos hmove, Option.map_map]
    congr 1
    funext idx
    exact toEntry_update idx e
  · rw [if_neg hmove, if_neg hmove]
    rfl

theorem rehashBelow_eq (mask n : Nat) :
    (rehashBelow entries mask n).map (TableEntry.toEntry ∘ ·) =
      OpenTable.rehashBelow none (TableEntry.toEntry ∘ entries) mask n := by
  induction n with
  | zero => rfl
  | succ n ih =>
    rw [rehashBelow, OpenTable.rehashBelow, ← ih]
    cases rehashBelow entries mask n with
    | none => rfl
    | some moved => exact rehashEntry_eq mask (entries n)

theorem setProbe_eq (mask : Nat) (key : Bytes) (fuel idx : Nat) (tombstone : Option Nat) :
    setProbe entries mask key fuel idx tombstone =
      OpenTable.setProbe tableKeying (TableEntry.toEntry ∘ entries) mask key fuel idx tombstone := by
  induction fuel generalizing idx tombstone with
  | zero => rfl
  | succ fuel ih =>
    rw [setProbe, OpenTable.setProbe, ih, holds_toEntry]
    rfl

end

section

variable (t : SnobolTable)

theorem tableMaybeResize_eq :
    (tableMaybeResize t).map SnobolTable.toOpen = t.toOpen.maybeResize tableKeying.blank := by
  have hresize : (tableResize t (t.capacity * 2)).map SnobolTable.toOpen =
      t.toOpen.resize tableKeying.blank (t.capacity * 2) := by
    have hmoved : (rehashBelow t.entries (tableMask (t.capacity * 2)) t.capacity).map _ = _ :=
      rehashBelow_eq (tableMask (t.capacity * 2)) t.capacity
    unfold tableResize OpenTable.resize
    simp only [SnobolTable.toOpen, tableKeying]
    rw [← hmoved, Option.map_map, Option.map_map]
    rfl
  have hload : (t.toOpen.size + t.toOpen.tombstones) % 2 ^ 64 = (t.size + t.tombstones) % 2 ^ 64 := rfl
  have hcap : t.toOpen.capacity = t.capacity := rfl
  unfold tableMaybeResize OpenTable.maybeResize
  rw [hload, hcap]
  by_cases hfull : t.capacity * 3 / 4 < (t.size + t.tombstones) % 2 ^ 64
  · rw [if_pos hfull, if_pos hfull]
    exact hresize
  · rw [if_neg hfull, if_neg hfull]
    rfl

theorem tableProbe_eq (key : Bytes) : tableProbe t key = t.toOpen.find tableKeying key :=
  probeEntries_eq (holds_toEntry key) _ _ _

theorem drop_eq (i : Nat) : (t.drop i).toOpen = t.toOpen.drop tableKeying.blank i := by
  unfold SnobolTable.drop OpenTable.drop SnobolTable.toOpen
  simp only [toEntry_update]
  rfl

theorem insertAt_eq (i : Nat) (tombstone : Option Nat) (key : Bytes) (value : Option Bytes) :
    (t.insertAt i tombstone key value).toOpen = t.toOpen.insertAt tableKeying i tombstone key value := by
  unfold SnobolTable.insertAt OpenTable.insertAt SnobolTable.toOpen
  simp only [toEntry_update]
  rfl

theorem tableSetEx_eq (key : Bytes) (value : Option Bytes) :
    (tableSetEx t key value).map SnobolTable.toOpen = t.toOpen.setEx tableKeying key value := by
  unfold tableSetEx OpenTable.setEx
  rw [← tableMaybeResize_eq]
  cases tableMaybeResize t with
  | none => rfl
  | some t =>
    simp only [Option.bind_eq_bind, Option.bind_some, Option.map_some, setProbe_eq]
    have hhome : (SnobolTable.toOpen t).entries = TableEntry.toEntry ∘ t.entries := rfl
    have hcap : (SnobolTable.toOpen t).capacity = t.capacity := rfl
    rw [hhome, hcap, show tableKeying.hash key = tableHashBytes key from rfl]
    cases OpenTable.setProbe tableKeying (TableEntry.toEntry ∘ t.entries) (tableMask t.capacity) key
      (tableMask t.capacity + 1) ((tableHashBytes key).toNat &&& tableMask t.capacity) none with
    | none => rfl
    | some stop =>
      obtain ⟨idx, tombstone⟩ := stop
      have hactive : ((TableEntry.toEntry ∘ t.entries) idx).active = (t.entries idx).active := rfl
      simp only [Option.bind_some, hactive]
      split
      · cases value with
        | some v =>
          refine congrArg some ?_
          unfold SnobolTable.toOpen
          simp only [toEntry_update]
          rfl
        | none => exact congrArg some (drop_eq t idx)
      · exact congrArg some (insertAt_eq t idx tombstone key value)

theorem tableGetEx_eq (key : Bytes) : tableGetEx t key = t.toOpen.getEx tableKeying key := by
  unfold tableGetEx OpenTable.getEx
  rw [tableProbe_eq]
  rfl

theorem tableHasEx_eq (key : Bytes) : tableHasEx t key = t.toOpen.hasEx tableKeying key := by
  unfold tableHasEx OpenTable.hasEx
  rw [tableGetEx_eq]

theorem tableDeleteEx_eq (key : Bytes) :
    (tableDeleteEx t key).map (fun r => r.2.toOpen) =
      (t.toOpen.deleteEx tableKeying key).map (·.2) := by
  unfold tableDeleteEx OpenTable.deleteEx
  rw [tableProbe_eq, Option.map_map, Option.map_map]
  refine congrArg (Option.map · _) ?_
  funext idx
  have hactive : (t.toOpen.entries idx).active = (t.entries idx).active := rfl
  simp only [Function.comp_apply, hactive]
  split
  · exact drop_eq t idx
  · rfl

theorem tableClear_eq : (tableClear t).toOpen = t.toOpen.clear tableKeying.blank := by
  unfold tableClear OpenTable.clear SnobolTable.toOpen
  congr 1
  funext i
  have hactive : (t.entries i).toEntry.active = (t.entries i).active := rfl
  simp only [Function.comp_apply, hactive]
  by_cases hdrop : (decide (i < t.capacity) && (t.entries i).active) = true
  · rw [if_pos hdrop, if_pos hdrop]
    rfl
  · rw [if_neg hdrop, if_neg hdrop]

theorem TableOp.run_eq (op : TableOp) :
    (op.run t).map SnobolTable.toOpen = t.toOpen.run tableKeying op.toEntryOp := by
  cases op with
  | set key value => exact tableSetEx_eq t key value
  | delete key =>
    rw [TableOp.run, Option.map_map]
    exact tableDeleteEx_eq t key
  | clear => exact congrArg some (tableClear_eq t)

theorem TableOp.act_eq (m : ByteMap) (op : TableOp) : op.act m = op.toEntryOp.act m := by
  cases op with
  | set key value => cases value <;> rfl
  | delete key | clear => rfl

/-! ## The condition -/

theorem droppable_iff (key : Bytes) : t.Droppable key ↔ t.toOpen.Droppable tableKeying key := by
  unfold SnobolTable.Droppable OpenTable.Droppable
  rw [tableProbe_eq]
  rfl

/-- There is no bound on the number of byte strings. -/
theorem not_fewKeys_bytes : ¬FewKeys Bytes := by
  intro h
  obtain ⟨keys, hkeys⟩ := Infinite.exists_subset_card_eq Bytes (2 ^ 32 + 1)
  have hle := h keys
  omega

theorem tableSafe_iff (op : TableOp) : t.Safe op ↔ t.toOpen.Safe tableKeying op.toEntryOp := by
  cases op with
  | set key value =>
    cases value with
    | some value =>
      simp only [SnobolTable.Safe, OpenTable.Safe, TableOp.toEntryOp, tableHasEx_eq,
        not_fewKeys_bytes, false_or]
      rfl
    | none =>
      simp only [SnobolTable.Safe, OpenTable.Safe, TableOp.toEntryOp, tableHasEx_eq,
        ← tableMaybeResize_eq, Option.mem_map, forall_exists_index, and_imp,
        forall_apply_eq_imp_iff₂, droppable_iff]
  | delete key => exact droppable_iff t key
  | clear => exact Iff.rfl

theorem tableAgrees_iff (m : ByteMap) : t.Agrees m ↔ t.toOpen.Agrees tableKeying m := by
  constructor
  · rintro ⟨hget, hhas, hsize⟩
    exact ⟨fun key => (tableGetEx_eq t key).symm.trans (hget key),
      fun key => (tableHasEx_eq t key).symm.trans (hhas key), hsize⟩
  · rintro ⟨hget, hhas, hsize⟩
    exact ⟨fun key => (tableGetEx_eq t key).trans (hget key),
      fun key => (tableHasEx_eq t key).trans (hhas key), hsize⟩

end

/-! ## Runs -/

theorem tableCreate_represents : tableCreate.toOpen.Represents tableKeying ∅ 1 :=
  (OpenTable.Represents.create tableKeying (le_refl 4)).mono

theorem tableRun_eq (ops : List TableOp) :
    (tableRun ops).map SnobolTable.toOpen =
      OpenTable.runAll tableKeying tableCreate.toOpen (ops.map TableOp.toEntryOp) := by
  induction ops using List.reverseRecOn with
  | nil => rfl
  | append_singleton ops op ih =>
    have hlast : tableRun (ops ++ [op]) = (tableRun ops).bind op.run := by
      unfold tableRun
      rw [List.foldlM_append]
      simp
    have hlast' : OpenTable.runAll tableKeying tableCreate.toOpen
        ((ops ++ [op]).map TableOp.toEntryOp) =
          (OpenTable.runAll tableKeying tableCreate.toOpen (ops.map TableOp.toEntryOp)).bind
            fun t => t.run tableKeying op.toEntryOp := by
      unfold OpenTable.runAll
      rw [List.map_append, List.foldlM_append]
      simp
    rw [hlast, hlast', ← ih]
    cases tableRun ops with
    | none => rfl
    | some t => exact op.run_eq t

theorem mapRun_eq (ops : List TableOp) : mapRun ops = mapAfter (ops.map TableOp.toEntryOp) := by
  unfold mapRun mapAfter
  rw [List.foldl_map]
  refine congrArg (List.foldl · _ _) ?_
  funext m op
  exact op.act_eq m

/-- What holds of every operation on the table holds of those on the open table. -/
theorem tableRun_ops {P : OpenTable (Option Bytes) → EntryOp Bytes → Prop} {ops : List TableOp}
    (h : ∀ pre op, pre ++ [op] <+: ops → ∀ t, tableRun pre = some t → P t.toOpen op.toEntryOp) :
    ∀ pre op, pre ++ [op] <+: ops.map TableOp.toEntryOp →
      ∀ u, OpenTable.runAll tableKeying tableCreate.toOpen pre = some u → P u op := by
  intro pre' op' hpre u hrun
  obtain ⟨done, hdone, heq⟩ := List.prefix_map_iff.mp hpre
  obtain ⟨pre, last, rfl, rfl, hlast⟩ := List.map_eq_append_iff.mp heq.symm
  obtain ⟨op, rfl, rfl⟩ := List.map_eq_singleton_iff.mp hlast
  rw [← tableRun_eq] at hrun
  obtain ⟨t, ht, rfl⟩ := Option.map_eq_some_iff.mp hrun
  exact h pre op hdone t ht

/-- Lookups and size are those of the map after every operation of the sequence exactly
if every operation is safe when it is performed. -/
theorem tableRun_agrees_iff (ops : List TableOp) :
    (∀ pre, pre <+: ops → ∃ t, tableRun pre = some t ∧ t.Agrees (mapRun pre)) ↔
      ∀ pre op, pre ++ [op] <+: ops → ∀ t, tableRun pre = some t → t.Safe op := by
  have hruns := OpenTable.runAll_iff tableCreate_represents (P := OpenTable.Agrees tableKeying)
    (fun _ _ h => h.agrees) (fun _ _ h => h) (ops.map TableOp.toEntryOp)
  constructor
  · intro hagrees pre op hpre t hrun
    have hbefore : ∀ pre', pre' <+: ops.map TableOp.toEntryOp →
        ∃ u, OpenTable.runAll tableKeying tableCreate.toOpen pre' = some u ∧
          u.Agrees tableKeying (mapAfter pre') := by
      intro pre' hpre'
      obtain ⟨pre, hpre, rfl⟩ := List.prefix_map_iff.mp hpre'
      obtain ⟨t, hrun, ht⟩ := hagrees pre hpre
      refine ⟨t.toOpen, ?_, ?_⟩
      · rw [← tableRun_eq, hrun]
        rfl
      · rw [← mapRun_eq]
        exact (tableAgrees_iff t _).mp ht
    have hprefix := hpre.map TableOp.toEntryOp
    rw [List.map_append] at hprefix
    refine (tableSafe_iff t op).mpr (hruns.mp hbefore _ _ hprefix t.toOpen ?_)
    rw [← tableRun_eq, hrun]
    rfl
  · intro hsafe pre hpre
    have hbefore := tableRun_ops fun pre op hop t ht =>
      (tableSafe_iff t op).mp (hsafe pre op hop t ht)
    obtain ⟨u, hrun, hu⟩ := hruns.mpr hbefore _ (hpre.map TableOp.toEntryOp)
    rw [← tableRun_eq] at hrun
    obtain ⟨t, ht, rfl⟩ := Option.map_eq_some_iff.mp hrun
    refine ⟨t, ht, (tableAgrees_iff t _).mpr ?_⟩
    rw [mapRun_eq]
    exact hu

/-- "a" and "q" have the same home: the deletion of "a" hides "q". -/
theorem tableRun_delete_hides :
    ¬∃ t, tableRun [.set [0x61] (some [0x31]), .set [0x71] (some [0x32]), .delete [0x61]] = some t ∧
      t.Agrees
        (mapRun [.set [0x61] (some [0x31]), .set [0x71] (some [0x32]), .delete [0x61]]) := by
  rintro ⟨t, hrun, hagrees⟩
  have hlost : (tableRun [.set [0x61] (some [0x31]), .set [0x71] (some [0x32]),
      .delete [0x61]]).bind (tableGetEx · [0x71]) = some none := by decide +kernel
  have hkept : (mapRun [.set [0x61] (some [0x31]), .set [0x71] (some [0x32]),
      .delete [0x61]]).lookup [0x71] = some [0x32] := by decide +kernel
  have hget := hagrees.get [0x71]
  rw [hkept] at hget
  rw [hrun, Option.bind_some, hget] at hlost
  cases hlost

end Snobol4

