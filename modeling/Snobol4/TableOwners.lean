import Mathlib.Data.List.ReduceOption
import Snobol4.BindTables
import Snobol4.Support.References

/-!
# TableOwners — who keeps a table alive (`api.c`, `table.c`, `vm_exec.c`)

A table is freed when its last reference is given back.  References are held by the caller, by
the binding of a pattern, by the binding of a search state and by the registry of the state's VM.
`search_state_sync_tables` rebuilds the registry unless it mirrors the binding in force, which
it tells by an address and a generation.
-/

namespace Snobol4

open References

/-! ## The objects -/

/-- Tables by address; some may be null pointers. -/
abbrev TableList := List (Option Nat)

/-- What `snobol_pattern_t` has for its tables. -/
structure BoundPattern where
  bc : Bytes
  boundTables : TableList
  boundTablesGen : Nat
  deriving DecidableEq

/-- `synced_src`: the state itself or a pattern. -/
inductive BindingSource where
  | state
  | pattern (p : Nat)
  deriving DecidableEq

/-- What `snobol_pattern_search_state_t` has for its tables. -/
structure BoundState where
  pattern : Option Nat
  boundTables : TableList
  boundTablesGen : Nat
  syncedSrc : Option BindingSource
  syncedGen : Nat
  vmTablesSynced : Bool
  /-- `vm.tables` -/
  registry : TableList
  deriving DecidableEq

def BoundPattern.holds (pat : BoundPattern) : List Nat := pat.boundTables.reduceOption

def BoundState.holds (s : BoundState) : List Nat :=
  s.boundTables.reduceOption ++ s.registry.reduceOption

/-- The reference counts, the patterns and the search states by address, and how many references
to a table are the caller's own. -/
structure TableWorld where
  refcount : Nat → Nat
  caller : Nat → Nat
  patterns : List (Option BoundPattern)
  states : List (Option BoundState)

/-- Nothing is allocated, in a memory of some size. -/
def TableWorld.start (patterns states : Nat) : TableWorld where
  refcount _ := 0
  caller _ := 0
  patterns := List.replicate patterns none
  states := List.replicate states none

/-! ## The functions -/

/-- The values of `uint32_t`. -/
def u32Limit : Nat := 2 ^ 32

/-- `table_retain` for every table of a list. -/
def retainTables (refcount : Nat → Nat) (tables : TableList) : Option (Nat → Nat) :=
  retainAll u32Limit refcount tables.reduceOption

/-- `table_release` for every table of a list. -/
def releaseTables (refcount : Nat → Nat) (tables : TableList) : Option (Nat → Nat) :=
  releaseAll refcount tables.reduceOption

/-- `vm_set_tables` over a registry, which is freed first. -/
def vmSetTables (refcount : Nat → Nat) (registry tables : TableList) : Option (Nat → Nat) :=
  (releaseTables refcount registry).bind (retainTables · tables)

/-- A run of the VM may read and write every table of its registry. -/
def useTables (refcount : Nat → Nat) (registry : TableList) : Option (Nat → Nat) :=
  if ∀ t ∈ registry.reduceOption, 0 < refcount t then some refcount else none

/-- `snobol_pattern_bind_tables`; without a list `names` or `tables` is a null pointer and `n` is
positive. -/
def snobolPatternBindTables (refcount : Nat → Nat) (pat : BoundPattern)
    (bindings : Option (List (Option Bytes × Option Nat))) : Option ((Nat → Nat) × BoundPattern) :=
  (releaseTables refcount pat.boundTables).bind fun refcount =>
    let pat := { pat with
      boundTables := [], boundTablesGen := (pat.boundTablesGen + 1) % u32Limit }
    match bindings with
    | none | some [] => some (refcount, pat)
    | some bindings =>
        let (bc, bound) := snobolPatternBindBytecodeTables pat.bc (bindings.map (·.1))
        if bound then
          (retainTables refcount (bindings.map (·.2))).map fun refcount =>
            (refcount, { pat with bc, boundTables := bindings.map (·.2) })
        else some (refcount, { pat with bc })

/-- `snobol_pattern_search_state_set_tables`; without a list `tables` is a null pointer and `n`
is positive. -/
def searchStateSetTables (refcount : Nat → Nat) (s : BoundState) (tables : Option TableList) :
    Option ((Nat → Nat) × BoundState) :=
  (releaseTables refcount s.boundTables).bind fun refcount =>
    match tables with
    | none => some (refcount, { s with boundTables := [] })
    | some tables =>
        if Leaf.unboundTable ≤ tables.length then some (refcount, { s with boundTables := [] })
        else
          (retainTables refcount tables).map fun refcount =>
            (refcount, { s with
              boundTables := tables, boundTablesGen := (s.boundTablesGen + 1) % u32Limit })

/-- A binding, with what `synced_src` and `synced_gen` are for it. -/
structure Binding where
  src : Option BindingSource
  tables : TableList
  gen : Nat

/-- No tables are bound. -/
def Binding.empty : Binding := ⟨none, [], 0⟩

/-- The binding in force; nothing where the pattern of the state was freed. -/
def bindingInForce (patterns : List (Option BoundPattern)) (s : BoundState) : Option Binding :=
  if s.boundTables ≠ [] then some ⟨some .state, s.boundTables, s.boundTablesGen⟩
  else
    match s.pattern with
    | none => some .empty
    | some p => patterns[p]?.join.map fun pat =>
        if pat.boundTables ≠ [] then ⟨some (.pattern p), pat.boundTables, pat.boundTablesGen⟩
        else .empty

/-- `search_state_sync_tables` -/
def searchStateSyncTables (refcount : Nat → Nat) (patterns : List (Option BoundPattern))
    (s : BoundState) : Option ((Nat → Nat) × BoundState) :=
  (bindingInForce patterns s).bind fun binding =>
    if s.vmTablesSynced = true ∧ s.syncedSrc = binding.src ∧ s.syncedGen = binding.gen then
      some (refcount, s)
    else
      (vmSetTables refcount s.registry binding.tables).map fun refcount =>
        (refcount, { s with
          registry := binding.tables
          syncedSrc := binding.src
          syncedGen := binding.gen
          vmTablesSynced := true })

/-- The calls of the API that have to do with tables. -/
inductive TableCall where
  | tableCreate (t : Nat)
  | tableRetain (t : Nat)
  | tableRelease (t : Nat)
  | patternCompile (p : Nat) (bc : Bytes)
  | patternBindTables (p : Nat) (bindings : Option (List (Option Bytes × Option Nat)))
  | patternSearch (p : Nat)
  | patternFree (p : Nat)
  | stateCreate (i : Nat)
  | stateSetPattern (i : Nat) (p : Option Nat)
  | stateSetTables (i : Nat) (tables : Option TableList)
  | stateSearch (i : Nat)
  | stateDestroy (i : Nat)

namespace TableWorld

/-- A pattern at its address with other counts. -/
def putPattern (w : TableWorld) (p : Nat) (found : (Nat → Nat) × BoundPattern) : TableWorld :=
  { w with refcount := found.1, patterns := w.patterns.set p (some found.2) }

/-- A search state at its address with other counts. -/
def putState (w : TableWorld) (i : Nat) (found : (Nat → Nat) × BoundState) : TableWorld :=
  { w with refcount := found.1, states := w.states.set i (some found.2) }

/-- What a call does; nothing where it touches an object that is not allocated, or allocates one
that is. -/
def call (w : TableWorld) : TableCall → Option TableWorld
  | .tableCreate t =>
      if w.refcount t = 0 then
        some { w with
          refcount := Function.update w.refcount t 1, caller := Function.update w.caller t 1 }
      else none
  | .tableRetain t =>
      (retain u32Limit w.refcount t).map fun refcount =>
        { w with refcount, caller := Function.update w.caller t (w.caller t + 1) }
  | .tableRelease t =>
      (release w.refcount t).map fun refcount =>
        { w with refcount, caller := Function.update w.caller t (w.caller t - 1) }
  | .patternCompile p bc =>
      if w.patterns[p]? = some none then some (w.putPattern p (w.refcount, ⟨bc, [], 0⟩)) else none
  | .patternBindTables p bindings =>
      w.patterns[p]?.join.bind fun pat =>
        (snobolPatternBindTables w.refcount pat bindings).map (w.putPattern p)
  | .patternSearch p =>
      -- the registry of a VM on the stack
      w.patterns[p]?.join.bind fun pat =>
        (vmSetTables w.refcount [] pat.boundTables).bind fun refcount =>
          (useTables refcount pat.boundTables).bind fun refcount =>
            (releaseTables refcount pat.boundTables).map fun refcount => { w with refcount }
  | .patternFree p =>
      w.patterns[p]?.join.bind fun pat =>
        (releaseTables w.refcount pat.boundTables).map fun refcount =>
          { w with refcount, patterns := w.patterns.set p none }
  | .stateCreate i =>
      if w.states[i]? = some none then
        some (w.putState i (w.refcount, ⟨none, [], 0, none, 0, false, []⟩))
      else none
  | .stateSetPattern i p =>
      w.states[i]?.join.map fun s => w.putState i (w.refcount, { s with pattern := p })
  | .stateSetTables i tables =>
      w.states[i]?.join.bind fun s =>
        (searchStateSetTables w.refcount s tables).map (w.putState i)
  | .stateSearch i =>
      w.states[i]?.join.bind fun s =>
        (searchStateSyncTables w.refcount w.patterns s).bind fun found =>
          (useTables found.1 found.2.registry).map fun _ => w.putState i found
  | .stateDestroy i =>
      w.states[i]?.join.bind fun s =>
        (releaseTables w.refcount s.registry).bind fun refcount =>
          (releaseTables refcount s.boundTables).map fun refcount =>
            { w with refcount, states := w.states.set i none }

/-- The calls one after the other. -/
def run (w : TableWorld) : List TableCall → Option TableWorld
  | [] => some w
  | c :: cs => (w.call c).bind (run · cs)

/-- A condition on every call of a run. -/
def Along (P : TableWorld → TableCall → Prop) (w : TableWorld) : List TableCall → Prop
  | [] => True
  | c :: cs => P w c ∧ ∀ w', w.call c = some w' → Along P w' cs

/-! ## What the caller has to see to -/

/-- The counts have room for the references that a list takes. -/
def Room (w : TableWorld) (tables : TableList) : Prop :=
  ∀ t ∈ tables.reduceOption, w.refcount t + tables.reduceOption.count t < u32Limit

/-- The caller has a reference to every table of a list. -/
def Lends (w : TableWorld) (tables : TableList) : Prop :=
  (∀ t ∈ tables.reduceOption, 0 < w.caller t) ∧ w.Room tables

/-- The caller gives back its own references only, hands in tables that it has a reference to
and objects that it has not freed, and frees no pattern that a search will take the tables from. -/
def Allows (w : TableWorld) : TableCall → Prop
  | .tableCreate t => w.refcount t = 0
  | .tableRetain t => 0 < w.caller t ∧ w.refcount t + 1 < u32Limit
  | .tableRelease t => 0 < w.caller t
  | .patternCompile p _ => w.patterns[p]? = some none
  | .patternBindTables p bindings =>
      (∃ pat, w.patterns[p]? = some (some pat)) ∧ w.Lends ((bindings.getD []).map (·.2))
  | .patternSearch p => ∃ pat, w.patterns[p]? = some (some pat) ∧ w.Room pat.boundTables
  | .patternFree p => ∃ pat, w.patterns[p]? = some (some pat)
  | .stateCreate i => w.states[i]? = some none
  | .stateSetPattern i _ => ∃ s, w.states[i]? = some (some s)
  | .stateSetTables i tables => (∃ s, w.states[i]? = some (some s)) ∧ w.Lends (tables.getD [])
  | .stateSearch i => ∃ s binding, w.states[i]? = some (some s) ∧
      bindingInForce w.patterns s = some binding ∧ w.Room binding.tables
  | .stateDestroy i => ∃ s, w.states[i]? = some (some s)

/-! ## Counts and owners -/

/-- Every reference that is counted has an owner. -/
def Owned (w : TableWorld) : Prop :=
  ∀ t, w.refcount t = w.caller t + held BoundPattern.holds w.patterns t +
    held BoundState.holds w.states t

theorem owned_start (patterns states : Nat) : (start patterns states).Owned := by
  intro t
  simp [start, held_replicate]

variable {w : TableWorld}

/-- A pattern that gives some references back and takes others. -/
theorem Owned.setPattern (h : w.Owned) {p : Nat} {cell : Option BoundPattern}
    (hp : w.patterns[p]? = some cell) (new : Option BoundPattern) {refcount : Nat → Nat}
    (hcount : ∀ t, refcount t + heldBy BoundPattern.holds t cell =
      w.refcount t + heldBy BoundPattern.holds t new) :
    Owned { w with refcount, patterns := w.patterns.set p new } := by
  intro t
  have hold := h t
  have hset := held_set BoundPattern.holds hp new t
  have hone := hcount t
  show refcount t = w.caller t + held BoundPattern.holds (w.patterns.set p new) t +
    held BoundState.holds w.states t
  omega

theorem Owned.setState (h : w.Owned) {i : Nat} {cell : Option BoundState}
    (hi : w.states[i]? = some cell) (new : Option BoundState) {refcount : Nat → Nat}
    (hcount : ∀ t, refcount t + heldBy BoundState.holds t cell =
      w.refcount t + heldBy BoundState.holds t new) :
    Owned { w with refcount, states := w.states.set i new } := by
  intro t
  have hold := h t
  have hset := held_set BoundState.holds hi new t
  have hone := hcount t
  show refcount t = w.caller t + held BoundPattern.holds w.patterns t +
    held BoundState.holds (w.states.set i new) t
  omega

/-- The caller takes a reference or gives one back. -/
theorem Owned.setCaller (h : w.Owned) {t count own : Nat}
    (hcount : count + w.caller t = w.refcount t + own) :
    Owned { w with
      refcount := Function.update w.refcount t count
      caller := Function.update w.caller t own } := by
  intro u
  have hold := h u
  show Function.update w.refcount t count u = Function.update w.caller t own u +
    held BoundPattern.holds w.patterns u + held BoundState.holds w.states u
  by_cases hu : u = t
  · subst hu
    rw [Function.update_self, Function.update_self]
    omega
  · rw [Function.update_of_ne hu, Function.update_of_ne hu]
    exact hold

/-- What a pattern holds is counted beside the references of the caller. -/
theorem Owned.pattern_le (h : w.Owned) {p : Nat} {pat : BoundPattern}
    (hp : w.patterns[p]? = some (some pat)) (t : Nat) :
    w.caller t + pat.holds.count t ≤ w.refcount t := by
  have hold := h t
  have hone : pat.holds.count t ≤ held BoundPattern.holds w.patterns t := heldBy_le _ hp t
  omega

theorem Owned.state_le (h : w.Owned) {i : Nat} {s : BoundState}
    (hi : w.states[i]? = some (some s)) (t : Nat) :
    w.caller t + s.holds.count t ≤ w.refcount t := by
  have hold := h t
  have hone : s.holds.count t ≤ held BoundState.holds w.states t := heldBy_le _ hi t
  omega

end TableWorld

section

variable {refcount : Nat → Nat} {tables : TableList}

theorem releaseTables_eq (h : ∀ t, tables.reduceOption.count t ≤ refcount t) :
    releaseTables refcount tables = some fun t => refcount t - tables.reduceOption.count t :=
  releaseAll_eq fun t _ => h t

theorem retainTables_eq (hfree : ∀ t ∈ tables.reduceOption, 0 < refcount t)
    (hroom : ∀ t ∈ tables.reduceOption, refcount t + tables.reduceOption.count t < u32Limit) :
    retainTables refcount tables = some fun t => refcount t + tables.reduceOption.count t :=
  retainAll_eq hfree hroom

/-- The references go from the old list to the new one. -/
theorem vmSetTables_eq {registry : TableList}
    (hheld : ∀ t, registry.reduceOption.count t ≤ refcount t)
    (hfree : ∀ t ∈ tables.reduceOption, registry.reduceOption.count t < refcount t)
    (hroom : ∀ t ∈ tables.reduceOption, refcount t + tables.reduceOption.count t < u32Limit) :
    vmSetTables refcount registry tables = some fun t =>
      refcount t - registry.reduceOption.count t + tables.reduceOption.count t := by
  rw [vmSetTables, releaseTables_eq hheld, Option.bind_some, retainTables_eq]
  · intro t ht
    exact Nat.sub_pos_of_lt (hfree t ht)
  · intro t ht
    have hone := hroom t ht
    omega

/-- Binding a pattern moves its references to the new tables, if the bytecode takes them. -/
theorem snobolPatternBindTables_counts {pat : BoundPattern}
    {bindings : Option (List (Option Bytes × Option Nat))}
    (hheld : ∀ t, pat.holds.count t ≤ refcount t)
    (hfree : ∀ t ∈ ((bindings.getD []).map (·.2)).reduceOption, pat.holds.count t < refcount t)
    (hroom : ∀ t ∈ ((bindings.getD []).map (·.2)).reduceOption,
      refcount t + ((bindings.getD []).map (·.2)).reduceOption.count t < u32Limit) :
    ∃ found, snobolPatternBindTables refcount pat bindings = some found ∧
      ∀ t, found.1 t + pat.holds.count t = refcount t + found.2.holds.count t := by
  have hnone : ∀ t, refcount t - pat.holds.count t + pat.holds.count t = refcount t + 0 :=
    fun t => Nat.sub_add_cancel (hheld t)
  have hreleased : releaseTables refcount pat.boundTables =
      some fun t => refcount t - pat.holds.count t := releaseTables_eq hheld
  unfold snobolPatternBindTables
  rw [hreleased, Option.bind_some]
  cases bindings with
  | none => exact ⟨_, rfl, hnone⟩
  | some bindings =>
    cases bindings with
    | nil => exact ⟨_, rfl, hnone⟩
    | cons first rest =>
      dsimp only
      split
      · have htaken : vmSetTables refcount pat.boundTables ((first :: rest).map (·.2)) = _ :=
          vmSetTables_eq hheld hfree hroom
        rw [vmSetTables, hreleased, Option.bind_some] at htaken
        refine ⟨_, congrArg (Option.map _) htaken, ?_⟩
        intro t
        have hone := hheld t
        show refcount t - pat.holds.count t + _ + pat.holds.count t = refcount t + _
        unfold BoundPattern.holds at hone ⊢
        dsimp only [Option.getD_some]
        omega
      · exact ⟨_, rfl, hnone⟩

/-- Every call that binds a pattern has a generation of its own. -/
theorem snobolPatternBindTables_gen {pat : BoundPattern}
    {bindings : Option (List (Option Bytes × Option Nat))} {found : (Nat → Nat) × BoundPattern}
    (h : snobolPatternBindTables refcount pat bindings = some found) :
    found.2.boundTablesGen = (pat.boundTablesGen + 1) % u32Limit := by
  unfold snobolPatternBindTables at h
  obtain ⟨released, -, h⟩ := Option.bind_eq_some_iff.mp h
  split at h
  · cases h
    rfl
  · cases h
    rfl
  · dsimp only at h
    split at h
    · obtain ⟨taken, -, h⟩ := Option.map_eq_some_iff.mp h
      cases h
      rfl
    · cases h
      rfl

/-- Setting the tables of a state moves the references of its binding, or only gives them back. -/
theorem searchStateSetTables_counts {s : BoundState} {tables : Option TableList}
    (hheld : ∀ t, s.boundTables.reduceOption.count t ≤ refcount t)
    (hfree : ∀ t ∈ (tables.getD []).reduceOption,
      s.boundTables.reduceOption.count t < refcount t)
    (hroom : ∀ t ∈ (tables.getD []).reduceOption,
      refcount t + (tables.getD []).reduceOption.count t < u32Limit) :
    ∃ found, searchStateSetTables refcount s tables = some found ∧
      ∀ t, found.1 t + s.holds.count t = refcount t + found.2.holds.count t := by
  have hnone : ∀ t, refcount t - s.boundTables.reduceOption.count t + s.holds.count t =
      refcount t + s.registry.reduceOption.count t := by
    intro t
    have hone := hheld t
    rw [BoundState.holds, List.count_append]
    omega
  have hreleased : releaseTables refcount s.boundTables =
      some fun t => refcount t - s.boundTables.reduceOption.count t := releaseTables_eq hheld
  unfold searchStateSetTables
  rw [hreleased, Option.bind_some]
  cases tables with
  | none => exact ⟨_, rfl, hnone⟩
  | some tables =>
    dsimp only
    split
    · exact ⟨_, rfl, hnone⟩
    · have htaken : vmSetTables refcount s.boundTables tables = _ :=
        vmSetTables_eq hheld hfree hroom
      rw [vmSetTables, hreleased, Option.bind_some] at htaken
      refine ⟨_, congrArg (Option.map _) htaken, ?_⟩
      intro t
      have hone := hheld t
      show refcount t - s.boundTables.reduceOption.count t + tables.reduceOption.count t +
        (s.boundTables.reduceOption ++ s.registry.reduceOption).count t =
          refcount t + (tables.reduceOption ++ s.registry.reduceOption).count t
      rw [List.count_append, List.count_append]
      omega

/-- What the state has for its binding afterwards. -/
theorem searchStateSetTables_cases {s : BoundState} {tables : Option TableList}
    {found : (Nat → Nat) × BoundState} (h : searchStateSetTables refcount s tables = some found) :
    found.2 = { s with boundTables := [] } ∨ ∃ bound, found.2 = { s with
      boundTables := bound, boundTablesGen := (s.boundTablesGen + 1) % u32Limit } := by
  unfold searchStateSetTables at h
  obtain ⟨released, -, h⟩ := Option.bind_eq_some_iff.mp h
  split at h
  · cases h
    exact .inl rfl
  · split at h
    · cases h
      exact .inl rfl
    · obtain ⟨taken, -, h⟩ := Option.map_eq_some_iff.mp h
      cases h
      exact .inr ⟨_, rfl⟩

/-- The binding in force is that of the state, none, or that of the pattern. -/
theorem bindingInForce_cases {patterns : List (Option BoundPattern)} {s : BoundState}
    {binding : Binding} (h : bindingInForce patterns s = some binding) :
    s.boundTables ≠ [] ∧ binding = ⟨some .state, s.boundTables, s.boundTablesGen⟩ ∨
      binding = .empty ∨
      ∃ p pat, patterns[p]? = some (some pat) ∧
        binding = ⟨some (.pattern p), pat.boundTables, pat.boundTablesGen⟩ := by
  unfold bindingInForce at h
  split at h
  · rename_i hbound
    cases h
    exact .inl ⟨hbound, rfl⟩
  · split at h
    · cases h
      exact .inr (.inl rfl)
    · rename_i p _
      obtain ⟨pat, hpat, hbinding⟩ := Option.map_eq_some_iff.mp h
      split at hbinding
      · exact .inr (.inr ⟨p, pat, Option.join_eq_some_iff.mp hpat, hbinding.symm⟩)
      · exact .inr (.inl hbinding.symm)

/-- The references go from the registry to the tables in force. -/
theorem searchStateSyncTables_counts {patterns : List (Option BoundPattern)} {s : BoundState}
    {binding : Binding} (hforce : bindingInForce patterns s = some binding)
    (hheld : ∀ t, s.registry.reduceOption.count t ≤ refcount t)
    (hfree : ∀ t ∈ binding.tables.reduceOption, s.registry.reduceOption.count t < refcount t)
    (hroom : ∀ t ∈ binding.tables.reduceOption,
      refcount t + binding.tables.reduceOption.count t < u32Limit) :
    ∃ found, searchStateSyncTables refcount patterns s = some found ∧
      ∀ t, found.1 t + s.holds.count t = refcount t + found.2.holds.count t := by
  unfold searchStateSyncTables
  rw [hforce, Option.bind_some]
  split
  · exact ⟨_, rfl, fun t => rfl⟩
  · refine ⟨_, congrArg (Option.map _) (vmSetTables_eq hheld hfree hroom), ?_⟩
    intro t
    have hone := hheld t
    show refcount t - s.registry.reduceOption.count t + binding.tables.reduceOption.count t +
      (s.boundTables.reduceOption ++ s.registry.reduceOption).count t =
        refcount t + (s.boundTables.reduceOption ++ binding.tables.reduceOption).count t
    rw [List.count_append, List.count_append]
    omega

/-- The registry stays where the state remembers the binding in force, and is rebuilt
otherwise. -/
theorem searchStateSyncTables_cases {patterns : List (Option BoundPattern)} {s : BoundState}
    {found : (Nat → Nat) × BoundState}
    (h : searchStateSyncTables refcount patterns s = some found) :
    ∃ binding, bindingInForce patterns s = some binding ∧
      (found.2 = s ∧ s.vmTablesSynced = true ∧ s.syncedSrc = binding.src ∧
          s.syncedGen = binding.gen ∨
        found.2 = { s with
          registry := binding.tables
          syncedSrc := binding.src
          syncedGen := binding.gen
          vmTablesSynced := true }) := by
  unfold searchStateSyncTables at h
  obtain ⟨binding, hforce, h⟩ := Option.bind_eq_some_iff.mp h
  refine ⟨binding, hforce, ?_⟩
  split at h
  · rename_i hsynced
    cases h
    exact .inl ⟨rfl, hsynced⟩
  · obtain ⟨taken, -, h⟩ := Option.map_eq_some_iff.mp h
    cases h
    exact .inr rfl

end

namespace TableWorld

variable {w : TableWorld}

theorem join_of_cell {O : Type} {cells : List (Option O)} {i : Nat} {o : O}
    (h : cells[i]? = some (some o)) : cells[i]?.join = some o := by
  rw [h]
  rfl

/-- The caller's own reference is not among those of the owners. -/
theorem Owned.lends_pattern (h : w.Owned) {p : Nat} {pat : BoundPattern}
    (hp : w.patterns[p]? = some (some pat)) {t : Nat} (ht : 0 < w.caller t) :
    pat.holds.count t < w.refcount t := by
  have hle := h.pattern_le hp t
  omega

/-- The tables in force are not free once the registry has given its references back. -/
theorem Owned.inForce_free (h : w.Owned) {i : Nat} {s : BoundState} {binding : Binding}
    (hi : w.states[i]? = some (some s)) (hforce : bindingInForce w.patterns s = some binding)
    {t : Nat} (ht : t ∈ binding.tables.reduceOption) :
    s.registry.reduceOption.count t < w.refcount t := by
  have hstate := h.state_le hi t
  rw [BoundState.holds, List.count_append] at hstate
  have hpos : 0 < binding.tables.reduceOption.count t := List.count_pos_iff.mpr ht
  obtain ⟨-, rfl⟩ | rfl | ⟨p, pat, hp, rfl⟩ := bindingInForce_cases hforce
  · have hpos : 0 < s.boundTables.reduceOption.count t := hpos
    omega
  · cases ht
  · -- the pattern holds it, beside what the state holds
    have hpos : 0 < pat.holds.count t := hpos
    have hheld : pat.holds.count t ≤ held BoundPattern.holds w.patterns t := heldBy_le _ hp t
    have hone : s.holds.count t ≤ held BoundState.holds w.states t := heldBy_le _ hi t
    have hall := h t
    rw [BoundState.holds, List.count_append] at hone
    omega

/-- An allowed call finds what it touches, and every count still has its owners. -/
theorem Owned.call (h : w.Owned) {c : TableCall} (hallows : w.Allows c) :
    ∃ w', w.call c = some w' ∧ w'.Owned := by
  cases c with
  | tableCreate t =>
    have hzero : w.refcount t = 0 := hallows
    have hold := h t
    exact ⟨_, if_pos hzero, h.setCaller (by omega)⟩
  | tableRetain t =>
    obtain ⟨hcaller, hroom⟩ := hallows
    have hold := h t
    have hretain : retain u32Limit w.refcount t =
        some (Function.update w.refcount t (w.refcount t + 1)) := if_neg (by omega)
    exact ⟨_, congrArg (Option.map _) hretain, h.setCaller (by omega)⟩
  | tableRelease t =>
    have hcaller : 0 < w.caller t := hallows
    have hold := h t
    have hrelease : release w.refcount t =
        some (Function.update w.refcount t (w.refcount t - 1)) := if_neg (by omega)
    exact ⟨_, congrArg (Option.map _) hrelease, h.setCaller (by omega)⟩
  | patternCompile p bc =>
    exact ⟨_, if_pos hallows, h.setPattern hallows _ fun t => rfl⟩
  | patternBindTables p bindings =>
    obtain ⟨⟨pat, hp⟩, hlends, hroom⟩ := hallows
    obtain ⟨found, hfound, hcounts⟩ := snobolPatternBindTables_counts
      (fun t => (Nat.le_add_left _ _).trans (h.pattern_le hp t))
      (fun t ht => h.lends_pattern hp (hlends t ht)) hroom
    refine ⟨w.putPattern p found, ?_, h.setPattern hp _ hcounts⟩
    rw [TableWorld.call, join_of_cell hp, Option.bind_some, hfound]
    rfl
  | patternSearch p =>
    obtain ⟨pat, hp, hroom⟩ := hallows
    have hheld : ∀ t, pat.boundTables.reduceOption.count t ≤ w.refcount t :=
      fun t => (Nat.le_add_left _ _).trans (h.pattern_le hp t)
    have hset : vmSetTables w.refcount [] pat.boundTables =
        some fun t => w.refcount t + pat.boundTables.reduceOption.count t := by
      refine vmSetTables_eq (fun t => Nat.zero_le _) ?_ hroom
      intro t ht
      exact Nat.lt_of_lt_of_le (List.count_pos_iff.mpr ht) (hheld t)
    have huse : useTables (fun t => w.refcount t + pat.boundTables.reduceOption.count t)
        pat.boundTables =
          some fun t => w.refcount t + pat.boundTables.reduceOption.count t := by
      refine if_pos ?_
      intro t ht
      exact Nat.add_pos_right _ (List.count_pos_iff.mpr ht)
    refine ⟨w, ?_, h⟩
    rw [TableWorld.call, join_of_cell hp, Option.bind_some, hset, Option.bind_some, huse,
      Option.bind_some, releaseTables_eq (fun t => Nat.le_add_left _ _), Option.map_some]
    simp only [Nat.add_sub_cancel]
  | patternFree p =>
    obtain ⟨pat, hp⟩ := hallows
    have hheld : ∀ t, pat.boundTables.reduceOption.count t ≤ w.refcount t :=
      fun t => (Nat.le_add_left _ _).trans (h.pattern_le hp t)
    refine ⟨_, ?_, h.setPattern hp none fun t => Nat.sub_add_cancel (hheld t)⟩
    rw [TableWorld.call, join_of_cell hp, Option.bind_some, releaseTables_eq hheld]
    rfl
  | stateCreate i =>
    exact ⟨_, if_pos hallows, h.setState hallows _ fun t => rfl⟩
  | stateSetPattern i p =>
    obtain ⟨s, hi⟩ := hallows
    refine ⟨w.putState i (w.refcount, { s with pattern := p }), ?_, h.setState hi _ fun t => rfl⟩
    rw [TableWorld.call, join_of_cell hi]
    rfl
  | stateSetTables i tables =>
    obtain ⟨⟨s, hi⟩, hlends, hroom⟩ := hallows
    have hheld : ∀ t, w.caller t + s.boundTables.reduceOption.count t ≤ w.refcount t := by
      intro t
      have hle := h.state_le hi t
      rw [BoundState.holds, List.count_append] at hle
      omega
    obtain ⟨found, hfound, hcounts⟩ := searchStateSetTables_counts
      (fun t => (Nat.le_add_left _ _).trans (hheld t))
      (fun t ht => by have hone := hheld t; have hpos := hlends t ht; omega) hroom
    refine ⟨w.putState i found, ?_, h.setState hi _ hcounts⟩
    rw [TableWorld.call, join_of_cell hi, Option.bind_some, hfound]
    rfl
  | stateSearch i =>
    obtain ⟨s, binding, hi, hforce, hroom⟩ := hallows
    have hheld : ∀ t, s.registry.reduceOption.count t ≤ w.refcount t := by
      intro t
      have hle := h.state_le hi t
      rw [BoundState.holds, List.count_append] at hle
      omega
    obtain ⟨found, hfound, hcounts⟩ := searchStateSyncTables_counts hforce hheld
      (fun t ht => h.inForce_free hi hforce ht) hroom
    have howned : (w.putState i found).Owned := h.setState hi _ hcounts
    refine ⟨w.putState i found, ?_, howned⟩
    -- the registry keeps its tables alive
    have huse : useTables found.1 found.2.registry = some found.1 := by
      refine if_pos ?_
      intro t ht
      have hcell : (w.putState i found).states[i]? = some (some found.2) :=
        List.getElem?_set_self (List.getElem?_eq_some_iff.mp hi).1
      have hle := howned.state_le hcell t
      have hpos := List.count_pos_iff.mpr ht
      rw [BoundState.holds, List.count_append] at hle
      show 0 < (w.putState i found).refcount t
      omega
    rw [TableWorld.call, join_of_cell hi, Option.bind_some, hfound, Option.bind_some, huse]
    rfl
  | stateDestroy i =>
    obtain ⟨s, hi⟩ := hallows
    have hle : ∀ t, s.registry.reduceOption.count t + s.boundTables.reduceOption.count t ≤
        w.refcount t := by
      intro t
      have hle := h.state_le hi t
      rw [BoundState.holds, List.count_append] at hle
      omega
    have howned : Owned { w with
        refcount := fun t => w.refcount t - s.registry.reduceOption.count t -
          s.boundTables.reduceOption.count t
        states := w.states.set i none } := by
      refine h.setState hi none ?_
      intro t
      have hone := hle t
      show _ + s.holds.count t = w.refcount t + 0
      rw [BoundState.holds, List.count_append]
      omega
    refine ⟨_, ?_, howned⟩
    rw [TableWorld.call, join_of_cell hi, Option.bind_some,
      releaseTables_eq (fun t => (Nat.le_add_right _ _).trans (hle t)), Option.bind_some,
      releaseTables_eq (fun t => Nat.le_sub_of_add_le' (hle t))]
    rfl

/-- So is every allowed run. -/
theorem Owned.run (h : w.Owned) {calls : List TableCall} (hallows : Along Allows w calls) :
    ∃ w', w.run calls = some w' ∧ w'.Owned := by
  induction calls generalizing w with
  | nil => exact ⟨w, rfl, h⟩
  | cons c calls ih =>
    obtain ⟨w', hcall, howned⟩ := h.call hallows.1
    obtain ⟨final, hrun, hfinal⟩ := ih howned (hallows.2 w' hcall)
    refine ⟨final, ?_, hfinal⟩
    rw [TableWorld.run, hcall]
    exact hrun

/-- Whatever calls the caller makes, in any order, none touches a table that was freed, and a
table is kept exactly as long as it has an owner; once every object is freed and the caller has
given its references back, no table is left. -/
theorem run_owned (patterns states : Nat) {calls : List TableCall}
    (hallows : Along Allows (start patterns states) calls) :
    ∃ w, (start patterns states).run calls = some w ∧
      (∀ t, w.refcount t = w.caller t + held BoundPattern.holds w.patterns t +
        held BoundState.holds w.states t) ∧
      ((∀ cell ∈ w.patterns, cell = none) → (∀ cell ∈ w.states, cell = none) →
        (∀ t, w.caller t = 0) → ∀ t, w.refcount t = 0) := by
  obtain ⟨w, hrun, howned⟩ := (owned_start patterns states).run hallows
  refine ⟨w, hrun, howned, ?_⟩
  intro hpatterns hstates hcaller t
  rw [howned t, hcaller t, held_eq_zero _ hpatterns, held_eq_zero _ hstates]

theorem Along.step {P : TableWorld → TableCall → Prop} {w w' : TableWorld} {c : TableCall}
    {calls : List TableCall} (hP : P w c) (hcall : w.call c = some w')
    (h : Along P w' calls) : Along P w (c :: calls) := by
  refine ⟨hP, ?_⟩
  intro w'' hcall'
  obtain rfl := Option.some.inj (hcall.symm.trans hcall')
  exact h

/-- The code of an empty pattern. -/
def emptyCode : Bytes := [OpCode.accept.code]

/-- A table that is bound to a pattern, which alone keeps it in the end. -/
def boundOnly : List TableCall :=
  [.tableCreate 0, .patternCompile 0 emptyCode,
    .patternBindTables 0 (some [(some [0x74], some 0)]), .tableRelease 0, .patternSearch 0,
    .patternFree 0]

theorem run_owned_pattern : ∃ w, (start 1 0).run boundOnly = some w ∧ w.refcount 0 = 0 := by
  have hone : ∀ {P : Nat → Prop}, P 0 → ∀ t ∈ List.reduceOption [some 0], P t := by
    intro P h t ht
    obtain rfl := List.mem_singleton.mp ht
    exact h
  have hallows : Along Allows (start 1 0) boundOnly := by
    refine .step rfl rfl (.step rfl rfl (.step ⟨⟨_, rfl⟩, ?_, ?_⟩ rfl (.step ?_ rfl
      (.step ⟨_, rfl, ?_⟩ rfl (.step ⟨_, rfl⟩ rfl trivial)))))
    · exact hone (by decide)
    · exact hone (by decide)
    · exact Nat.one_pos
    · exact hone (by decide)
  obtain ⟨w, hrun, -, hfreed⟩ := run_owned 1 0 hallows
  have hw : (start 1 0).run boundOnly = some
      { refcount := _, caller := _, patterns := [none], states := [] } := rfl
  obtain rfl := Option.some.inj (hw.symm.trans hrun)
  refine ⟨_, hrun, hfreed ?_ ?_ ?_ 0⟩
  · exact fun cell hcell => List.mem_singleton.mp hcell
  · exact fun cell hcell => absurd hcell List.not_mem_nil
  · intro t
    show Function.update (Function.update (fun _ => 0) 0 1) 0 0 t = 0
    by_cases ht : t = 0
    · rw [ht, Function.update_self]
    · rw [Function.update_of_ne ht, Function.update_of_ne ht]

/-! ## Registries and bindings -/

/-- No pattern comes to stand where a search state remembers another one. -/
def KeepsApart (w : TableWorld) : TableCall → Prop
  | .patternCompile p _ =>
      ∀ (i : Nat) (s : BoundState), w.states[i]? = some (some s) →
        s.syncedSrc ≠ some (.pattern p)
  | _ => True

end TableWorld

/-- What the registry mirrors as long as the generation is the remembered one. -/
def BoundState.Remembers (patterns : List (Option BoundPattern)) (s : BoundState) : Prop :=
  s.vmTablesSynced = true →
    match s.syncedSrc with
    | none => s.registry = []
    | some .state => s.syncedGen ≤ s.boundTablesGen ∧
        (s.syncedGen = s.boundTablesGen → s.boundTables = [] ∨ s.registry = s.boundTables)
    | some (.pattern p) => ∀ pat, patterns[p]? = some (some pat) →
        s.syncedGen ≤ pat.boundTablesGen ∧
          (s.syncedGen = pat.boundTablesGen → s.registry = pat.boundTables)

/-- A binding of the state itself that is new has a generation of its own, unless it is empty. -/
theorem BoundState.Remembers.rebind {patterns : List (Option BoundPattern)} {s : BoundState}
    (h : s.Remembers patterns) {bound : TableList} {gen : Nat}
    (hnew : bound = [] ∧ gen = s.boundTablesGen ∨ s.boundTablesGen < gen) :
    { s with boundTables := bound, boundTablesGen := gen }.Remembers patterns := by
  intro hsynced
  have hmirrors := h hsynced
  dsimp only
  cases hsrc : s.syncedSrc with
  | none =>
    rw [hsrc] at hmirrors
    exact hmirrors
  | some src =>
    rw [hsrc] at hmirrors
    cases src with
    | pattern p => exact hmirrors
    | state =>
      obtain ⟨hle, -⟩ := hmirrors
      obtain ⟨rfl, rfl⟩ | hlt := hnew
      · exact ⟨hle, fun _ => .inl rfl⟩
      · exact ⟨by omega, fun heq => by omega⟩

/-- Then the registry is the binding in force after `search_state_sync_tables`. -/
theorem searchStateSyncTables_registry {refcount : Nat → Nat}
    {patterns : List (Option BoundPattern)} {s : BoundState} {binding : Binding}
    {found : (Nat → Nat) × BoundState} (hremembers : s.Remembers patterns)
    (hforce : bindingInForce patterns s = some binding)
    (h : searchStateSyncTables refcount patterns s = some found) :
    found.2.registry = binding.tables := by
  obtain ⟨binding', hforce', hcase⟩ := searchStateSyncTables_cases h
  obtain rfl := Option.some.inj (hforce.symm.trans hforce')
  obtain ⟨hsame, hsynced, hsrc, hgen⟩ | hnew := hcase
  · have hmirrors := hremembers hsynced
    rw [hsame]
    rw [hsrc, hgen] at hmirrors
    obtain ⟨hbound, rfl⟩ | rfl | ⟨p, pat, hp, rfl⟩ := bindingInForce_cases hforce
    · exact (hmirrors.2 rfl).resolve_left hbound
    · exact hmirrors
    · exact (hmirrors pat hp).2 rfl
  · rw [hnew]

/-- And the state remembers it. -/
theorem searchStateSyncTables_remembers {refcount : Nat → Nat}
    {patterns : List (Option BoundPattern)} {s : BoundState} {found : (Nat → Nat) × BoundState}
    (hremembers : s.Remembers patterns)
    (h : searchStateSyncTables refcount patterns s = some found) :
    found.2.Remembers patterns ∧ found.2.boundTablesGen = s.boundTablesGen := by
  obtain ⟨binding, hforce, ⟨hsame, -⟩ | hnew⟩ := searchStateSyncTables_cases h
  · rw [hsame]
    exact ⟨hremembers, rfl⟩
  · rw [hnew]
    refine ⟨fun _ => ?_, rfl⟩
    obtain ⟨-, rfl⟩ | rfl | ⟨p, pat, hp, rfl⟩ := bindingInForce_cases hforce
    · exact ⟨Nat.le_refl _, fun _ => .inr rfl⟩
    · rfl
    · intro pat' hp'
      rw [hp] at hp'
      obtain rfl := Option.some.inj (Option.some.inj hp')
      exact ⟨Nat.le_refl _, fun _ => rfl⟩

namespace TableWorld

variable {w w' : TableWorld} {n : Nat}

/-- After at most `n` calls no generation is behind the calls, and what the states remember
holds. -/
structure Coherent (n : Nat) (w : TableWorld) : Prop where
  patternGen : ∀ (p : Nat) (pat : BoundPattern), w.patterns[p]? = some (some pat) →
    pat.boundTablesGen ≤ n
  stateGen : ∀ (i : Nat) (s : BoundState), w.states[i]? = some (some s) → s.boundTablesGen ≤ n
  remembers : ∀ (i : Nat) (s : BoundState), w.states[i]? = some (some s) → s.Remembers w.patterns

theorem getElem?_set_cases {O : Type} {cells : List (Option O)} {i j : Nat} {new : Option O} {o : O}
    (h : (cells.set i new)[j]? = some (some o)) :
    i = j ∧ new = some o ∨ i ≠ j ∧ cells[j]? = some (some o) := by
  rw [List.getElem?_set] at h
  split at h
  · rename_i hij
    split at h
    · exact .inl ⟨hij, Option.some.inj h⟩
    · cases h
  · rename_i hij
    exact .inr ⟨hij, h⟩

theorem Coherent.mono (h : Coherent n w) {refcount caller : Nat → Nat} :
    Coherent (n + 1) { w with refcount, caller } where
  patternGen p pat hp := Nat.le_succ_of_le (h.patternGen p pat hp)
  stateGen i s hi := Nat.le_succ_of_le (h.stateGen i s hi)
  remembers := h.remembers

/-- A pattern whose generation no state remembers. -/
theorem Coherent.setPattern (h : Coherent n w) {p : Nat} {new : Option BoundPattern}
    {refcount : Nat → Nat} (hgen : ∀ pat, new = some pat → pat.boundTablesGen ≤ n + 1)
    (hnew : ∀ pat, new = some pat → ∀ (i : Nat) (s : BoundState), w.states[i]? = some (some s) →
      s.vmTablesSynced = true → s.syncedSrc = some (.pattern p) →
        s.syncedGen < pat.boundTablesGen) :
    Coherent (n + 1) { w with refcount, patterns := w.patterns.set p new } where
  patternGen q pat hq := by
    obtain ⟨-, hpat⟩ | ⟨-, hold⟩ := getElem?_set_cases hq
    · exact hgen pat hpat
    · exact Nat.le_succ_of_le (h.patternGen q pat hold)
  stateGen i s hi := Nat.le_succ_of_le (h.stateGen i s hi)
  remembers i s hi := by
    intro hsynced
    have hold := h.remembers i s hi hsynced
    cases hsrc : s.syncedSrc with
    | none =>
      rw [hsrc] at hold
      exact hold
    | some src =>
      rw [hsrc] at hold
      cases src with
      | state => exact hold
      | pattern q =>
        intro pat hq
        obtain ⟨rfl, hpat⟩ | ⟨-, hq⟩ := getElem?_set_cases hq
        · have hlt := hnew pat hpat i s hi hsynced hsrc
          exact ⟨Nat.le_of_lt hlt, fun heq => absurd heq (Nat.ne_of_lt hlt)⟩
        · exact hold pat hq

theorem Coherent.setState (h : Coherent n w) {i : Nat} {new : Option BoundState}
    {refcount : Nat → Nat} (hgen : ∀ s, new = some s → s.boundTablesGen ≤ n + 1)
    (hnew : ∀ s, new = some s → s.Remembers w.patterns) :
    Coherent (n + 1) { w with refcount, states := w.states.set i new } where
  patternGen p pat hp := Nat.le_succ_of_le (h.patternGen p pat hp)
  stateGen j s hj := by
    obtain ⟨-, hs⟩ | ⟨-, hold⟩ := getElem?_set_cases hj
    · exact hgen s hs
    · exact Nat.le_succ_of_le (h.stateGen j s hold)
  remembers j s hj := by
    obtain ⟨-, hs⟩ | ⟨-, hold⟩ := getElem?_set_cases hj
    · exact hnew s hs
    · exact h.remembers j s hold

/-- Every call keeps the registries coherent, if no address is used again that a state
remembers. -/
theorem Coherent.call (h : Coherent n w) (hn : n + 1 < u32Limit) {c : TableCall}
    (hapart : w.KeepsApart c) (hcall : w.call c = some w') : Coherent (n + 1) w' := by
  have hnext : ∀ gen, gen ≤ n → (gen + 1) % u32Limit = gen + 1 := fun gen hgen =>
    Nat.mod_eq_of_lt (by omega)
  cases c with
  | tableCreate t =>
    rw [TableWorld.call] at hcall
    split at hcall
    · cases hcall
      exact h.mono
    · cases hcall
  | tableRetain t =>
    obtain ⟨refcount, -, rfl⟩ := Option.map_eq_some_iff.mp hcall
    exact h.mono
  | tableRelease t =>
    obtain ⟨refcount, -, rfl⟩ := Option.map_eq_some_iff.mp hcall
    exact h.mono
  | patternCompile p bc =>
    rw [TableWorld.call] at hcall
    split at hcall
    · cases hcall
      refine h.setPattern ?_ ?_
      · rintro _ ⟨⟩
        exact Nat.zero_le _
      · intro pat _ i s hi _ hsrc
        exact absurd hsrc (hapart i s hi)
    · cases hcall
  | patternBindTables p bindings =>
    obtain ⟨pat, hp, hcall⟩ := Option.bind_eq_some_iff.mp hcall
    obtain ⟨found, hfound, rfl⟩ := Option.map_eq_some_iff.mp hcall
    have hp := Option.join_eq_some_iff.mp hp
    have hgen := snobolPatternBindTables_gen hfound
    have hold := h.patternGen p pat hp
    rw [hnext _ hold] at hgen
    refine h.setPattern ?_ ?_
    · rintro _ ⟨⟩
      omega
    · rintro _ ⟨⟩ i s hi hsynced hsrc
      have hremembers := h.remembers i s hi hsynced
      rw [hsrc] at hremembers
      have hle := (hremembers pat hp).1
      omega
  | patternSearch p =>
    obtain ⟨pat, -, hcall⟩ := Option.bind_eq_some_iff.mp hcall
    obtain ⟨taken, -, hcall⟩ := Option.bind_eq_some_iff.mp hcall
    obtain ⟨used, -, hcall⟩ := Option.bind_eq_some_iff.mp hcall
    obtain ⟨released, -, rfl⟩ := Option.map_eq_some_iff.mp hcall
    exact h.mono
  | patternFree p =>
    obtain ⟨pat, -, hcall⟩ := Option.bind_eq_some_iff.mp hcall
    obtain ⟨released, -, rfl⟩ := Option.map_eq_some_iff.mp hcall
    exact h.setPattern nofun nofun
  | stateCreate i =>
    rw [TableWorld.call] at hcall
    split at hcall
    · cases hcall
      refine h.setState ?_ ?_
      · rintro _ ⟨⟩
        exact Nat.zero_le _
      · rintro _ ⟨⟩ hsynced
        cases hsynced
    · cases hcall
  | stateSetPattern i p =>
    obtain ⟨s, hi, rfl⟩ := Option.map_eq_some_iff.mp hcall
    have hi := Option.join_eq_some_iff.mp hi
    refine h.setState ?_ ?_
    · rintro _ ⟨⟩
      exact Nat.le_succ_of_le (h.stateGen i s hi)
    · rintro _ ⟨⟩
      exact h.remembers i s hi
  | stateSetTables i tables =>
    obtain ⟨s, hi, hcall⟩ := Option.bind_eq_some_iff.mp hcall
    obtain ⟨found, hfound, rfl⟩ := Option.map_eq_some_iff.mp hcall
    have hi := Option.join_eq_some_iff.mp hi
    have hold := h.stateGen i s hi
    have hremembers := h.remembers i s hi
    obtain hcase | ⟨bound, hcase⟩ := searchStateSetTables_cases hfound
    · refine h.setState ?_ ?_
      · rintro _ ⟨⟩
        rw [hcase]
        exact Nat.le_succ_of_le hold
      · rintro _ ⟨⟩
        rw [hcase]
        exact hremembers.rebind (.inl ⟨rfl, rfl⟩)
    · rw [hnext _ hold] at hcase
      refine h.setState ?_ ?_
      · rintro _ ⟨⟩
        rw [hcase]
        exact Nat.succ_le_succ hold
      · rintro _ ⟨⟩
        rw [hcase]
        exact hremembers.rebind (.inr (Nat.lt_succ_self _))
  | stateSearch i =>
    obtain ⟨s, hi, hcall⟩ := Option.bind_eq_some_iff.mp hcall
    obtain ⟨found, hfound, hcall⟩ := Option.bind_eq_some_iff.mp hcall
    obtain ⟨used, -, rfl⟩ := Option.map_eq_some_iff.mp hcall
    have hi := Option.join_eq_some_iff.mp hi
    obtain ⟨hremembers, hgen⟩ := searchStateSyncTables_remembers (h.remembers i s hi) hfound
    refine h.setState ?_ ?_
    · rintro _ ⟨⟩
      rw [hgen]
      exact Nat.le_succ_of_le (h.stateGen i s hi)
    · rintro _ ⟨⟩
      exact hremembers
  | stateDestroy i =>
    obtain ⟨s, -, hcall⟩ := Option.bind_eq_some_iff.mp hcall
    obtain ⟨released, -, hcall⟩ := Option.bind_eq_some_iff.mp hcall
    obtain ⟨released', -, rfl⟩ := Option.map_eq_some_iff.mp hcall
    exact h.setState nofun nofun

theorem coherent_start (patterns states : Nat) : Coherent 0 (start patterns states) := by
  have hnone : ∀ (O : Type) (k j : Nat) (o : O),
      (List.replicate k (none : Option O))[j]? ≠ some (some o) := by
    intro O k j o hget
    have hmem := List.eq_of_mem_replicate (List.mem_of_getElem? hget)
    cases hmem
  exact ⟨fun p pat hp => absurd hp (hnone _ _ _ _), fun i s hi => absurd hi (hnone _ _ _ _),
    fun i s hi => absurd hi (hnone _ _ _ _)⟩

/-- What every call of a run is allowed to rest on. -/
def Careful (w : TableWorld) (c : TableCall) : Prop := w.Allows c ∧ w.KeepsApart c

theorem Coherent.run (h : Coherent n w) (howned : w.Owned) {calls : List TableCall}
    (hcareful : Along Careful w calls) (hn : n + calls.length < u32Limit) :
    ∃ w', w.run calls = some w' ∧ w'.Owned ∧ Coherent (n + calls.length) w' := by
  induction calls generalizing w n with
  | nil => exact ⟨w, rfl, howned, h⟩
  | cons c calls ih =>
    rw [List.length_cons] at hn
    obtain ⟨w', hcall, howned'⟩ := howned.call hcareful.1.1
    have hcoherent := h.call (by omega) hcareful.1.2 hcall
    obtain ⟨final, hrun, hfinal, hcoherent⟩ := ih hcoherent howned' (hcareful.2 w' hcall) (by omega)
    refine ⟨final, ?_, hfinal, ?_⟩
    · rw [TableWorld.run, hcall]
      exact hrun
    · rw [List.length_cons, show n + (calls.length + 1) = n + 1 + calls.length by omega]
      exact hcoherent

/-- After any such run a search sees the tables of the binding in force, each of them alive. -/
theorem run_search_registry (patterns states : Nat) {calls : List TableCall}
    (hcareful : Along Careful (start patterns states) calls) (hshort : calls.length < u32Limit) :
    ∃ w, (start patterns states).run calls = some w ∧
      ∀ (i : Nat) (s : BoundState) (binding : Binding), w.states[i]? = some (some s) →
        bindingInForce w.patterns s = some binding →
        w.Room binding.tables →
          ∃ w' s', w.call (.stateSearch i) = some w' ∧ w'.states[i]? = some (some s') ∧
            s'.registry = binding.tables ∧
            ∀ t ∈ binding.tables.reduceOption, 0 < w'.refcount t := by
  obtain ⟨w, hrun, howned, hcoherent⟩ := (coherent_start patterns states).run
    (owned_start patterns states) hcareful (by omega)
  refine ⟨w, hrun, ?_⟩
  intro i s binding hi hforce hroom
  obtain ⟨w', hcall, howned'⟩ := howned.call
    (show w.Allows (.stateSearch i) from ⟨s, binding, hi, hforce, hroom⟩)
  obtain ⟨s', hs', hbody⟩ := Option.bind_eq_some_iff.mp hcall
  obtain rfl := Option.some.inj ((join_of_cell hi).symm.trans hs')
  obtain ⟨found, hfound, hbody⟩ := Option.bind_eq_some_iff.mp hbody
  obtain ⟨used, -, rfl⟩ := Option.map_eq_some_iff.mp hbody
  have hregistry := searchStateSyncTables_registry (hcoherent.remembers i s hi) hforce hfound
  have hcell : (w.putState i found).states[i]? = some (some found.2) :=
    List.getElem?_set_self (List.getElem?_eq_some_iff.mp hi).1
  refine ⟨_, found.2, hcall, hcell, hregistry, ?_⟩
  intro t ht
  have hle := howned'.state_le hcell t
  rw [BoundState.holds, List.count_append, hregistry] at hle
  have hpos := List.count_pos_iff.mpr ht
  omega

/-- A state that searches with the tables of a pattern. -/
def searchBound : List TableCall :=
  [.tableCreate 0, .patternCompile 0 emptyCode,
    .patternBindTables 0 (some [(some [0x74], some 0)]), .stateCreate 0,
    .stateSetPattern 0 (some 0)]

theorem run_search_registry_bound :
    ∃ w w' s', (start 1 1).run searchBound = some w ∧ w.call (.stateSearch 0) = some w' ∧
      w'.states[0]? = some (some s') ∧ s'.registry = [some 0] := by
  have hone : ∀ {P : Nat → Prop}, P 0 → ∀ t ∈ List.reduceOption [some 0], P t := by
    intro P h t ht
    obtain rfl := List.mem_singleton.mp ht
    exact h
  have hcareful : Along Careful (start 1 1) searchBound := by
    refine .step ⟨rfl, trivial⟩ rfl (.step ⟨rfl, ?_⟩ rfl (.step ⟨⟨⟨_, rfl⟩, ?_, ?_⟩, trivial⟩ rfl
      (.step ⟨rfl, trivial⟩ rfl (.step ⟨⟨_, rfl⟩, trivial⟩ rfl trivial))))
    · intro i s hi
      cases List.eq_of_mem_replicate (List.mem_of_getElem? hi)
    · exact hone (by decide)
    · exact hone (by decide)
  obtain ⟨w, hrun, hsearch⟩ := run_search_registry 1 1 hcareful (by decide)
  have hw : (start 1 1).run searchBound = some ⟨_, _, _, _⟩ := rfl
  obtain rfl := Option.some.inj (hw.symm.trans hrun)
  obtain ⟨w', s', hcall, hcell, hregistry, -⟩ := hsearch 0 _ ⟨_, [some 0], _⟩ rfl rfl
    (hone (by decide))
  exact ⟨_, w', s', hrun, hcall, hcell, hregistry⟩

/-- Where a pattern is freed and another one is compiled to the same address, the state takes the
second for the first: the registry still has the table 0, and not the table 1. -/
theorem search_takes_for_first :
    ∃ w, (start 1 1).run (searchBound ++ [.stateSearch 0, .patternFree 0,
        .patternCompile 0 emptyCode, .tableCreate 1,
        .patternBindTables 0 (some [(some [0x74], some 1)]), .stateSearch 0]) = some w ∧
      (w.states[0]?.join.map BoundState.registry) = some [some 0] ∧
      (w.patterns[0]?.join.map BoundPattern.boundTables) = some [some 1] :=
  ⟨_, rfl, rfl, rfl⟩

/-- Binding once more the tables that only the binding keeps alive frees them first. -/
theorem bindTables_frees_first :
    (start 1 0).run [.tableCreate 0, .patternCompile 0 emptyCode,
      .patternBindTables 0 (some [(some [0x74], some 0)]), .tableRelease 0,
      .patternBindTables 0 (some [(some [0x74], some 0)])] = none := rfl

end TableWorld

end Snobol4
