import Mathlib.Data.List.Nodup
import Mathlib.Logic.Function.Basic
import Snobol4.Bytes
import Snobol4.Support.Chains

/-!
# DynamicCache — the cache of runtime patterns (`dynamic_pattern.c`)

Patterns are reference counted; the cache keeps a reference for every entry, and `get` hands
one out.  A system of one cache and its callers goes through any sequence of operations.  The
count is a `uint32_t`, so all is well as long as it does not wrap.  Sources have no NUL, and
allocations succeed.
-/

namespace Snobol4

/-! ## Patterns -/

/-- The `refcount` of the patterns that are allocated, by address. -/
abbrev PatternHeap := Nat → Option UInt32

/-- `dynamic_pattern_retain` -/
def dynamicPatternRetain (heap : PatternHeap) (p : Nat) : PatternHeap :=
  Function.update heap p ((heap p).map (· + 1))

/-- `dynamic_pattern_release`: at zero the pattern is freed. -/
def dynamicPatternRelease (heap : PatternHeap) (p : Nat) : PatternHeap :=
  Function.update heap p
    ((heap p).bind fun count => if count - 1 = 0 then none else some (count - 1))

/-! ## The cache -/

/-- `dynamic_pattern_hash_source`: FNV-1a. -/
def dynamicPatternHashSource (source : Bytes) : UInt32 :=
  source.foldl (fun hash b => (hash ^^^ b.toUInt32) * 16777619) 2166136261

/-- `dynamic_pattern_cache_entry_t` -/
structure CacheEntry where
  hash : UInt32
  source : Bytes
  pattern : Nat
  deriving Repr, DecidableEq

/-- `dynamic_pattern_cache_t`; `bucket_count` is the length of `buckets`. -/
structure PatternCache where
  buckets : List (List CacheEntry)
  size : Nat
  maxSize : Nat

namespace PatternCache

/-- The entries. -/
def contents (c : PatternCache) : List CacheEntry := c.buckets.flatten

/-- The entries that stay when there is to be room for one more. -/
def kept (c : PatternCache) : List CacheEntry :=
  if c.size < c.maxSize then c.contents else c.contents.tail

/-- `hash % bucket_count` -/
def bucket (c : PatternCache) (hash : UInt32) : Nat := hash.toNat % c.buckets.length

end PatternCache

/-- The entry is the one of the source. -/
def CacheEntry.isFor (source : Bytes) (e : CacheEntry) : Bool :=
  e.hash == dynamicPatternHashSource source && e.source == source

theorem CacheEntry.isFor_iff {source : Bytes} {e : CacheEntry} :
    e.isFor source = true ↔ e.hash = dynamicPatternHashSource source ∧ e.source = source := by
  show (e.hash == dynamicPatternHashSource source && e.source == source) = true ↔ _
  rw [Bool.and_eq_true, beq_iff_eq, beq_iff_eq]

/-- `dynamic_pattern_cache_init` -/
def dynamicPatternCacheInit (maxSize : Nat) : PatternCache where
  buckets := List.replicate 32 []
  size := 0
  maxSize := if 0 < maxSize then maxSize else 64

/-- A cache and the patterns. -/
structure CacheState where
  cache : PatternCache
  heap : PatternHeap

/-- `cache_find_entry` -/
def cacheFindEntry (c : PatternCache) (source : Bytes) : Option CacheEntry :=
  Chains.find c.buckets (c.bucket (dynamicPatternHashSource source)) (CacheEntry.isFor source)

/-- `dynamic_pattern_cache_get` -/
def dynamicPatternCacheGet (st : CacheState) (source : Bytes) : Option Nat × CacheState :=
  match cacheFindEntry st.cache source with
  | some e => (some e.pattern, { st with heap := dynamicPatternRetain st.heap e.pattern })
  | none => (none, st)

/-- `cache_evict_one`, with the entry that goes. -/
def cacheEvictOne (st : CacheState) : Option (CacheEntry × CacheState) :=
  (Chains.pop st.cache.buckets).map fun r =>
    (r.1,
      { cache := { st.cache with buckets := r.2, size := st.cache.size - 1 }
        heap := dynamicPatternRelease st.heap r.1.pattern })

/-- The loop that evicts while the cache is full, with the sources that go; every turn takes
an entry. -/
def cacheEvict : Nat → CacheState → List Bytes × CacheState
  | 0, st => ([], st)
  | fuel + 1, st =>
      if st.cache.maxSize ≤ st.cache.size then
        match cacheEvictOne st with
        | none => ([], st)
        | some (e, st) =>
            let rest := cacheEvict fuel st
            (e.source :: rest.1, rest.2)
      else ([], st)

/-- `dynamic_pattern_cache_put`, with the sources that are evicted. -/
def dynamicPatternCachePut (st : CacheState) (source : Bytes) (p : Nat) :
    List Bytes × CacheState :=
  match cacheFindEntry st.cache source with
  | some _ => ([], st)
  | none =>
      let (gone, st) := cacheEvict (st.cache.size + 1) st
      let hash := dynamicPatternHashSource source
      (gone,
        { cache :=
            { st.cache with
              buckets := Chains.insert st.cache.buckets (st.cache.bucket hash) ⟨hash, source, p⟩
              size := st.cache.size + 1 }
          heap := dynamicPatternRetain st.heap p })

/-- `dynamic_pattern_cache_remove` -/
def dynamicPatternCacheRemove (st : CacheState) (source : Bytes) : Bool × CacheState :=
  match cacheFindEntry st.cache source with
  | none => (false, st)
  | some e =>
      (true,
        { cache :=
            { st.cache with
              buckets :=
                Chains.erase st.cache.buckets (st.cache.bucket (dynamicPatternHashSource source))
                  (CacheEntry.isFor source)
              size := st.cache.size - 1 }
          heap := dynamicPatternRelease st.heap e.pattern })

/-- `dynamic_pattern_cache_clear` -/
def dynamicPatternCacheClear (st : CacheState) : CacheState where
  cache :=
    { st.cache with
      buckets := List.replicate st.cache.buckets.length []
      size := 0 }
  heap := st.cache.contents.foldl (fun heap e => dynamicPatternRelease heap e.pattern) st.heap

/-! ## The cache and its callers -/

/-- What happened to the entries. -/
inductive CacheEvent where
  | put (source : Bytes) (p : Nat)
  | lost (source : Bytes)
  | cleared
  deriving Repr, DecidableEq

/-- The pattern first put for a source since it was last removed or evicted, with the newest
event first. -/
def boundTo (source : Bytes) : List CacheEvent → Option Nat
  | [] => none
  | .put s p :: older =>
      if s = source then (boundTo source older).or (some p) else boundTo source older
  | .lost s :: older => if s = source then none else boundTo source older
  | .cleared :: _ => none

theorem boundTo_put (s source : Bytes) (p : Nat) (log : List CacheEvent) :
    boundTo s (.put source p :: log) =
      if source = s then (boundTo s log).or (some p) else boundTo s log := rfl

theorem boundTo_lost (s source : Bytes) (log : List CacheEvent) :
    boundTo s (.lost source :: log) = if source = s then none else boundTo s log := rfl

/-- The references to a pattern: those of callers, and one for each entry. -/
def refsOf (held : Nat → Nat) (es : List CacheEntry) (p : Nat) : Nat :=
  held p + es.countP (·.pattern == p)

/-- The cache, the references that callers hold, and what happened so far. -/
structure CacheSystem extends CacheState where
  held : Nat → Nat
  log : List CacheEvent

/-- What callers do. -/
inductive CacheOp where
  | create (p : Nat)
  | retain (p : Nat)
  | release (p : Nat)
  | put (source : Bytes) (p : Nat)
  | get (source : Bytes)
  | remove (source : Bytes)
  | clear
  deriving Repr, DecidableEq

namespace CacheSystem

/-- An initialised cache and no pattern. -/
def init (maxSize : Nat) : CacheSystem where
  cache := dynamicPatternCacheInit maxSize
  heap _ := none
  held _ := 0
  log := []

/-- The effect of an operation. -/
def step (sys : CacheSystem) : CacheOp → CacheSystem
  | .create p =>
      { sys with
        heap := Function.update sys.heap p (some 1)
        held := Function.update sys.held p (sys.held p + 1) }
  | .retain p =>
      { sys with
        heap := dynamicPatternRetain sys.heap p
        held := Function.update sys.held p (sys.held p + 1) }
  | .release p =>
      { sys with
        heap := dynamicPatternRelease sys.heap p
        held := Function.update sys.held p (sys.held p - 1) }
  | .put source p =>
      let r := dynamicPatternCachePut sys.toCacheState source p
      { sys with
        toCacheState := r.2
        log := .put source p :: ((r.1.map .lost).reverse ++ sys.log) }
  | .get source =>
      match dynamicPatternCacheGet sys.toCacheState source with
      | (some p, st) =>
          { sys with
            toCacheState := st
            held := Function.update sys.held p (sys.held p + 1) }
      | (none, st) => { sys with toCacheState := st }
  | .remove source =>
      { sys with
        toCacheState := (dynamicPatternCacheRemove sys.toCacheState source).2
        log := .lost source :: sys.log }
  | .clear =>
      { sys with
        toCacheState := dynamicPatternCacheClear sys.toCacheState
        log := .cleared :: sys.log }

/-- A pattern is created at a free address, and callers pass only patterns they hold. -/
def Allowed (sys : CacheSystem) : CacheOp → Prop
  | .create p => sys.heap p = none
  | .retain p | .release p | .put _ p => 0 < sys.held p
  | .get _ | .remove _ | .clear => True

/-- The references to a pattern. -/
def refs (sys : CacheSystem) : Nat → Nat := refsOf sys.held sys.cache.contents

/-- A pattern that is retained has fewer than `2 ^ 32 - 1` references before; to put one makes
room first. -/
def Fits (sys : CacheSystem) : CacheOp → Prop
  | .retain p => sys.refs p + 1 < 4294967296
  | .put source p =>
      cacheFindEntry sys.cache source = none →
        refsOf sys.held sys.cache.kept p + 1 < 4294967296
  | .get source =>
      ∀ e, cacheFindEntry sys.cache source = some e → sys.refs e.pattern + 1 < 4294967296
  | .create _ | .release _ | .remove _ | .clear => True

end CacheSystem

/-- The states that an initialised cache comes to through operations of which each meets the
condition. -/
inductive CacheRun (ok : CacheSystem → CacheOp → Prop) (maxSize : Nat) : CacheSystem → Prop where
  | init : CacheRun ok maxSize (.init maxSize)
  | step {sys : CacheSystem} {op : CacheOp} (h : CacheRun ok maxSize sys)
      (hallowed : sys.Allowed op) (hok : ok sys op) : CacheRun ok maxSize (sys.step op)

/-! ## Counting references -/

theorem refsOf_cons (held : Nat → Nat) (e : CacheEntry) (es : List CacheEntry) :
    refsOf held (e :: es) =
      Function.update (refsOf held es) e.pattern (refsOf held es e.pattern + 1) := by
  funext p
  by_cases heq : p = e.pattern
  · rw [heq, Function.update_self, refsOf, refsOf, List.countP_cons_of_pos (by simp)]
    omega
  · rw [Function.update_of_ne heq, refsOf, refsOf,
      List.countP_cons_of_neg (by simpa using fun h => heq h.symm)]

theorem refsOf_held (held : Nat → Nat) (es : List CacheEntry) (p n : Nat) :
    refsOf (Function.update held p n) es =
      Function.update (refsOf held es) p (n + es.countP (·.pattern == p)) := by
  funext q
  by_cases heq : q = p
  · rw [heq, Function.update_self, refsOf, Function.update_self]
  · rw [Function.update_of_ne heq, refsOf, Function.update_of_ne heq, refsOf]

/-- Every count is the number of references, and what is freed has none. -/
def Counted (heap : PatternHeap) (refs : Nat → Nat) : Prop :=
  ∀ p, (heap p).elim 0 UInt32.toNat = refs p

namespace Counted

variable {heap : PatternHeap} {refs : Nat → Nat} {p : Nat}

/-- A pattern that is referred to is there. -/
theorem exists_count (h : Counted heap refs) (hp : 0 < refs p) :
    ∃ count, heap p = some count ∧ count.toNat = refs p := by
  have hcount := h p
  cases hheap : heap p with
  | none =>
    rw [hheap, Option.elim_none] at hcount
    omega
  | some count =>
    rw [hheap, Option.elim_some] at hcount
    exact ⟨count, rfl, hcount⟩

theorem retain (h : Counted heap refs) (hp : 0 < refs p) (hfits : refs p + 1 < 4294967296) :
    Counted (dynamicPatternRetain heap p) (Function.update refs p (refs p + 1)) := by
  intro q
  obtain ⟨count, hheap, hcount⟩ := h.exists_count hp
  unfold dynamicPatternRetain
  by_cases heq : q = p
  · have hone : (1 : UInt32).toNat = 1 := rfl
    rw [heq, Function.update_self, Function.update_self, hheap, Option.map_some, Option.elim_some,
      UInt32.toNat_add, hcount, hone]
    exact Nat.mod_eq_of_lt hfits
  · rw [Function.update_of_ne heq, Function.update_of_ne heq]
    exact h q

theorem release (h : Counted heap refs) (hp : 0 < refs p) :
    Counted (dynamicPatternRelease heap p) (Function.update refs p (refs p - 1)) := by
  intro q
  obtain ⟨count, hheap, hcount⟩ := h.exists_count hp
  unfold dynamicPatternRelease
  by_cases heq : q = p
  · have hone : (1 : UInt32).toNat = 1 := rfl
    have hle : (1 : UInt32) ≤ count := by
      rw [UInt32.le_iff_toNat_le, hone, hcount]
      exact hp
    have hminus : (count - 1).toNat = refs p - 1 := by
      rw [UInt32.toNat_sub_of_le _ _ hle, hcount, hone]
    rw [heq, Function.update_self, Function.update_self, hheap, Option.bind_some]
    split
    · rename_i hzero
      rw [hzero] at hminus
      exact hminus
    · exact hminus
  · rw [Function.update_of_ne heq, Function.update_of_ne heq]
    exact h q

variable {held : Nat → Nat} {e : CacheEntry} {es es' : List CacheEntry}

/-- An entry goes, and its reference with it. -/
theorem drop_entry (h : Counted heap (refsOf held (e :: es))) :
    Counted (dynamicPatternRelease heap e.pattern) (refsOf held es) := by
  rw [refsOf_cons] at h
  have hrelease := h.release (p := e.pattern) (by rw [Function.update_self]; omega)
  rwa [Function.update_self, Function.update_idem, Nat.add_sub_cancel, Function.update_eq_self]
    at hrelease

/-- All entries go. -/
theorem drop_all (h : Counted heap (refsOf held es)) :
    Counted (es.foldl (fun heap e => dynamicPatternRelease heap e.pattern) heap)
      (refsOf held []) := by
  induction es generalizing heap with
  | nil => exact h
  | cons e es ih => exact ih h.drop_entry

theorem perm (h : Counted heap (refsOf held es)) (hperm : es.Perm es') :
    Counted heap (refsOf held es') := by
  intro p
  rw [h p, refsOf, refsOf, hperm.countP_eq]

end Counted

/-! ## The entries and what happened -/

/-- The entries bind the sources as the events do. -/
def Agrees (es : List CacheEntry) (log : List CacheEvent) : Prop :=
  ∀ source p, boundTo source log = some p ↔ ∃ e ∈ es, e.source = source ∧ e.pattern = p

namespace Agrees

variable {es es' : List CacheEntry} {log : List CacheEvent} {e : CacheEntry} {source : Bytes}
  {p : Nat}

theorem perm (h : Agrees es log) (hperm : es.Perm es') : Agrees es' log := by
  intro source p
  rw [h source p]
  simp only [hperm.mem_iff]

/-- A source without an entry is bound to nothing. -/
theorem unbound (h : Agrees es log) (habsent : ∀ e ∈ es, e.source ≠ source) :
    boundTo source log = none := by
  cases hbound : boundTo source log with
  | none => rfl
  | some p =>
    obtain ⟨e, he, hsource, -⟩ := (h source p).mp hbound
    exact absurd hsource (habsent e he)

theorem put_absent (h : Agrees es log) (habsent : ∀ e ∈ es, e.source ≠ source) (hash : UInt32)
    (p : Nat) : Agrees (⟨hash, source, p⟩ :: es) (.put source p :: log) := by
  intro s q
  rw [boundTo_put]
  by_cases heq : source = s
  · subst heq
    rw [if_pos rfl, h.unbound habsent, Option.none_or]
    constructor
    · rintro ⟨⟩
      exact ⟨_, List.mem_cons_self, rfl, rfl⟩
    · rintro ⟨e, he, hsource, rfl⟩
      rcases List.mem_cons.mp he with rfl | he
      · rfl
      · exact absurd hsource (habsent e he)
  · rw [if_neg heq, h s q]
    constructor
    · rintro ⟨e, he, hfor⟩
      exact ⟨e, List.mem_cons_of_mem _ he, hfor⟩
    · rintro ⟨e, he, hsource, hpattern⟩
      rcases List.mem_cons.mp he with rfl | he
      · exact absurd hsource heq
      · exact ⟨e, he, hsource, hpattern⟩

/-- Putting a source that is there changes nothing. -/
theorem put_present (h : Agrees es log) (he : e ∈ es) (hsource : e.source = source) (p : Nat) :
    Agrees es (.put source p :: log) := by
  intro s q
  rw [boundTo_put, ← h s q]
  by_cases heq : source = s
  · have hbound := (h source e.pattern).mpr ⟨e, he, hsource, rfl⟩
    rw [if_pos heq, ← heq, hbound, Option.some_or]
  · rw [if_neg heq]

theorem lost (h : Agrees (e :: es) log) (hnodup : ((e :: es).map (·.source)).Nodup) :
    Agrees es (.lost e.source :: log) := by
  rw [List.map_cons, List.nodup_cons] at hnodup
  intro s q
  rw [boundTo_lost]
  by_cases heq : e.source = s
  · rw [if_pos heq]
    constructor
    · intro hnone
      cases hnone
    · -- no other entry has the source that went
      rintro ⟨e', he', hsource, -⟩
      exact absurd (List.mem_map.mpr ⟨e', he', hsource.trans heq.symm⟩) hnodup.1
  · rw [if_neg heq, h s q]
    constructor
    · rintro ⟨e', he', hsource, hpattern⟩
      rcases List.mem_cons.mp he' with rfl | he'
      · exact absurd hsource heq
      · exact ⟨e', he', hsource, hpattern⟩
    · rintro ⟨e', he', hfor⟩
      exact ⟨e', List.mem_cons_of_mem _ he', hfor⟩

theorem lost_absent (h : Agrees es log) (habsent : ∀ e ∈ es, e.source ≠ source) :
    Agrees es (.lost source :: log) := by
  intro s q
  rw [boundTo_lost, ← h s q]
  by_cases heq : source = s
  · rw [if_pos heq, ← heq, h.unbound habsent]
  · rw [if_neg heq]

theorem cleared (log : List CacheEvent) : Agrees [] (.cleared :: log) := by
  intro s q
  constructor
  · intro h
    cases h
  · rintro ⟨e, he, -⟩
    cases he

end Agrees

/-! ## Operations keep the cache in order -/

/-- Entries are in the bucket of their source, one for each source, and the size is their number
and within bounds. -/
structure PatternCache.Ok (c : PatternCache) : Prop where
  placed : Chains.Placed (fun e => c.bucket e.hash) c.buckets
  buckets_pos : 0 < c.buckets.length
  hashed : ∀ e ∈ c.contents, e.hash = dynamicPatternHashSource e.source
  nodup : (c.contents.map (·.source)).Nodup
  size_eq : c.size = c.contents.length
  size_le : c.size ≤ c.maxSize
  maxSize_pos : 0 < c.maxSize

namespace PatternCache.Ok

variable {c : PatternCache} {source : Bytes} {e : CacheEntry}

theorem find_some (hfind : cacheFindEntry c source = some e) :
    e ∈ c.contents ∧ e.source = source := by
  obtain ⟨he, hfor⟩ := Chains.find_spec hfind
  exact ⟨he, (CacheEntry.isFor_iff.mp hfor).2⟩

theorem find_none (h : c.Ok) (hfind : cacheFindEntry c source = none) :
    ∀ e ∈ c.contents, e.source ≠ source := by
  intro e he hsource
  have hhash := h.hashed e he
  rw [hsource] at hhash
  refine Chains.find_ne_none h.placed he (congrArg c.bucket hhash) ?_ hfind
  exact CacheEntry.isFor_iff.mpr ⟨hhash, hsource⟩

/-- Homes depend on the number of buckets only. -/
theorem placed_same (b : List (List CacheEntry)) (n : Nat) (hlen : b.length = c.buckets.length)
    (hplaced : Chains.Placed (fun e => c.bucket e.hash) b) :
    Chains.Placed
      (fun e => PatternCache.bucket { c with buckets := b, size := n } e.hash) b := by
  intro i chain hi x hx
  show x.hash.toNat % b.length = i
  rw [hlen]
  exact hplaced i chain hi x hx

/-- A cache of empty buckets. -/
theorem empty {n : Nat} (hbuckets : c.buckets = List.replicate n []) (hn : 0 < n)
    (hsize : c.size = 0) (hmax : 0 < c.maxSize) : c.Ok := by
  have hcontents : c.contents = [] := by
    rw [contents, hbuckets, List.flatten_replicate_nil]
  constructor
  · rw [hbuckets]
    exact Chains.placed_replicate n
  · rwa [hbuckets, List.length_replicate]
  · intro e he
    rw [hcontents] at he
    cases he
  · rw [hcontents]
    exact List.nodup_nil
  · rw [hcontents]
    exact hsize
  · rw [hsize]
    exact Nat.zero_le _
  · exact hmax

/-- An entry goes. -/
theorem shrink (h : c.Ok) {b : List (List CacheEntry)} (hlen : b.length = c.buckets.length)
    (hperm : c.contents.Perm (e :: b.flatten))
    (hplaced : Chains.Placed (fun e => c.bucket e.hash) b) :
    PatternCache.Ok { c with buckets := b, size := c.size - 1 } := by
  have hsub : ∀ x ∈ b.flatten, x ∈ c.contents := fun x hx =>
    hperm.mem_iff.mpr (List.mem_cons_of_mem e hx)
  have hnodup := (hperm.map (·.source)).nodup_iff.mp h.nodup
  have hcount := hperm.length_eq
  have hsize := h.size_eq
  have hle := h.size_le
  rw [List.length_cons] at hcount
  constructor
  · exact placed_same b (c.size - 1) hlen hplaced
  · exact hlen ▸ h.buckets_pos
  · exact fun x hx => h.hashed x (hsub x hx)
  · exact (List.nodup_cons.mp hnodup).2
  · show c.size - 1 = b.flatten.length
    omega
  · show c.size - 1 ≤ c.maxSize
    omega
  · exact h.maxSize_pos

/-- An entry for a new source comes. -/
theorem grow (h : c.Ok) (hroom : c.size < c.maxSize)
    (habsent : ∀ e ∈ c.contents, e.source ≠ source) (p : Nat) {b : List (List CacheEntry)}
    (hlen : b.length = c.buckets.length)
    (hperm : b.flatten.Perm (⟨dynamicPatternHashSource source, source, p⟩ :: c.contents))
    (hplaced : Chains.Placed (fun e => c.bucket e.hash) b) :
    PatternCache.Ok { c with buckets := b, size := c.size + 1 } := by
  have hcount := hperm.length_eq
  have hsize := h.size_eq
  rw [List.length_cons] at hcount
  constructor
  · exact placed_same b (c.size + 1) hlen hplaced
  · exact hlen ▸ h.buckets_pos
  · intro x hx
    rcases List.mem_cons.mp (hperm.mem_iff.mp hx) with rfl | hx
    · rfl
    · exact h.hashed x hx
  · refine (hperm.map (·.source)).nodup_iff.mpr (List.nodup_cons.mpr ⟨?_, h.nodup⟩)
    intro hmem
    obtain ⟨x, hx, hsource⟩ := List.mem_map.mp hmem
    exact habsent x hx hsource
  · show c.size + 1 = b.flatten.length
    omega
  · exact hroom
  · exact h.maxSize_pos

end PatternCache.Ok

/-- The cache is in order, counts are right, and entries are what events made them. -/
structure Sound (maxSize : Nat) (held : Nat → Nat) (st : CacheState) (log : List CacheEvent) :
    Prop where
  ok : st.cache.Ok
  counted : Counted st.heap (refsOf held st.cache.contents)
  agrees : Agrees st.cache.contents log
  maxSize_eq : st.cache.maxSize = maxSize

namespace Sound

variable {maxSize : Nat} {held : Nat → Nat} {st st' : CacheState} {log : List CacheEvent}
  {source : Bytes} {e : CacheEntry} {p : Nat}

/-- Eviction takes the first entry. -/
theorem evictOne (h : Sound maxSize held st log) (hsome : cacheEvictOne st = some (e, st')) :
    Sound maxSize held st' (.lost e.source :: log) ∧
      st.cache.contents = e :: st'.cache.contents ∧ st'.cache.size = st.cache.size - 1 := by
  obtain ⟨⟨e, b⟩, hpop, heq⟩ := Option.map_eq_some_iff.mp hsome
  cases heq
  obtain ⟨hflat, hlen⟩ := Chains.pop_some hpop
  have hcontents : st.cache.contents = e :: b.flatten := hflat
  have hcounted := h.counted
  have hagrees := h.agrees
  have hnodup := h.ok.nodup
  rw [hcontents] at hcounted hagrees hnodup
  constructor
  · constructor
    · exact h.ok.shrink hlen (List.Perm.of_eq hcontents) (h.ok.placed.pop hpop)
    · exact hcounted.drop_entry
    · exact hagrees.lost hnodup
    · exact h.maxSize_eq
  · exact ⟨hcontents, rfl⟩

/-- There is room when the loop stops, and at most the first entry has gone. -/
theorem evict (h : Sound maxSize held st log) :
    Sound maxSize held (cacheEvict (st.cache.size + 1) st).2
        (((cacheEvict (st.cache.size + 1) st).1.map .lost).reverse ++ log) ∧
      (cacheEvict (st.cache.size + 1) st).2.cache.contents = st.cache.kept ∧
      (cacheEvict (st.cache.size + 1) st).2.cache.size < maxSize := by
  have hle := h.ok.size_le
  have hpos := h.ok.maxSize_pos
  have hmax := h.maxSize_eq
  rw [cacheEvict, PatternCache.kept]
  -- one turn is enough: the size is never above the bound
  by_cases hroom : st.cache.size < st.cache.maxSize
  · rw [if_neg (by omega), if_pos hroom]
    exact ⟨h, rfl, hmax ▸ hroom⟩
  · rw [if_pos (by omega), if_neg hroom]
    cases hone : cacheEvictOne st with
    | none =>
      -- a full cache has an entry
      have hempty : st.cache.contents = [] := Chains.pop_none (Option.map_eq_none_iff.mp hone)
      have hsize := h.ok.size_eq
      rw [hempty, List.length_nil] at hsize
      omega
    | some r =>
      obtain ⟨e, st'⟩ := r
      obtain ⟨hsound, hcontents, hsize⟩ := h.evictOne hone
      have hmax' := hsound.maxSize_eq
      obtain ⟨fuel, hfuel⟩ : ∃ fuel, st.cache.size = fuel + 1 := ⟨st.cache.size - 1, by omega⟩
      have hstop : cacheEvict st.cache.size st' = ([], st') := by
        rw [hfuel, cacheEvict, if_neg (by omega)]
      simp only [hstop, hcontents, List.tail_cons]
      exact ⟨hsound, trivial, by omega⟩

/-- `get` hands out a reference. -/
theorem get (h : Sound maxSize held st log) (hfind : cacheFindEntry st.cache source = some e)
    (hfits : refsOf held st.cache.contents e.pattern + 1 < 4294967296) :
    Sound maxSize (Function.update held e.pattern (held e.pattern + 1))
      { st with heap := dynamicPatternRetain st.heap e.pattern } log := by
  obtain ⟨he, -⟩ := PatternCache.Ok.find_some hfind
  have hpos : 0 < refsOf held st.cache.contents e.pattern := by
    have hcount : 0 < st.cache.contents.countP (·.pattern == e.pattern) :=
      List.countP_pos_iff.mpr ⟨e, he, beq_self_eq_true _⟩
    unfold refsOf
    omega
  constructor
  · exact h.ok
  · have hretain := h.counted.retain hpos hfits
    rw [refsOf_held]
    rwa [refsOf, Nat.add_right_comm] at hretain
  · exact h.agrees
  · exact h.maxSize_eq

theorem put (h : Sound maxSize held st log) (hheld : 0 < held p)
    (hfits : cacheFindEntry st.cache source = none → refsOf held st.cache.kept p + 1 < 4294967296) :
    Sound maxSize held (dynamicPatternCachePut st source p).2
      (.put source p :: (((dynamicPatternCachePut st source p).1.map .lost).reverse ++ log)) := by
  rw [dynamicPatternCachePut]
  cases hfind : cacheFindEntry st.cache source with
  | some e =>
    -- the entry that is there stays, and `p` gets no reference
    obtain ⟨he, hsource⟩ := PatternCache.Ok.find_some hfind
    exact ⟨h.ok, h.counted, h.agrees.put_present he hsource p, h.maxSize_eq⟩
  | none =>
    have habsent := h.ok.find_none hfind
    obtain ⟨hsound, hkept, hroom⟩ := h.evict
    dsimp only
    generalize cacheEvict (st.cache.size + 1) st = r at hsound hkept hroom ⊢
    obtain ⟨gone, st'⟩ := r
    dsimp only at hsound hkept hroom ⊢
    have habsent' : ∀ e ∈ st'.cache.contents, e.source ≠ source := by
      intro e he
      rw [hkept, PatternCache.kept] at he
      split at he
      · exact habsent e he
      · exact habsent e (List.mem_of_mem_tail he)
    set e : CacheEntry := ⟨dynamicPatternHashSource source, source, p⟩ with he
    set b := Chains.insert st'.cache.buckets
      (st'.cache.bucket (dynamicPatternHashSource source)) e with hb
    have hperm : b.flatten.Perm (e :: st'.cache.contents) :=
      Chains.insert_perm (Nat.mod_lt _ hsound.ok.buckets_pos)
    constructor
    · exact hsound.ok.grow (hsound.maxSize_eq ▸ hroom) habsent' p Chains.length_insert hperm
        (hsound.ok.placed.insert rfl)
    · -- `p` is still held by the caller, also if the entry that went was its own
      have hretain := hsound.counted.retain (p := p) (by unfold refsOf; omega)
        (by rw [hkept]; exact hfits hfind)
      have hentry := refsOf_cons held e st'.cache.contents
      rw [← hentry] at hretain
      exact hretain.perm hperm.symm
    · exact (hsound.agrees.put_absent habsent' _ p).perm hperm.symm
    · exact hsound.maxSize_eq

theorem remove (h : Sound maxSize held st log) :
    Sound maxSize held (dynamicPatternCacheRemove st source).2 (.lost source :: log) := by
  rw [dynamicPatternCacheRemove]
  cases hfind : cacheFindEntry st.cache source with
  | none => exact ⟨h.ok, h.counted, h.agrees.lost_absent (h.ok.find_none hfind), h.maxSize_eq⟩
  | some e =>
    obtain ⟨-, rfl⟩ := PatternCache.Ok.find_some hfind
    have hperm : st.cache.contents.Perm (e :: _) := Chains.erase_perm hfind
    constructor
    · exact h.ok.shrink Chains.length_erase hperm (h.ok.placed.erase _)
    · exact (h.counted.perm hperm).drop_entry
    · exact (h.agrees.perm hperm).lost ((hperm.map (·.source)).nodup_iff.mp h.ok.nodup)
    · exact h.maxSize_eq

theorem clear (h : Sound maxSize held st log) :
    Sound maxSize held (dynamicPatternCacheClear st) (.cleared :: log) := by
  have hempty : (dynamicPatternCacheClear st).cache.contents = [] :=
    List.flatten_replicate_nil
  constructor
  · exact .empty rfl h.ok.buckets_pos rfl h.ok.maxSize_pos
  · rw [hempty]
    exact h.counted.drop_all
  · rw [hempty]
    exact Agrees.cleared log
  · exact h.maxSize_eq

end Sound

/-! ## Runs -/

namespace CacheSystem

variable {sys : CacheSystem} {maxSize : Nat}

theorem sound_init (maxSize : Nat) :
    Sound (if 0 < maxSize then maxSize else 64) (init maxSize).held (init maxSize).toCacheState
      (init maxSize).log := by
  have hempty : (init maxSize).cache.contents = [] := List.flatten_replicate_nil
  have hmax : 0 < if 0 < maxSize then maxSize else 64 := by
    split
    · assumption
    · decide
  constructor
  · exact .empty rfl (by decide) rfl hmax
  · rw [hempty]
    exact fun _ => rfl
  · rw [hempty]
    intro source p
    constructor
    · intro hbound
      cases hbound
    · rintro ⟨e, he, -⟩
      cases he
  · rfl

/-- A step keeps counts and entries as they should be. -/
theorem sound_step {op : CacheOp} (h : Sound maxSize sys.held sys.toCacheState sys.log)
    (hallowed : sys.Allowed op) (hfits : sys.Fits op) :
    Sound maxSize (sys.step op).held (sys.step op).toCacheState (sys.step op).log := by
  cases op with
  | create p =>
    have hcount := h.counted p
    rw [show sys.heap p = none from hallowed, Option.elim_none, refsOf] at hcount
    refine ⟨h.ok, ?_, h.agrees, h.maxSize_eq⟩
    intro q
    show (Function.update sys.heap p (some 1) q).elim 0 UInt32.toNat = _
    rw [step, refsOf_held]
    by_cases heq : q = p
    · rw [heq, Function.update_self, Function.update_self, Option.elim_some]
      show 1 = sys.held p + 1 + sys.cache.contents.countP (·.pattern == p)
      omega
    · rw [Function.update_of_ne heq, Function.update_of_ne heq]
      exact h.counted q
  | retain p =>
    have hheld : 0 < sys.held p := hallowed
    have hretain := h.counted.retain (p := p) (by unfold refsOf; omega) hfits
    refine ⟨h.ok, ?_, h.agrees, h.maxSize_eq⟩
    rw [step, refsOf_held]
    rwa [refsOf, Nat.add_right_comm] at hretain
  | release p =>
    have hheld : 0 < sys.held p := hallowed
    have hrelease := h.counted.release (p := p) (by unfold refsOf; omega)
    refine ⟨h.ok, ?_, h.agrees, h.maxSize_eq⟩
    rw [step, refsOf_held]
    rwa [refsOf, Nat.sub_add_comm hheld] at hrelease
  | put source p => exact h.put hallowed hfits
  | get source =>
    rw [step, dynamicPatternCacheGet]
    cases hfind : cacheFindEntry sys.cache source with
    | none => exact h
    | some e => exact h.get hfind (hfits e hfind)
  | remove source => exact h.remove
  | clear => exact h.clear

/-- The references are counted and the entries are as events made them in every state of a run
that lets no count wrap. -/
theorem sound_run (h : CacheRun Fits maxSize sys) :
    Sound (if 0 < maxSize then maxSize else 64) sys.held sys.toCacheState sys.log := by
  induction h with
  | init => exact sound_init maxSize
  | step _ hallowed hfits ih => exact sound_step ih hallowed hfits

end CacheSystem

/-- What `get` answers. -/
theorem dynamicPatternCacheGet_eq {st : CacheState} {log : List CacheEvent} (hok : st.cache.Ok)
    (h : Agrees st.cache.contents log) (source : Bytes) :
    (dynamicPatternCacheGet st source).1 = boundTo source log := by
  rw [dynamicPatternCacheGet]
  cases hfind : cacheFindEntry st.cache source with
  | none => exact (h.unbound (hok.find_none hfind)).symm
  | some e =>
    obtain ⟨he, hsource⟩ := PatternCache.Ok.find_some hfind
    exact ((h source e.pattern).mpr ⟨e, he, hsource, rfl⟩).symm

/-- The cache is a map within its size, `get` returns what was first put, and reference counts
are right, in every run in which no pattern gets more than `2 ^ 32 - 1` references. -/
theorem cache_run_sound (maxSize : Nat) (sys : CacheSystem)
    (h : CacheRun CacheSystem.Fits maxSize sys) :
    (sys.cache.contents.map (·.source)).Nodup ∧
      sys.cache.size = sys.cache.contents.length ∧
      sys.cache.size ≤ (dynamicPatternCacheInit maxSize).maxSize ∧
      (∀ source, (dynamicPatternCacheGet sys.toCacheState source).1 = boundTo source sys.log) ∧
      (∀ p, (sys.heap p).elim 0 UInt32.toNat = sys.refs p) := by
  have hsound := CacheSystem.sound_run h
  have hle := hsound.ok.size_le
  rw [hsound.maxSize_eq] at hle
  exact ⟨hsound.ok.nodup, hsound.ok.size_eq, hle,
    dynamicPatternCacheGet_eq hsound.ok hsound.agrees, hsound.counted⟩

namespace CacheSystem

instance decidableAllowed (sys : CacheSystem) : (op : CacheOp) → Decidable (sys.Allowed op)
  | .create p => inferInstanceAs (Decidable (sys.heap p = none))
  | .retain p | .release p | .put _ p => inferInstanceAs (Decidable (0 < sys.held p))
  | .get _ | .remove _ | .clear => inferInstanceAs (Decidable True)

instance decidableFits (sys : CacheSystem) : (op : CacheOp) → Decidable (sys.Fits op)
  | .retain p => inferInstanceAs (Decidable (sys.refs p + 1 < 4294967296))
  | .put source p =>
      inferInstanceAs (Decidable (cacheFindEntry sys.cache source = none →
        refsOf sys.held sys.cache.kept p + 1 < 4294967296))
  | .get source =>
      inferInstanceAs (Decidable
        (∀ e ∈ cacheFindEntry sys.cache source, sys.refs e.pattern + 1 < 4294967296))
  | .create _ | .release _ | .remove _ | .clear => inferInstanceAs (Decidable True)

/-- Each of the operations is allowed and fits when it is performed. -/
def AllFit : CacheSystem → List CacheOp → Prop
  | _, [] => True
  | sys, op :: ops => (sys.Allowed op ∧ sys.Fits op) ∧ AllFit (sys.step op) ops

instance decidableAllFit : (sys : CacheSystem) → (ops : List CacheOp) → Decidable (sys.AllFit ops)
  | _, [] => inferInstanceAs (Decidable True)
  | sys, op :: ops =>
      haveI := decidableAllFit (sys.step op) ops
      inferInstanceAs (Decidable ((sys.Allowed op ∧ sys.Fits op) ∧ AllFit (sys.step op) ops))

theorem AllFit.run {maxSize : Nat} {sys : CacheSystem} {ops : List CacheOp} (h : sys.AllFit ops)
    (hrun : CacheRun Fits maxSize sys) : CacheRun Fits maxSize (ops.foldl step sys) := by
  induction ops generalizing sys with
  | nil => exact hrun
  | cons op ops ih => exact ih h.2 (.step hrun h.1.1 h.1.2)

end CacheSystem

/-- Three sources for two entries, a second `put` of a source that is there, and a removal. -/
def threeSources : CacheSystem :=
  List.foldl CacheSystem.step (.init 2)
    [.create 0, .create 1, .create 2, .put [97] 0, .put [98] 1, .get [97], .put [99] 2, .release 0,
      .put [99] 1, .get [99], .remove [97]]

/-- The second source is evicted, the first is removed, and the third keeps its first pattern. -/
theorem cache_run_sound_threeSources :
    (dynamicPatternCacheGet threeSources.toCacheState [97]).1 = none ∧
      (dynamicPatternCacheGet threeSources.toCacheState [98]).1 = none ∧
      (dynamicPatternCacheGet threeSources.toCacheState [99]).1 = some 2 ∧
      (threeSources.heap 2).elim 0 UInt32.toNat = 3 := by
  have hrun : CacheRun CacheSystem.Fits 2 threeSources :=
    CacheSystem.AllFit.run (by decide +kernel) .init
  obtain ⟨-, -, -, hget, hrefs⟩ := cache_run_sound 2 threeSources hrun
  exact ⟨(hget [97]).trans (by decide +kernel), (hget [98]).trans (by decide +kernel),
    (hget [99]).trans (by decide +kernel), (hrefs 2).trans (by decide +kernel)⟩

/-- After `create` and `put`, `n` calls of `get` leave `n + 2` references. -/
theorem gets_run (n : Nat) :
    ∃ sys, CacheRun (fun _ _ => True) 64 sys ∧
      sys.cache = (((CacheSystem.init 64).step (.create 0)).step (.put [97] 0)).cache ∧
      sys.held 0 = n + 1 ∧ sys.heap 0 = some (UInt32.ofNat (n + 2)) := by
  induction n with
  | zero =>
    have hcreate : CacheRun (fun _ _ => True) 64 ((CacheSystem.init 64).step (.create 0)) :=
      .step .init rfl trivial
    have hput : CacheRun (fun _ _ => True) 64
        (((CacheSystem.init 64).step (.create 0)).step (.put [97] 0)) :=
      .step hcreate (by decide : 0 < 0 + 1) trivial
    exact ⟨_, hput, rfl, rfl, rfl⟩
  | succ n ih =>
    obtain ⟨sys, hrun, hcache, hheld, hheap⟩ := ih
    have hfind : cacheFindEntry sys.cache [97] =
        some ⟨dynamicPatternHashSource [97], [97], 0⟩ := by
      rw [hcache]
      rfl
    have hstep : sys.step (.get [97]) =
        { sys with
          heap := dynamicPatternRetain sys.heap 0
          held := Function.update sys.held 0 (sys.held 0 + 1) } := by
      rw [CacheSystem.step, dynamicPatternCacheGet, hfind]
    have hget : CacheRun (fun _ _ => True) 64 (sys.step (.get [97])) :=
      .step hrun trivial trivial
    rw [hstep] at hget
    refine ⟨_, hget, hcache, ?_, ?_⟩
    · show Function.update sys.held 0 (sys.held 0 + 1) 0 = n + 1 + 1
      rw [Function.update_self, hheld]
    · show dynamicPatternRetain sys.heap 0 0 = _
      rw [dynamicPatternRetain, Function.update_self, hheap, Option.map_some,
        Nat.add_right_comm n 1 2, UInt32.ofNat_add (n + 2) 1]
      rfl

/-- A count wraps. -/
theorem refcount_wraps :
    ∃ sys, CacheRun (fun _ _ => True) 64 sys ∧ sys.heap 0 = some 0 ∧ sys.refs 0 = 4294967296 := by
  obtain ⟨sys, hrun, hcache, hheld, hheap⟩ := gets_run 4294967294
  refine ⟨sys, hrun, hheap, ?_⟩
  rw [CacheSystem.refs, refsOf, hheld, hcache]
  rfl

end Snobol4
