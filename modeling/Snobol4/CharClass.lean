import Snobol4.Bytecode

/-!
# CharClass — character classes in the bytecode trailer (`vm_exec.c`)

After the instructions the compiler appends the range lists of the character
classes, their offsets and count, and the label table.  This file models the
lookup of a class by its id and the membership tests of the VM.  A bitmap is
modelled by the predicate it tests.
-/

namespace Snobol4

/-- `CpRange`: the codepoints from `start` to `stop`, both included. -/
structure CpRange where
  start : Nat
  stop : Nat
  deriving Repr, DecidableEq

/-- A codepoint lies in a range. -/
def CpRange.holds (r : CpRange) (cp : Nat) : Bool := decide (r.start ≤ cp ∧ cp ≤ r.stop)

/-- A class as `get_ranges_ptr` delivers it. -/
structure ClassRanges where
  ranges : List CpRange
  caseInsensitive : Nat
  deriving Repr, DecidableEq

/-! ## Membership -/

/-- `ranges_to_ascii_bitmap` (limit 127) and `ranges_to_full_bitmap` (limit 255):
the byte set of a class all of whose bounds are within the limit. -/
def rangesToBitmap (limit : Nat) (ranges : List CpRange) : Option (UInt8 → Bool) :=
  if ranges.all fun r => decide (r.start ≤ limit) && decide (r.stop ≤ limit) then
    some fun b => ranges.any fun r => r.holds b.toNat
  else none

/-- The loop of `range_contains` on the interval `[lo, hi)`. -/
def rangeSearch (ranges : List CpRange) (cp : Nat) : Nat → Nat → Nat → Bool
  | 0, _, _ => false
  | fuel + 1, lo, hi =>
      if lo < hi then
        let mid := lo + (hi - lo) / 2
        match ranges[mid]? with
        | none => false
        | some r =>
            if cp < r.start then rangeSearch ranges cp fuel lo mid
            else if r.stop < cp then rangeSearch ranges cp fuel (mid + 1) hi
            else true
      else false

/-- `range_contains`: binary search. -/
def rangeContains (ranges : List CpRange) (cp : Nat) : Bool :=
  rangeSearch ranges cp (ranges.length + 1) 0 ranges.length

/-- Ranges in ascending order, as the compiler stores them. -/
structure OrderedRanges (ranges : List CpRange) : Prop where
  sorted : ranges.Pairwise fun r r' => r.stop < r'.start
  valid : ∀ r ∈ ranges, r.start ≤ r.stop

/-- The search finds the range that holds the codepoint, where the interval has it. -/
theorem rangeSearch_of_holds {ranges : List CpRange} (h : OrderedRanges ranges) {cp : Nat}
    {r : CpRange} {i : Nat} (hr : ranges[i]? = some r) (hcp : r.holds cp = true) {fuel lo hi : Nat}
    (hlo : lo ≤ i) (hhi : i < hi) (hlen : hi ≤ ranges.length) (hfuel : hi - lo < fuel) :
    rangeSearch ranges cp fuel lo hi = true := by
  induction fuel generalizing lo hi with
  | zero => omega
  | succ fuel ih =>
    have hbefore : ∀ {j k : Nat} {p q : CpRange}, ranges[j]? = some p → ranges[k]? = some q →
        j < k → p.stop < q.start := by
      intro j k p q hj hk hjk
      obtain ⟨hj', rfl⟩ := List.getElem?_eq_some_iff.mp hj
      obtain ⟨hk', rfl⟩ := List.getElem?_eq_some_iff.mp hk
      exact List.pairwise_iff_getElem.mp h.sorted j k hj' hk' hjk
    obtain ⟨hstart, hstop⟩ : r.start ≤ cp ∧ cp ≤ r.stop := by simpa [CpRange.holds] using hcp
    rw [rangeSearch, if_pos (by omega)]
    have hmid : lo + (hi - lo) / 2 < ranges.length := by omega
    have hget : ranges[lo + (hi - lo) / 2]? = some ranges[lo + (hi - lo) / 2] :=
      List.getElem?_eq_getElem hmid
    generalize hm : ranges[lo + (hi - lo) / 2] = m at hget
    have hvalid : m.start ≤ m.stop := h.valid m (hm ▸ List.getElem_mem hmid)
    simp only [hget]
    split
    · rename_i hlt
      refine ih hlo ?_ (by omega) (by omega)
      by_contra hle
      by_cases heq : lo + (hi - lo) / 2 = i
      · rw [heq, hr] at hget
        cases hget
        omega
      · have := hbefore hget hr (by omega)
        omega
    split
    · rename_i hgt
      refine ih ?_ hhi hlen (by omega)
      by_contra hle
      by_cases heq : lo + (hi - lo) / 2 = i
      · rw [heq, hr] at hget
        cases hget
        omega
      · have := hbefore hr hget (by omega)
        omega
    · rfl

theorem rangeContains_of_holds {ranges : List CpRange} (h : OrderedRanges ranges) {cp : Nat}
    {r : CpRange} (hr : r ∈ ranges) (hcp : r.holds cp = true) : rangeContains ranges cp = true := by
  obtain ⟨i, hi⟩ := List.getElem?_of_mem hr
  have hlt : i < ranges.length := (List.getElem?_eq_some_iff.mp hi).1
  exact rangeSearch_of_holds h hi hcp (Nat.zero_le i) hlt (Nat.le_refl _) (by omega)

/-! ## The trailer -/

/-- `SNOBOL_LABEL_TABLE_MAGIC`: "SNBL" at the end of compiled bytecode. -/
def labelTableMagic : Nat := 0x534E424C

/-- The address after the class count: before the label table when the bytecode
ends in the magic, else the end. -/
def ccTail (bc : Bytes) : Option Nat :=
  let n := bc.length
  if n < 4 then none
  else if (readU32 bc (n - 4)).1 = labelTableMagic then
    if n < 8 then none
    else
      let skip := 8 + (readU32 bc (n - 8)).1 * 4
      if n < skip + 4 then none else some (n - skip)
  else some n

/-- The `count` packed ranges at `ip`. -/
def readRanges (bc : Bytes) : Nat → Nat → List CpRange
  | 0, _ => []
  | count + 1, ip =>
      let (start, ip) := readU32 bc ip
      let (stop, ip) := readU32 bc ip
      ⟨start, stop⟩ :: readRanges bc count ip

/-- `get_ranges_ptr` without a cache: the class `setId` parsed from the trailer. -/
def parseRanges (bc : Bytes) (setId : Nat) : Option ClassRanges := do
  if setId = 0 then none
  let tail ← ccTail bc
  if tail < 4 then none
  let classCount := (readU32 bc (tail - 4)).1
  if classCount < setId then none
  let tableSize := classCount * 4
  if tail < 4 + tableSize then none
  let offset := (readU32 bc (tail - 4 - tableSize + (setId - 1) * 4)).1
  if bc.length ≤ offset then none
  let (count, ip) := readU16 bc offset
  let (caseInsensitive, ip) := readU16 bc ip
  some ⟨readRanges bc count ip, caseInsensitive⟩

/-- `snobol_build_range_meta`: the classes of the trailer, indexed by id - 1. -/
def buildRangeMeta (bc : Bytes) : Option (List (Option ClassRanges)) := do
  let tail ← ccTail bc
  if tail < 4 then none
  let classCount := (readU32 bc (tail - 4)).1
  if classCount = 0 ∨ 65535 < classCount then none
  some ((List.range classCount).map fun i => parseRanges bc (i + 1))

/-- `get_ranges_ptr`: the cached class if the cache has one, else the trailer. -/
def getRangesPtr (bc : Bytes) (rangeMeta : Option (List (Option ClassRanges))) (setId : Nat) :
    Option ClassRanges :=
  if setId = 0 then none
  else
    match rangeMeta.bind fun table => table[setId - 1]? with
    | some (some entry) => some entry
    | _ => parseRanges bc setId

/-- A cache built from the bytecode answers as the trailer does. -/
theorem getRangesPtr_eq {bc : Bytes} {rangeMeta : Option (List (Option ClassRanges))}
    (h : rangeMeta = none ∨ rangeMeta = buildRangeMeta bc) (setId : Nat) :
    getRangesPtr bc rangeMeta setId = parseRanges bc setId := by
  unfold getRangesPtr
  by_cases hzero : setId = 0
  · simp [hzero, parseRanges]
  rw [if_neg hzero]
  split
  · rename_i entry hentry
    obtain rfl | rfl := h
    · simp at hentry
    obtain ⟨table, htable, hget⟩ := Option.bind_eq_some_iff.mp hentry
    simp only [buildRangeMeta, Option.bind_eq_bind, Option.bind_eq_some_iff] at htable
    obtain ⟨tail, -, htable⟩ := htable
    have hmap : ∃ n, table = (List.range n).map fun i => parseRanges bc (i + 1) := by
      grind
    obtain ⟨n, rfl⟩ := hmap
    simp only [List.getElem?_map, Option.map_eq_some_iff] at hget
    obtain ⟨i, hi, hentry⟩ := hget
    have hidx : i = setId - 1 := by
      have := (List.getElem?_eq_some_iff.mp hi).2
      simpa using this.symm
    rw [← hentry, hidx, show setId - 1 + 1 = setId by omega]
  · rfl

end Snobol4
