import Snobol4.Codepoints
import Snobol4.Compiler
import Snobol4.Support.Intervals

/-!
# ClassText — the class of a set text (`compiler_analysis.c`)

`add_or_get_charclass` scans the text into ranges, collects them in a growing array, and
sorts and merges them.  The result is the normal form of the set that the text denotes, so
texts of one set share one class.
-/

namespace Snobol4

open Utf8 Intervals

/-! ## What a text denotes -/

/-- The items of a set text: `a-b` with `a < b` is a range, every other character stands for
itself. -/
def textItems : List Char → List CpRange
  | c :: d :: e :: rest =>
      if d = '-' ∧ c < e then ⟨c.toNat, e.toNat⟩ :: textItems rest
      else ⟨c.toNat, c.toNat⟩ :: textItems (d :: e :: rest)
  | c :: rest => ⟨c.toNat, c.toNat⟩ :: textItems rest
  | [] => []

/-- The text denotes the codepoint. -/
def Denotes (cs : List Char) (cp : Nat) : Prop :=
  Covers CpRange.start CpRange.stop (textItems cs) cp

/-! ## Membership -/

theorem rangeSearch_sound {ranges : List CpRange} {cp fuel lo hi : Nat}
    (h : rangeSearch ranges cp fuel lo hi = true) :
    Covers CpRange.start CpRange.stop ranges cp := by
  induction fuel generalizing lo hi with
  | zero => cases h
  | succ fuel ih =>
    rw [rangeSearch] at h
    split at h
    · dsimp only at h
      split at h
      · cases h
      · rename_i r hr
        split at h
        · exact ih h
        split at h
        · exact ih h
        · exact ⟨r, List.mem_of_getElem? hr, by omega, by omega⟩
    · cases h

/-- On a normal class the binary search decides membership. -/
theorem rangeContains_iff {ranges : List CpRange}
    (h : Normal CpRange.start CpRange.stop ranges) (cp : Nat) :
    rangeContains ranges cp = true ↔ Covers CpRange.start CpRange.stop ranges cp := by
  constructor
  · exact rangeSearch_sound
  · rintro ⟨r, hr, hstart, hstop⟩
    have hordered : OrderedRanges ranges :=
      ⟨h.apart.imp fun hlt => Nat.lt_of_succ_lt hlt, h.valid⟩
    exact rangeContains_of_holds hordered hr (by simp [CpRange.holds, hstart, hstop])

/-! ## Sorting and merging -/

/-- Ascending starts, nonempty ranges. -/
structure Ascending (ranges : List CpRange) : Prop where
  valid : ∀ r ∈ ranges, r.start ≤ r.stop
  sorted : ranges.Pairwise fun r r' => r.start ≤ r'.start

namespace Ascending

variable {w r : CpRange} {rs : List CpRange}

theorem tail (h : Ascending (w :: rs)) : Ascending rs where
  valid r hr := h.valid r (List.mem_cons_of_mem w hr)
  sorted := (List.pairwise_cons.mp h.sorted).2

theorem head_valid (h : Ascending (w :: rs)) : w.start ≤ w.stop := h.valid w List.mem_cons_self

theorem head_le (h : Ascending (w :: rs)) (hr : r ∈ rs) : w.start ≤ r.start :=
  (List.pairwise_cons.mp h.sorted).1 r hr

/-- Two ranges merged into the first. -/
theorem merged (h : Ascending (w :: r :: rs)) : Ascending (⟨w.start, max w.stop r.stop⟩ :: rs) where
  valid := by
    refine List.forall_mem_cons.mpr ⟨?_, h.tail.tail.valid⟩
    exact h.head_valid.trans (Nat.le_max_left _ _)
  sorted := by
    refine List.pairwise_cons.mpr ⟨fun r' hr' => ?_, h.tail.tail.sorted⟩
    exact h.head_le (List.mem_cons_of_mem r hr')

end Ascending

theorem start_le_of_mem_mergeRanges {w r : CpRange} {rs : List CpRange} (h : Ascending (w :: rs))
    (hr : r ∈ mergeRanges w rs) : w.start ≤ r.start := by
  induction rs generalizing w with
  | nil => rw [List.mem_singleton.mp hr]
  | cons r' rs ih =>
    rw [mergeRanges] at hr
    split at hr
    · have hle := ih h.merged hr
      exact hle
    · obtain rfl | hr := List.mem_cons.mp hr
      · exact le_rfl
      · exact (h.head_le List.mem_cons_self).trans (ih h.tail hr)

theorem normal_mergeRanges {w : CpRange} {rs : List CpRange} (h : Ascending (w :: rs)) :
    Normal CpRange.start CpRange.stop (mergeRanges w rs) := by
  induction rs generalizing w with
  | nil => exact ⟨h.valid, List.pairwise_singleton _ _⟩
  | cons r rs ih =>
    rw [mergeRanges]
    split
    · exact ih h.merged
    · rename_i hgap
      have hrest := ih h.tail
      refine ⟨List.forall_mem_cons.mpr ⟨h.head_valid, hrest.valid⟩,
        List.pairwise_cons.mpr ⟨fun r' hr' => ?_, hrest.apart⟩⟩
      have hle := start_le_of_mem_mergeRanges h.tail hr'
      omega

theorem covers_mergeRanges {w : CpRange} {rs : List CpRange} (h : Ascending (w :: rs)) (cp : Nat) :
    Covers CpRange.start CpRange.stop (mergeRanges w rs) cp ↔
      Covers CpRange.start CpRange.stop (w :: rs) cp := by
  induction rs generalizing w with
  | nil => rfl
  | cons r rs ih =>
    rw [mergeRanges]
    split
    · rename_i htouch
      -- the merged range is the union of the two
      have hw := h.head_valid
      have hr := h.tail.head_valid
      have hle := h.head_le (List.mem_cons_self (a := r))
      have hunion : w.start ≤ cp ∧ cp ≤ max w.stop r.stop ↔
          (w.start ≤ cp ∧ cp ≤ w.stop) ∨ (r.start ≤ cp ∧ cp ≤ r.stop) := by omega
      rw [ih h.merged, covers_cons, covers_cons, covers_cons, hunion, or_assoc]
    · rw [covers_cons, ih h.tail, covers_cons (x := w)]

/-- `normalize_ranges` gives the normal form of the set. -/
theorem normalizeRanges_spec {ranges : List CpRange} (h : ∀ r ∈ ranges, r.start ≤ r.stop) :
    Normal CpRange.start CpRange.stop (normalizeRanges ranges) ∧
      ∀ cp, Covers CpRange.start CpRange.stop (normalizeRanges ranges) cp ↔
        Covers CpRange.start CpRange.stop ranges cp := by
  have hmem : ∀ r, r ∈ ranges.insertionSort (fun a b => a.start ≤ b.start) ↔ r ∈ ranges :=
    fun r => List.mem_insertionSort _
  have hcovers : ∀ cp, Covers CpRange.start CpRange.stop
      (ranges.insertionSort fun a b => a.start ≤ b.start) cp ↔
        Covers CpRange.start CpRange.stop ranges cp := fun cp => by simp only [Covers, hmem]
  have htotal : Std.Total fun a b : CpRange => a.start ≤ b.start := ⟨fun a b => Nat.le_total _ _⟩
  have htrans : IsTrans CpRange fun a b => a.start ≤ b.start := ⟨fun a b c => Nat.le_trans⟩
  have hasc : Ascending (ranges.insertionSort fun a b => a.start ≤ b.start) :=
    ⟨fun r hr => h r ((hmem r).mp hr), List.pairwise_insertionSort _ _⟩
  unfold normalizeRanges
  split
  · rename_i heq
    rw [heq] at hcovers
    exact ⟨⟨fun r hr => absurd hr List.not_mem_nil, List.Pairwise.nil⟩, hcovers⟩
  · rename_i r rs heq
    rw [heq] at hcovers hasc
    exact ⟨normal_mergeRanges hasc, fun cp => (covers_mergeRanges hasc cp).trans (hcovers cp)⟩

/-! ## Scanning the text -/

theorem textItems_valid (cs : List Char) : ∀ r ∈ textItems cs, r.start ≤ r.stop := by
  fun_induction textItems cs with
  | case1 c d e rest h ih => exact List.forall_mem_cons.mpr ⟨Nat.le_of_lt h.2, ih⟩
  | case2 c d e rest h ih => exact List.forall_mem_cons.mpr ⟨le_rfl, ih⟩
  | case3 c rest h ih => exact List.forall_mem_cons.mpr ⟨le_rfl, ih⟩
  | case4 => exact fun r hr => absurd hr List.not_mem_nil

/-- What `add_or_get_charclass` collects for an item: with case ignored, its variants too. -/
def itemRanges (cfg : CompilerConfig) (r : CpRange) : List CpRange :=
  r :: if cfg.caseInsensitive then rangeVariants cfg.fold r.start r.stop else []

variable {cfg : CompilerConfig}

/-- A character that no range starts with. -/
theorem setRanges_single {set : Bytes} {pos fuel : Nat} {c : Char} {cs : List Char}
    (h : Sees set pos (c :: cs)) (hsingle : ∀ e rest, cs = '-' :: e :: rest → ¬c < e) :
    setRanges cfg set (fuel + 1) pos =
      itemRanges cfg ⟨c.toNat, c.toNat⟩ ++ setRanges cfg set fuel (pos + c.utf8Size) := by
  rw [setRanges, h.peek]
  dsimp only
  cases cs with
  | nil =>
    rw [h.tail.peek_nil]
    rfl
  | cons d cs =>
    rw [h.tail.peek]
    by_cases hd : d = '-'
    · subst hd
      rw [show some (('-').val, ('-').utf8Size) = some ((0x2D : UInt32), ('-').utf8Size) from rfl]
      cases cs with
      | nil =>
        simp only [h.tail.tail.peek_nil]
        rfl
      | cons e rest =>
        simp only [h.tail.tail.peek]
        rw [if_neg (show ¬c.val < e.val from hsingle e rest rfl)]
        rfl
    · split
      · rename_i heq
        exact absurd (Char.ext (Prod.mk.inj (Option.some.inj heq)).1) hd
      · rfl

theorem setRanges_range {set : Bytes} {pos fuel : Nat} {c e : Char} {cs : List Char}
    (h : Sees set pos (c :: '-' :: e :: cs)) (hlt : c < e) :
    setRanges cfg set (fuel + 1) pos =
      itemRanges cfg ⟨c.toNat, e.toNat⟩ ++
        setRanges cfg set fuel (pos + c.utf8Size + ('-').utf8Size + e.utf8Size) := by
  rw [setRanges, h.peek]
  dsimp only
  rw [h.tail.peek, show some (('-').val, ('-').utf8Size) =
    some ((0x2D : UInt32), ('-').utf8Size) from rfl]
  simp only [h.tail.tail.peek]
  rw [if_pos (show c.val < e.val from hlt)]
  rfl

/-- The scan finds the items of the text. -/
theorem setRanges_items {set : Bytes} {pos fuel : Nat} {cs : List Char} (h : Sees set pos cs)
    (hfuel : cs.length ≤ fuel) :
    setRanges cfg set fuel pos = (textItems cs).flatMap (itemRanges cfg) := by
  induction fuel generalizing pos cs with
  | zero =>
    rw [List.eq_nil_of_length_eq_zero (Nat.le_zero.mp hfuel)]
    rfl
  | succ fuel ih =>
    fun_cases textItems cs with
    | case1 c d e rest hrange =>
      obtain ⟨rfl, hlt⟩ := hrange
      have hle : rest.length ≤ fuel := by
        simp only [List.length_cons] at hfuel
        omega
      rw [setRanges_range h hlt, ih h.tail.tail.tail hle, List.flatMap_cons]
    | case2 c d e rest hrange =>
      rw [setRanges_single h, ih h.tail (by simpa using hfuel), List.flatMap_cons]
      rintro e' rest' heq hlt
      cases heq
      exact hrange ⟨rfl, hlt⟩
    | case3 c rest hshort =>
      rw [setRanges_single h, ih h.tail (by simpa using hfuel), List.flatMap_cons]
      rintro e' rest' heq -
      exact hshort _ _ _ heq
    | case4 =>
      rw [setRanges, h.peek_nil]
      rfl

theorem setRanges_text {set : Bytes} {pos fuel : Nat} {cs : List Char} (h : Sees set pos cs)
    (hfuel : cs.length ≤ fuel) : setRanges .caseSensitive set fuel pos = textItems cs := by
  rw [setRanges_items h hfuel]
  exact List.flatMap_singleton' _

theorem length_le_encode (cs : List Char) : cs.length ≤ (encode cs).length := by
  induction cs with
  | nil => exact le_rfl
  | cons c cs ih =>
    rw [encode_cons, List.length_append, String.length_utf8EncodeChar, List.length_cons]
    have := c.utf8Size_pos
    omega

theorem charclassOf_text (cs : List Char) :
    charclassOf .caseSensitive (encode cs) = ⟨normalizeRanges (textItems cs), false⟩ := by
  rw [charclassOf, setRanges_text (Sees.start cs) (length_le_encode cs)]
  rfl

/-! ## The growing array -/

/-- The capacities that occur: 0 and 4, 8, …, 32768. -/
structure RangeArray.Ok (e : RangeArray) : Prop where
  room : e.ranges.length ≤ e.rangeCap
  power : e.rangeCap = 0 ∨ ∃ k ≤ 13, e.rangeCap = 4 * 2 ^ k

/-- The full array. -/
theorem addRange_grow {e : RangeArray} (hfull : e.ranges.length = e.rangeCap)
    (hpos : e.rangeCap ≠ 0) (r : CpRange) :
    addRange e r = if e.rangeCap < e.rangeCap * 2 % 2 ^ 16 then
      .done ⟨e.ranges ++ [r], e.rangeCap * 2 % 2 ^ 16⟩ else .undefined := by
  simp only [addRange, hfull, if_true, if_neg hpos]

theorem addRange_of_lt {e : RangeArray} (h : e.Ok) (hlt : e.ranges.length < 32768) (r : CpRange) :
    ∃ e', addRange e r = .done e' ∧ e'.Ok ∧ e'.ranges = e.ranges ++ [r] := by
  obtain ⟨hroom, hpower⟩ := h
  by_cases hfull : e.ranges.length = e.rangeCap
  · obtain hzero | ⟨k, hk, hcap⟩ := hpower
    · refine ⟨⟨e.ranges ++ [r], 4⟩, ?_, ⟨?_, .inr ⟨0, by omega, rfl⟩⟩, rfl⟩
      · simp [addRange, hfull, hzero]
      · rw [List.length_append, List.length_singleton]
        dsimp only
        omega
    · have hnext : 4 * 2 ^ (k + 1) = 4 * 2 ^ k * 2 := by rw [Nat.pow_succ, Nat.mul_assoc]
      have hle : k + 1 ≤ 13 := by
        by_contra hgt
        rw [show k = 13 by omega] at hcap
        omega
      have hpos : 0 < 2 ^ k := Nat.two_pow_pos k
      refine ⟨⟨e.ranges ++ [r], e.rangeCap * 2⟩, ?_,
        ⟨?_, .inr ⟨k + 1, hle, by rw [hnext, hcap]⟩⟩, rfl⟩
      · rw [addRange_grow hfull (by omega), Nat.mod_eq_of_lt (by omega), if_pos (by omega)]
      · rw [List.length_append, List.length_singleton]
        dsimp only
        omega
  · refine ⟨⟨e.ranges ++ [r], e.rangeCap⟩, ?_, ⟨?_, hpower⟩, rfl⟩
    · simp only [addRange, if_neg hfull]
      rw [if_pos (by omega)]
    · rw [List.length_append, List.length_singleton]
      dsimp only
      omega

/-- At 32768 ranges the doubled capacity is 0. -/
theorem addRange_full {e : RangeArray} (h : e.Ok) (hfull : e.ranges.length = 32768) (r : CpRange) :
    addRange e r = .undefined := by
  obtain ⟨hroom, hzero | ⟨k, hk, hcap⟩⟩ := h
  · omega
  have hle : 2 ^ k ≤ 2 ^ 13 := Nat.pow_le_pow_right (by decide) hk
  have hcap' : e.rangeCap = 32768 := by omega
  rw [addRange_grow (by omega) (by omega), hcap']
  rfl

theorem addRanges_spec {e : RangeArray} (h : e.Ok) (hle : e.ranges.length ≤ 32768)
    (rs : List CpRange) :
    (e.ranges.length + rs.length ≤ 32768 →
      ∃ e', addRanges e rs = .done e' ∧ e'.ranges = e.ranges ++ rs) ∧
    (32768 < e.ranges.length + rs.length → addRanges e rs = .undefined) := by
  induction rs generalizing e with
  | nil => exact ⟨fun _ => ⟨e, rfl, (List.append_nil _).symm⟩, fun hlt => by simp at hlt; omega⟩
  | cons r rs ih =>
    rw [List.length_cons]
    by_cases hfull : e.ranges.length = 32768
    · refine ⟨fun _ => by omega, fun _ => ?_⟩
      rw [addRanges, addRange_full h hfull, CallResult.bind]
    · obtain ⟨e', hadd, hok, hranges⟩ := addRange_of_lt h (by omega) r
      have hlen : e'.ranges.length = e.ranges.length + 1 := by rw [hranges]; simp
      obtain ⟨hsome, hnone⟩ := ih hok (by omega)
      rw [addRanges, hadd, CallResult.bind_done]
      refine ⟨fun hfit => ?_, fun hover => hnone (by omega)⟩
      obtain ⟨e'', hrest, hranges'⟩ := hsome (by omega)
      exact ⟨e'', hrest, by rw [hranges', hranges, List.append_assoc]; rfl⟩

/-- The ranges of a text fit the array that collects them. -/
def Collects (cfg : CompilerConfig) (set : Bytes) : Prop :=
  (setRanges cfg set set.length 0).length ≤ 32768

/-- A class is stored unless the text has more than 32768 items. -/
theorem addOrGetClass_eq (cfg : CompilerConfig) (classes : List CcEntry) (set : Bytes) :
    addOrGetClass cfg classes set =
      if (setRanges cfg set set.length 0).length ≤ 32768 then
        .done (internClass classes (charclassOf cfg set))
      else .undefined := by
  have hempty : RangeArray.Ok ⟨[], 0⟩ := ⟨le_rfl, .inl rfl⟩
  obtain ⟨hsome, hnone⟩ := addRanges_spec hempty (Nat.zero_le _) (setRanges cfg set set.length 0)
  rw [List.length_nil, Nat.zero_add] at hsome hnone
  unfold addOrGetClass
  split
  · rename_i hle
    obtain ⟨e, he, hranges⟩ := hsome hle
    simp only [he, CallResult.bind_eq_bind, CallResult.bind_done, hranges]
    rfl
  · rename_i hgt
    rw [hnone (by omega)]
    rfl

/-! ## The class of a text -/

/-- The class is the normal form of the set that the text denotes, and both membership tests
decide it. -/
structure CcEntry.IsClassOf (e : CcEntry) (cs : List Char) : Prop where
  normal : Normal CpRange.start CpRange.stop e.ranges
  contains : ∀ cp, rangeContains e.ranges cp = true ↔ Denotes cs cp
  bitmap : ∀ map, rangesToBitmap 127 e.ranges = some map →
    (∀ cp, Denotes cs cp → cp ≤ 127) ∧ ∀ b : UInt8, map b = true ↔ Denotes cs b.toNat

theorem charclassOf_isClassOf (cs : List Char) :
    (charclassOf .caseSensitive (encode cs)).IsClassOf cs := by
  rw [charclassOf_text]
  obtain ⟨hnormal, hcovers⟩ := normalizeRanges_spec (textItems_valid cs)
  refine ⟨hnormal, fun cp => (rangeContains_iff hnormal cp).trans (hcovers cp), fun map hmap => ?_⟩
  unfold rangesToBitmap at hmap
  split at hmap
  · rename_i hlimit
    cases hmap
    simp only [List.all_eq_true, Bool.and_eq_true, decide_eq_true_eq] at hlimit
    constructor
    · intro cp hcp
      obtain ⟨r, hr, -, hstop⟩ := (hcovers cp).mpr hcp
      have := (hlimit r hr).2
      omega
    · intro b
      rw [Denotes, ← hcovers]
      simp [Covers, CpRange.holds]
  · cases hmap

/-- Texts of the same set have the same class. -/
theorem charclassOf_congr {cs cs' : List Char} (h : ∀ cp, Denotes cs cp ↔ Denotes cs' cp) :
    charclassOf .caseSensitive (encode cs) = charclassOf .caseSensitive (encode cs') := by
  rw [charclassOf_text, charclassOf_text]
  obtain ⟨hnormal, hcovers⟩ := normalizeRanges_spec (textItems_valid cs)
  obtain ⟨hnormal', hcovers'⟩ := normalizeRanges_spec (textItems_valid cs')
  have hends := hnormal.ends_eq hnormal' fun cp =>
    (hcovers cp).trans ((h cp).trans (hcovers' cp).symm)
  have hinj : Function.Injective fun r : CpRange => (r.start, r.stop) := by
    rintro ⟨start, stop⟩ ⟨start', stop'⟩ heq
    simpa using heq
  rw [hinj.list_map hends]

/-- The class of a text is stored under an id, and every later text of the same set that is
stored gets that id. -/
def StoresClass (classes : List CcEntry) (cs : List Char) : Prop :=
  ∃ classes' id e, addOrGetClass .caseSensitive classes (encode cs) = .done (classes', id) ∧
    0 < id ∧ classes'[id - 1]? = some e ∧ e.IsClassOf cs ∧
    ∀ later cs', classes' <+: later → (∀ cp, Denotes cs cp ↔ Denotes cs' cp) →
      ∀ classes'' id', addOrGetClass .caseSensitive later (encode cs') = .done (classes'', id') →
        id' = id

theorem internClass_get (classes : List CcEntry) (e : CcEntry) :
    0 < (internClass classes e).2 ∧
      (internClass classes e).1[(internClass classes e).2 - 1]? = some e := by
  unfold internClass
  split
  · rename_i i hi
    obtain ⟨hlt, heq, -⟩ := List.findIdx?_eq_some_iff_getElem.mp hi
    refine ⟨Nat.succ_pos i, ?_⟩
    rw [Nat.add_sub_cancel, List.getElem?_eq_getElem hlt]
    exact congrArg some (of_decide_eq_true heq)
  · exact ⟨Nat.succ_pos _, by simp⟩

/-- The id of a class does not change when classes are appended. -/
theorem internClass_later {classes later : List CcEntry} {e : CcEntry}
    (h : (internClass classes e).1 <+: later) :
    internClass later e = (later, (internClass classes e).2) := by
  obtain ⟨more, rfl⟩ := h
  have hfound : (internClass classes e).1.findIdx? (· = e) =
      some ((internClass classes e).2 - 1) := by
    unfold internClass
    split
    · rename_i i hi
      rw [Nat.add_sub_cancel]
      exact hi
    · rename_i hnone
      rw [List.findIdx?_append, hnone]
      simp
  have hpos := (internClass_get classes e).1
  have happend : ((internClass classes e).1 ++ more).findIdx? (· = e) =
      some ((internClass classes e).2 - 1) := by
    rw [List.findIdx?_append, hfound]
    rfl
  rw [internClass, happend]
  exact Prod.ext rfl (Nat.sub_add_cancel hpos)

/-- A set text has its class, in normal form and under one id for all texts of the set, exactly
when it has at most 32768 items. -/
theorem addOrGetClass_storesClass (classes : List CcEntry) (cs : List Char) :
    StoresClass classes cs ↔ (textItems cs).length ≤ 32768 := by
  have hitems : setRanges .caseSensitive (encode cs) (encode cs).length 0 = textItems cs :=
    setRanges_text (Sees.start cs) (length_le_encode cs)
  constructor
  · rintro ⟨classes', id, e, hstored, -⟩
    by_contra hover
    rw [addOrGetClass_eq, hitems, if_neg hover] at hstored
    cases hstored
  · intro hfit
    refine ⟨_, _, charclassOf .caseSensitive (encode cs),
      by rw [addOrGetClass_eq, hitems, if_pos hfit], (internClass_get _ _).1,
      (internClass_get _ _).2, charclassOf_isClassOf cs, ?_⟩
    intro later cs' hlater hsame classes'' id' hstored
    rw [addOrGetClass_eq] at hstored
    split at hstored
    · rw [← charclassOf_congr hsame, internClass_later hlater] at hstored
      cases hstored
      rfl
    · cases hstored

/-- Without a dash every character is an item. -/
theorem length_textItems {cs : List Char} (h : '-' ∉ cs) : (textItems cs).length = cs.length := by
  fun_induction textItems cs with
  | case1 c d e rest hrange ih => exact absurd hrange.1 fun hd => h (by simp [hd])
  | case2 c d e rest hrange ih =>
    rw [List.length_cons, ih fun hmem => h (List.mem_cons_of_mem c hmem), List.length_cons (a := c)]
  | case3 c rest hshort ih =>
    rw [List.length_cons, ih fun hmem => h (List.mem_cons_of_mem c hmem), List.length_cons]
  | case4 => rfl

/-- 32769 times the letter "a": the capacity wraps, and no class is stored. -/
theorem addOrGetClass_loses_ranges : ¬StoresClass [] (List.replicate 32769 'a') := by
  rw [addOrGetClass_storesClass, length_textItems, List.length_replicate]
  · decide
  · intro hmem
    exact absurd (List.eq_of_mem_replicate hmem) (by decide)

end Snobol4
