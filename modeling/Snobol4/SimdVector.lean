import Snobol4.SimdTier
import Snobol4.Support.Lanes

/-!
# SimdVector — the vector verifiers (`search_simd.c`)

The AVX2 and the NEON verifier test a block of the subject at a time against a table of the
bytes of the mask, and leave what they do not settle to the scalar verifier.  The instructions
are modelled lane by lane.
-/

namespace Snobol4

variable {W : Type}

/-! ## AVX2 -/

/-- `_mm256_srli_epi32(v, 4)`: the words of four lanes are shifted. -/
def srliEpi32Four (v : Lanes 32) : Lanes 32 := fun k =>
  if h : k.val % 4 = 3 then v k >>> 4 else v k >>> 4 ||| v ⟨k + 1, by omega⟩ <<< 4

/-- `_mm256_broadcastsi128_si256` -/
def broadcast128 (x : Lanes 16) : Lanes 32 := fun k => x ⟨k % 16, Nat.mod_lt _ (by decide)⟩

/-- `_mm256_shuffle_epi8`: each half is looked up on its own. -/
def shuffleEpi8 (y x : Lanes 32) : Lanes 32 := fun k =>
  if 0x80 ≤ x k then 0 else y ⟨k / 16 * 16 + (x k).toNat % 16, by omega⟩

/-- The classification of a block by `simd_nfa_exec_avx2`. -/
def classifyAvx2 (table : Bytes) (data : Lanes 32) : Lanes 32 :=
  let lo : Lanes 32 := fun k => data k &&& 0x0F
  let hi : Lanes 32 := fun k => srliEpi32Four data k &&& 0x0F
  (List.range 16).foldl
    (fun result g =>
      let sub := broadcast128 (.load table (g * 16))
      Lanes.blend result (shuffleEpi8 sub lo) (Lanes.equal hi (.splat (UInt8.ofNat g))))
    (.splat 0)

/-- The first byte of a block outside the table. -/
def firstAvx2 (table s : Bytes) (i : Nat) : Option Nat :=
  let result := classifyAvx2 table (.load s i)
  let classMask := (Lanes.equal result (.splat 1)).signs
  let nonClassMask := ~~~classMask &&& 0xFFFFFFFF#32
  if nonClassMask ≠ 0 then some nonClassMask.ctz.toNat else none

/-! ## NEON -/

/-- `vqtbl1q_u8` -/
def vqtbl1q (t idx : Lanes 16) : Lanes 16 := fun k =>
  if h : (idx k).toNat < 16 then t ⟨(idx k).toNat, h⟩ else 0

/-- The classification of a block by `simd_nfa_exec_neon`. -/
def classifyNeon (table : Bytes) (data : Lanes 16) : Lanes 16 :=
  let lo : Lanes 16 := fun k => data k &&& 0x0F
  let hi : Lanes 16 := fun k => data k >>> 4
  (List.range 16).foldl
    (fun result g =>
      let sub : Lanes 16 := .load table (g * 16)
      Lanes.select (Lanes.equal hi (.splat (UInt8.ofNat g))) (vqtbl1q sub lo) result)
    (.splat 0)

/-- The first byte of a block outside the mask, where the table has one. -/
def firstNeon (table : Bytes) (mask : UInt8 → Bool) (s : Bytes) (i : Nat) : Option Nat :=
  if (classifyNeon table (.load s i)).minimum = 0 then
    (List.range 16).find? fun j => !mask (s.getD (i + j) 0)
  else none

/-! ## The verifiers -/

/-- The table that both build from the bitmap. -/
def membershipTable (mask : UInt8 → Bool) : Bytes :=
  (List.range 256).map fun i => if mask (UInt8.ofNat i) then 1 else 0

/-- The loop over blocks of `w` bytes; `fuel` of them are left at most. -/
def blockLoop (w : Nat) (first : Nat → Option Nat) (len : Nat) : Nat → Nat → Option Nat
  | 0, _ => none
  | fuel + 1, i =>
      if i + w ≤ len then
        match first i with
        | some j => some (i + j)
        | none => blockLoop w first len fuel (i + w)
      else none

namespace SimdNfa

/-- What both make of the loop over blocks: the labels `found_span_match`,
`found_break_match` and `tail`. -/
def execBlocks (nfa : SimdNfa) (s : Bytes) (start : Nat) (found : Option Nat) : Option Nat :=
  if nfa.isAny then nfa.execScalar s start
  else if nfa.isSpan then
    match found with
    | some i => if start < i then some i else none
    | none => nfa.execScalar s start
  else if nfa.isBreak then
    match found with
    | some i => some i
    | none => nfa.execScalar s start
  else nfa.execScalar s start

/-- `simd_nfa_exec_avx2` -/
def execAvx2 (nfa : SimdNfa) (s : Bytes) (start : Nat) : Option Nat :=
  nfa.execBlocks s start
    (blockLoop 32 (firstAvx2 (membershipTable nfa.begins) s) s.length s.length start)

/-- `simd_nfa_exec_neon` -/
def execNeon (nfa : SimdNfa) (s : Bytes) (start : Nat) : Option Nat :=
  nfa.execBlocks s start
    (blockLoop 16 (firstNeon (membershipTable nfa.begins) nfa.begins s) s.length s.length start)

end SimdNfa

/-! ## Classification -/

theorem srliEpi32Four_masked (v : Lanes 32) (k : Fin 32) :
    srliEpi32Four v k &&& (0x0F : UInt8) = v k >>> 4 := by
  unfold srliEpi32Four
  split
  · have hmask := Lanes.high_masked (v k) 0
    rwa [UInt8.zero_shiftLeft, UInt8.or_zero] at hmask
  · exact Lanes.high_masked _ _

theorem high_lt (b : UInt8) : (b >>> 4).toNat < 16 := by
  have hlt := b.toNat_lt
  rw [Lanes.high_toNat]
  omega

theorem nibble_lt (b : UInt8) : (b &&& 0x0F).toNat < 16 := by
  rw [Lanes.nibble_toNat]
  exact Nat.mod_lt _ (by decide)

/-- A row looked up by low nibbles. -/
theorem shuffle_row (row : Lanes 16) (data : Lanes 32) (k : Fin 32) :
    shuffleEpi8 (broadcast128 row) (fun k => data k &&& 0x0F) k =
      row ⟨(data k &&& 0x0F).toNat, nibble_lt (data k)⟩ := by
  have hlt := nibble_lt (data k)
  have hsign : ¬ 0x80 ≤ data k &&& 0x0F := by
    rw [UInt8.le_iff_toNat_le]
    have hnum : (0x80 : UInt8).toNat = 128 := rfl
    omega
  unfold shuffleEpi8 broadcast128
  rw [if_neg hsign]
  congr 1
  apply Fin.ext
  dsimp only
  omega

/-- Every lane is the entry of its byte. -/
theorem classifyAvx2_eq (table : Bytes) (data : Lanes 32) (k : Fin 32) :
    classifyAvx2 table data k = table.getD (data k).toNat 0 := by
  have hlane : ∀ (gs : List Nat) (result : Lanes 32),
      gs.foldl (fun result g => Lanes.blend result
          (shuffleEpi8 (broadcast128 (.load table (g * 16))) fun k => data k &&& 0x0F)
          (Lanes.equal (fun k => srliEpi32Four data k &&& 0x0F) (.splat (UInt8.ofNat g))))
        result k =
      gs.foldl (fun x g => if data k >>> 4 = UInt8.ofNat g then
        table.getD (g * 16 + (data k &&& 0x0F).toNat) 0 else x) (result k) := by
    intro gs
    induction gs with
    | nil => exact fun _ => rfl
    | cons g gs ih =>
      intro result
      rw [List.foldl_cons, List.foldl_cons, ih, Lanes.blend_equal, srliEpi32Four_masked,
        shuffle_row]
      rfl
  rw [classifyAvx2, hlane, Lanes.foldl_rows _ _ _ (by decide), if_pos (high_lt _), Lanes.nibbles]

theorem classifyNeon_eq (table : Bytes) (data : Lanes 16) (k : Fin 16) :
    classifyNeon table data k = table.getD (data k).toNat 0 := by
  have hlane : ∀ (gs : List Nat) (result : Lanes 16),
      gs.foldl (fun result g => Lanes.select
          (Lanes.equal (fun k => data k >>> 4) (.splat (UInt8.ofNat g)))
          (vqtbl1q (.load table (g * 16)) fun k => data k &&& 0x0F) result)
        result k =
      gs.foldl (fun x g => if data k >>> 4 = UInt8.ofNat g then
        table.getD (g * 16 + (data k &&& 0x0F).toNat) 0 else x) (result k) := by
    intro gs
    induction gs with
    | nil => exact fun _ => rfl
    | cons g gs ih =>
      intro result
      rw [List.foldl_cons, List.foldl_cons, ih, Lanes.select_equal, vqtbl1q,
        dif_pos (nibble_lt (data k))]
      rfl
  rw [classifyNeon, hlane, Lanes.foldl_rows _ _ _ (by decide), if_pos (high_lt _), Lanes.nibbles]

theorem membershipTable_getD (mask : UInt8 → Bool) (b : UInt8) :
    (membershipTable mask).getD b.toNat 0 = if mask b then 1 else 0 := by
  have hlt := b.toNat_lt
  rw [membershipTable, List.getD_eq_getElem?_getD, List.getElem?_map,
    List.getElem?_range hlt, Option.map_some, Option.getD_some, UInt8.ofNat_toNat]

/-! ## The first byte outside the mask -/

/-- The bits of `non_class_mask`. -/
theorem nonClassMask_bit (mask : UInt8 → Bool) (s : Bytes) (i : Nat) {j : Nat} (hj : j < 32) :
    (~~~(Lanes.equal (classifyAvx2 (membershipTable mask) (.load s i)) (.splat 1)).signs &&&
      0xFFFFFFFF#32).getLsbD j = !mask (s.getD (i + j) 0) := by
  have hones : (0xFFFFFFFF#32).getLsbD j = true := by
    rw [show 0xFFFFFFFF#32 = BitVec.allOnes 32 from rfl, BitVec.getLsbD_allOnes]
    exact decide_eq_true hj
  rw [BitVec.getLsbD_and, hones, Bool.and_true, BitVec.getLsbD_not, decide_eq_true hj,
    Bool.true_and, Lanes.getLsbD_signs_equal _ _ hj, classifyAvx2_eq, membershipTable_getD]
  show (!decide ((if mask (s.getD (i + j) 0) = true then 1 else 0) = (1 : UInt8))) = _
  cases mask (s.getD (i + j) 0) <;> rfl

theorem firstAvx2_eq (mask : UInt8 → Bool) (s : Bytes) (i : Nat) :
    firstAvx2 (membershipTable mask) s i =
      (List.range 32).find? fun j => !mask (s.getD (i + j) 0) := by
  have hbit := fun {j} hj => @nonClassMask_bit mask s i j hj
  unfold firstAvx2
  dsimp only
  generalize ~~~(Lanes.equal (classifyAvx2 (membershipTable mask) (.load s i))
    (.splat 1)).signs &&& 0xFFFFFFFF#32 = bits at hbit ⊢
  by_cases hzero : bits = 0
  · rw [if_neg (not_not_intro hzero)]
    symm
    rw [List.find?_range_eq_none]
    intro j hj
    rw [← hbit hj, hzero]
    show (!(0#32).getLsbD j) = true
    rw [BitVec.getLsbD_zero]
    rfl
  · rw [if_pos hzero]
    have hctz := BitVec.getLsbD_true_ctz_of_ne_zero hzero
    have hlt := BitVec.lt_of_getLsbD hctz
    symm
    rw [List.find?_range_eq_some]
    refine ⟨(hbit hlt).symm.trans hctz, List.mem_range.mpr hlt, ?_⟩
    intro j hj
    rw [← hbit (Nat.lt_trans hj hlt), BitVec.getLsbD_false_of_lt_ctz hj]
    rfl

/-- When the smallest entry of a block is not zero, all its bytes are of the mask. -/
theorem firstNeon_eq (mask : UInt8 → Bool) (s : Bytes) (i : Nat) :
    firstNeon (membershipTable mask) mask s i =
      (List.range 16).find? fun j => !mask (s.getD (i + j) 0) := by
  unfold firstNeon
  by_cases hmin : (classifyNeon (membershipTable mask) (.load s i)).minimum = 0
  · rw [if_pos hmin]
  · rw [if_neg hmin]
    symm
    rw [List.find?_range_eq_none]
    intro j hj
    rw [Bool.not_not]
    by_contra hmask
    refine hmin (Lanes.minimum_eq_zero.mpr ⟨⟨j, hj⟩, ?_⟩)
    rw [classifyNeon_eq, membershipTable_getD]
    exact if_neg hmask

/-! ## The loop over blocks -/

/-- A loop that finds a byte finds the end of the run. -/
theorem blockLoop_spans {w : Nat} {mask : UInt8 → Bool} {s : Bytes} {first : Nat → Option Nat}
    (hfirst : ∀ i, first i = (List.range w).find? fun j => !mask (s.getD (i + j) 0)) {fuel : Nat}
    {i stop : Nat} (h : blockLoop w first s.length fuel i = some stop) :
    stop = spanBytes s mask i ∧ i ≤ s.length := by
  induction fuel generalizing i with
  | zero => cases h
  | succ fuel ih =>
    rw [blockLoop] at h
    by_cases hblock : i + w ≤ s.length
    · rw [if_pos hblock, hfirst] at h
      have hbyte : ∀ j < w, s[i + j]? = some (s.getD (i + j) 0) := by
        intro j hj
        have hlt : i + j < s.length := by omega
        rw [List.getD_eq_getElem?_getD, List.getElem?_eq_getElem hlt, Option.getD_some]
      have hrun : ∀ k ≤ w, (∀ j < k, (!!mask (s.getD (i + j) 0)) = true) →
          spanBytes s mask i = spanBytes s mask (i + k) := by
        intro k hk hall
        apply spanBytes_skip
        intro j hj
        rw [hbyte j (by omega), Option.any_some, ← hall j hj, Bool.not_not]
      cases hfind : (List.range w).find? fun j => !mask (s.getD (i + j) 0) with
      | none =>
        -- the whole block is in the run
        rw [hfind] at h
        obtain ⟨hstop, -⟩ := ih h
        rw [List.find?_range_eq_none] at hfind
        rw [hstop, hrun w (Nat.le_refl w) hfind]
        exact ⟨rfl, by omega⟩
      | some j =>
        rw [hfind] at h
        cases h
        obtain ⟨hj, hrange, hbefore⟩ := List.find?_range_eq_some.mp hfind
        have hlt := List.mem_range.mp hrange
        rw [hrun j (by omega) hbefore]
        refine ⟨(spanBytes_here (hbyte j hlt) ?_).symm, by omega⟩
        rwa [Bool.not_eq_true'] at hj
    · rw [if_neg hblock] at h
      cases h

/-- What the loop over blocks finds is what the scalar verifier comes to. -/
theorem execBlocks_eq (mask : UInt8 → Bool) (op : SetOp) (s : Bytes) (start : Nat)
    {found : Option Nat}
    (hfound : ∀ stop, found = some stop →
      stop = spanBytes s (setNfa mask op).begins start ∧ start ≤ s.length) :
    (setNfa mask op).execBlocks s start found = (setNfa mask op).execScalar s start := by
  cases found with
  | none => cases op <;> rfl
  | some stop =>
    obtain ⟨hstop, hle⟩ := hfound stop rfl
    cases op with
    | span =>
      have hbegins : (spanNfa mask).begins = mask := rfl
      rw [setNfa, hbegins] at hstop
      rw [setNfa, SimdNfa.execScalar_span mask hle, ← hstop]
      rfl
    | «break» =>
      have hbegins : (breakNfa mask).begins = fun b => !mask b := rfl
      rw [setNfa, hbegins] at hstop
      rw [setNfa, SimdNfa.execScalar_break mask hle, ← hstop]
      rfl
    | any => rfl
    | notany => rfl

theorem buildNfaMasks_setNfa {env : VmEnv W} {nfa : SimdNfa} (h : buildNfaMasks env = some nfa) :
    ∃ mask op, nfa = setNfa mask op := by
  unfold buildNfaMasks at h
  simp only [Option.bind_eq_bind, Option.bind_eq_some_iff] at h
  obtain ⟨op, -, h⟩ := h
  split at h
  · cases h
  · obtain ⟨ranges, -, h⟩ := Option.bind_eq_some_iff.mp h
    split at h
    · cases h
    · obtain ⟨mask, -, hnfa⟩ := Option.bind_eq_some_iff.mp h
      cases hnfa
      exact ⟨mask, op, rfl⟩

/-- The vector verifiers accept where the scalar one does, with the same end. -/
theorem vector_verifiers_eq_scalar (env : VmEnv W) (nfa : SimdNfa)
    (h : buildNfaMasks env = some nfa) (s : Bytes) (offset : Nat) :
    nfa.execAvx2 s offset = nfa.execScalar s offset ∧
      nfa.execNeon s offset = nfa.execScalar s offset := by
  obtain ⟨mask, op, rfl⟩ := buildNfaMasks_setNfa h
  constructor
  · exact execBlocks_eq mask op s offset fun _ => blockLoop_spans fun i => firstAvx2_eq _ s i
  · exact execBlocks_eq mask op s offset fun _ => blockLoop_spans fun i => firstNeon_eq _ s i

/-- `SPAN('a')` on a run that ends inside the second block. -/
theorem vector_verifiers_eq_scalar_letter :
    let nfa := setNfa (onlyByte 97) .span
    let s := List.replicate 40 97 ++ 98 :: List.replicate 30 97
    nfa.execAvx2 s 0 = nfa.execScalar s 0 ∧ nfa.execNeon s 0 = nfa.execScalar s 0 := by
  have hranges : (VmEnv.ofCode spanLetter [] .bare).ranges 1 = some [⟨97, 97⟩] := by
    decide +kernel
  have hbuild : buildNfaMasks (VmEnv.ofCode spanLetter [] .bare) =
      some (setNfa (onlyByte 97) .span) :=
    buildNfaMasks_eq (by decide +kernel) (by decide +kernel) hranges (by decide) rfl
  exact vector_verifiers_eq_scalar (VmEnv.ofCode spanLetter [] .bare) _ hbuild _ 0

end Snobol4
