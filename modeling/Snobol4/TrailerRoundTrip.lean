import Snobol4.ClassTable
import Snobol4.Codepoints
import Snobol4.SearchVmSafety

/-!
# TrailerRoundTrip — the trailer is read back (`compiler_codegen.c`, `vm_exec.c`)

One writer, three readers: `get_ranges_ptr`, `snobol_build_range_meta` and
`snobol_bc_body_len`.  Class ids and range counts are 16 bits wide and offsets 32; as far as
these reach, every class and the end of the instructions are found again.
-/

namespace Snobol4

open Utf8

/-- The class as its readers deliver it. -/
def CcEntry.stored (e : CcEntry) : ClassRanges := ⟨e.ranges, e.caseInsensitive.toNat⟩

/-- Each class is found under its id, which is a `uint16_t`, with and without the cache, and
the body ends where the instructions do. -/
structure RoundTrips (bc body : Bytes) (classes : List CcEntry) : Prop where
  parsed : ∀ (k : Nat) (e : CcEntry), classes[k]? = some e → ∀ rangeMeta,
    rangeMeta = none ∨ rangeMeta = buildRangeMeta bc →
      getRangesPtr bc rangeMeta ((k + 1) % 2 ^ 16) = some e.stored
  cached : ∀ (k : Nat) (e : CcEntry), classes[k]? = some e →
    ∃ table, buildRangeMeta bc = some table ∧ table[k]? = some (some e.stored)
  bodyLen : snobolBcBodyLen bc = body.length

theorem foldl_min_le_init (f : Nat → Nat) (is : List Nat) (init : Nat) :
    is.foldl (fun least i => min least (f i)) init ≤ init := by
  induction is generalizing init with
  | nil => exact le_rfl
  | cons i is ih => exact (ih _).trans (Nat.min_le_left _ _)

theorem foldl_min_le {f : Nat → Nat} {is : List Nat} {i : Nat} (init : Nat) (hi : i ∈ is) :
    is.foldl (fun least i => min least (f i)) init ≤ f i := by
  induction is generalizing init with
  | nil => cases hi
  | cons j is ih =>
    obtain rfl | hi := List.mem_cons.mp hi
    · exact (foldl_min_le_init f is _).trans (Nat.min_le_right _ _)
    · exact ih _ hi

namespace Sections

variable {bc body : Bytes} {classes : List CcEntry} {labels : List LabelEntry}

theorem buildRangeMeta_eq (h : Sections bc body classes labels) :
    buildRangeMeta bc =
      if classes.length % 2 ^ 32 = 0 ∨ 65535 < classes.length % 2 ^ 32 then none
      else some ((List.range (classes.length % 2 ^ 32)).map fun i => parseRanges bc (i + 1)) := by
  unfold buildRangeMeta
  rw [h.ccTail_eq]
  simp only [Option.bind_eq_bind, Option.bind_some, Nat.add_sub_cancel, h.readCount]
  rw [if_neg (by omega)]
  split
  · rfl
  · rfl

/-- The class with the id `k + 1`, where its offset and its count fit. -/
theorem parse_stored (h : Sections bc body classes labels) (hmany : classes.length < 2 ^ 32)
    {k off : Nat} {e : CcEntry} (hoff : (classOffsets body.length classes)[k]? = some off)
    (he : classes[k]? = some e) (hshort : off < 2 ^ 32) (hfits : e.Fits)
    (hcount : e.ranges.length < 2 ^ 16) : parseRanges bc (k + 1) = some e.stored := by
  obtain ⟨rest, hdrop⟩ := h.drop_offset hoff he
  rw [h.parse hmany hoff he hshort, Nat.mod_eq_of_lt hcount,
    readRanges_of_drop hfits (readClass_of_drop hdrop).2.2]
  rfl

theorem exists_offset {k : Nat} {e : CcEntry} (base : Nat) (he : classes[k]? = some e) :
    ∃ off, (classOffsets base classes)[k]? = some off := by
  have hk := (List.getElem?_eq_some_iff.mp he).1
  rw [← length_classOffsets base] at hk
  exact ⟨_, List.getElem?_eq_getElem hk⟩

/-- What fits its fields is read back. -/
theorem roundTrips (h : Sections bc body classes labels) (hbody : body ≠ [])
    (hfits : ∀ e ∈ classes, e.Fits ∧ e.ranges.length < 2 ^ 16) (hmany : classes.length < 2 ^ 16)
    (hshort : ∀ off ∈ classOffsets body.length classes, off < 2 ^ 32) :
    RoundTrips bc body classes := by
  have hparse : ∀ k e, classes[k]? = some e → parseRanges bc (k + 1) = some e.stored := by
    intro k e he
    obtain ⟨off, hoff⟩ := exists_offset body.length he
    have hmem := List.mem_of_getElem? he
    exact h.parse_stored (by omega) hoff he (hshort off (List.mem_of_getElem? hoff))
      (hfits e hmem).1 (hfits e hmem).2
  constructor
  · intro k e he rangeMeta hmeta
    have hk := (List.getElem?_eq_some_iff.mp he).1
    rw [getRangesPtr_eq hmeta, Nat.mod_eq_of_lt (by omega), hparse k e he]
  · intro k e he
    have hk := (List.getElem?_eq_some_iff.mp he).1
    refine ⟨_, by rw [h.buildRangeMeta_eq, if_neg (by omega)], ?_⟩
    rw [Nat.mod_eq_of_lt (by omega), List.getElem?_map, List.getElem?_range hk, Option.map_some,
      hparse k e he]
  · exact h.bodyLen hbody (by omega) hshort

/-- The cache has at most 65535 classes. -/
theorem few_of_roundTrips (h : Sections bc body classes labels) (hrt : RoundTrips bc body classes) :
    classes.length < 2 ^ 16 := by
  by_contra hmany
  obtain ⟨table, htable, hlast⟩ :=
    hrt.cached (classes.length - 1) _ (List.getElem?_eq_getElem (by omega))
  have hlen := (List.getElem?_eq_some_iff.mp hlast).1
  rw [h.buildRangeMeta_eq] at htable
  split at htable
  · cases htable
  · cases htable
    rw [List.length_map, List.length_range] at hlen
    omega

/-- A body length read from 32-bit offsets. -/
theorem short_of_roundTrips (h : Sections bc body classes labels) (hrt : RoundTrips bc body classes)
    (hsome : classes ≠ []) : body.length < 2 ^ 32 := by
  have hmany := h.few_of_roundTrips hrt
  have hpos := List.length_pos_of_ne_nil hsome
  have hbodyLen := hrt.bodyLen
  rw [h.bodyLen_eq (by omega), if_neg (by omega)] at hbodyLen
  -- the first class alone bounds the minimum
  obtain ⟨off, hoff⟩ := exists_offset body.length (List.getElem?_eq_getElem hpos)
  have hle := foldl_min_le (f := fun i => (readU32 bc (tableStart body classes + i * 4)).1)
    (2 ^ 64 - 1) (List.mem_range.mpr hpos)
  rw [h.readOffset hoff] at hle
  dsimp only at hbodyLen
  split at hbodyLen
  · omega
  · omega

end Sections

/-! ## Compiled patterns -/

theorem fuseBelow_ne_nil {pos : Nat} {st : FuseState} (h : st.bc ≠ []) :
    (fuseBelow pos st).bc ≠ [] := by
  induction pos generalizing st with
  | zero => exact h
  | succ pos ih =>
    refine ih ?_
    unfold fuseAt
    split
    · exact h
    · dsimp only
      split
      · exact h
      · simp [writeFused]

theorem emitProgram_ne_nil {cfg : CompilerConfig} {ast : AstNode} {st : CompilerState}
    (h : emitProgram cfg ast = some st) : st.buf ≠ [] := by
  obtain ⟨st₀, -, -, rfl⟩ := emitProgram_eq_some_iff.mp h
  simp

/-- The sections of a compiled pattern. -/
theorem compileAstToBytecodeC_sections {cfg : CompilerConfig} {ast : AstNode} {st : CompilerState}
    {bc : Bytes} (hst : emitProgram cfg ast = some st)
    (hbc : compileAstToBytecodeC cfg ast = some bc) :
    Sections bc (fuseSplitAny ⟨st.buf, st.classes⟩).bc (fuseSplitAny ⟨st.buf, st.classes⟩).classes
      st.labels := by
  have hmax : maxLabels = 32768 := rfl
  have hlabels := (emitProgram_labelled hst).1.few (Nat.zero_le _)
  exact ⟨compileAstToBytecodeC_bytes hst hbc, by omega⟩

/-- An emitted pattern is compiled, and its trailer read back, exactly where the unions of the
fusion pass fit their arrays and there are at most 65535 classes, as long as the blobs start
below 2^32; and where there is a class, the instructions must end below that. -/
theorem compileAstToBytecodeC_roundTrips (cfg : CompilerConfig) (ast : AstNode) (st : CompilerState)
    (hfold : cfg.fold.Fits) (hst : emitProgram cfg ast = some st) :
    let fused := fuseSplitAny ⟨st.buf, st.classes⟩
    ((∀ off ∈ classOffsets fused.bc.length fused.classes, off < 2 ^ 32) →
      ((∃ bc, compileOutcome cfg ast = .done bc ∧ RoundTrips bc fused.bc fused.classes) ↔
        unionsFitBelow st.buf.length ⟨st.buf, st.classes⟩ = true ∧
          fused.classes.length < 2 ^ 16)) ∧
      ∀ bc, compileOutcome cfg ast = .done bc → RoundTrips bc fused.bc fused.classes →
        fused.classes ≠ [] → fused.bc.length < 2 ^ 32 := by
  intro fused
  have hdone : ∀ bc, compileOutcome cfg ast = .done bc ↔ compileAstToBytecodeC cfg ast = some bc :=
    fun bc => CallResult.toOption_eq_some_iff.symm
  simp only [hdone]
  have hbody : fused.bc ≠ [] := fuseBelow_ne_nil (emitProgram_ne_nil hst)
  refine ⟨fun hshort => ⟨?_, ?_⟩, fun bc hbc hrt hsome => ?_⟩
  · rintro ⟨bc, hbc, hrt⟩
    obtain ⟨st', hst', hfit, -⟩ := compileAstToBytecodeC_eq_some_iff.mp hbc
    obtain rfl : st = st' := Option.some.inj (hst.symm.trans hst')
    exact ⟨hfit, (compileAstToBytecodeC_sections hst hbc).few_of_roundTrips hrt⟩
  · rintro ⟨hfit, hfew⟩
    have hbc := compileAstToBytecodeC_eq_some_iff.mpr ⟨st, hst, hfit, rfl⟩
    exact ⟨_, hbc, (compileAstToBytecodeC_sections hst hbc).roundTrips hbody
      (fusedClasses_fits hfold hst hfit) hfew hshort⟩
  · exact (compileAstToBytecodeC_sections hst hbc).short_of_roundTrips hrt hsome

/-- `SPAN('a-c') ANY('x')` -/
def spanAny : AstNode := .concat [.span [0x61, 0x2D, 0x63], .any [0x78]]

def spanAnyState : CompilerState where
  buf := [7, 0, 1, 5, 0, 2, 0]
  classes := [⟨[⟨0x61, 0x63⟩], false⟩, ⟨[⟨0x78, 0x78⟩], false⟩]
  nextLoopId := 0
  labels := []
  splits := []

/-- Both classes of `SPAN('a-c') ANY('x')` are read back. -/
theorem compileAstToBytecodeC_roundTrips_spanAny :
    emitProgram .caseSensitive spanAny = some spanAnyState ∧
      ∃ bc, compileOutcome .caseSensitive spanAny = .done bc ∧
        RoundTrips bc (fuseSplitAny ⟨spanAnyState.buf, spanAnyState.classes⟩).bc
          (fuseSplitAny ⟨spanAnyState.buf, spanAnyState.classes⟩).classes := by
  have hst : emitProgram .caseSensitive spanAny = some spanAnyState := by decide +kernel
  refine ⟨hst, ((compileAstToBytecodeC_roundTrips .caseSensitive spanAny spanAnyState
    CompilerConfig.caseSensitive_fits hst).1 ?_).mpr ?_⟩
  · decide +kernel
  · decide +kernel

/-! ## Too many classes -/

/-- A character of plane 1. -/
def planeChar (i : Nat) : Char := Char.ofNat (0x10000 + i)

/-- `ANY` of each of the first `n` characters of plane 1, one after the other. -/
def anyEach (n : Nat) : AstNode :=
  .concat ((List.range n).map fun i => .any (encode [planeChar i]))

theorem planeChar_toNat {i : Nat} (hi : i < 65536) : (planeChar i).toNat = 0x10000 + i := by
  have hvalid : (0x10000 + i).isValidChar := .inr ⟨by omega, by omega⟩
  rw [planeChar, Char.ofNat, dif_pos hvalid]
  rfl

/-- The ranges of a text of one character. -/
theorem setRanges_char (c : Char) :
    setRanges .caseSensitive (encode [c]) (encode [c]).length 0 = [⟨c.toNat, c.toNat⟩] := by
  have hsees := Sees.start [c]
  have hpos : 0 < c.utf8Size := c.utf8Size_pos
  have hrest : ∀ fuel, setRanges .caseSensitive (encode [c]) fuel (0 + c.utf8Size) = [] := by
    intro fuel
    cases fuel with
    | zero => rfl
    | succ fuel =>
      unfold setRanges
      rw [hsees.tail.peek_nil]
  have hlen : (encode [c]).length = (c.utf8Size - 1) + 1 := by
    rw [encode_cons, encode_nil, List.append_nil, String.length_utf8EncodeChar]
    omega
  rw [hlen]
  unfold setRanges
  rw [hsees.peek]
  dsimp only
  rw [hsees.tail.peek_nil]
  dsimp only
  rw [hrest]
  rfl

theorem charclassOf_char (c : Char) :
    charclassOf .caseSensitive (encode [c]) = ⟨[⟨c.toNat, c.toNat⟩], false⟩ := by
  rw [charclassOf, setRanges_char]
  rfl

theorem internClass_new {classes : List CcEntry} {e : CcEntry} (h : e ∉ classes) :
    internClass classes e = (classes ++ [e], classes.length + 1) := by
  have hnone : classes.findIdx? (· = e) = none := by
    rw [List.findIdx?_eq_none_iff]
    intro x hx
    simp only [decide_eq_false_iff_not]
    rintro rfl
    exact h hx
  rw [internClass, hnone]

/-- The ids that a list of texts gets, one after the other, and the classes. -/
def internTexts (cfg : CompilerConfig) : List CcEntry → List Bytes → List Nat × List CcEntry
  | classes, [] => ([], classes)
  | classes, t :: texts =>
      let (classes, id) := internClass classes (charclassOf cfg t)
      let (ids, classes) := internTexts cfg classes texts
      (id :: ids, classes)

/-- One `OP_ANY` after the other. -/
def anyCode (ids : List Nat) : Bytes := ids.flatMap fun id => [OpCode.any.code] ++ emitU16 id

/-- Each `ANY` of a text adds its class. -/
theorem emitPartsC_any (cfg : CompilerConfig) {texts : List Bytes}
    (htexts : ∀ t ∈ texts, t ≠ [] ∧ Collects cfg t) (st : CompilerState) :
    (emitPartsC cfg (texts.map .any)).run st = .done ((), { st with
      buf := st.buf ++ anyCode (internTexts cfg st.classes texts).1
      classes := (internTexts cfg st.classes texts).2 }) := by
  induction texts generalizing st with
  | nil =>
    rw [List.map_nil, emitPartsC, internTexts, anyCode, List.flatMap_nil, List.append_nil]
    rfl
  | cons t texts ih =>
    obtain ⟨ht, htexts⟩ := List.forall_mem_cons.mp htexts
    have hrun : (emitNodeC cfg (.any t)).run st = .done ((), { st with
        buf := st.buf ++ ([OpCode.any.code] ++
          emitU16 (internClass st.classes (charclassOf cfg t)).2),
        classes := (internClass st.classes (charclassOf cfg t)).1 }) := by
      unfold emitNodeC emitAnyC
      rw [if_neg (by simpa using ht.1)]
      simp [emitSetOp, if_pos (show _ ≤ _ from ht.2), CallResult.bind_eq_bind]
    rw [List.map_cons, emitPartsC, StateT.run_bind, hrun]
    refine (ih htexts _).trans ?_
    simp only [internTexts, anyCode, List.flatMap_cons, List.append_assoc]

theorem length_internTexts (cfg : CompilerConfig) (classes : List CcEntry) (texts : List Bytes) :
    (internTexts cfg classes texts).1.length = texts.length := by
  induction texts generalizing classes with
  | nil => rfl
  | cons t texts ih => rw [internTexts, List.length_cons, List.length_cons, ih]

theorem internTexts_append (cfg : CompilerConfig) (classes : List CcEntry)
    (texts texts' : List Bytes) : (internTexts cfg classes (texts ++ texts')).2 =
      (internTexts cfg (internTexts cfg classes texts).2 texts').2 := by
  induction texts generalizing classes with
  | nil => rfl
  | cons t texts ih =>
    simp only [List.cons_append, internTexts]
    exact ih _

/-! An `OP_SPLIT` byte among `OP_ANY` instructions is an operand, and the jump target behind it
has the next opcode as one of its two high bytes. -/

theorem length_anyCode (ids : List Nat) : (anyCode ids).length = 3 * ids.length := by
  induction ids with
  | nil => rfl
  | cons id ids ih =>
    rw [anyCode, List.flatMap_cons, List.length_append, ← anyCode, ih, List.length_cons]
    simp [emitU16]
    omega

theorem anyCode_get {ids : List Nat} {k : Nat} (hk : k < ids.length) (rest : Bytes) :
    (anyCode ids ++ rest)[3 * k]? = some OpCode.any.code := by
  induction ids generalizing k with
  | nil => cases hk
  | cons id ids ih =>
    cases k with
    | zero => rfl
    | succ k => exact ih (Nat.lt_of_succ_lt_succ hk)

theorem le_readU32 {bc : Bytes} {ip : Nat} {x : UInt8} (hlen : ip + 4 ≤ bc.length)
    (hx : bc[ip]? = some x ∨ bc[ip + 1]? = some x) : x.toNat * 2 ^ 16 ≤ (readU32 bc ip).1 := by
  have hget : ∀ n, bc[ip + n]? = (bc.drop ip)[n]? := fun n => List.getElem?_drop.symm
  have hdrop : 4 ≤ (bc.drop ip).length := by
    rw [List.length_drop]
    omega
  have hfirst := hget 0
  have hsecond := hget 1
  unfold readU32
  match h : bc.drop ip with
  | a :: b :: c :: d :: rest =>
    simp only [h, Nat.add_zero, List.getElem?_cons_zero, List.getElem?_cons_succ] at hfirst hsecond
    dsimp only [be32]
    obtain hx | hx := hx
    · obtain rfl := Option.some.inj (hfirst.symm.trans hx)
      omega
    · obtain rfl := Option.some.inj (hsecond.symm.trans hx)
      omega
  | [] | [a] | [a, b] | [a, b, c] =>
    rw [h] at hdrop
    simp at hdrop

theorem eligibleArms_any {ids : List Nat} (hids : ids.length ≤ 65536) (pos : Nat) :
    eligibleArms (anyCode ids ++ [OpCode.accept.code]) pos = none := by
  have hlen : (anyCode ids ++ [OpCode.accept.code]).length = 3 * ids.length + 1 := by
    rw [List.length_append, length_anyCode]
    rfl
  unfold eligibleArms
  by_cases hsplit : (anyCode ids ++ [OpCode.accept.code])[pos]? ≠ some OpCode.split.code ∨
      (anyCode ids ++ [OpCode.accept.code]).length < pos + 9
  · rw [if_pos hsplit]
    rfl
  · push Not at hsplit
    rw [hlen] at hsplit
    obtain ⟨hop, hshort⟩ := hsplit
    have hopcode : pos % 3 ≠ 0 := by
      intro hmod
      have hany := @anyCode_get ids (pos / 3) (by omega) [OpCode.accept.code]
      rw [show 3 * (pos / 3) = pos by omega, hop] at hany
      cases hany
    have htarget : 65536 * 5 ≤ (readU32 (anyCode ids ++ [OpCode.accept.code]) (pos + 1)).1 := by
      refine (show 65536 * 5 ≤ OpCode.any.code.toNat * 2 ^ 16 by decide).trans
        (le_readU32 (by omega) ?_)
      have hnext := @anyCode_get ids (pos / 3 + 1) (by omega) [OpCode.accept.code]
      obtain hmod | hmod : pos % 3 = 1 ∨ pos % 3 = 2 := by omega
      · exact .inr (by rwa [show pos + 1 + 1 = 3 * (pos / 3 + 1) by omega])
      · exact .inl (by rwa [show pos + 1 = 3 * (pos / 3 + 1) by omega])
    rw [if_neg (by rw [hlen, not_or, not_not]; exact ⟨hop, by omega⟩)]
    dsimp only
    rw [if_pos (.inr (.inr (.inl (by rw [hlen]; omega))))]
    rfl

/-- The classes of the first `n` characters differ. -/
theorem internTexts_planeChar {n : Nat} (hn : n ≤ 65536) :
    (internTexts .caseSensitive [] ((List.range n).map fun i => encode [planeChar i])).2 =
      (List.range n).map fun i => ⟨[⟨0x10000 + i, 0x10000 + i⟩], false⟩ := by
  induction n with
  | zero => rfl
  | succ n ih =>
    rw [List.range_succ, List.map_append, internTexts_append, ih (by omega), List.map_append]
    simp only [List.map_cons, List.map_nil, internTexts]
    rw [charclassOf_char, planeChar_toNat (by omega), internClass_new]
    simp

theorem emitProgram_anyEach {n : Nat} (hn : n ≤ 65536) :
    ∃ st ids, emitProgram .caseSensitive (anyEach n) = some st ∧ st.classes.length = n ∧
      st.buf = anyCode ids ++ [OpCode.accept.code] ∧ ids.length = n := by
  have htexts : ∀ t ∈ (List.range n).map fun i => encode [planeChar i],
      t ≠ [] ∧ Collects .caseSensitive t := by
    intro t ht
    obtain ⟨i, -, rfl⟩ := List.mem_map.mp ht
    refine ⟨by simp [String.utf8EncodeChar_ne_nil], ?_⟩
    rw [Collects, setRanges_char, List.length_singleton]
    omega
  have hrun := emitPartsC_any .caseSensitive htexts .init
  have hnode : (emitNodeC .caseSensitive (anyEach n)).run .init =
      (emitPartsC .caseSensitive (((List.range n).map fun i => encode [planeChar i]).map .any)).run
        .init := by
    rw [anyEach, emitNodeC, List.map_map]
    rfl
  refine ⟨_, _, emitProgram_eq_some_iff.mpr ⟨_, hnode.trans hrun, rfl, rfl⟩, ?_, rfl, ?_⟩
  · exact (congrArg List.length (internTexts_planeChar hn)).trans (by simp)
  · rw [length_internTexts, List.length_map, List.length_range]

/-- With 65536 classes there is no cache at all. -/
theorem compileAstToBytecodeC_loses_classes :
    ∃ st bc, emitProgram .caseSensitive (anyEach 65536) = some st ∧
      compileOutcome .caseSensitive (anyEach 65536) = .done bc ∧
      ¬RoundTrips bc (fuseSplitAny ⟨st.buf, st.classes⟩).bc
        (fuseSplitAny ⟨st.buf, st.classes⟩).classes := by
  obtain ⟨st, ids, hst, hlen, hbuf, hids⟩ := emitProgram_anyEach (n := 65536) le_rfl
  have hnone : ∀ pos, eligibleArms st.buf pos = none := by
    intro pos
    rw [hbuf]
    exact eligibleArms_any hids.le pos
  have hbc := compileAstToBytecodeC_unfused hst hnone
  refine ⟨st, _, hst, CallResult.toOption_eq_some_iff.mp hbc, fun hrt => ?_⟩
  have hfew := (compileAstToBytecodeC_sections hst hbc).few_of_roundTrips hrt
  rw [(@fuseSplitAny_of_none ⟨st.buf, st.classes⟩ hnone).1] at hfew
  dsimp only at hfew
  omega

end Snobol4
