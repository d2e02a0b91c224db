import Snobol4.Compiler

/-!
# Trailer — what stands behind the instructions (`compiler_codegen.c`, `vm_exec.c`)

The compiler appends the classes, their offsets and count and the label table to the
instructions.  `Sections` is such bytecode; its lemmas say what the reads from the end of
the bytecode find.
-/

namespace Snobol4

/-! ## Reading one class -/

/-- The bounds of the range fit 32 bits. -/
def CpRange.Fits (r : CpRange) : Prop := r.start < 2 ^ 32 ∧ r.stop < 2 ^ 32

/-- All bounds of the class fit 32 bits. -/
def CcEntry.Fits (e : CcEntry) : Prop := ∀ r ∈ e.ranges, r.Fits

/-- The packed ranges are read back. -/
theorem readRanges_of_drop {bc rest : Bytes} {ranges : List CpRange} {ip : Nat}
    (hfits : ∀ r ∈ ranges, r.Fits)
    (h : bc.drop ip = (ranges.flatMap fun r => emitU32 r.start ++ emitU32 r.stop) ++ rest) :
    readRanges bc ranges.length ip = ranges := by
  induction ranges generalizing ip with
  | nil => rfl
  | cons r ranges ih =>
    obtain ⟨⟨hstart, hstop⟩, hranges⟩ := List.forall_mem_cons.mp hfits
    simp only [List.flatMap_cons, List.append_assoc] at h
    have hfirst := readU32_of_drop h
    have hdrop : bc.drop (ip + 4) = emitU32 r.stop ++
        ((ranges.flatMap fun r => emitU32 r.start ++ emitU32 r.stop) ++ rest) := by
      rw [← List.drop_drop, h]
      rfl
    have hsecond := readU32_of_drop hdrop
    have hdrop' : bc.drop (ip + 4 + 4) =
        (ranges.flatMap fun r => emitU32 r.start ++ emitU32 r.stop) ++ rest := by
      rw [← List.drop_drop, hdrop]
      rfl
    rw [List.length_cons, readRanges]
    simp only [hfirst, hsecond, ih hranges hdrop', Nat.mod_eq_of_lt hstart, Nat.mod_eq_of_lt hstop]

/-- The class at the address of its blob: the 16-bit count tells how many ranges are read. -/
theorem readClass_of_drop {bc rest : Bytes} {e : CcEntry} {off : Nat}
    (h : bc.drop off = classBlob e ++ rest) :
    readU16 bc off = (e.ranges.length % 2 ^ 16, off + 2) ∧
      readU16 bc (off + 2) = (e.caseInsensitive.toNat, off + 4) ∧
      bc.drop (off + 4) =
        (e.ranges.flatMap fun r => emitU32 r.start ++ emitU32 r.stop) ++ rest := by
  simp only [classBlob, List.append_assoc] at h
  have hdrop : bc.drop (off + 2) = emitU16 e.caseInsensitive.toNat ++
      ((e.ranges.flatMap fun r => emitU32 r.start ++ emitU32 r.stop) ++ rest) := by
    rw [← List.drop_drop, h]
    rfl
  refine ⟨readU16_of_drop h, ?_, ?_⟩
  · rw [readU16_of_drop hdrop, Nat.mod_eq_of_lt]
    cases e.caseInsensitive <;> decide
  · rw [← List.drop_drop (i := 2), hdrop]
    rfl

/-! ## The layout of the trailer -/

theorem length_blobOffsets (base : Nat) (classes : List CcEntry) :
    (blobOffsets base classes).length = classes.length := by
  induction classes generalizing base with
  | nil => rfl
  | cons e es ih => rw [blobOffsets, List.length_cons, List.length_cons, ih]

/-- The blobs lie between the end of the body and the table of their offsets. -/
theorem mem_blobOffsets {base v : Nat} {classes : List CcEntry} (h : v ∈ blobOffsets base classes) :
    base ≤ v ∧ v ≤ base + (classes.flatMap classBlob).length := by
  induction classes generalizing base with
  | nil => cases h
  | cons e es ih =>
    rw [List.flatMap_cons, List.length_append]
    obtain rfl | h := List.mem_cons.mp h
    · omega
    · have hrest := ih h
      omega

/-- The blob of each class stands at its offset. -/
theorem blobOffsets_blob {classes : List CcEntry} {base off i : Nat} {e : CcEntry}
    (hoff : (blobOffsets base classes)[i]? = some off) (he : classes[i]? = some e) :
    ∃ pre post, classes.flatMap classBlob = pre ++ (classBlob e ++ post) ∧
      off = base + pre.length := by
  induction classes generalizing base i with
  | nil => cases he
  | cons e' es ih =>
    cases i with
    | zero =>
      cases he
      cases hoff
      exact ⟨[], es.flatMap classBlob, by simp, rfl⟩
    | succ i =>
      have hoff' : (blobOffsets (base + (classBlob e').length) es)[i]? = some off := hoff
      obtain ⟨pre, post, hsplit, rfl⟩ := ih hoff' he
      refine ⟨classBlob e' ++ pre, post, ?_, ?_⟩
      · rw [List.flatMap_cons, hsplit, List.append_assoc]
      · rw [List.length_append]
        omega

/-- The offsets in the order of the ids. -/
def classOffsets (base : Nat) (classes : List CcEntry) : List Nat :=
  (blobOffsets base classes.reverse).reverse

theorem length_classOffsets (base : Nat) (classes : List CcEntry) :
    (classOffsets base classes).length = classes.length := by
  rw [classOffsets, List.length_reverse, length_blobOffsets, List.length_reverse]

theorem mem_classOffsets {base off : Nat} {classes : List CcEntry} :
    off ∈ classOffsets base classes ↔ off ∈ blobOffsets base classes.reverse := List.mem_reverse

theorem classOffsets_blob {classes : List CcEntry} {base off i : Nat} {e : CcEntry}
    (hoff : (classOffsets base classes)[i]? = some off) (he : classes[i]? = some e) :
    ∃ pre post, classes.reverse.flatMap classBlob = pre ++ (classBlob e ++ post) ∧
      off = base + pre.length := by
  have hi := (List.getElem?_eq_some_iff.mp he).1
  have hlen : (blobOffsets base classes.reverse).length = classes.length := by
    rw [length_blobOffsets, List.length_reverse]
  rw [classOffsets, List.getElem?_reverse (by omega)] at hoff
  refine blobOffsets_blob (i := classes.length - 1 - i) (by rwa [hlen] at hoff) ?_
  rw [List.getElem?_reverse (by omega)]
  rwa [show classes.length - 1 - (classes.length - 1 - i) = i by omega]

/-- Compiled bytecode, its sections in order. -/
structure Sections (bc body : Bytes) (classes : List CcEntry) (labels : List LabelEntry) : Prop where
  bytes : bc = body ++ trailer body.length classes labels
  labels : labels.length < 2 ^ 32

namespace Sections

variable {bc body : Bytes} {classes : List CcEntry} {labels : List LabelEntry}

/-- Where the offset table starts. -/
def tableStart (body : Bytes) (classes : List CcEntry) : Nat :=
  body.length + (classes.reverse.flatMap classBlob).length

theorem length (h : Sections bc body classes labels) :
    bc.length = tableStart body classes + classes.length * 4 + 4 + labels.length * 4 + 8 := by
  rw [h.bytes]
  simp only [trailer, labelTable, List.length_append, length_flatMap_emitU32, length_emitU32,
    List.length_reverse, length_blobOffsets, tableStart]
  have hlabels : (labels.flatMap fun l => emitU32 (if l.defined then l.offset else 0)).length =
      labels.length * 4 := by
    have hmap := length_flatMap_emitU32 (labels.map fun l => if l.defined then l.offset else 0)
    rwa [List.flatMap_map, List.length_map] at hmap
  omega

theorem readMagic (h : Sections bc body classes labels) :
    (readU32 bc (bc.length - 4)).1 = labelTableMagic := by
  have hread := readU32_behind (body ++ (classes.reverse.flatMap classBlob ++
    ((classOffsets body.length classes).flatMap emitU32 ++ (emitU32 classes.length ++
      ((labels.flatMap fun l => emitU32 (if l.defined then l.offset else 0)) ++
        emitU32 labels.length))))) [] (v := labelTableMagic) (n := bc.length - 4) (by decide) (by
      rw [h.bytes]
      simp only [trailer, labelTable, classOffsets, List.length_append, length_emitU32]
      omega)
  simp only [List.append_assoc, List.append_nil] at hread
  rw [h.bytes] at hread ⊢
  simp only [trailer, labelTable, List.append_assoc]
  simp only [trailer, labelTable, List.append_assoc] at hread
  exact hread

theorem readLabelCount (h : Sections bc body classes labels) :
    (readU32 bc (bc.length - 8)).1 = labels.length := by
  have hread := readU32_behind (body ++ (classes.reverse.flatMap classBlob ++
    ((classOffsets body.length classes).flatMap emitU32 ++ (emitU32 classes.length ++
      (labels.flatMap fun l => emitU32 (if l.defined then l.offset else 0))))))
    (emitU32 labelTableMagic) (v := labels.length) (n := bc.length - 8) h.labels (by
      rw [h.bytes]
      simp only [trailer, labelTable, classOffsets, List.length_append, length_emitU32]
      omega)
  rw [h.bytes] at hread ⊢
  simp only [trailer, labelTable, List.append_assoc]
  simp only [trailer, labelTable, List.append_assoc] at hread
  exact hread

/-- The class count ends here. -/
theorem ccTail_eq (h : Sections bc body classes labels) :
    ccTail bc = some (tableStart body classes + classes.length * 4 + 4) := by
  have hlen := h.length
  unfold ccTail
  simp only [h.readMagic, h.readLabelCount, if_true]
  rw [if_neg (by omega), if_neg (by omega), if_neg (by omega)]
  congr 1
  omega

theorem readCount (h : Sections bc body classes labels) :
    (readU32 bc (tableStart body classes + classes.length * 4)).1 = classes.length % 2 ^ 32 := by
  have hread := readU32_append (body ++ (classes.reverse.flatMap classBlob ++
    (classOffsets body.length classes).flatMap emitU32)) (labelTable labels) (v := classes.length)
    (n := tableStart body classes + classes.length * 4) (by
      simp only [List.length_append, length_flatMap_emitU32, length_classOffsets, tableStart]
      omega)
  rw [h.bytes]
  simp only [trailer, List.append_assoc]
  simp only [List.append_assoc] at hread
  exact hread

theorem readOffset (h : Sections bc body classes labels) {i off : Nat}
    (hoff : (classOffsets body.length classes)[i]? = some off) :
    (readU32 bc (tableStart body classes + i * 4)).1 = off % 2 ^ 32 := by
  have hread := readU32_entry_mod (body ++ classes.reverse.flatMap classBlob)
    (emitU32 classes.length ++ labelTable labels) (n := tableStart body classes)
    (by rw [List.length_append]; rfl) hoff
  rw [h.bytes]
  simp only [trailer, List.append_assoc]
  simp only [List.append_assoc] at hread
  exact hread

/-- The blob of a class in the bytecode. -/
theorem drop_offset (h : Sections bc body classes labels) {i off : Nat} {e : CcEntry}
    (hoff : (classOffsets body.length classes)[i]? = some off) (he : classes[i]? = some e) :
    ∃ rest, bc.drop off = classBlob e ++ rest := by
  obtain ⟨pre, post, hsplit, rfl⟩ := classOffsets_blob hoff he
  refine ⟨post ++ ((classOffsets body.length classes).flatMap emitU32 ++
    (emitU32 classes.length ++ labelTable labels)), ?_⟩
  have hbc : bc = (body ++ pre) ++ (classBlob e ++ (post ++
      ((classOffsets body.length classes).flatMap emitU32 ++
        (emitU32 classes.length ++ labelTable labels)))) := by
    rw [h.bytes, trailer, hsplit]
    simp only [classOffsets, List.append_assoc]
  rw [hbc, ← List.length_append, List.drop_left]

/-- The class with the id `i + 1`, as the trailer is read. -/
theorem parse (h : Sections bc body classes labels) (hmany : classes.length < 2 ^ 32) {i off : Nat}
    {e : CcEntry} (hoff : (classOffsets body.length classes)[i]? = some off)
    (he : classes[i]? = some e) (hshort : off < 2 ^ 32) :
    parseRanges bc (i + 1) =
      some ⟨readRanges bc (e.ranges.length % 2 ^ 16) (off + 4), e.caseInsensitive.toNat⟩ := by
  have hi := (List.getElem?_eq_some_iff.mp he).1
  have hlen := h.length
  obtain ⟨rest, hdrop⟩ := h.drop_offset hoff he
  obtain ⟨hcount, hflag, -⟩ := readClass_of_drop hdrop
  have hbound : off < bc.length := by
    by_contra hge
    have hnil := congrArg List.length hdrop
    rw [List.drop_eq_nil_of_le (by omega), List.length_append, classBlob] at hnil
    simp at hnil
    omega
  unfold parseRanges
  rw [h.ccTail_eq]
  simp only [Option.bind_eq_bind, Option.bind_some, Nat.add_sub_cancel, h.readCount,
    Nat.mod_eq_of_lt hmany, h.readOffset hoff, Nat.mod_eq_of_lt hshort, hcount, hflag]
  rw [if_neg (by omega), if_neg (by omega), if_neg (by omega), if_neg (by omega), if_neg (by omega)]

end Sections

end Snobol4
