import Snobol4.Code
import Snobol4.StringFn

/-!
# TemplateFormat — the formats of a template (`vm_exec.c`)

`OP_EMIT_FORMAT` repeats the string functions inside the machine, byte by byte.
-/

namespace Snobol4

open Utf8

variable {W : Type}

/-! ## The handler -/

/-- A byte in upper case, `a` to `z` only. -/
def upperByte (b : UInt8) : UInt8 := if 0x61 ≤ b ∧ b ≤ 0x7A then b - 32 else b

/-- A byte in lower case, `A` to `Z` only. -/
def lowerByte (b : UInt8) : UInt8 := if 0x41 ≤ b ∧ b ≤ 0x5A then b + 32 else b

/-- `%zu` -/
def decimal (n : Nat) : Bytes := encode (Nat.toDigits 10 n)

/-- The text that `OP_EMIT_FORMAT` makes of a capture, by `SNBL_FMT_*`. -/
def formatText (format width : Nat) (fill : UInt8) (data : Bytes) : Bytes :=
  if format = 1 then data.map upperByte
  else if format = 2 then data.map lowerByte
  else if format = 3 then decimal data.length
  else if format = 4 then List.replicate (min width 1024 - data.length) fill ++ data
  else if format = 5 then data ++ List.replicate (min width 1024 - data.length) fill
  else data

/-- `OP_EMIT_FORMAT`: the address behind its operands and the state after the output.  A
missing capture still has its operands read. -/
def opEmitFormat (host : Host W) (bc s : Bytes) (ip : Nat) (regs : Regs) (g : Globals W) :
    Nat × Globals W :=
  let (r, ip) := readU8 bc ip
  let (format, ip) := readU8 bc ip
  let (width, ip) := if format = 4 ∨ format = 5 then readU16 bc ip else (0, ip)
  let (fill, ip) := if format = 4 ∨ format = 5 then readU8 bc ip else (0, ip)
  if r < maxCaps ∧ regs.capStart r ≤ regs.capEnd r ∧ regs.capEnd r ≤ s.length then
    (ip, emitText host
      (formatText format width (UInt8.ofNat fill) (slice s (regs.capStart r) (regs.capEnd r))) g)
  else (ip, g)

/-! ## The documented formats -/

/-- The formats of a template, with the width and the fill character of a padding. -/
inductive Format where
  | upper
  | lower
  | length
  | lpad (width : Nat) (fill : UInt8)
  | rpad (width : Nat) (fill : UInt8)
  deriving Repr, DecidableEq

namespace Format

/-- A width from 1 to the cap, and an ASCII fill. -/
def Documented : Format → Prop
  | lpad width fill | rpad width fill => 1 ≤ width ∧ width ≤ 1024 ∧ fill < 0x80
  | _ => True

/-- The bytes behind the opcode. -/
def operands (r : Nat) : Format → Bytes
  | upper => emitU8 r ++ emitU8 1
  | lower => emitU8 r ++ emitU8 2
  | length => emitU8 r ++ emitU8 3
  | lpad width fill => emitU8 r ++ emitU8 4 ++ emitU16 width ++ emitU8 fill.toNat
  | rpad width fill => emitU8 r ++ emitU8 5 ++ emitU16 width ++ emitU8 fill.toNat

/-- What the machine emits for a capture. -/
def text : Format → Bytes → Bytes
  | upper => formatText 1 0 0
  | lower => formatText 2 0 0
  | length => formatText 3 0 0
  | lpad width fill => formatText 4 width fill
  | rpad width fill => formatText 5 width fill

/-- What the string library makes of it. -/
def library (T : FoldTables) (s : Bytes) : Format → Option Bytes
  | upper => some (snobolUpper T s)
  | lower => some (snobolLower T s)
  | length => some (decimal (snobolSize s))
  | lpad width fill => snobolLpad s width fill.toUInt32
  | rpad width fill => snobolRpad s width fill.toUInt32

/-- Bytes and characters make no difference: to a case function no character outside ASCII
has another case, to a length every character is one byte, and to a padding there are
enough characters already or again every one is one byte. -/
def Agrees (T : FoldTables) (cs : List Char) : Format → Prop
  | upper => ∀ c ∈ cs, ¬c.val < 0x80 → snobolToUpperCp T c.val = [c.val]
  | lower => ∀ c ∈ cs, ¬c.val < 0x80 → snobolToLowerCp T c.val = c.val
  | length => AllAscii cs
  | lpad width _ | rpad width _ => width ≤ cs.length ∨ AllAscii cs

end Format

/-! ## Case -/

/-- A map that only sees single elements. -/
theorem map_eq_flatMap_iff {α β : Type} {f : α → List β} {g : α → β} (hf : ∀ a, f a ≠ [])
    (l : List α) : l.map g = l.flatMap f ↔ ∀ a ∈ l, f a = [g a] := by
  have hlen : ∀ l : List α, l.length ≤ (l.flatMap f).length := by
    intro l
    induction l with
    | nil => exact Nat.zero_le _
    | cons a l ih =>
      have hpos := List.length_pos_iff.mpr (hf a)
      rw [List.flatMap_cons, List.length_append, List.length_cons]
      omega
  induction l with
  | nil => simp
  | cons a l ih =>
    rw [List.map_cons, List.flatMap_cons, List.forall_mem_cons]
    cases hfa : f a with
    | nil => exact absurd hfa (hf a)
    | cons b tail =>
      rw [List.cons_append, List.cons.injEq]
      constructor
      · rintro ⟨rfl, htail⟩
        have hsame := congrArg List.length htail
        rw [List.length_map, List.length_append] at hsame
        obtain rfl : tail = [] := List.length_eq_zero_iff.mp (by have := hlen l; omega)
        exact ⟨rfl, ih.mp htail⟩
      · rintro ⟨hone, hall⟩
        simp only [List.cons.injEq] at hone
        obtain ⟨rfl, rfl⟩ := hone
        exact ⟨rfl, ih.mpr hall⟩

/-- A map of bytes that leaves all but ASCII bytes alone, against a map of characters. -/
theorem map_encode_iff {f : UInt8 → UInt8} {U : Char → List Char} (hU : ∀ c, U c ≠ [])
    (hother : ∀ b, ¬b < 0x80 → f b = b)
    (hascii : ∀ c, c.val < 0x80 → ∃ d, U c = [d] ∧
      (String.utf8EncodeChar c).map f = String.utf8EncodeChar d) (cs : List Char) :
    (encode cs).map f = encode (cs.flatMap U) ↔ ∀ c ∈ cs, ¬c.val < 0x80 → U c = [c] := by
  have hchar : ∀ c, ∃ d, (String.utf8EncodeChar c).map f = String.utf8EncodeChar d ∧
      (U c = [d] ↔ (¬c.val < 0x80 → U c = [c])) := by
    intro c
    by_cases hc : c.val < 0x80
    · obtain ⟨d, hd, hbytes⟩ := hascii c hc
      exact ⟨d, hbytes, fun _ h => absurd hc h, fun _ => hd⟩
    · refine ⟨c, ?_, fun h _ => h, fun h => h hc⟩
      calc (String.utf8EncodeChar c).map f = (String.utf8EncodeChar c).map id :=
            List.map_congr_left fun b hb => hother b ((utf8EncodeChar_other hc).1 b hb)
        _ = String.utf8EncodeChar c := List.map_id _
  choose g hbytes hiff using hchar
  have hmap : (encode cs).map f = encode (cs.map g) := by
    induction cs with
    | nil => rfl
    | cons c cs ih => rw [encode_cons, List.map_append, hbytes, ih, List.map_cons, encode_cons]
  rw [hmap, encode_injective.eq_iff, map_eq_flatMap_iff hU]
  exact forall₂_congr fun c _ => hiff c

/-! ### The tables -/

theorem bmpFind_valid {table : List (UInt32 × UInt32)} {cp : UInt32} (hcp : cp.isValidChar)
    (htable : ∀ p ∈ table, p.2.isValidChar) (fuel lo hi : Nat) :
    (bmpFind table cp fuel lo hi).isValidChar := by
  induction fuel generalizing lo hi with
  | zero => exact hcp
  | succ fuel ih =>
    unfold bmpFind
    split
    · simp only
      split
      · exact hcp
      · rename_i hget
        split
        · exact htable _ (List.mem_of_getElem? hget)
        split
        · exact ih _ _
        · exact ih _ _
    · exact hcp

/-- The Latin-1 tables, over all their indices. -/
private theorem latin1_maps : ∀ x : BitVec 8,
    (upperMap (UInt8.ofBitVec x).toUInt32).toNat < 0xD800 ∧
      (lowerMap (UInt8.ofBitVec x).toUInt32).toNat < 0xD800 := by
  decide +kernel

private theorem latin1_byte {cp : UInt32} (h : cp ≤ 0xFF) : cp.toUInt8.toUInt32 = cp := by
  rw [UInt32.le_iff_toNat_le] at h
  apply UInt32.toNat_inj.mp
  rw [UInt8.toNat_toUInt32, UInt32.toNat_toUInt8]
  exact Nat.mod_eq_of_lt (Nat.lt_succ_of_le h)

theorem upperMap_valid {cp : UInt32} (h : cp ≤ 0xFF) : (upperMap cp).isValidChar := by
  have hmap := (latin1_maps cp.toUInt8.toBitVec).1
  rw [UInt8.ofBitVec_toBitVec, latin1_byte h] at hmap
  exact .inl hmap

theorem lowerMap_valid {cp : UInt32} (h : cp ≤ 0xFF) : (lowerMap cp).isValidChar := by
  have hmap := (latin1_maps cp.toUInt8.toBitVec).2
  rw [UInt8.ofBitVec_toBitVec, latin1_byte h] at hmap
  exact .inl hmap

/-- An ASCII byte in the other case is the same for bytes and characters. -/
private theorem ascii_maps : ∀ x : BitVec 8, UInt8.ofBitVec x < 0x80 →
    (upperByte (.ofBitVec x) < 0x80 ∧
      (upperByte (.ofBitVec x)).toUInt32 =
        if 0x61 ≤ (UInt8.ofBitVec x).toUInt32 ∧ (UInt8.ofBitVec x).toUInt32 ≤ 0x7A then
          (UInt8.ofBitVec x).toUInt32 - 32
        else (UInt8.ofBitVec x).toUInt32) ∧
    lowerByte (.ofBitVec x) < 0x80 ∧
      (lowerByte (.ofBitVec x)).toUInt32 =
        if 0x41 ≤ (UInt8.ofBitVec x).toUInt32 ∧ (UInt8.ofBitVec x).toUInt32 ≤ 0x5A then
          (UInt8.ofBitVec x).toUInt32 + 32
        else (UInt8.ofBitVec x).toUInt32 := by
  decide +kernel

private theorem ascii_byte {c : Char} (h : c.val < 0x80) : c.val.toUInt8.toUInt32 = c.val := by
  refine latin1_byte ?_
  rw [UInt32.lt_iff_toNat_lt] at h
  rw [UInt32.le_iff_toNat_le]
  exact Nat.le_trans (Nat.le_of_lt h) (by decide)

/-- The character of an ASCII byte. -/
private theorem ascii_char {b : UInt8} (h : b < 0x80) :
    ∃ d : Char, d.val = b.toUInt32 ∧ String.utf8EncodeChar d = [b] := by
  have hval : b.toUInt32 < 0x80 := by
    rw [UInt32.lt_iff_toNat_lt, UInt8.toNat_toUInt32]
    rw [UInt8.lt_iff_toNat_lt] at h
    exact h
  have hvalid : b.toUInt32.isValidChar := by
    rw [UInt32.lt_iff_toNat_lt] at hval
    exact .inl (Nat.lt_trans hval (by decide))
  refine ⟨⟨b.toUInt32, hvalid⟩, rfl, ?_⟩
  rw [(utf8EncodeChar_ascii (c := ⟨b.toUInt32, hvalid⟩) hval).1]
  simp

theorem upperByte_other {b : UInt8} (h : ¬b < 0x80) : upperByte b = b := by
  refine if_neg fun hlower => h ?_
  rw [UInt8.le_iff_toNat_le, UInt8.le_iff_toNat_le] at hlower
  rw [UInt8.lt_iff_toNat_lt]
  exact Nat.lt_of_le_of_lt hlower.2 (by decide)

theorem lowerByte_other {b : UInt8} (h : ¬b < 0x80) : lowerByte b = b := by
  refine if_neg fun hupper => h ?_
  rw [UInt8.le_iff_toNat_le, UInt8.le_iff_toNat_le] at hupper
  rw [UInt8.lt_iff_toNat_lt]
  exact Nat.lt_of_le_of_lt hupper.2 (by decide)

theorem snobolToUpperCp_valid (T : FoldTables) (c : Char) :
    snobolToUpperCp T c.val ≠ [] ∧ ∀ cp ∈ snobolToUpperCp T c.val, cp.isValidChar := by
  unfold snobolToUpperCp
  split
  · rename_i hascii
    obtain ⟨⟨hbyte, hmap⟩, -⟩ := ascii_maps c.val.toUInt8.toBitVec (utf8EncodeChar_ascii hascii).2
    rw [UInt8.ofBitVec_toBitVec] at hbyte hmap
    rw [ascii_byte hascii] at hmap
    obtain ⟨d, hd, -⟩ := ascii_char hbyte
    rw [← hmap, ← hd]
    simpa using d.valid
  split
  · rename_i hfind
    exact T.expansion_valid _ (List.mem_of_find?_eq_some hfind)
  split
  · simpa using upperMap_valid ‹_›
  · simpa using bmpFind_valid c.valid T.upper_valid _ _ _

theorem snobolToLowerCp_valid (T : FoldTables) (c : Char) :
    (snobolToLowerCp T c.val).isValidChar := by
  unfold snobolToLowerCp
  split
  · rename_i hascii
    obtain ⟨-, hbyte, hmap⟩ := ascii_maps c.val.toUInt8.toBitVec (utf8EncodeChar_ascii hascii).2
    rw [UInt8.ofBitVec_toBitVec] at hbyte hmap
    rw [ascii_byte hascii] at hmap
    obtain ⟨d, hd, -⟩ := ascii_char hbyte
    rw [← hmap, ← hd]
    exact d.valid
  split
  · exact lowerMap_valid ‹_›
  · exact bmpFind_valid c.valid T.lower_valid _ _ _

/-! ### The case functions -/

theorem exists_chars {cps : List UInt32} (h : ∀ cp ∈ cps, cp.isValidChar) :
    ∃ us : List Char, us.map Char.val = cps := by
  induction cps with
  | nil => exact ⟨[], rfl⟩
  | cons cp cps ih =>
    obtain ⟨us, hus⟩ := ih fun x hx => h x (List.mem_cons_of_mem cp hx)
    exact ⟨⟨cp, h cp List.mem_cons_self⟩ :: us, by rw [List.map_cons, hus]⟩

theorem flatMap_encodeUtf8 (us : List Char) : (us.map Char.val).flatMap encodeUtf8 = encode us := by
  induction us with
  | nil => rfl
  | cons u us ih => rw [List.map_cons, List.flatMap_cons, ih, encodeUtf8_char, encode_cons]

/-- A byte map that agrees with a case function on ASCII agrees with it on a text when no
other character of the text changes. -/
theorem map_eq_mapCps_iff {f : UInt8 → UInt8} {F : UInt32 → List UInt32}
    (hvalid : ∀ c : Char, F c.val ≠ [] ∧ ∀ cp ∈ F c.val, cp.isValidChar)
    (hother : ∀ b, ¬b < 0x80 → f b = b)
    (hascii : ∀ c : Char, c.val < 0x80 →
      f c.val.toUInt8 < 0x80 ∧ F c.val = [(f c.val.toUInt8).toUInt32]) (cs : List Char) :
    mapCps (fun cp => (F cp).flatMap encodeUtf8) (encode cs) (encode cs).length 0 =
      (encode cs).map f ↔ ∀ c ∈ cs, ¬c.val < 0x80 → F c.val = [c.val] := by
  choose U hU using fun c => exists_chars (hvalid c).2
  have hval : Function.Injective Char.val := fun _ _ => Char.ext
  have hone : ∀ c d, U c = [d] ↔ F c.val = [d.val] := by
    intro c d
    rw [← hU c, ← (List.map_injective_iff.mpr hval).eq_iff, List.map_singleton]
  have hmap : mapCps (fun cp => (F cp).flatMap encodeUtf8) (encode cs) (encode cs).length 0 =
      encode (cs.flatMap U) := by
    rw [mapCps_eq _ (.start cs) (length_encode cs).1, encode, List.flatMap_assoc]
    refine List.flatMap_congr fun c _ => ?_
    rw [← hU c]
    exact flatMap_encodeUtf8 (U c)
  have hne : ∀ c, U c ≠ [] := by
    intro c hnil
    refine (hvalid c).1 ?_
    rw [← hU c, hnil, List.map_nil]
  rw [hmap, eq_comm, map_encode_iff hne hother]
  · exact forall₂_congr fun c _ => imp_congr_right fun _ => hone c c
  · intro c hc
    obtain ⟨hbyte, hF⟩ := hascii c hc
    obtain ⟨d, hd, henc⟩ := ascii_char hbyte
    refine ⟨d, (hone c d).mpr (by rw [hF, hd]), ?_⟩
    rw [(utf8EncodeChar_ascii hc).1, henc, List.map_singleton]

theorem snobolUpper_eq_iff (T : FoldTables) (cs : List Char) :
    snobolUpper T (encode cs) = (encode cs).map upperByte ↔
      ∀ c ∈ cs, ¬c.val < 0x80 → snobolToUpperCp T c.val = [c.val] := by
  refine map_eq_mapCps_iff (snobolToUpperCp_valid T) (fun _ => upperByte_other) ?_ cs
  intro c hc
  obtain ⟨⟨hbyte, hmap⟩, -⟩ := ascii_maps c.val.toUInt8.toBitVec (utf8EncodeChar_ascii hc).2
  rw [UInt8.ofBitVec_toBitVec] at hbyte hmap
  rw [ascii_byte hc] at hmap
  exact ⟨hbyte, by rw [hmap, snobolToUpperCp, if_pos hc]⟩

theorem snobolLower_eq_iff (T : FoldTables) (cs : List Char) :
    snobolLower T (encode cs) = (encode cs).map lowerByte ↔
      ∀ c ∈ cs, ¬c.val < 0x80 → snobolToLowerCp T c.val = c.val := by
  have hlist : snobolLower T (encode cs) =
      mapCps (fun cp => [snobolToLowerCp T cp].flatMap encodeUtf8) (encode cs)
        (encode cs).length 0 := by
    simp only [List.flatMap_cons, List.flatMap_nil, List.append_nil]
    rfl
  rw [hlist, map_eq_mapCps_iff (F := fun cp => [snobolToLowerCp T cp]) ?_
    (fun _ => lowerByte_other) ?_ cs]
  · simp
  · intro c
    simpa using snobolToLowerCp_valid T c
  · intro c hc
    obtain ⟨-, hbyte, hmap⟩ := ascii_maps c.val.toUInt8.toBitVec (utf8EncodeChar_ascii hc).2
    rw [UInt8.ofBitVec_toBitVec] at hbyte hmap
    rw [ascii_byte hc] at hmap
    exact ⟨hbyte, by rw [hmap, snobolToLowerCp, if_pos hc]⟩

/-! ## Length and padding -/

theorem decimal_injective : Function.Injective decimal := by
  intro m n h
  have hdigits := encode_injective h
  rw [← Nat.ofDigitChars_toDigits (n := m) (b := 10) (by decide) (by decide), hdigits,
    Nat.ofDigitChars_toDigits (by decide) (by decide)]

theorem encodeUtf8_ascii {b : UInt8} (h : b < 0x80) : encodeUtf8 b.toUInt32 = [b] := by
  obtain ⟨d, hd, henc⟩ := ascii_char h
  rw [← hd, encodeUtf8_char, henc]

theorem padding_encode (cs : List Char) (width : Nat) {fill : UInt8} (h : fill < 0x80) :
    padding (encode cs) width fill.toUInt32 = some (List.replicate (width - cs.length) fill) := by
  rw [padding, encodeUtf8_ascii h, if_neg (List.cons_ne_nil _ _), snobolSize_encode,
    List.flatten_replicate_singleton]

/-- Padding by bytes and by characters adds the same number. -/
theorem pad_count_iff (cs : List Char) {width : Nat} (h : ¬width ≤ cs.length) :
    width - cs.length = width - (encode cs).length ↔ AllAscii cs := by
  obtain ⟨hle, hiff⟩ := length_encode cs
  rw [← hiff]
  omega

/-! ## The formats -/

namespace Format

/-- The machine and the library agree. -/
theorem library_eq_text_iff (T : FoldTables) (f : Format) (hf : f.Documented) (cs : List Char) :
    f.library T (encode cs) = some (f.text (encode cs)) ↔ f.Agrees T cs := by
  have hle := (length_encode cs).1
  cases f with
  | upper => exact Option.some_inj.trans (snobolUpper_eq_iff T cs)
  | lower => exact Option.some_inj.trans (snobolLower_eq_iff T cs)
  | length =>
    simp only [library, text, formatText, Agrees, Option.some_inj]
    rw [snobolSize_encode, ← (length_encode cs).2]
    exact decimal_injective.eq_iff.trans eq_comm
  | lpad width fill =>
    obtain ⟨-, hcap, hfill⟩ := hf
    have htext : text (lpad width fill) (encode cs) =
        List.replicate (width - (encode cs).length) fill ++ encode cs := by
      simp [text, formatText, Nat.min_eq_left hcap]
    rw [htext, library, snobolLpad, snobolSize_encode]
    by_cases hwidth : width ≤ cs.length
    · rw [if_pos hwidth, Nat.sub_eq_zero_of_le (Nat.le_trans hwidth hle)]
      exact iff_of_true rfl (.inl hwidth)
    · rw [if_neg hwidth, padding_encode cs width hfill, Option.map_some, Option.some_inj,
        List.append_cancel_right_eq, List.replicate_left_inj, pad_count_iff cs hwidth]
      exact (or_iff_right hwidth).symm
  | rpad width fill =>
    obtain ⟨-, hcap, hfill⟩ := hf
    have htext : text (rpad width fill) (encode cs) =
        encode cs ++ List.replicate (width - (encode cs).length) fill := by
      simp [text, formatText, Nat.min_eq_left hcap]
    rw [htext, library, snobolRpad, snobolSize_encode]
    by_cases hwidth : width ≤ cs.length
    · rw [if_pos hwidth, Nat.sub_eq_zero_of_le (Nat.le_trans hwidth hle), List.replicate_zero,
        List.append_nil]
      exact iff_of_true rfl (.inl hwidth)
    · rw [if_neg hwidth, padding_encode cs width hfill, Option.map_some, Option.some_inj,
        List.append_cancel_left_eq, List.replicate_left_inj, pad_count_iff cs hwidth]
      exact (or_iff_right hwidth).symm

end Format

section

variable {host : Host W} {bc s : Bytes} {ip r : Nat} {regs : Regs} {g : Globals W}

/-- A format that is not padding reads no operands of its own. -/
theorem opEmitFormat_plain {n : Nat} (hn : n < 4) (hcode : emitU8 r ++ emitU8 n <+: bc.drop ip)
    (hr : r < maxCaps) (horder : regs.capStart r ≤ regs.capEnd r)
    (hle : regs.capEnd r ≤ s.length) :
    opEmitFormat host bc s ip regs g = (ip + 2,
      emitText host (formatText n 0 0 (slice s (regs.capStart r) (regs.capEnd r))) g) := by
  have hreg := readU8_of_initial (prefix_left hcode) (Nat.lt_trans hr (by decide))
  have hformat := readU8_of_initial (prefix_right hcode rfl) (Nat.lt_trans hn (by decide))
  have hpad : ¬(n = 4 ∨ n = 5) := by omega
  simp only [length_emitU8] at hformat
  simp only [opEmitFormat, hreg, hformat, if_neg hpad, if_pos (And.intro hr (And.intro horder hle))]
  rfl

/-- A padding reads its width and its fill. -/
theorem opEmitFormat_pad {n width : Nat} {fill : UInt8} (hn : n = 4 ∨ n = 5)
    (hwidth : width ≤ 1024)
    (hcode : emitU8 r ++ emitU8 n ++ emitU16 width ++ emitU8 fill.toNat <+: bc.drop ip)
    (hr : r < maxCaps) (horder : regs.capStart r ≤ regs.capEnd r)
    (hle : regs.capEnd r ≤ s.length) :
    opEmitFormat host bc s ip regs g = (ip + 5,
      emitText host (formatText n width fill (slice s (regs.capStart r) (regs.capEnd r))) g) := by
  have hfill := readU8_of_initial (prefix_right hcode rfl) fill.toNat_lt
  have hwidth := readU16_of_initial (prefix_right (prefix_left hcode) rfl)
    (Nat.lt_of_le_of_lt hwidth (by decide))
  have hhead := prefix_left (prefix_left hcode)
  have hformat := readU8_of_initial (prefix_right hhead rfl) (show n < 2 ^ 8 by omega)
  have hreg := readU8_of_initial (prefix_left hhead) (Nat.lt_trans hr (by decide))
  simp only [List.length_append, length_emitU8, length_emitU16] at hformat hwidth hfill
  simp only [opEmitFormat, hreg, hformat, if_pos hn, hwidth, hfill,
    if_pos (And.intro hr (And.intro horder hle)), UInt8.ofNat_toNat]

/-- The machine emits the text of the format and goes on behind the operands. -/
theorem opEmitFormat_text {f : Format} (hf : f.Documented)
    (hcode : f.operands r <+: bc.drop ip) (hr : r < maxCaps)
    (horder : regs.capStart r ≤ regs.capEnd r) (hle : regs.capEnd r ≤ s.length) :
    opEmitFormat host bc s ip regs g = (ip + (f.operands r).length,
      emitText host (f.text (slice s (regs.capStart r) (regs.capEnd r))) g) := by
  cases f with
  | upper => exact opEmitFormat_plain (by decide) hcode hr horder hle
  | lower => exact opEmitFormat_plain (by decide) hcode hr horder hle
  | length => exact opEmitFormat_plain (by decide) hcode hr horder hle
  | lpad width fill => exact opEmitFormat_pad (.inl rfl) hf.2.1 hcode hr horder hle
  | rpad width fill => exact opEmitFormat_pad (.inr rfl) hf.2.1 hcode hr horder hle

end

/-- For a capture that holds the characters `cs`, the machine emits what the library makes
of it exactly when bytes and characters make no difference. -/
theorem opEmitFormat_library_iff (T : FoldTables) (f : Format) (hf : f.Documented)
    {host : Host W} {bc s : Bytes} {ip r : Nat} {regs : Regs} {g : Globals W}
    (hcode : f.operands r <+: bc.drop ip) (hr : r < maxCaps)
    (horder : regs.capStart r ≤ regs.capEnd r) (hle : regs.capEnd r ≤ s.length) (cs : List Char)
    (htext : slice s (regs.capStart r) (regs.capEnd r) = encode cs) :
    opEmitFormat host bc s ip regs g =
        (ip + (f.operands r).length, emitText host (f.text (encode cs)) g) ∧
      (f.library T (encode cs) = some (f.text (encode cs)) ↔ f.Agrees T cs) := by
  refine ⟨?_, f.library_eq_text_iff T hf cs⟩
  rw [← htext]
  exact opEmitFormat_text hf hcode hr horder hle

/-- A few rows of the generated tables. -/
def FoldTables.excerpt : FoldTables where
  bmpUpperToLower := [(0x100, 0x101), (0x102, 0x103)]
  bmpLowerToUpper := [(0x101, 0x100), (0x103, 0x102)]
  multiCharExpansions := [(0xDF, [0x53, 0x53])]
  lower_valid := by
    rw [List.forall_mem_cons, List.forall_mem_singleton]
    exact ⟨.inl (by decide), .inl (by decide)⟩
  upper_valid := by
    rw [List.forall_mem_cons, List.forall_mem_singleton]
    exact ⟨.inl (by decide), .inl (by decide)⟩
  expansion_valid := by
    rw [List.forall_mem_singleton, List.forall_mem_cons, List.forall_mem_singleton]
    exact ⟨by decide, .inl (by decide), .inl (by decide)⟩

/-- Registers whose first capture is `[0, stop)`. -/
def captured (stop : Nat) : Regs :=
  { (Vm.zero (W := Unit) ⟨[], ()⟩).regs with capEnd := fun _ => stop }

/-- `${v0.rpad(3, '*')}` of "a→b". -/
theorem opEmitFormat_library_iff_arrow :
    opEmitFormat (.bare : Host Unit) [0, 5, 0, 3, 42] [0x61, 0xE2, 0x86, 0x92, 0x62] 0 (captured 5)
        ⟨[], ()⟩ = (5, ⟨[0x61, 0xE2, 0x86, 0x92, 0x62], ()⟩) ∧
      snobolRpad [0x61, 0xE2, 0x86, 0x92, 0x62] 3 42 =
        some [0x61, 0xE2, 0x86, 0x92, 0x62] := by
  have hboth : opEmitFormat (.bare : Host Unit) [0, 5, 0, 3, 42] [0x61, 0xE2, 0x86, 0x92, 0x62] 0
      (captured 5) ⟨[], ()⟩ =
        (5, emitText .bare ((Format.rpad 3 42).text (encode ['a', '→', 'b'])) ⟨[], ()⟩) ∧
      ((Format.rpad 3 42).library .excerpt (encode ['a', '→', 'b']) =
          some ((Format.rpad 3 42).text (encode ['a', '→', 'b'])) ↔
        (Format.rpad 3 42).Agrees .excerpt ['a', '→', 'b']) :=
    opEmitFormat_library_iff .excerpt (.rpad 3 42) ⟨by decide, by decide, by decide⟩
      ⟨[], by decide⟩ (r := 0) (by decide) (by decide) (by decide) ['a', '→', 'b']
      (by decide +kernel)
  obtain ⟨hemit, hiff⟩ := hboth
  have hlibrary := hiff.mpr (.inl (by decide))
  have htext : (Format.rpad 3 42).text (encode ['a', '→', 'b']) =
      [0x61, 0xE2, 0x86, 0x92, 0x62] := by decide +kernel
  have hbytes : encode ['a', '→', 'b'] = [0x61, 0xE2, 0x86, 0x92, 0x62] := by decide +kernel
  rw [htext] at hemit hlibrary
  rw [hbytes] at hlibrary
  exact ⟨hemit, hlibrary⟩

/-- Of "é" the machine makes "é" in upper case and 2 for the length, the library "É" and 1. -/
theorem opEmitFormat_counts_bytes :
    WellFormed [0xC3, 0xA9] ∧
      (opEmitFormat (.bare : Host Unit) [0, 1] [0xC3, 0xA9] 0 (captured 2) ⟨[], ()⟩).2.out =
        [0xC3, 0xA9] ∧
      snobolUpper .excerpt [0xC3, 0xA9] = [0xC3, 0x89] ∧
      (opEmitFormat (.bare : Host Unit) [0, 3] [0xC3, 0xA9] 0 (captured 2) ⟨[], ()⟩).2.out =
        [0x32] ∧
      decimal (snobolSize [0xC3, 0xA9]) = [0x31] := by
  refine ⟨⟨['é'], by decide +kernel⟩, ?_, ?_, ?_, ?_⟩
  · decide +kernel
  · decide +kernel
  · decide +kernel
  · decide +kernel

end Snobol4
