import Snobol4.Codepoints

/-!
# StringFn — the string functions (`string_fn.c`, `unicode_fold.c`)

On the bytes of a text every function is what it says about the characters: `SIZE` counts
them, the case functions map them one by one, and padding adds whole ones.
-/

namespace Snobol4

open Utf8

/-! ## Case folding -/

/-- The generated tables of `unicode_fold_data.c`.  What they map to are characters, and an
expansion has at least one. -/
structure FoldTables where
  bmpUpperToLower : List (UInt32 × UInt32)
  bmpLowerToUpper : List (UInt32 × UInt32)
  multiCharExpansions : List (UInt32 × List UInt32)
  lower_valid : ∀ p ∈ bmpUpperToLower, p.2.isValidChar
  upper_valid : ∀ p ∈ bmpLowerToUpper, p.2.isValidChar
  expansion_valid : ∀ e ∈ multiCharExpansions, e.2 ≠ [] ∧ ∀ cp ∈ e.2, cp.isValidChar

/-- The binary search of `bmp_find_upper` and `bmp_find_lower` in `[lo, hi)`; every turn
makes the interval shorter, so its length is enough fuel. -/
def bmpFind (table : List (UInt32 × UInt32)) (cp : UInt32) : Nat → Nat → Nat → UInt32
  | 0, _, _ => cp
  | fuel + 1, lo, hi =>
      if lo < hi then
        let mid := lo + (hi - lo) / 2
        match table[mid]? with
        | none => cp
        | some (key, value) =>
            if key = cp then value
            else if key < cp then bmpFind table cp fuel (mid + 1) hi
            else bmpFind table cp fuel lo mid
      else cp

/-- `UPPER_MAP` -/
def upperMap (cp : UInt32) : UInt32 :=
  if (0x61 ≤ cp ∧ cp ≤ 0x7A) ∨ (0xE0 ≤ cp ∧ cp ≤ 0xFE ∧ cp ≠ 0xF7) then cp - 32
  else if cp = 0xFF then 0x178
  else cp

/-- `LOWER_MAP` -/
def lowerMap (cp : UInt32) : UInt32 :=
  if (0x41 ≤ cp ∧ cp ≤ 0x5A) ∨ (0xC0 ≤ cp ∧ cp ≤ 0xDE ∧ cp ≠ 0xD7) then cp + 32 else cp

/-- `snobol_to_upper_cp` -/
def snobolToUpperCp (T : FoldTables) (cp : UInt32) : List UInt32 :=
  if cp < 0x80 then [if 0x61 ≤ cp ∧ cp ≤ 0x7A then cp - 32 else cp]
  else
    match T.multiCharExpansions.find? (·.1 == cp) with
    | some (_, upper) => upper
    | none =>
        if cp ≤ 0xFF then [upperMap cp]
        else [bmpFind T.bmpLowerToUpper cp T.bmpLowerToUpper.length 0 T.bmpLowerToUpper.length]

/-- `snobol_to_lower_cp` -/
def snobolToLowerCp (T : FoldTables) (cp : UInt32) : UInt32 :=
  if cp < 0x80 then if 0x41 ≤ cp ∧ cp ≤ 0x5A then cp + 32 else cp
  else if cp ≤ 0xFF then lowerMap cp
  else bmpFind T.bmpUpperToLower cp T.bmpUpperToLower.length 0 T.bmpUpperToLower.length

/-! ## The functions -/

/-- The byte of `encode_utf8` behind the lead byte, for the low six bits of `v`. -/
def tailByte (v : UInt32) : UInt8 := ((0x80 : UInt32) ||| (v &&& 0x3F)).toUInt8

/-- `encode_utf8`: no bytes for what is not a character. -/
def encodeUtf8 (cp : UInt32) : Bytes :=
  if 0x10FFFF < cp then []
  else if 0xD800 ≤ cp ∧ cp ≤ 0xDFFF then []
  else if cp < 0x80 then [cp.toUInt8]
  else if cp < 0x800 then [((0xC0 : UInt32) ||| (cp >>> 6)).toUInt8, tailByte cp]
  else if cp < 0x10000 then
    [((0xE0 : UInt32) ||| (cp >>> 12)).toUInt8, tailByte (cp >>> 6), tailByte cp]
  else
    [((0xF0 : UInt32) ||| (cp >>> 18)).toUInt8, tailByte (cp >>> 12), tailByte (cp >>> 6),
      tailByte cp]

/-- `str_is_ascii` -/
def strIsAscii (s : Bytes) : Bool := s.all (· < 0x80)

/-- `utf8_cp_len` -/
def utf8CpLen (s : Bytes) (pos : Nat) : Nat :=
  match s[pos]? with
  | none => 0
  | some c =>
      if c < 0x80 then 1
      else if c &&& 0xE0 = 0xC0 then if pos + 1 < s.length then 2 else 0
      else if c &&& 0xF0 = 0xE0 then if pos + 2 < s.length then 3 else 0
      else if c &&& 0xF8 = 0xF0 then if pos + 3 < s.length then 4 else 0
      else 1

/-- The counting loop of `snobol_size` from `pos` on; every turn takes at least one of the
`fuel` bytes. -/
def sizeLoop (s : Bytes) : Nat → Nat → Nat
  | 0, _ => 0
  | fuel + 1, pos =>
      if pos < s.length then
        sizeLoop s fuel (pos + if utf8CpLen s pos = 0 then 1 else utf8CpLen s pos) + 1
      else 0

/-- `snobol_size` -/
def snobolSize (s : Bytes) : Nat :=
  if strIsAscii s then s.length else sizeLoop s s.length 0

/-- The loop of `snobol_upper` and `snobol_lower` from `pos` on; a byte that starts no
codepoint stays. -/
def mapCps (text : UInt32 → Bytes) (s : Bytes) : Nat → Nat → Bytes
  | 0, _ => []
  | fuel + 1, pos =>
      if pos < s.length then
        match utf8PeekNext s pos with
        | none => (s.drop pos).take 1 ++ mapCps text s fuel (pos + 1)
        | some (cp, bytes) => text cp ++ mapCps text s fuel (pos + bytes)
      else []

/-- `snobol_upper` -/
def snobolUpper (T : FoldTables) (s : Bytes) : Bytes :=
  mapCps (fun cp => (snobolToUpperCp T cp).flatMap encodeUtf8) s s.length 0

/-- `snobol_lower` -/
def snobolLower (T : FoldTables) (s : Bytes) : Bytes :=
  mapCps (fun cp => encodeUtf8 (snobolToLowerCp T cp)) s s.length 0

/-- The padding of `snobol_lpad` and `snobol_rpad`, when there is a character to pad with. -/
def padding (s : Bytes) (width : Nat) (padCp : UInt32) : Option Bytes :=
  if encodeUtf8 padCp = [] then none
  else some (List.replicate (width - snobolSize s) (encodeUtf8 padCp)).flatten

/-- `snobol_lpad` -/
def snobolLpad (s : Bytes) (width : Nat) (padCp : UInt32) : Option Bytes :=
  if width ≤ snobolSize s then some s else (padding s width padCp).map (· ++ s)

/-- `snobol_rpad` -/
def snobolRpad (s : Bytes) (width : Nat) (padCp : UInt32) : Option Bytes :=
  if width ≤ snobolSize s then some s else (padding s width padCp).map (s ++ ·)

/-! ## On characters -/

/-- What the lead bytes and the other bytes are masked to. -/
private theorem lead_masks : ∀ x : BitVec 8,
    (UInt8.ofBitVec x < 0x20 →
      0xC0 ||| UInt8.ofBitVec x = UInt8.ofBitVec x &&& 0x1F ||| 0xC0) ∧
      (UInt8.ofBitVec x < 0x10 →
        0xE0 ||| UInt8.ofBitVec x = UInt8.ofBitVec x &&& 0x0F ||| 0xE0) ∧
      (UInt8.ofBitVec x < 0x08 →
        0xF0 ||| UInt8.ofBitVec x = UInt8.ofBitVec x &&& 0x07 ||| 0xF0) ∧
      0x80 ||| UInt8.ofBitVec x &&& 0x3F = UInt8.ofBitVec x &&& 0x3F ||| 0x80 := by
  decide +kernel

private theorem toUInt8_lt {v : UInt32} {m : UInt8} (h : v.toNat < m.toNat) : v.toUInt8 < m := by
  rw [UInt8.lt_iff_toNat_lt, UInt32.toNat_toUInt8]
  exact Nat.lt_of_le_of_lt (Nat.mod_le ..) h

private theorem tail_byte (v : UInt32) : tailByte v = v.toUInt8 &&& 0x3F ||| 0x80 := by
  rw [tailByte, UInt32.toUInt8_or, UInt32.toUInt8_and]
  exact (lead_masks v.toUInt8.toBitVec).2.2.2

private theorem lead_byte_two {v : UInt32} (h : v.toNat < 0x20) :
    ((0xC0 : UInt32) ||| v).toUInt8 = v.toUInt8 &&& 0x1F ||| 0xC0 := by
  rw [UInt32.toUInt8_or]
  exact (lead_masks v.toUInt8.toBitVec).1 (toUInt8_lt h)

private theorem lead_byte_three {v : UInt32} (h : v.toNat < 0x10) :
    ((0xE0 : UInt32) ||| v).toUInt8 = v.toUInt8 &&& 0x0F ||| 0xE0 := by
  rw [UInt32.toUInt8_or]
  exact (lead_masks v.toUInt8.toBitVec).2.1 (toUInt8_lt h)

private theorem lead_byte_four {v : UInt32} (h : v.toNat < 0x08) :
    ((0xF0 : UInt32) ||| v).toUInt8 = v.toUInt8 &&& 0x07 ||| 0xF0 := by
  rw [UInt32.toUInt8_or]
  exact (lead_masks v.toUInt8.toBitVec).2.2.1 (toUInt8_lt h)

/-- The encoder writes the bytes of a character. -/
theorem encodeUtf8_char (c : Char) : encodeUtf8 c.val = String.utf8EncodeChar c := by
  have hvalid : c.val.toNat < 0xD800 ∨ 0xDFFF < c.val.toNat ∧ c.val.toNat < 0x110000 := c.valid
  have hshift : ∀ (n : UInt32) (k : Nat), n.toNat = k → k < 32 →
      (c.val >>> n).toNat = c.val.toNat / 2 ^ k := by
    intro n k hn hk
    rw [UInt32.toNat_shiftRight, hn, Nat.mod_eq_of_lt hk, Nat.shiftRight_eq_div_pow]
  simp only [encodeUtf8, UInt32.lt_iff_toNat_lt, UInt32.le_iff_toNat_le, UInt32.reduceToNat]
  rw [if_neg (by omega), if_neg (by omega)]
  obtain hc | hc | hc | hc := c.utf8Size_eq
  · have hle := Char.utf8Size_eq_one_iff.mp hc
    rw [UInt32.le_iff_toNat_le] at hle
    have hle' : c.val.toNat ≤ 127 := hle
    rw [if_pos (by omega), String.utf8EncodeChar_eq_singleton hc]
  · obtain ⟨hgt, hle⟩ := Char.utf8Size_eq_two_iff.mp hc
    rw [UInt32.le_iff_toNat_le] at hle
    rw [UInt32.lt_iff_toNat_lt] at hgt
    have hle' : c.val.toNat ≤ 0x7FF := hle
    have hgt' : 127 < c.val.toNat := hgt
    have hlead := hshift 6 6 rfl (by decide)
    rw [if_neg (by omega), if_pos (by omega), String.utf8EncodeChar_eq_cons_cons hc,
      lead_byte_two (v := c.val >>> 6) (by omega), tail_byte]
  · obtain ⟨hgt, hle⟩ := Char.utf8Size_eq_three_iff.mp hc
    rw [UInt32.le_iff_toNat_le] at hle
    rw [UInt32.lt_iff_toNat_lt] at hgt
    have hle' : c.val.toNat ≤ 0xFFFF := hle
    have hgt' : 0x7FF < c.val.toNat := hgt
    have hlead := hshift 12 12 rfl (by decide)
    rw [if_neg (by omega), if_neg (by omega), if_pos (by omega),
      String.utf8EncodeChar_eq_cons_cons_cons hc, lead_byte_three (v := c.val >>> 12) (by omega),
      tail_byte, tail_byte]
  · have hgt := Char.utf8Size_eq_four_iff.mp hc
    rw [UInt32.lt_iff_toNat_lt] at hgt
    have hgt' : 0xFFFF < c.val.toNat := hgt
    have hlead := hshift 18 18 rfl (by decide)
    rw [if_neg (by omega), if_neg (by omega), if_neg (by omega),
      String.utf8EncodeChar_eq_cons_cons_cons_cons hc, lead_byte_four (v := c.val >>> 18)
        (by omega), tail_byte, tail_byte, tail_byte]

theorem utf8EncodeChar_ascii {c : Char} (h : c.val < 0x80) :
    String.utf8EncodeChar c = [c.val.toUInt8] ∧ c.val.toUInt8 < 0x80 := by
  have hsize : c.utf8Size = 1 := Char.utf8Size_eq_one_iff.mpr (by
    rw [UInt32.lt_iff_toNat_lt] at h
    rw [UInt32.le_iff_toNat_le]
    exact Nat.le_of_lt_succ h)
  exact ⟨String.utf8EncodeChar_eq_singleton hsize, ascii_of_utf8Size hsize⟩

/-- No byte of another character is ASCII, and it has more than one. -/
theorem utf8EncodeChar_other {c : Char} (h : ¬c.val < 0x80) :
    (∀ b ∈ String.utf8EncodeChar c, ¬b < 0x80) ∧ 1 < (String.utf8EncodeChar c).length := by
  obtain ⟨b, tail, henc, -, hwidth, htail⟩ := encodeChar_cons c
  have hlen : c.utf8Size = tail.length + 1 := by
    rw [← String.length_utf8EncodeChar, henc, List.length_cons]
  have hmore : 0 < tail.length := by
    by_contra hnone
    have hle := Char.utf8Size_eq_one_iff.mp (show c.utf8Size = 1 by omega)
    rw [UInt32.le_iff_toNat_le] at hle
    rw [UInt32.lt_iff_toNat_lt] at h
    exact h (Nat.lt_succ_of_le hle)
  rw [henc]
  refine ⟨?_, by simpa using hmore⟩
  intro x hx hascii
  obtain rfl | hx := List.mem_cons.mp hx
  · rw [width_of_ascii hascii] at hwidth
    omega
  · have hcont := htail x hx
    rw [isContinuation_of_ascii hascii] at hcont
    exact absurd hcont (by decide)

/-- Every character is ASCII. -/
def AllAscii (cs : List Char) : Prop := ∀ c ∈ cs, c.val < 0x80

/-- There are at least as many bytes as characters, and more unless all are ASCII. -/
theorem length_encode (cs : List Char) :
    cs.length ≤ (encode cs).length ∧ ((encode cs).length = cs.length ↔ AllAscii cs) := by
  induction cs with
  | nil => simp [AllAscii]
  | cons c cs ih =>
    obtain ⟨hle, hiff⟩ := ih
    simp only [encode_cons, List.length_append, List.length_cons, AllAscii, List.forall_mem_cons]
    by_cases hc : c.val < 0x80
    · have hone := congrArg List.length (utf8EncodeChar_ascii hc).1
      rw [List.length_singleton] at hone
      refine ⟨by omega, ?_⟩
      constructor
      · intro h
        exact ⟨hc, hiff.mp (by omega)⟩
      · rintro ⟨-, h⟩
        have := hiff.mpr h
        omega
    · have hmore := (utf8EncodeChar_other hc).2
      refine ⟨by omega, ?_⟩
      constructor
      · intro h
        omega
      · rintro ⟨h, -⟩
        exact absurd h hc

/-- The bytes of a text are ASCII when its characters are. -/
theorem strIsAscii_encode (cs : List Char) : strIsAscii (encode cs) = true ↔ AllAscii cs := by
  induction cs with
  | nil => simp [strIsAscii, AllAscii]
  | cons c cs ih =>
    have hsplit : strIsAscii (encode (c :: cs)) =
        (strIsAscii (String.utf8EncodeChar c) && strIsAscii (encode cs)) := by
      simp [strIsAscii]
    rw [hsplit, Bool.and_eq_true, ih]
    simp only [AllAscii, List.forall_mem_cons]
    refine and_congr_left fun _ => ?_
    by_cases hc : c.val < 0x80
    · obtain ⟨henc, hbyte⟩ := utf8EncodeChar_ascii hc
      refine iff_of_true ?_ hc
      rw [henc, strIsAscii, List.all_cons, List.all_nil, Bool.and_true]
      exact decide_eq_true hbyte
    · obtain ⟨hbytes, hmore⟩ := utf8EncodeChar_other hc
      refine iff_of_false ?_ hc
      intro hall
      obtain ⟨b, tail, henc, -⟩ := encodeChar_cons c
      have hmem : b ∈ String.utf8EncodeChar c := by
        rw [henc]
        exact List.mem_cons_self
      exact hbytes b hmem (by simpa using List.all_eq_true.mp hall b hmem)

/-- There are no more characters than bytes. -/
theorem Sees.length_le {s : Bytes} {pos : Nat} {rest : List Char} (h : Sees s pos rest) :
    rest.length ≤ s.length := by
  have htotal := h.total
  have hlen := (length_encode rest).1
  omega

theorem utf8CpLen_char {s : Bytes} {pos : Nat} {c : Char} {rest : List Char}
    (h : Sees s pos (c :: rest)) : utf8CpLen s pos = c.utf8Size := by
  obtain ⟨b, tail, henc, -, hwidth, -⟩ := encodeChar_cons c
  have hlen : c.utf8Size = tail.length + 1 := by
    rw [← String.length_utf8EncodeChar, henc, List.length_cons]
  have hget : s[pos]? = some b := by
    have hbytes := h.bytes
    rw [encode_cons, henc] at hbytes
    rw [← List.head?_drop, hbytes]
    rfl
  have htotal := h.total
  rw [encode_cons, List.length_append, String.length_utf8EncodeChar] at htotal
  unfold width at hwidth
  simp only [utf8CpLen, hget]
  split at hwidth
  · rw [if_pos ‹_›, hlen, ← hwidth]
  split at hwidth
  · rw [if_neg ‹¬b < 0x80›, if_pos ‹_›, if_pos (by omega), hlen, ← hwidth]
  split at hwidth
  · rw [if_neg ‹¬b < 0x80›, if_neg ‹¬b &&& 0xE0 = 0xC0›, if_pos ‹_›, if_pos (by omega), hlen,
      ← hwidth]
  split at hwidth
  · rw [if_neg ‹¬b < 0x80›, if_neg ‹¬b &&& 0xE0 = 0xC0›, if_neg ‹¬b &&& 0xF0 = 0xE0›, if_pos ‹_›,
      if_pos (by omega), hlen, ← hwidth]
  · omega

theorem sizeLoop_eq {s : Bytes} {fuel pos : Nat} {rest : List Char} (h : Sees s pos rest)
    (hfuel : rest.length ≤ fuel) : sizeLoop s fuel pos = rest.length := by
  induction rest generalizing fuel pos with
  | nil =>
    cases fuel with
    | zero => rfl
    | succ fuel => rw [sizeLoop, if_neg h.not_lt, List.length_nil]
  | cons c rest ih =>
    cases fuel with
    | zero => cases hfuel
    | succ fuel =>
      have hsize := c.utf8Size_pos
      rw [sizeLoop, if_pos h.lt, utf8CpLen_char h, if_neg (by omega),
        ih h.tail (Nat.le_of_succ_le_succ hfuel), List.length_cons]

theorem mapCps_eq (text : UInt32 → Bytes) {s : Bytes} {fuel pos : Nat} {rest : List Char}
    (h : Sees s pos rest) (hfuel : rest.length ≤ fuel) :
    mapCps text s fuel pos = rest.flatMap fun c => text c.val := by
  induction rest generalizing fuel pos with
  | nil =>
    cases fuel with
    | zero => rfl
    | succ fuel => rw [mapCps, if_neg h.not_lt, List.flatMap_nil]
  | cons c rest ih =>
    cases fuel with
    | zero => cases hfuel
    | succ fuel =>
      simp only [mapCps, if_pos h.lt, h.peek]
      rw [ih h.tail (Nat.le_of_succ_le_succ hfuel), List.flatMap_cons]

/-- `SIZE` counts the characters. -/
theorem snobolSize_encode (cs : List Char) : snobolSize (encode cs) = cs.length := by
  unfold snobolSize
  split
  · rename_i hascii
    exact (length_encode cs).2.mpr ((strIsAscii_encode cs).mp hascii)
  · exact sizeLoop_eq (.start cs) (length_encode cs).1

end Snobol4
