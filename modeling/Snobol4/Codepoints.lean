import Snobol4.Support.Utf8
import Snobol4.Vm

/-!
# Codepoints — decoding a character (`utf8_peek_next`)

On a well-formed text a position that stands at a character sees the rest of the text as
characters.
-/

namespace Snobol4

open Utf8

/-! ## Decoding a character -/

private theorem or_and_distrib (a b c : UInt8) : (a ||| b) &&& c = a &&& c ||| b &&& c :=
  UInt8.toBitVec_inj.mp BitVec.and_or_distrib_right

/-- The bits of a mask are kept beside bits that are not in it. -/
private theorem low_bits (x : UInt8) {m k : UInt8} (h : k &&& m = 0) :
    (x &&& m ||| k) &&& m = x &&& m := by
  rw [or_and_distrib, h, UInt8.and_assoc, UInt8.and_self, UInt8.or_zero]

/-- Bits outside the mask are those beside it. -/
private theorem high_bits (x : UInt8) {m k c : UInt8} (h : m &&& c = 0) :
    (x &&& m ||| k) &&& c = k &&& c := by
  rw [or_and_distrib, UInt8.and_assoc, h, UInt8.and_zero, UInt8.zero_or]

private theorem not_ascii (x : UInt8) {k : UInt8} (h : 0x80 ≤ k) : ¬ (x ||| k) < 0x80 := by
  rw [UInt8.not_lt, UInt8.le_iff_toNat_le, UInt8.toNat_or]
  exact Nat.le_trans (UInt8.le_iff_toNat_le.mp h) Nat.right_le_or

private theorem toNat_low (x : UInt8) (k : Nat) {m : UInt8} (hm : m.toNat = 2 ^ k - 1) :
    (x &&& m).toUInt32.toNat = x.toNat % 2 ^ k := by
  rw [UInt8.toNat_toUInt32, UInt8.toNat_and, hm, Nat.and_two_pow_sub_one_eq_mod]

private theorem toNat_shift {a n : UInt32} (k : Nat) (hn : n.toNat = k) (hk : k < 32)
    (ha : a.toNat * 2 ^ k < 2 ^ 32) : (a <<< n).toNat = a.toNat * 2 ^ k := by
  rw [UInt32.toNat_shiftLeft, hn, Nat.mod_eq_of_lt hk, Nat.shiftLeft_eq, Nat.mod_eq_of_lt ha]

private theorem toNat_or_low {a b : UInt32} (k : Nat) (ha : a.toNat % 2 ^ k = 0)
    (hb : b.toNat < 2 ^ k) : (a ||| b).toNat = a.toNat + b.toNat := by
  have hshift : a.toNat = (a.toNat / 2 ^ k) <<< k := by
    rw [Nat.shiftLeft_eq, Nat.div_mul_cancel (Nat.dvd_of_mod_eq_zero ha)]
  rw [UInt32.toNat_or, hshift, ← Nat.shiftLeft_add_eq_or_of_lt hb]

private theorem toNat_shiftRight_byte (v : UInt32) {n : UInt32} (k : Nat) (hn : n.toNat = k)
    (hk : k < 32) : (v >>> n).toUInt8.toNat = v.toNat / 2 ^ k % 2 ^ 8 := by
  rw [UInt32.toNat_toUInt8, UInt32.toNat_shiftRight, hn, Nat.mod_eq_of_lt hk,
    Nat.shiftRight_eq_div_pow]

private theorem lead_two (x : UInt8) : ¬(x &&& 0x1F ||| 0xC0) < 0x80 ∧
    (x &&& 0x1F ||| 0xC0) &&& 0xE0 = 0xC0 :=
  ⟨not_ascii _ (by decide), high_bits x rfl⟩

private theorem lead_three (x : UInt8) : ¬(x &&& 0x0F ||| 0xE0) < 0x80 ∧
    ¬(x &&& 0x0F ||| 0xE0) &&& 0xE0 = 0xC0 ∧ (x &&& 0x0F ||| 0xE0) &&& 0xF0 = 0xE0 := by
  refine ⟨not_ascii _ (by decide), ?_, high_bits x rfl⟩
  rw [high_bits x rfl]
  decide

private theorem lead_four (x : UInt8) : ¬(x &&& 0x07 ||| 0xF0) < 0x80 ∧
    ¬(x &&& 0x07 ||| 0xF0) &&& 0xE0 = 0xC0 ∧ ¬(x &&& 0x07 ||| 0xF0) &&& 0xF0 = 0xE0 ∧
    (x &&& 0x07 ||| 0xF0) &&& 0xF8 = 0xF0 := by
  refine ⟨not_ascii _ (by decide), ?_, ?_, high_bits x rfl⟩
  · rw [high_bits x rfl]
    decide
  · rw [high_bits x rfl]
    decide

/-- Decoding the bytes of a character. -/
theorem utf8PeekNext_char {s rest : Bytes} {pos : Nat} {c : Char}
    (h : s.drop pos = String.utf8EncodeChar c ++ rest) :
    utf8PeekNext s pos = some (c.val, c.utf8Size) := by
  -- one case for each length: the lead byte selects the branch, and the payloads put together
  -- are the value
  have hv : c.val.toNat < 2 ^ 21 := by
    obtain hc | hc := c.valid
    · have hlt : c.val.toNat < 0xD800 := hc
      omega
    · have hlt : c.val.toNat < 0x110000 := hc.2
      omega
  unfold utf8PeekNext
  rw [h]
  obtain hc | hc | hc | hc := c.utf8Size_eq
  · have hle := Char.utf8Size_eq_one_iff.mp hc
    rw [UInt32.le_iff_toNat_le] at hle
    have hle' : c.val.toNat ≤ 127 := hle
    rw [String.utf8EncodeChar_eq_singleton hc, hc]
    simp only [List.cons_append, List.nil_append]
    rw [if_pos (ascii_of_utf8Size hc)]
    have hval : c.val.toUInt8.toUInt32 = c.val := by
      apply UInt32.toNat_inj.mp
      rw [UInt8.toNat_toUInt32, UInt32.toNat_toUInt8]
      omega
    rw [hval]
  · obtain ⟨-, hle⟩ := Char.utf8Size_eq_two_iff.mp hc
    rw [UInt32.le_iff_toNat_le] at hle
    have hle' : c.val.toNat ≤ 0x7FF := hle
    obtain ⟨hascii, htwo⟩ := lead_two (c.val >>> 6).toUInt8
    rw [String.utf8EncodeChar_eq_cons_cons hc, hc]
    simp only [List.cons_append, List.nil_append]
    rw [if_neg hascii, if_pos htwo, low_bits _ rfl, low_bits _ rfl]
    have hhigh := toNat_low (c.val >>> 6).toUInt8 5 (m := 0x1F) rfl
    have hlow := toNat_low c.val.toUInt8 6 (m := 0x3F) rfl
    rw [toNat_shiftRight_byte c.val 6 rfl (by decide)] at hhigh
    rw [UInt32.toNat_toUInt8] at hlow
    have hval : ((c.val >>> 6).toUInt8 &&& 0x1F).toUInt32 <<< 6 |||
        (c.val.toUInt8 &&& 0x3F).toUInt32 = c.val := by
      apply UInt32.toNat_inj.mp
      have hshift := toNat_shift (a := ((c.val >>> 6).toUInt8 &&& 0x1F).toUInt32) (n := 6) 6 rfl
        (by decide) (by omega)
      rw [toNat_or_low 6 (by omega) (by omega), hshift]
      omega
    rw [hval]
  · obtain ⟨-, hle⟩ := Char.utf8Size_eq_three_iff.mp hc
    rw [UInt32.le_iff_toNat_le] at hle
    have hle' : c.val.toNat ≤ 0xFFFF := hle
    obtain ⟨hascii, htwo, hthree⟩ := lead_three (c.val >>> 12).toUInt8
    rw [String.utf8EncodeChar_eq_cons_cons_cons hc, hc]
    simp only [List.cons_append, List.nil_append]
    rw [if_neg hascii, if_neg htwo, if_pos hthree, low_bits _ rfl, low_bits _ rfl,
      low_bits _ rfl]
    have hhigh := toNat_low (c.val >>> 12).toUInt8 4 (m := 0x0F) rfl
    have hmid := toNat_low (c.val >>> 6).toUInt8 6 (m := 0x3F) rfl
    have hlow := toNat_low c.val.toUInt8 6 (m := 0x3F) rfl
    rw [toNat_shiftRight_byte c.val 12 rfl (by decide)] at hhigh
    rw [toNat_shiftRight_byte c.val 6 rfl (by decide)] at hmid
    rw [UInt32.toNat_toUInt8] at hlow
    have hval : ((c.val >>> 12).toUInt8 &&& 0x0F).toUInt32 <<< 12 |||
        ((c.val >>> 6).toUInt8 &&& 0x3F).toUInt32 <<< 6 |||
        (c.val.toUInt8 &&& 0x3F).toUInt32 = c.val := by
      apply UInt32.toNat_inj.mp
      have hshift := toNat_shift (a := ((c.val >>> 12).toUInt8 &&& 0x0F).toUInt32) (n := 12) 12 rfl
        (by decide) (by omega)
      have hshift' := toNat_shift (a := ((c.val >>> 6).toUInt8 &&& 0x3F).toUInt32) (n := 6) 6 rfl
        (by decide) (by omega)
      have hor := toNat_or_low (a := ((c.val >>> 12).toUInt8 &&& 0x0F).toUInt32 <<< 12)
        (b := ((c.val >>> 6).toUInt8 &&& 0x3F).toUInt32 <<< 6) 12 (by omega) (by omega)
      rw [toNat_or_low 6 (by omega) (by omega), hor, hshift, hshift']
      omega
    rw [hval]
  · obtain ⟨hascii, htwo, hthree, hfour⟩ := lead_four (c.val >>> 18).toUInt8
    rw [String.utf8EncodeChar_eq_cons_cons_cons_cons hc, hc]
    simp only [List.cons_append, List.nil_append]
    rw [if_neg hascii, if_neg htwo, if_neg hthree, if_pos hfour, low_bits _ rfl,
      low_bits _ rfl, low_bits _ rfl, low_bits _ rfl]
    have hhigh := toNat_low (c.val >>> 18).toUInt8 3 (m := 0x07) rfl
    have hupper := toNat_low (c.val >>> 12).toUInt8 6 (m := 0x3F) rfl
    have hmid := toNat_low (c.val >>> 6).toUInt8 6 (m := 0x3F) rfl
    have hlow := toNat_low c.val.toUInt8 6 (m := 0x3F) rfl
    rw [toNat_shiftRight_byte c.val 18 rfl (by decide)] at hhigh
    rw [toNat_shiftRight_byte c.val 12 rfl (by decide)] at hupper
    rw [toNat_shiftRight_byte c.val 6 rfl (by decide)] at hmid
    rw [UInt32.toNat_toUInt8] at hlow
    have hval : ((c.val >>> 18).toUInt8 &&& 0x07).toUInt32 <<< 18 |||
        ((c.val >>> 12).toUInt8 &&& 0x3F).toUInt32 <<< 12 |||
        ((c.val >>> 6).toUInt8 &&& 0x3F).toUInt32 <<< 6 |||
        (c.val.toUInt8 &&& 0x3F).toUInt32 = c.val := by
      apply UInt32.toNat_inj.mp
      have hshift := toNat_shift (a := ((c.val >>> 18).toUInt8 &&& 0x07).toUInt32) (n := 18) 18 rfl
        (by decide) (by omega)
      have hshift' := toNat_shift (a := ((c.val >>> 12).toUInt8 &&& 0x3F).toUInt32) (n := 12) 12
        rfl (by decide) (by omega)
      have hshift'' := toNat_shift (a := ((c.val >>> 6).toUInt8 &&& 0x3F).toUInt32) (n := 6) 6 rfl
        (by decide) (by omega)
      have hor := toNat_or_low (a := ((c.val >>> 18).toUInt8 &&& 0x07).toUInt32 <<< 18)
        (b := ((c.val >>> 12).toUInt8 &&& 0x3F).toUInt32 <<< 12) 18 (by omega) (by omega)
      have hor' := toNat_or_low (a := ((c.val >>> 18).toUInt8 &&& 0x07).toUInt32 <<< 18 |||
          ((c.val >>> 12).toUInt8 &&& 0x3F).toUInt32 <<< 12)
        (b := ((c.val >>> 6).toUInt8 &&& 0x3F).toUInt32 <<< 6) 12 (by omega) (by omega)
      rw [toNat_or_low 6 (by omega) (by omega), hor', hor, hshift, hshift', hshift'']
      omega
    rw [hval]

/-- From the position on the subject is the characters `rest`. -/
structure Sees (s : Bytes) (pos : Nat) (rest : List Char) : Prop where
  bytes : s.drop pos = encode rest
  total : pos + (encode rest).length = s.length

namespace Sees

variable {s : Bytes} {pos : Nat} {c : Char} {rest : List Char}

theorem start (cs : List Char) : Sees (encode cs) 0 cs :=
  ⟨rfl, Nat.zero_add _⟩

/-- Behind the first characters of a text. -/
theorem split (cs rest : List Char) : Sees (encode (cs ++ rest)) (encode cs).length rest := by
  rw [encode_append]
  exact ⟨List.drop_left, by rw [List.length_append]⟩

theorem lt (h : Sees s pos (c :: rest)) : pos < s.length := by
  have htotal := h.total
  have hsize := c.utf8Size_pos
  rw [encode_cons, List.length_append, String.length_utf8EncodeChar] at htotal
  omega

theorem eq_end (h : Sees s pos []) : pos = s.length := by
  have htotal := h.total
  rwa [encode_nil, List.length_nil, Nat.add_zero] at htotal

theorem not_lt (h : Sees s pos []) : ¬pos < s.length :=
  h.eq_end ▸ Nat.lt_irrefl _

theorem tail (h : Sees s pos (c :: rest)) : Sees s (pos + c.utf8Size) rest := by
  obtain ⟨hbytes, htotal⟩ := h
  rw [encode_cons] at hbytes htotal
  rw [List.length_append, String.length_utf8EncodeChar] at htotal
  refine ⟨?_, by omega⟩
  rw [← List.drop_drop, hbytes, ← String.length_utf8EncodeChar c, List.drop_left]

theorem peek (h : Sees s pos (c :: rest)) : utf8PeekNext s pos = some (c.val, c.utf8Size) :=
  utf8PeekNext_char h.bytes

theorem peekCp (h : Sees s pos (c :: rest)) :
    Snobol4.peekCp s pos = some (c.toNat, c.utf8Size) := by
  rw [Snobol4.peekCp, h.peek]
  rfl

theorem peek_nil (h : Sees s pos []) : utf8PeekNext s pos = none := by
  rw [utf8PeekNext, h.bytes]
  rfl

theorem peekCp_nil (h : Sees s pos []) : Snobol4.peekCp s pos = none := by
  rw [Snobol4.peekCp, h.peek_nil]
  rfl

end Sees

/-- Texts with the same bytes have the same characters. -/
theorem encode_injective : Function.Injective encode := by
  intro cs ds h
  induction cs generalizing ds with
  | nil =>
    have hsees : Sees (encode ds) 0 [] := h ▸ .start []
    cases ds with
    | nil => rfl
    | cons d ds => exact absurd ((Sees.start (d :: ds)).peek.symm.trans hsees.peek_nil) (by simp)
  | cons c cs ih =>
    have hsees : Sees (encode ds) 0 (c :: cs) := h ▸ .start (c :: cs)
    cases ds with
    | nil => exact absurd (hsees.peek.symm.trans (Sees.start []).peek_nil) (by simp)
    | cons d ds =>
      have hpeek := hsees.peek.symm.trans (Sees.start (d :: ds)).peek
      simp only [Option.some.injEq, Prod.mk.injEq] at hpeek
      obtain rfl : c = d := Char.ext hpeek.1
      rw [encode_cons, encode_cons, List.append_cancel_left_eq] at h
      rw [ih h]

end Snobol4
