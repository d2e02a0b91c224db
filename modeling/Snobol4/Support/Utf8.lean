import Mathlib.Data.List.Basic

/-!
# Utf8 — codepoint boundaries in encoded text

A position of a well-formed text is a boundary where a character starts or the text
ends, that is where no continuation byte stands.
-/

namespace Utf8

/-- The bytes of a text. -/
def encode (cs : List Char) : List UInt8 := cs.flatMap String.utf8EncodeChar

/-- A byte inside a character. -/
def isContinuation (b : UInt8) : Bool := b &&& 0xC0 == 0x80

/-- The number of bytes of a character with this first byte. -/
def width (b : UInt8) : Nat :=
  if b < 0x80 then 1
  else if b &&& 0xE0 = 0xC0 then 2
  else if b &&& 0xF0 = 0xE0 then 3
  else if b &&& 0xF8 = 0xF0 then 4
  else 0

@[simp] theorem encode_nil : encode [] = [] := rfl

@[simp] theorem encode_cons (c : Char) (cs : List Char) :
    encode (c :: cs) = String.utf8EncodeChar c ++ encode cs := rfl

theorem encode_append (cs cs' : List Char) : encode (cs ++ cs') = encode cs ++ encode cs' :=
  List.flatMap_append

/-! ## The bytes of one character -/

/-- What the encoder makes of a byte, and what an ASCII byte is not: one check of all bytes. -/
theorem encoder_bytes : ∀ x : BitVec 8,
    isContinuation (.ofBitVec x &&& 0x3F ||| 0x80) = true ∧
      (UInt8.ofBitVec x < 0x80 → isContinuation (.ofBitVec x) = false) ∧
      (isContinuation (.ofBitVec x &&& 0x1F ||| 0xC0) = false ∧
        width (.ofBitVec x &&& 0x1F ||| 0xC0) = 2) ∧
      (isContinuation (.ofBitVec x &&& 0x0F ||| 0xE0) = false ∧
        width (.ofBitVec x &&& 0x0F ||| 0xE0) = 3) ∧
      isContinuation (.ofBitVec x &&& 0x07 ||| 0xF0) = false ∧
        width (.ofBitVec x &&& 0x07 ||| 0xF0) = 4 := by
  decide +kernel

theorem isContinuation_tail (x : UInt8) : isContinuation (x &&& 0x3F ||| 0x80) = true :=
  (encoder_bytes x.toBitVec).1

theorem isContinuation_of_ascii {b : UInt8} (h : b < 0x80) : isContinuation b = false :=
  (encoder_bytes b.toBitVec).2.1 h

theorem width_of_ascii {b : UInt8} (h : b < 0x80) : width b = 1 := if_pos h

theorem first_two (x : UInt8) :
    isContinuation (x &&& 0x1F ||| 0xC0) = false ∧ width (x &&& 0x1F ||| 0xC0) = 2 :=
  (encoder_bytes x.toBitVec).2.2.1

theorem first_three (x : UInt8) :
    isContinuation (x &&& 0x0F ||| 0xE0) = false ∧ width (x &&& 0x0F ||| 0xE0) = 3 :=
  (encoder_bytes x.toBitVec).2.2.2.1

theorem first_four (x : UInt8) :
    isContinuation (x &&& 0x07 ||| 0xF0) = false ∧ width (x &&& 0x07 ||| 0xF0) = 4 :=
  (encoder_bytes x.toBitVec).2.2.2.2

/-- A character of one byte. -/
theorem ascii_of_utf8Size {c : Char} (h : c.utf8Size = 1) : c.val.toUInt8 < 0x80 := by
  have hle := Char.utf8Size_eq_one_iff.mp h
  rw [UInt32.le_iff_toNat_le] at hle
  rw [UInt8.lt_iff_toNat_lt, UInt32.toNat_toUInt8]
  exact Nat.lt_of_le_of_lt (Nat.mod_le ..) (Nat.lt_succ_of_le hle)

/-- A character is a first byte and continuation bytes. -/
theorem encodeChar_cons (c : Char) : ∃ b rest, String.utf8EncodeChar c = b :: rest ∧
    isContinuation b = false ∧ width b = rest.length + 1 ∧
      ∀ x ∈ rest, isContinuation x = true := by
  obtain hc | hc | hc | hc := c.utf8Size_eq
  · have hascii := ascii_of_utf8Size hc
    exact ⟨_, [], String.utf8EncodeChar_eq_singleton hc, isContinuation_of_ascii hascii,
      width_of_ascii hascii, by simp⟩
  · obtain ⟨hcont, hwidth⟩ := first_two (c.val >>> 6).toUInt8
    refine ⟨_, _, String.utf8EncodeChar_eq_cons_cons hc, hcont, hwidth, ?_⟩
    simp [isContinuation_tail]
  · obtain ⟨hcont, hwidth⟩ := first_three (c.val >>> 12).toUInt8
    refine ⟨_, _, String.utf8EncodeChar_eq_cons_cons_cons hc, hcont, hwidth, ?_⟩
    simp [isContinuation_tail]
  · obtain ⟨hcont, hwidth⟩ := first_four (c.val >>> 18).toUInt8
    refine ⟨_, _, String.utf8EncodeChar_eq_cons_cons_cons_cons hc, hcont, hwidth, ?_⟩
    simp [isContinuation_tail]

/-! ## Boundaries -/

/-- The bytes of some text. -/
def WellFormed (s : List UInt8) : Prop := ∃ cs, s = encode cs

/-- A character starts at the position, or the text ends. -/
def Boundary (s : List UInt8) (pos : Nat) : Prop :=
  ∃ cs cs', s = encode cs ++ encode cs' ∧ (encode cs).length = pos

theorem boundary_zero {s : List UInt8} (h : WellFormed s) : Boundary s 0 := by
  obtain ⟨cs, rfl⟩ := h
  exact ⟨[], cs, rfl, rfl⟩

theorem boundary_length {s : List UInt8} (h : WellFormed s) : Boundary s s.length := by
  obtain ⟨cs, rfl⟩ := h
  exact ⟨cs, [], by simp, rfl⟩

/-- Boundaries are the positions without a continuation byte. -/
theorem boundary_iff {s : List UInt8} (h : WellFormed s) (pos : Nat) :
    Boundary s pos ↔ pos ≤ s.length ∧ ∀ b, s[pos]? = some b → isContinuation b = false := by
  constructor
  · rintro ⟨cs, cs', rfl, rfl⟩
    refine ⟨by simp, ?_⟩
    intro b hb
    rw [List.getElem?_append_right (Nat.le_refl _), Nat.sub_self] at hb
    cases cs' with
    | nil => simp at hb
    | cons c cs' =>
      obtain ⟨first, rest, hc, hcont, -, -⟩ := encodeChar_cons c
      rw [encode_cons, hc] at hb
      obtain rfl : first = b := by simpa using hb
      exact hcont
  · obtain ⟨cs, rfl⟩ := h
    rintro ⟨hle, hcont⟩
    induction cs generalizing pos with
    | nil =>
      obtain rfl : pos = 0 := by simpa using hle
      exact ⟨[], [], rfl, rfl⟩
    | cons c cs ih =>
      obtain ⟨first, rest, hc, -, -, hrest⟩ := encodeChar_cons c
      cases pos with
      | zero => exact ⟨[], c :: cs, rfl, rfl⟩
      | succ n =>
      by_cases hin : n < rest.length
      · -- a position inside the first character holds a continuation byte
        have hget : (encode (c :: cs))[n + 1]? = some rest[n] := by
          rw [encode_cons, hc, List.cons_append, List.getElem?_cons_succ,
            List.getElem?_append_left hin, List.getElem?_eq_getElem hin]
        have hmem := hrest _ (List.getElem_mem hin)
        rw [hcont _ hget] at hmem
        cases hmem
      · have hlen : (String.utf8EncodeChar c).length = rest.length + 1 := by rw [hc]; rfl
        rw [encode_cons, List.length_append] at hle
        obtain ⟨ds, ds', hsplit, hds⟩ := ih (n - rest.length) (by omega) (by
          intro b hb
          refine hcont b ?_
          rw [encode_cons, List.getElem?_append_right (by omega), hlen, Nat.add_sub_add_right]
          exact hb)
        refine ⟨c :: ds, ds', ?_, ?_⟩
        · rw [encode_cons, encode_cons, hsplit, List.append_assoc]
        · rw [encode_cons, List.length_append, hds, hlen]
          omega

/-- ASCII bytes are a text. -/
theorem wellFormed_of_ascii {s : List UInt8} (h : ∀ b ∈ s, b < 0x80) : WellFormed s := by
  induction s with
  | nil => exact ⟨[], rfl⟩
  | cons b s ih =>
    obtain ⟨cs, rfl⟩ := ih fun b' hb' => h b' (List.mem_cons_of_mem b hb')
    have hb : b.toNat < 0x80 := UInt8.lt_iff_toNat_lt.mp (h b List.mem_cons_self)
    have hval : (Char.ofNat b.toNat).val = b.toUInt32 := by
      rw [Char.ofNat, dif_pos (.inl (by omega))]
      exact UInt32.toNat_inj.mp (UInt8.toNat_toUInt32 b).symm
    have hsize : (Char.ofNat b.toNat).utf8Size = 1 := by
      rw [Char.utf8Size_eq_one_iff, hval, UInt32.le_iff_toNat_le, UInt8.toNat_toUInt32]
      exact Nat.le_of_lt_succ hb
    refine ⟨Char.ofNat b.toNat :: cs, ?_⟩
    rw [encode_cons, String.utf8EncodeChar_eq_singleton hsize, hval]
    simp

theorem Boundary.wellFormed {s : List UInt8} {pos : Nat} (h : Boundary s pos) : WellFormed s := by
  obtain ⟨cs, cs', rfl, -⟩ := h
  exact ⟨cs ++ cs', (encode_append cs cs').symm⟩

theorem Boundary.le {s : List UInt8} {pos : Nat} (h : Boundary s pos) : pos ≤ s.length :=
  ((boundary_iff h.wellFormed pos).mp h).1

/-- The first byte at a boundary tells where the next one is. -/
theorem Boundary.next {s tail : List UInt8} {pos : Nat} {b : UInt8} (h : Boundary s pos)
    (hdrop : s.drop pos = b :: tail) : Boundary s (pos + width b) := by
  obtain ⟨cs, cs', rfl, rfl⟩ := h
  rw [List.drop_left] at hdrop
  cases cs' with
  | nil => cases hdrop
  | cons c cs' =>
    obtain ⟨first, rest, hc, -, hwidth, -⟩ := encodeChar_cons c
    have hfirst : first = b := by
      rw [encode_cons, hc] at hdrop
      exact (List.cons.inj hdrop).1
    refine ⟨cs ++ [c], cs', ?_, ?_⟩
    · rw [encode_append, encode_cons, encode_cons, encode_nil, List.append_nil, List.append_assoc]
    · rw [encode_append, List.length_append, encode_cons, encode_nil, List.append_nil, hc, ← hfirst,
        hwidth, List.length_cons]

/-- Inside the text a whole character stands at a boundary. -/
theorem Boundary.char {s : List UInt8} {pos : Nat} (h : Boundary s pos) (hlt : pos < s.length) :
    ∃ b rest tail, s.drop pos = b :: (rest ++ tail) ∧ width b = rest.length + 1 := by
  obtain ⟨cs, cs', rfl, rfl⟩ := h
  cases cs' with
  | nil => simp at hlt
  | cons c cs' =>
    obtain ⟨first, rest, hc, -, hwidth, -⟩ := encodeChar_cons c
    refine ⟨first, rest, encode cs', ?_, hwidth⟩
    rw [List.drop_left, encode_cons, hc, List.cons_append]

/-- A boundary behind an ASCII byte. -/
theorem Boundary.succ {s : List UInt8} {pos : Nat} {b : UInt8} (h : Boundary s pos)
    (hb : s[pos]? = some b) (hascii : b < 0x80) : Boundary s (pos + 1) := by
  obtain ⟨hpos, rfl⟩ := List.getElem?_eq_some_iff.mp hb
  have hnext := h.next (List.drop_eq_getElem_cons hpos)
  rw [width_of_ascii hascii] at hnext
  exact hnext

/-- A boundary in front of an ASCII byte. -/
theorem boundary_of_ascii {s : List UInt8} {pos : Nat} {b : UInt8} (hs : WellFormed s)
    (hb : s[pos]? = some b) (hascii : b < 0x80) : Boundary s pos := by
  rw [boundary_iff hs]
  obtain ⟨hpos, rfl⟩ := List.getElem?_eq_some_iff.mp hb
  refine ⟨Nat.le_of_lt hpos, ?_⟩
  intro b' hb'
  rw [hb] at hb'
  cases hb'
  exact isContinuation_of_ascii hascii

/-- A boundary behind a text that stands at a boundary. -/
theorem Boundary.text {s text tail : List UInt8} {pos : Nat} (h : Boundary s pos)
    (htext : WellFormed text) (hdrop : s.drop pos = text ++ tail) :
    Boundary s (pos + text.length) := by
  obtain ⟨cs, rfl⟩ := htext
  induction cs generalizing pos with
  | nil => exact h
  | cons c cs ih =>
    obtain ⟨first, rest, hc, -, hwidth, -⟩ := encodeChar_cons c
    have hlen : width first = (String.utf8EncodeChar c).length := by
      rw [hwidth, hc, List.length_cons]
    rw [encode_cons, List.append_assoc] at hdrop
    have hnext : Boundary s (pos + width first) := by
      rw [hc] at hdrop
      exact h.next hdrop
    rw [hlen] at hnext
    have hrest : s.drop (pos + (String.utf8EncodeChar c).length) = encode cs ++ tail := by
      rw [← List.drop_drop, hdrop, List.drop_left]
    have hend := ih hnext hrest
    rw [Nat.add_assoc, ← List.length_append, ← encode_cons] at hend
    exact hend

end Utf8
