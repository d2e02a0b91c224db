import Snobol4.Positional

/-!
# StringSlices — size, reversal, substrings and padding (`string_fn.c`)

Every function goes over the bytes with `utf8_cp_len`, and size and reversal have a path of
their own for ASCII.  On a text each is an operation on the list of its characters.
-/

namespace Snobol4

open Utf8

/-! ## The functions -/

/-- How far a loop goes on; a byte without a whole sequence counts alone. -/
def cpStep (s : Bytes) (pos : Nat) : Nat := if utf8CpLen s pos = 0 then 1 else utf8CpLen s pos

/-- `cp_starts` and `cp_ends` of the first pass of `snobol_reverse`; every turn takes at least
one of the `fuel` bytes. -/
def cpSpans (s : Bytes) : Nat → Nat → List (Nat × Nat)
  | 0, _ => []
  | fuel + 1, pos =>
      if pos < s.length then (pos, pos + cpStep s pos) :: cpSpans s fuel (pos + cpStep s pos)
      else []

/-- The two passes of `snobol_reverse`. -/
def reverseCps (s : Bytes) : Bytes :=
  (cpSpans s s.length 0).reverse.flatMap fun p => slice s p.1 p.2

/-- `snobol_reverse` -/
def snobolReverse (s : Bytes) : Bytes :=
  if s = [] then []
  else if strIsAscii s then s.reverse
  else reverseCps s

/-- The two loops of `snobol_substr`: at most `n` codepoints on from `pos`. -/
def cpForward (s : Bytes) : Nat → Nat → Nat
  | 0, pos => pos
  | n + 1, pos => if pos < s.length then cpForward s n (pos + cpStep s pos) else pos

/-- `snobol_substr` -/
def snobolSubstr (s : Bytes) (pos len : Nat) : Option Bytes :=
  if pos = 0 then none
  else
    let start := cpForward s (pos - 1) 0
    if s.length ≤ start ∧ 1 < pos then none else some (slice s start (cpForward s len start))

/-! ## On characters -/

namespace Sees

variable {s : Bytes} {pos : Nat} {c : Char} {rest : List Char}

theorem cpStep (h : Sees s pos (c :: rest)) : Snobol4.cpStep s pos = c.utf8Size := by
  have hsize := c.utf8Size_pos
  rw [Snobol4.cpStep, utf8CpLen_char h, if_neg (by omega)]

/-- The bytes up to behind `n` characters. -/
theorem slice_cpOffset (h : Sees s pos rest) (n : Nat) :
    slice s pos (pos + cpOffset rest n) = encode (rest.take n) := by
  rw [slice, Nat.add_sub_cancel_left, h.bytes, cpOffset]
  calc (encode rest).take (encode (rest.take n)).length
      = (encode (rest.take n) ++ encode (rest.drop n)).take (encode (rest.take n)).length := by
        rw [← encode_append, List.take_append_drop]
    _ = encode (rest.take n) := List.take_left

theorem slice_char (h : Sees s pos (c :: rest)) :
    slice s pos (pos + c.utf8Size) = String.utf8EncodeChar c := by
  have hone := h.slice_cpOffset 1
  rw [cpOffset, List.take_succ_cons, List.take_zero, encode_cons, encode_nil, List.append_nil,
    String.length_utf8EncodeChar] at hone
  exact hone

theorem cpForward (h : Sees s pos rest) (n : Nat) :
    Snobol4.cpForward s n pos = pos + cpOffset rest n := by
  induction n generalizing pos rest with
  | zero => rfl
  | succ n ih =>
    cases rest with
    | nil =>
      rw [Snobol4.cpForward, if_neg h.not_lt]
      rfl
    | cons c rest =>
      rw [Snobol4.cpForward, if_pos h.lt, h.cpStep, ih h.tail, cpOffset, cpOffset,
        List.take_succ_cons, encode_cons, List.length_append, String.length_utf8EncodeChar,
        Nat.add_assoc]

/-- The spans of the first pass are the characters. -/
theorem cpSpans {fuel : Nat} (h : Sees s pos rest) (hfuel : rest.length ≤ fuel) :
    (Snobol4.cpSpans s fuel pos).map (fun p => slice s p.1 p.2) =
      rest.map String.utf8EncodeChar := by
  induction rest generalizing fuel pos with
  | nil =>
    cases fuel with
    | zero => rfl
    | succ fuel => rw [Snobol4.cpSpans, if_neg h.not_lt, List.map_nil, List.map_nil]
  | cons c rest ih =>
    cases fuel with
    | zero => cases hfuel
    | succ fuel =>
      rw [Snobol4.cpSpans, if_pos h.lt, h.cpStep, List.map_cons, List.map_cons,
        ih h.tail (Nat.le_of_succ_le_succ hfuel)]
      exact congrArg (· :: _) h.slice_char

/-- Behind the first `k` characters. -/
theorem behind (cs : List Char) (k : Nat) : Sees (encode cs) (cpOffset cs k) (cs.drop k) := by
  have hsplit := Sees.split (cs.take k) (cs.drop k)
  rwa [List.take_append_drop] at hsplit

end Sees

/-- The general path of `SIZE` counts the characters, ASCII or not. -/
theorem sizeLoop_encode (cs : List Char) : sizeLoop (encode cs) (encode cs).length 0 = cs.length :=
  sizeLoop_eq (.start cs) (length_encode cs).1

/-- The general path of `REVERSE`. -/
theorem reverseCps_encode (cs : List Char) : reverseCps (encode cs) = encode cs.reverse := by
  rw [reverseCps, List.flatMap_def, List.map_reverse,
    (Sees.start cs).cpSpans (length_encode cs).1, ← List.map_reverse, ← List.flatMap_def]
  rfl

/-- The bytes of ASCII characters reversed are those of the characters reversed. -/
theorem reverse_encode_of_ascii {cs : List Char} (h : AllAscii cs) :
    (encode cs).reverse = encode cs.reverse := by
  induction cs with
  | nil => rfl
  | cons c cs ih =>
    rw [encode_cons, (utf8EncodeChar_ascii (h c List.mem_cons_self)).1, List.singleton_append,
      List.reverse_cons, ih fun d hd => h d (List.mem_cons_of_mem c hd), List.reverse_cons,
      encode_append, encode_cons, encode_nil, List.append_nil,
      (utf8EncodeChar_ascii (h c List.mem_cons_self)).1]

/-- `REVERSE` reverses the characters. -/
theorem snobolReverse_encode (cs : List Char) : snobolReverse (encode cs) = encode cs.reverse := by
  unfold snobolReverse
  split
  · rename_i hnil
    obtain rfl : cs = [] := encode_injective hnil
    rfl
  split
  · rename_i hascii
    exact reverse_encode_of_ascii ((strIsAscii_encode cs).mp hascii)
  · exact reverseCps_encode cs

/-- `SUBSTR` fails at position 0 and behind the end, and takes characters elsewhere. -/
theorem snobolSubstr_encode (cs : List Char) (pos len : Nat) :
    snobolSubstr (encode cs) pos len =
      if pos = 0 ∨ 1 < pos ∧ cs.length < pos then none
      else some (encode ((cs.drop (pos - 1)).take len)) := by
  unfold snobolSubstr
  by_cases hzero : pos = 0
  · rw [if_pos hzero, if_pos (.inl hzero)]
  rw [if_neg hzero]
  have hstart : cpForward (encode cs) (pos - 1) 0 = cpOffset cs (pos - 1) := by
    rw [(Sees.start cs).cpForward, Nat.zero_add]
  -- the code compares byte offsets, where the law counts characters
  have hend : (encode cs).length ≤ cpOffset cs (pos - 1) ↔ cs.length ≤ pos - 1 := by
    constructor
    · intro hle
      by_contra hlt
      have hinside := @cpOffset_lt cs (pos - 1) (by omega)
      omega
    · intro hle
      exact Nat.le_of_eq (cpOffset_of_length_le hle).symm
  simp only [hstart]
  by_cases hbeyond : 1 < pos ∧ cs.length < pos
  · rw [if_pos ⟨hend.mpr (by omega), hbeyond.1⟩, if_pos (.inr hbeyond)]
  · have hinside : ¬((encode cs).length ≤ cpOffset cs (pos - 1) ∧ 1 < pos) := by
      rintro ⟨hle, hone⟩
      have := hend.mp hle
      omega
    rw [if_neg hinside, if_neg (by rintro (h | h) <;> [exact hzero h; exact hbeyond h]),
      (Sees.behind cs (pos - 1)).cpForward, (Sees.behind cs (pos - 1)).slice_cpOffset]

/-- Padding with a character. -/
theorem padding_char (cs : List Char) (width : Nat) (pad : Char) :
    padding (encode cs) width pad.val =
      some (encode (List.replicate (width - cs.length) pad)) := by
  obtain ⟨b, tail, henc, -⟩ := encodeChar_cons pad
  rw [padding, encodeUtf8_char, if_neg (by rw [henc]; exact List.cons_ne_nil _ _),
    snobolSize_encode, encode, List.flatMap_def, List.map_replicate]

theorem snobolLpad_encode (cs : List Char) (width : Nat) (pad : Char) :
    snobolLpad (encode cs) width pad.val =
      some (encode (List.replicate (width - cs.length) pad ++ cs)) := by
  rw [snobolLpad, snobolSize_encode, padding_char, encode_append]
  split
  · rename_i hle
    rw [Nat.sub_eq_zero_of_le hle]
    rfl
  · rfl

theorem snobolRpad_encode (cs : List Char) (width : Nat) (pad : Char) :
    snobolRpad (encode cs) width pad.val =
      some (encode (cs ++ List.replicate (width - cs.length) pad)) := by
  rw [snobolRpad, snobolSize_encode, padding_char, encode_append]
  split
  · rename_i hle
    rw [Nat.sub_eq_zero_of_le hle, List.replicate_zero, encode_nil, List.append_nil]
  · rfl

/-- The functions are those on lists of characters, and their ASCII paths are the general
ones. -/
theorem stringFns_on_chars (cs : List Char) :
    (snobolSize (encode cs) = cs.length ∧
        sizeLoop (encode cs) (encode cs).length 0 = snobolSize (encode cs)) ∧
      (snobolReverse (encode cs) = encode cs.reverse ∧
        snobolReverse (snobolReverse (encode cs)) = encode cs ∧
        snobolSize (snobolReverse (encode cs)) = snobolSize (encode cs) ∧
        reverseCps (encode cs) = snobolReverse (encode cs)) ∧
      (∀ pos len, snobolSubstr (encode cs) pos len =
        if pos = 0 ∨ 1 < pos ∧ cs.length < pos then none
        else some (encode ((cs.drop (pos - 1)).take len))) ∧
      ∀ (width : Nat) (pad : Char),
        (∃ ds, snobolLpad (encode cs) width pad.val = some (encode ds) ∧
          ds.length = max cs.length width ∧ cs <:+ ds) ∧
        ∃ ds, snobolRpad (encode cs) width pad.val = some (encode ds) ∧
          ds.length = max cs.length width ∧ cs <+: ds := by
  refine ⟨⟨snobolSize_encode cs, ?_⟩, ⟨snobolReverse_encode cs, ?_, ?_, ?_⟩,
    snobolSubstr_encode cs, ?_⟩
  · rw [sizeLoop_encode, snobolSize_encode]
  · rw [snobolReverse_encode, snobolReverse_encode, List.reverse_reverse]
  · rw [snobolReverse_encode, snobolSize_encode, snobolSize_encode, List.length_reverse]
  · rw [reverseCps_encode, snobolReverse_encode]
  · intro width pad
    refine ⟨⟨_, snobolLpad_encode cs width pad, ?_, List.suffix_append _ _⟩,
      _, snobolRpad_encode cs width pad, ?_, List.prefix_append _ _⟩
    · rw [List.length_append, List.length_replicate]
      omega
    · rw [List.length_append, List.length_replicate]
      omega

end Snobol4
