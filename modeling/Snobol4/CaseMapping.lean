import Snobol4.TemplateFormat

/-!
# CaseMapping — `UPPER` and `LOWER` on any bytes (`string_fn.c`)

The loop decodes with `utf8_peek_next`, which takes any bytes behind a lead byte, and writes
back with `encode_utf8`, which writes only characters.  So the loop keeps every byte it does
not map exactly where each sequence it decodes is the encoding of a character.
-/

namespace Snobol4

open Utf8

/-! ## The decoder on any bytes -/

/-- A sequence is decoded where the first byte is a lead byte with enough bytes behind it. -/
theorem utf8PeekNext_size {s tl : Bytes} {pos : Nat} {b : UInt8} (h : s.drop pos = b :: tl) :
    (utf8PeekNext s pos).map (·.2) =
      if width b = 0 ∨ tl.length + 1 < width b then none else some (width b) := by
  unfold utf8PeekNext width
  rw [h]
  simp only
  by_cases hone : b < 0x80
  · simp [hone]
  rw [if_neg hone, if_neg hone]
  by_cases htwo : b &&& 0xE0 = 0xC0
  · rw [if_pos htwo, if_pos htwo]
    rcases tl with _ | ⟨b₁, tl⟩ <;> simp
  rw [if_neg htwo, if_neg htwo]
  by_cases hthree : b &&& 0xF0 = 0xE0
  · rw [if_pos hthree, if_pos hthree]
    rcases tl with _ | ⟨b₁, _ | ⟨b₂, tl⟩⟩ <;> simp
  rw [if_neg hthree, if_neg hthree]
  by_cases hfour : b &&& 0xF8 = 0xF0
  · rw [if_pos hfour, if_pos hfour]
    rcases tl with _ | ⟨b₁, _ | ⟨b₂, _ | ⟨b₃, tl⟩⟩⟩ <;> simp
  · rw [if_neg hfour, if_neg hfour]
    simp

/-- The bytes of a sequence that is decoded. -/
theorem utf8PeekNext_some {s : Bytes} {cp : UInt32} {n : Nat}
    (h : utf8PeekNext s 0 = some (cp, n)) :
    ∃ b tl, s = b :: tl ∧ width b = n ∧ 0 < n ∧ n ≤ tl.length + 1 := by
  cases s with
  | nil => cases h
  | cons b tl =>
    have hsize := @utf8PeekNext_size (b :: tl) tl 0 b rfl
    rw [h] at hsize
    split at hsize
    · cases hsize
    · rename_i hwidth
      obtain rfl : n = width b := Option.some.inj hsize
      exact ⟨b, tl, rfl, rfl, by omega, by omega⟩

/-- A byte at which nothing is decoded is no lead byte, or too close to the end. -/
theorem utf8PeekNext_none {b : UInt8} {tl : Bytes} (h : utf8PeekNext (b :: tl) 0 = none) :
    width b = 0 ∨ tl.length + 1 < width b := by
  have hsize := @utf8PeekNext_size (b :: tl) tl 0 b rfl
  rw [h] at hsize
  split at hsize
  · assumption
  · cases hsize

theorem width_bounds : ∀ x : BitVec 8,
    width (.ofBitVec x) ≤ 4 ∧ (Utf8.isContinuation (.ofBitVec x) = true → width (.ofBitVec x) = 0) ∧
      (width (.ofBitVec x) = 1 → UInt8.ofBitVec x < 0x80) := by
  decide +kernel

theorem width_le (b : UInt8) : width b ≤ 4 := (width_bounds b.toBitVec).1

theorem not_continuation_of_width {b : UInt8} (h : 0 < width b) :
    Utf8.isContinuation b = false := by
  cases hcont : Utf8.isContinuation b with
  | false => rfl
  | true =>
    have hzero : width b = 0 := (width_bounds b.toBitVec).2.1 hcont
    omega

/-! ## The loop on what is left -/

section

variable {text : UInt32 → Bytes}

/-- The loop as a function of the bytes that are left. -/
def recode (text : UInt32 → Bytes) : Nat → Bytes → Bytes
  | 0, _ => []
  | _ + 1, [] => []
  | fuel + 1, b :: tl =>
      match utf8PeekNext (b :: tl) 0 with
      | none => b :: recode text fuel tl
      | some (cp, n) => text cp ++ recode text fuel ((b :: tl).drop n)

theorem recode_none {b : UInt8} {tl : Bytes} (h : utf8PeekNext (b :: tl) 0 = none) (fuel : Nat) :
    recode text (fuel + 1) (b :: tl) = b :: recode text fuel tl := by
  show (match utf8PeekNext (b :: tl) 0 with | none => _ | some (cp, n) => _) = _
  rw [h]

theorem recode_some {b : UInt8} {tl : Bytes} {cp : UInt32} {n : Nat}
    (h : utf8PeekNext (b :: tl) 0 = some (cp, n)) (fuel : Nat) :
    recode text (fuel + 1) (b :: tl) = text cp ++ recode text fuel ((b :: tl).drop n) := by
  show (match utf8PeekNext (b :: tl) 0 with | none => _ | some (cp, n) => _) = _
  rw [h]

theorem mapCps_eq_recode (s : Bytes) (fuel pos : Nat) :
    mapCps text s fuel pos = recode text fuel (s.drop pos) := by
  induction fuel generalizing pos with
  | zero => rfl
  | succ fuel ih =>
    by_cases hlt : pos < s.length
    · have hdrop := List.drop_eq_getElem_cons hlt
      have hpeek : utf8PeekNext (s[pos] :: s.drop (pos + 1)) 0 = utf8PeekNext s pos := by
        unfold utf8PeekNext
        rw [hdrop, List.drop_zero]
      rw [mapCps, if_pos hlt, hdrop]
      cases hnext : utf8PeekNext s pos with
      | none =>
        rw [recode_none (hpeek.trans hnext)]
        simp only
        rw [ih]
        rfl
      | some next =>
        rw [recode_some (hpeek.trans hnext)]
        simp only
        rw [ih, ← hdrop, List.drop_drop]
    · rw [mapCps, if_neg hlt, List.drop_of_length_le (Nat.le_of_not_lt hlt)]
      rfl

/-- More fuel than bytes makes no difference. -/
theorem recode_fuel {r : Bytes} {fuel fuel' : Nat} (h : r.length ≤ fuel) (h' : r.length ≤ fuel') :
    recode text fuel r = recode text fuel' r := by
  induction fuel generalizing fuel' r with
  | zero =>
    obtain rfl := List.length_eq_zero_iff.mp (Nat.le_zero.mp h)
    cases fuel' <;> rfl
  | succ fuel ih =>
    cases r with
    | nil => cases fuel' <;> rfl
    | cons b tl =>
      obtain ⟨fuel', rfl⟩ : ∃ k, fuel' = k + 1 := ⟨fuel' - 1, by rw [List.length_cons] at h'; omega⟩
      rw [List.length_cons] at h h'
      cases hpeek : utf8PeekNext (b :: tl) 0 with
      | none =>
        rw [recode_none hpeek, recode_none hpeek]
        exact congrArg (b :: ·) (ih (by omega) (by omega))
      | some next =>
        obtain ⟨cp, n⟩ := next
        obtain ⟨-, -, -, -, hpos, -⟩ := utf8PeekNext_some hpeek
        rw [recode_some hpeek, recode_some hpeek]
        refine congrArg (text cp ++ ·) (ih ?_ ?_)
        · rw [List.length_drop, List.length_cons]
          omega
        · rw [List.length_drop, List.length_cons]
          omega

/-- The loop to the end. -/
def recoded (text : UInt32 → Bytes) (r : Bytes) : Bytes := recode text r.length r

theorem mapCps_eq_recoded (s : Bytes) : mapCps text s s.length 0 = recoded text s := by
  rw [mapCps_eq_recode, List.drop_zero]
  rfl

theorem recoded_none {b : UInt8} {tl : Bytes} (h : utf8PeekNext (b :: tl) 0 = none) :
    recoded text (b :: tl) = b :: recoded text tl :=
  recode_none h tl.length

theorem recoded_some {r : Bytes} {cp : UInt32} {n : Nat} (h : utf8PeekNext r 0 = some (cp, n)) :
    recoded text r = text cp ++ recoded text (r.drop n) := by
  obtain ⟨b, tl, rfl, -, hpos, -⟩ := utf8PeekNext_some h
  refine (recode_some h tl.length).trans (congrArg (text cp ++ ·) (recode_fuel ?_ le_rfl))
  rw [List.length_drop, List.length_cons]
  omega

theorem recoded_char (c : Char) (r : Bytes) :
    recoded text (String.utf8EncodeChar c ++ r) = text c.val ++ recoded text r := by
  rw [recoded_some (@utf8PeekNext_char _ r 0 c rfl), ← String.length_utf8EncodeChar,
    List.drop_left]

/-! ## Characters and other bytes -/

/-- The bytes of a character are at the front. -/
def StartsChar (s : Bytes) : Prop := ∃ c : Char, String.utf8EncodeChar c <+: s

/-- Every character of the bytes is replaced by its text, and every byte outside characters
stays, all in order. -/
inductive CaseMapped (text : UInt32 → Bytes) : Bytes → Bytes → Prop where
  | nil : CaseMapped text [] []
  | char (c : Char) {s out : Bytes} (h : CaseMapped text s out) :
      CaseMapped text (String.utf8EncodeChar c ++ s) (text c.val ++ out)
  | stray {b : UInt8} {s out : Bytes} (hstray : ¬StartsChar (b :: s)) (h : CaseMapped text s out) :
      CaseMapped text (b :: s) (b :: out)

/-- Every sequence that the loop decodes is the encoding of a character. -/
inductive WellDecoded : Bytes → Prop where
  | nil : WellDecoded []
  | raw {b : UInt8} {s : Bytes} (hpeek : utf8PeekNext (b :: s) 0 = none) (h : WellDecoded s) :
      WellDecoded (b :: s)
  | char (c : Char) {s : Bytes} (h : WellDecoded s) : WellDecoded (String.utf8EncodeChar c ++ s)

theorem not_startsChar_of_none {s : Bytes} (h : utf8PeekNext s 0 = none) : ¬StartsChar s := by
  rintro ⟨c, rest, rfl⟩
  rw [@utf8PeekNext_char _ rest 0 c rfl] at h
  cases h

theorem WellDecoded.caseMapped {s : Bytes} (h : WellDecoded s) :
    CaseMapped text s (recoded text s) := by
  induction h with
  | nil => exact .nil
  | raw hpeek _ ih =>
    rw [recoded_none hpeek]
    exact .stray (not_startsChar_of_none hpeek) ih
  | char c _ ih =>
    rw [recoded_char]
    exact .char c ih

/-- What the mapping writes: characters, at least one for a character, and one byte for an
ASCII byte. -/
structure WritesChars (text : UInt32 → Bytes) : Prop where
  chars : ∀ cp, ∃ ds, text cp = encode ds
  ne_nil : ∀ c : Char, text c.val ≠ []
  ascii : ∀ cp < 0x80, (text cp).length = 1

namespace CaseMapped

variable {s out : Bytes}

/-- A text of the mapping starts with a first byte. -/
theorem head_text (htext : WritesChars text) {c : Char} {b : UInt8} {tl : Bytes}
    (h : text c.val = b :: tl) : Utf8.isContinuation b = false := by
  obtain ⟨ds, hds⟩ := htext.chars c.val
  rw [hds] at h
  cases ds with
  | nil => cases h
  | cons d ds =>
    obtain ⟨first, rest, henc, hcont, -, -⟩ := encodeChar_cons d
    rw [encode_cons, henc] at h
    cases h
    exact hcont

/-- Continuation bytes at the front of the result stay from the front of the bytes. -/
theorem continuation (htext : WritesChars text) {z tl : Bytes} (h : CaseMapped text s (z ++ tl))
    (hz : ∀ b ∈ z, Utf8.isContinuation b = true) : z <+: s := by
  induction z generalizing s with
  | nil => exact List.nil_prefix
  | cons b z ih =>
    rw [List.cons_append] at h
    generalize hout : b :: (z ++ tl) = out at h
    cases h with
    | nil => cases hout
    | char c h =>
      rename_i s' out'
      -- a character would bring a first byte
      cases hc : text c.val with
      | nil => exact absurd hc (htext.ne_nil c)
      | cons b' tl' =>
        rw [hc, List.cons_append] at hout
        obtain ⟨rfl, -⟩ := List.cons.inj hout
        have hfirst := head_text htext hc
        rw [hz b List.mem_cons_self] at hfirst
        cases hfirst
    | stray hstray h =>
      cases hout
      exact (List.cons_prefix_cons).mpr
        ⟨rfl, ih h fun b hb => hz b (List.mem_cons_of_mem _ hb)⟩

/-- In front of a byte that starts no character the result does not start with one that has
this first byte. -/
theorem not_char (htext : WritesChars text) {b : UInt8} (hstray : ¬StartsChar (b :: s))
    (h : CaseMapped text s out) (c : Char) (tl : Bytes) :
    b :: out ≠ String.utf8EncodeChar c ++ tl := by
  intro heq
  obtain ⟨first, z, henc, -, -, hz⟩ := encodeChar_cons c
  rw [henc, List.cons_append] at heq
  cases heq
  obtain ⟨rest, rfl⟩ := h.continuation htext hz
  exact hstray ⟨c, rest, by rw [henc]; rfl⟩

/-- A first byte without enough bytes behind it splits the result. -/
theorem at_lead (htext : WritesChars text) {x u : Bytes} {b : UInt8} {out : Bytes}
    (h : CaseMapped text (x ++ b :: u) out) (hlead : Utf8.isContinuation b = false)
    (hshort : u.length + 1 < width b) :
    ∃ out₁ out₂, out = out₁ ++ b :: out₂ ∧ CaseMapped text u out₂ ∧ (x ≠ [] → out₁ ≠ []) := by
  generalize hs : x ++ b :: u = s at h
  induction h generalizing x with
  | nil =>
    cases x <;> cases hs
  | @char c s out h ih =>
    obtain ⟨first, z, henc, -, hwidth, hz⟩ := encodeChar_cons c
    -- the byte is not inside the character, which does not reach it from the front either
    rcases List.append_eq_append_iff.mp hs with ⟨y, hx, hy⟩ | ⟨y, hx, hy⟩
    · cases y with
      | nil =>
        rw [List.append_nil] at hx
        obtain ⟨out₁, out₂, rfl, hu, -⟩ := ih (x := []) (by simpa using hy)
        exact ⟨text c.val ++ out₁, out₂, by rw [List.append_assoc], hu,
          fun _ => by simp [htext.ne_nil c]⟩
      | cons b' y =>
        exfalso
        rw [List.cons_append] at hy
        cases hy
        rw [henc] at hx
        cases x with
        | nil =>
          cases hx
          rw [List.length_append] at hshort
          omega
        | cons first' x =>
          rw [List.cons_append] at hx
          cases hx
          have hcont := hz b (by simp)
          rw [hlead] at hcont
          cases hcont
    · obtain ⟨out₁, out₂, rfl, hu, -⟩ := ih hy.symm
      exact ⟨text c.val ++ out₁, out₂, by rw [List.append_assoc], hu,
        fun _ => by simp [htext.ne_nil c]⟩
  | @stray b' s out hstray h ih =>
    cases x with
    | nil =>
      rw [List.nil_append] at hs
      cases hs
      exact ⟨[], out, rfl, h, fun hne => absurd rfl hne⟩
    | cons first x =>
      rw [List.cons_append] at hs
      cases hs
      obtain ⟨out₁, out₂, rfl, hu, -⟩ := ih rfl
      exact ⟨b' :: out₁, out₂, rfl, hu, fun _ => List.cons_ne_nil _ _⟩

end CaseMapped

/-! ## The loop against the mapping -/

/-- A first byte in the output of the loop is that of a character it wrote, or a lead byte it
copied because the bytes end too soon. -/
theorem recoded_lead (htext : WritesChars text) {r out : Bytes} {b : UInt8} (hlead : 0 < width b)
    (h : recoded text r = b :: out) :
    (∃ (c : Char) (tl : Bytes), recoded text r = String.utf8EncodeChar c ++ tl) ∨
      ∃ dropped u, r = dropped ++ b :: u ∧ u.length + 1 < width b ∧ out = recoded text u := by
  induction hlen : r.length using Nat.strong_induction_on generalizing r with
  | _ len ih =>
    subst hlen
    cases r with
    | nil => cases h
    | cons b' tl =>
      cases hpeek : utf8PeekNext (b' :: tl) 0 with
      | none =>
        rw [recoded_none hpeek] at h
        obtain ⟨rfl, rfl⟩ := List.cons.inj h
        refine .inr ⟨[], tl, rfl, ?_, rfl⟩
        exact (utf8PeekNext_none hpeek).resolve_left (by omega)
      | some next =>
        obtain ⟨cp, n⟩ := next
        obtain ⟨-, -, -, -, hpos, -⟩ := utf8PeekNext_some hpeek
        obtain ⟨ds, hds⟩ := htext.chars cp
        rw [recoded_some hpeek, hds] at h ⊢
        cases ds with
        | nil =>
          -- nothing is written for this sequence: the byte comes from what follows
          rw [encode_nil, List.nil_append] at h ⊢
          have hshorter : ((b' :: tl).drop n).length < (b' :: tl).length := by
            rw [List.length_drop, List.length_cons]
            omega
          rcases ih _ hshorter h rfl with hchar | ⟨dropped, u, hr, hu, hout⟩
          · exact .inl hchar
          · refine .inr ⟨(b' :: tl).take n ++ dropped, u, ?_, hu, hout⟩
            rw [List.append_assoc, ← hr, List.take_append_drop]
        | cons d ds =>
          refine .inl ⟨d, encode ds ++ recoded text ((b' :: tl).drop n), ?_⟩
          rw [encode_cons, List.append_assoc]

/-- In an encoded text no first byte of four follows a byte that is not a continuation. -/
theorem encode_lead {ds : List Char} {x tl : Bytes} {b a : UInt8} (hb : 1 < width b)
    (ha : Utf8.isContinuation a = false) : encode ds ≠ x ++ b :: a :: tl := by
  intro heq
  have hboundary : Boundary (encode ds) x.length := by
    refine (boundary_iff ⟨ds, rfl⟩ _).mpr ⟨?_, ?_⟩
    · rw [heq, List.length_append]
      omega
    · intro b' hb'
      rw [heq, List.getElem?_append_right (Nat.le_refl _), Nat.sub_self] at hb'
      cases hb'
      exact not_continuation_of_width (by omega)
  obtain ⟨cs, cs', hsplit, hlen⟩ := hboundary
  obtain ⟨rfl, hrest⟩ := List.append_inj (heq.symm.trans hsplit) hlen.symm
  cases cs' with
  | nil => cases hrest
  | cons c cs' =>
    obtain ⟨first, z, henc, -, hwidth, hz⟩ := encodeChar_cons c
    rw [encode_cons, henc, List.cons_append] at hrest
    obtain ⟨rfl, htail⟩ := List.cons.inj hrest
    cases z with
    | nil =>
      rw [List.length_nil] at hwidth
      omega
    | cons a' z =>
      obtain ⟨rfl, -⟩ := List.cons.inj htail
      rw [hz a List.mem_cons_self] at ha
      cases ha

/-- What the loop writes for one byte. -/
theorem length_recoded_one (htext : WritesChars text) (a : UInt8) :
    (recoded text [a]).length = 1 := by
  cases hpeek : utf8PeekNext [a] 0 with
  | none =>
    rw [recoded_none hpeek]
    rfl
  | some next =>
    obtain ⟨cp, n⟩ := next
    obtain ⟨b, tl, hs, hwidth, hpos, hle⟩ := utf8PeekNext_some hpeek
    obtain ⟨rfl, rfl⟩ := List.cons.inj hs
    rw [List.length_nil] at hle
    obtain rfl : n = 1 := by omega
    have hascii : a < 0x80 := (width_bounds a.toBitVec).2.2 hwidth
    have hcp : cp = a.toUInt32 := by
      unfold utf8PeekNext at hpeek
      simp only [List.drop_zero, if_pos hascii, Option.some.injEq, Prod.mk.injEq] at hpeek
      exact hpeek.1.symm
    have hlow : cp < 0x80 := by
      rw [hcp, UInt32.lt_iff_toNat_lt, UInt8.toNat_toUInt32]
      exact UInt8.lt_iff_toNat_lt.mp hascii
    rw [recoded_some hpeek, List.length_append, htext.ascii cp hlow]
    rfl

/-- The bytes behind a lead byte that comes too close to the end are too few to write what
the mapping keeps in front of them. -/
theorem recoded_short (htext : WritesChars text) {u out₁ out₂ : Bytes} {b : UInt8}
    (hshort : u.length + 1 < width b) (h : CaseMapped text u out₂) (hne : out₁ ≠ []) :
    recoded text u ≠ out₁ ++ b :: out₂ := by
  intro heq
  have hwidth := width_le b
  have hout₁ : 0 < out₁.length := List.length_pos_of_ne_nil hne
  have hlen := congrArg List.length heq
  rw [List.length_append, List.length_cons] at hlen
  rcases u with _ | ⟨a, _ | ⟨a', tl⟩⟩
  · have hnil : (recoded text []).length = 0 := rfl
    omega
  · have hone := length_recoded_one htext a
    omega
  · rw [List.length_cons, List.length_cons] at hshort
    obtain rfl : tl = [] := List.length_eq_zero_iff.mp (by omega)
    have hpos : 0 < out₂.length := by
      generalize hu : [a, a'] = u at h
      cases h with
      | nil => cases hu
      | char c h =>
        rw [List.length_append]
        have := List.length_pos_of_ne_nil (htext.ne_nil c)
        omega
      | stray hstray h => exact Nat.succ_pos _
    -- three bytes at least are to be written, so two are too few
    have htwo : ∀ n, (recoded text [a, a']).length = n → n ≤ 2 → False := by
      intro n hn hle
      omega
    cases hpeek : utf8PeekNext [a, a'] 0 with
    | none =>
      refine htwo 2 ?_ (le_refl 2)
      rw [recoded_none hpeek, List.length_cons, length_recoded_one htext]
    | some next =>
      obtain ⟨cp, n⟩ := next
      obtain ⟨b', tl, hs, hn, hposn, hle⟩ := utf8PeekNext_some hpeek
      obtain ⟨rfl, rfl⟩ := List.cons.inj hs
      rw [List.length_singleton] at hle
      have hsome := @recoded_some text _ _ _ hpeek
      obtain rfl | rfl : n = 1 ∨ n = 2 := by omega
      · -- an ASCII byte and one more
        refine htwo 2 ?_ (le_refl 2)
        have hone := length_recoded_one htext a
        have hpeek' : utf8PeekNext [a] 0 = some (cp, 1) := by
          have hascii : a < 0x80 := (width_bounds a.toBitVec).2.2 hn
          unfold utf8PeekNext at hpeek ⊢
          simpa [hascii] using hpeek
        rw [recoded_some hpeek', List.length_append] at hone
        have hlast := length_recoded_one htext a'
        rw [hsome, List.length_append]
        simp only [List.drop_succ_cons, List.drop_zero] at hone ⊢
        rw [hlast]
        exact congrArg (· + 1) hone
      · -- one sequence of two bytes: the characters it writes hold no such lead byte
        obtain ⟨ds, hds⟩ := htext.chars cp
        have hrest : recoded text ([a, a'].drop 2) = [] := rfl
        rw [hsome, hrest, List.append_nil] at heq
        generalize hu : [a, a'] = u at h
        cases h with
        | nil => cases hu
        | @char c s' out' h =>
          rw [hu, @utf8PeekNext_char _ s' 0 c rfl] at hpeek
          have hsize : c.utf8Size = 2 := (Prod.mk.inj (Option.some.inj hpeek)).2
          have hall := congrArg List.length hu
          rw [List.length_append, String.length_utf8EncodeChar, hsize] at hall
          obtain rfl : s' = [] := List.length_eq_zero_iff.mp (Nat.add_left_cancel hall).symm
          rw [hu, recoded_char, List.length_append, List.length_append] at hlen
          have hnil : (recoded text []).length = 0 := rfl
          omega
        | stray hstray h =>
          obtain ⟨rfl, -⟩ := List.cons.inj hu
          rw [hds] at heq
          exact encode_lead (by omega) (not_continuation_of_width (by omega)) heq

/-- The loop maps the characters and keeps the rest exactly where it decodes only encodings of
characters. -/
theorem caseMapped_recoded_iff (htext : WritesChars text) (s : Bytes) :
    CaseMapped text s (recoded text s) ↔ WellDecoded s := by
  refine ⟨?_, WellDecoded.caseMapped⟩
  induction hlen : s.length using Nat.strong_induction_on generalizing s with
  | _ len ih =>
    subst hlen
    intro h
    generalize hout : recoded text s = out at h
    cases h with
    | nil => exact .nil
    | @char c s out h =>
      have hsize := c.utf8Size_pos
      rw [recoded_char] at hout
      obtain rfl := List.append_cancel_left hout
      refine .char c (ih _ ?_ s rfl h)
      rw [List.length_append, String.length_utf8EncodeChar]
      omega
    | @stray b s out hstray h =>
      cases hpeek : utf8PeekNext (b :: s) 0 with
      | none =>
        rw [recoded_none hpeek] at hout
        obtain ⟨-, rfl⟩ := List.cons.inj hout
        exact .raw hpeek (ih _ (by simp) s rfl h)
      | some next =>
        exfalso
        obtain ⟨cp, n⟩ := next
        obtain ⟨b', tl, hs, hwidth, hpos, hle⟩ := utf8PeekNext_some hpeek
        obtain ⟨rfl, rfl⟩ := List.cons.inj hs
        obtain ⟨ds, hds⟩ := htext.chars cp
        rw [recoded_some hpeek, hds] at hout
        cases ds with
        | cons d ds =>
          rw [encode_cons, List.append_assoc] at hout
          exact h.not_char htext hstray d _ hout.symm
        | nil =>
          -- the sequence is dropped, so the lead byte must come from what follows it
          rw [encode_nil, List.nil_append] at hout
          rcases recoded_lead htext (by omega) hout with ⟨c, tl, hc⟩ | ⟨dropped, u, hr, hu, rfl⟩
          · exact h.not_char htext hstray c tl (hout.symm.trans hc)
          · obtain ⟨k, rfl⟩ : ∃ k, n = k + 1 := ⟨n - 1, by omega⟩
            rw [List.drop_succ_cons] at hr
            have hsplit : s = (s.take k ++ dropped) ++ b :: u := by
              rw [List.append_assoc, ← hr, List.take_append_drop]
            rw [hsplit] at h
            obtain ⟨out₁, out₂, heq, hmapped, hne⟩ :=
              h.at_lead htext (not_continuation_of_width (by omega)) hu
            refine recoded_short htext hu hmapped (hne ?_) heq
            intro hnil
            rw [List.append_eq_nil_iff, List.take_eq_nil_iff] at hnil
            obtain ⟨rfl | rfl, rfl⟩ := hnil
            · rw [hwidth] at hu
              omega
            · rw [List.length_nil] at hle
              rw [hwidth] at hu
              omega

end

/-! ## The functions -/

/-- What `encode_utf8` writes is a character or nothing. -/
theorem exists_encodeUtf8 (cp : UInt32) : ∃ ds, encodeUtf8 cp = encode ds := by
  by_cases hvalid : cp.isValidChar
  · refine ⟨[⟨cp, hvalid⟩], ?_⟩
    rw [encode_cons, encode_nil, List.append_nil]
    exact encodeUtf8_char ⟨cp, hvalid⟩
  · refine ⟨[], ?_⟩
    unfold encodeUtf8
    by_cases hhigh : 0x10FFFF < cp
    · rw [if_pos hhigh]
      rfl
    · rw [if_neg hhigh, if_pos]
      · rfl
      · by_contra hnot
        apply hvalid
        rw [UInt32.lt_iff_toNat_lt] at hhigh
        rw [UInt32.le_iff_toNat_le, UInt32.le_iff_toNat_le] at hnot
        have hmax : (0x10FFFF : UInt32).toNat = 0x10FFFF := rfl
        have hfirst : (0xD800 : UInt32).toNat = 0xD800 := rfl
        have hlast : (0xDFFF : UInt32).toNat = 0xDFFF := rfl
        show cp.toNat < 0xD800 ∨ (0xDFFF < cp.toNat ∧ cp.toNat < 0x110000)
        omega

theorem exists_flatMap_encodeUtf8 (cps : List UInt32) :
    ∃ ds, cps.flatMap encodeUtf8 = encode ds := by
  induction cps with
  | nil => exact ⟨[], rfl⟩
  | cons cp cps ih =>
    obtain ⟨ds, hds⟩ := exists_encodeUtf8 cp
    obtain ⟨ds', hds'⟩ := ih
    exact ⟨ds ++ ds', by rw [List.flatMap_cons, hds, hds', encode_append]⟩

theorem length_encodeUtf8_ascii {v : UInt32} (h : v < 0x80) : (encodeUtf8 v).length = 1 := by
  rw [UInt32.lt_iff_toNat_lt] at h
  have hlow : v.toNat < 0x80 := h
  have hmax : ¬0x10FFFF < v := by
    rw [UInt32.lt_iff_toNat_lt]
    exact Nat.not_lt.mpr (Nat.le_trans (Nat.le_of_lt hlow) (by decide))
  have hsurrogate : ¬(0xD800 ≤ v ∧ v ≤ 0xDFFF) := by
    rintro ⟨hge, -⟩
    rw [UInt32.le_iff_toNat_le] at hge
    have hfirst : (0xD800 : UInt32).toNat = 0xD800 := rfl
    omega
  rw [encodeUtf8, if_neg hmax, if_neg hsurrogate, if_pos (UInt32.lt_iff_toNat_lt.mpr h)]
  rfl

/-- Mapping an ASCII letter by 32 stays in ASCII. -/
theorem shifted_lt {cp : UInt32} (h : cp < 0x80) :
    (if 0x61 ≤ cp ∧ cp ≤ 0x7A then cp - 32 else cp) < 0x80 ∧
      (if 0x41 ≤ cp ∧ cp ≤ 0x5A then cp + 32 else cp) < 0x80 := by
  have hcp : cp.toNat < 0x80 := UInt32.lt_iff_toNat_lt.mp h
  have hshift : (32 : UInt32).toNat = 32 := rfl
  constructor
  · split
    · rename_i hletter
      have hge : 0x61 ≤ cp.toNat := UInt32.le_iff_toNat_le.mp hletter.1
      have hle : (32 : UInt32) ≤ cp := by
        rw [UInt32.le_iff_toNat_le]
        omega
      rw [UInt32.lt_iff_toNat_lt, UInt32.toNat_sub_of_le _ _ hle]
      have hbound : (0x80 : UInt32).toNat = 0x80 := rfl
      omega
    · exact h
  · split
    · rename_i hletter
      have hle : cp.toNat ≤ 0x5A := UInt32.le_iff_toNat_le.mp hletter.2
      rw [UInt32.lt_iff_toNat_lt, UInt32.toNat_add]
      have hbound : (0x80 : UInt32).toNat = 0x80 := rfl
      omega
    · exact h

/-- The text of a codepoint in `snobol_upper`. -/
def upperText (T : FoldTables) (cp : UInt32) : Bytes := (snobolToUpperCp T cp).flatMap encodeUtf8

/-- The text of a codepoint in `snobol_lower`. -/
def lowerText (T : FoldTables) (cp : UInt32) : Bytes := encodeUtf8 (snobolToLowerCp T cp)

theorem encode_ne_nil {ds : List Char} (h : ds ≠ []) : encode ds ≠ [] :=
  fun hnil => h (encode_injective hnil)

theorem writesChars_upperText (T : FoldTables) : WritesChars (upperText T) where
  chars cp := exists_flatMap_encodeUtf8 _
  ne_nil c := by
    obtain ⟨hne, hvalid⟩ := snobolToUpperCp_valid T c
    obtain ⟨us, hus⟩ := exists_chars hvalid
    rw [upperText, ← hus, flatMap_encodeUtf8]
    refine encode_ne_nil fun hnil => hne ?_
    rw [← hus, hnil, List.map_nil]
  ascii cp h := by
    rw [upperText, snobolToUpperCp, if_pos h, List.flatMap_singleton]
    exact length_encodeUtf8_ascii (shifted_lt h).1

theorem writesChars_lowerText (T : FoldTables) : WritesChars (lowerText T) where
  chars cp := exists_encodeUtf8 _
  ne_nil c := by
    rw [lowerText, encodeUtf8_char ⟨_, snobolToLowerCp_valid T c⟩]
    obtain ⟨b, tl, henc, -⟩ := encodeChar_cons ⟨_, snobolToLowerCp_valid T c⟩
    rw [henc]
    exact List.cons_ne_nil _ _
  ascii cp h := by
    rw [lowerText, snobolToLowerCp, if_pos h]
    exact length_encodeUtf8_ascii (shifted_lt h).2

/-- Where no character of the bytes has another text, mapping gives the bytes themselves. -/
theorem CaseMapped.eq_self {text : UInt32 → Bytes} {s out : Bytes} (h : CaseMapped text s out)
    (huncased : ∀ c : Char, String.utf8EncodeChar c <:+: s → text c.val = String.utf8EncodeChar c) :
    out = s := by
  induction h with
  | nil => rfl
  | char c h ih =>
    rw [huncased c (List.prefix_append _ _).isInfix, ih]
    intro d hd
    exact huncased d (hd.trans (List.suffix_append _ _).isInfix)
  | stray hstray h ih =>
    rw [ih]
    intro d hd
    exact huncased d (hd.trans (List.suffix_cons _ _).isInfix)

theorem caseMapped_snobolUpper_iff (T : FoldTables) (s : Bytes) :
    CaseMapped (upperText T) s (snobolUpper T s) ↔ WellDecoded s := by
  have hupper := caseMapped_recoded_iff (writesChars_upperText T) s
  rwa [← mapCps_eq_recoded] at hupper

theorem caseMapped_snobolLower_iff (T : FoldTables) (s : Bytes) :
    CaseMapped (lowerText T) s (snobolLower T s) ↔ WellDecoded s := by
  have hlower := caseMapped_recoded_iff (writesChars_lowerText T) s
  rwa [← mapCps_eq_recoded] at hlower

/-- `UPPER` and `LOWER` replace the characters and keep every other byte, in order, exactly on
the bytes of which they decode only encodings of characters. -/
theorem caseFns_lossless_iff (T : FoldTables) (s : Bytes) :
    (CaseMapped (upperText T) s (snobolUpper T s) ↔ WellDecoded s) ∧
      (CaseMapped (lowerText T) s (snobolLower T s) ↔ WellDecoded s) :=
  ⟨caseMapped_snobolUpper_iff T s, caseMapped_snobolLower_iff T s⟩

/-- `UPPER` gives back bytes without a character that has an upper case. -/
theorem snobolUpper_eq_self {T : FoldTables} {s : Bytes} (h : WellDecoded s)
    (huncased : ∀ c : Char, String.utf8EncodeChar c <:+: s →
      upperText T c.val = String.utf8EncodeChar c) : snobolUpper T s = s :=
  ((caseMapped_snobolUpper_iff T s).mpr h).eq_self huncased

/-- `LOWER` gives back bytes without a character that has a lower case. -/
theorem snobolLower_eq_self {T : FoldTables} {s : Bytes} (h : WellDecoded s)
    (huncased : ∀ c : Char, String.utf8EncodeChar c <:+: s →
      lowerText T c.val = String.utf8EncodeChar c) : snobolLower T s = s :=
  ((caseMapped_snobolLower_iff T s).mpr h).eq_self huncased

/-- The tables without the entries behind Latin-1. -/
def latinTables : FoldTables where
  bmpUpperToLower := []
  bmpLowerToUpper := []
  multiCharExpansions := []
  lower_valid := by simp
  upper_valid := by simp
  expansion_valid := by simp

/-- The encoding of a surrogate is no character, and both functions drop its bytes. -/
theorem surrogate_dropped :
    snobolUpper latinTables [0xED, 0xA0, 0x80] = [] ∧
      snobolLower latinTables [0xED, 0xA0, 0x80] = [] ∧
      ¬CaseMapped (upperText latinTables) [0xED, 0xA0, 0x80]
        (snobolUpper latinTables [0xED, 0xA0, 0x80]) ∧
      ¬CaseMapped (lowerText latinTables) [0xED, 0xA0, 0x80]
        (snobolLower latinTables [0xED, 0xA0, 0x80]) := by
  have hupper : snobolUpper latinTables [0xED, 0xA0, 0x80] = [] := by decide +kernel
  have hlower : snobolLower latinTables [0xED, 0xA0, 0x80] = [] := by decide +kernel
  have hnot : ∀ {text : UInt32 → Bytes}, WritesChars text →
      ¬CaseMapped text [0xED, 0xA0, 0x80] [] := by
    intro text htext h
    generalize hs : ([0xED, 0xA0, 0x80] : Bytes) = s at h
    generalize hout : ([] : Bytes) = out at h
    cases h with
    | nil => cases hs
    | char c h => exact htext.ne_nil c (List.append_eq_nil_iff.mp hout.symm).1
    | stray hstray h => cases hout
  rw [hupper, hlower]
  exact ⟨rfl, rfl, hnot (writesChars_upperText _), hnot (writesChars_lowerText _)⟩

end Snobol4
