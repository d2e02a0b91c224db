import Mathlib.Init

/-!
# Bytes — byte strings and the UTF-8 decoder (`vm.h`)

Texts, subjects and bytecode are lists of bytes; a C pointer with its length is the
list it spans.
-/

namespace Snobol4

/-- A byte string: source text, subject, bytecode, name. -/
abbrev Bytes := List UInt8

/-- The bytes of an ASCII text of the source. -/
def ascii (s : String) : Bytes := s.toList.map fun c => UInt8.ofNat c.toNat

/-- The bytes `s[start .. stop)`. -/
def slice (s : Bytes) (start stop : Nat) : Bytes := (s.drop start).take (stop - start)

/-- The end of the run of bytes that satisfy `p` from `pos` on. -/
def spanBytes (s : Bytes) (p : UInt8 → Bool) (pos : Nat) : Nat :=
  pos + ((s.drop pos).takeWhile p).length

/-- `utf8_peek_next`: the codepoint at `pos` and the number of bytes it takes, or
nothing at the end or at a byte that starts no sequence.  Continuation bytes are
masked, not checked. -/
def utf8PeekNext (s : Bytes) (pos : Nat) : Option (UInt32 × Nat) :=
  match s.drop pos with
  | [] => none
  | c :: rest =>
      let tail (b : UInt8) : UInt32 := (b &&& 0x3F).toUInt32
      if c < 0x80 then some (c.toUInt32, 1)
      else if c &&& 0xE0 = 0xC0 then
        match rest with
        | b₁ :: _ => some ((c &&& 0x1F).toUInt32 <<< 6 ||| tail b₁, 2)
        | _ => none
      else if c &&& 0xF0 = 0xE0 then
        match rest with
        | b₁ :: b₂ :: _ =>
            some ((c &&& 0x0F).toUInt32 <<< 12 ||| tail b₁ <<< 6 ||| tail b₂, 3)
        | _ => none
      else if c &&& 0xF8 = 0xF0 then
        match rest with
        | b₁ :: b₂ :: b₃ :: _ =>
            some ((c &&& 0x07).toUInt32 <<< 18 ||| tail b₁ <<< 12 ||| tail b₂ <<< 6 ||| tail b₃, 4)
        | _ => none
      else none

/-- The byte at which a span ends. -/
theorem getElem?_spanBytes (s : Bytes) (p : UInt8 → Bool) (pos : Nat) :
    s[spanBytes s p pos]? = ((s.drop pos).dropWhile p).head? := by
  calc s[spanBytes s p pos]?
      = (s.drop pos)[((s.drop pos).takeWhile p).length]? := by
        rw [spanBytes, List.getElem?_drop]
    _ = ((s.drop pos).takeWhile p ++ (s.drop pos).dropWhile p)[
          ((s.drop pos).takeWhile p).length]? := by rw [List.takeWhile_append_dropWhile]
    _ = ((s.drop pos).dropWhile p).head? := by
        rw [List.getElem?_append_right (Nat.le_refl _), Nat.sub_self, List.head?_eq_getElem?]

/-- The byte at which a span ends does not satisfy the test. -/
theorem spanBytes_stop {s : Bytes} {p : UInt8 → Bool} {pos : Nat} {b : UInt8}
    (h : s[spanBytes s p pos]? = some b) : p b = false := by
  rw [getElem?_spanBytes] at h
  have hnot := List.head?_dropWhile_not p (s.drop pos)
  rw [h] at hnot
  simpa using hnot

/-- A byte that satisfies the test continues the run. -/
theorem spanBytes_more {s : Bytes} {p : UInt8 → Bool} {pos : Nat} {b : UInt8} (h : s[pos]? = some b)
    (hp : p b = true) : spanBytes s p pos = spanBytes s p (pos + 1) := by
  obtain ⟨hlt, rfl⟩ := List.getElem?_eq_some_iff.mp h
  rw [spanBytes, List.drop_eq_getElem_cons hlt, List.takeWhile_cons_of_pos hp, List.length_cons,
    spanBytes]
  omega

/-- Any other byte ends it. -/
theorem spanBytes_here {s : Bytes} {p : UInt8 → Bool} {pos : Nat} {b : UInt8} (h : s[pos]? = some b)
    (hp : p b = false) : spanBytes s p pos = pos := by
  obtain ⟨hlt, rfl⟩ := List.getElem?_eq_some_iff.mp h
  rw [spanBytes, List.drop_eq_getElem_cons hlt, List.takeWhile_cons_of_neg (by rw [hp]; decide)]
  rfl

theorem exists_of_any {α : Type} {p : α → Bool} {o : Option α} (h : o.any p = true) :
    ∃ a, o = some a ∧ p a = true := by
  cases o with
  | none => cases h
  | some a => exact ⟨a, rfl, h⟩

/-- A run of bytes that pass the test is stepped over. -/
theorem spanBytes_skip {s : Bytes} {p : UInt8 → Bool} {pos k : Nat}
    (h : ∀ i < k, (s[pos + i]?).any p = true) : spanBytes s p pos = spanBytes s p (pos + k) := by
  induction k generalizing pos with
  | zero => rfl
  | succ k ih =>
    obtain ⟨b, hb, hp⟩ := exists_of_any (h 0 (Nat.succ_pos k))
    rw [Nat.add_zero] at hb
    rw [spanBytes_more hb hp, ih, Nat.add_assoc, Nat.add_comm 1]
    intro i hi
    have hnext := h (i + 1) (Nat.succ_lt_succ hi)
    rwa [Nat.add_comm i, ← Nat.add_assoc] at hnext

theorem spanBytes_end {s : Bytes} (p : UInt8 → Bool) {pos : Nat} (h : s.length ≤ pos) :
    spanBytes s p pos = pos := by
  rw [spanBytes, List.drop_of_length_le h]
  rfl

/-- A run in what follows an offset. -/
theorem spanBytes_drop (s : Bytes) (p : UInt8 → Bool) (offset pos : Nat) :
    spanBytes s p (offset + pos) = offset + spanBytes (s.drop offset) p pos := by
  rw [spanBytes, spanBytes, List.drop_drop, Nat.add_assoc]

end Snobol4
