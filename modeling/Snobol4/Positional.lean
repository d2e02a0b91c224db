import Snobol4.StringFn

/-!
# Positional — `POS`, `RPOS`, `TAB`, `RTAB` (`vm_exec.c`)

The handlers find the codepoint they count to by skipping continuation bytes, from either
end of the subject, and stop at the other end.  On a text the offset they compute is that of
the codepoint, or of the end they ran into, so they obey the laws of SNOBOL but where that
end is taken for the codepoint.
-/

namespace Snobol4

open Utf8

variable {W : Type}

/-! ## Whole characters -/

namespace Sees

variable {s : Bytes} {pos : Nat} {c : Char} {rest : List Char}

/-- The byte at a character is not inside one. -/
theorem stops (h : Sees s pos rest) {b : UInt8} (hb : s[pos]? = some b) :
    Snobol4.isContinuation b = false := by
  rw [← List.head?_drop, h.bytes] at hb
  cases rest with
  | nil => cases hb
  | cons c rest =>
    obtain ⟨first, tail, henc, hcont, -, -⟩ := encodeChar_cons c
    rw [encode_cons, henc] at hb
    cases hb
    exact hcont

/-- The other bytes of the character are. -/
theorem inner (h : Sees s pos (c :: rest)) {i : Nat} (hi : 0 < i) (hlt : i < c.utf8Size) :
    (s[pos + i]?).any Snobol4.isContinuation = true := by
  obtain ⟨first, tail, henc, -, -, htail⟩ := encodeChar_cons c
  have hlen : c.utf8Size = tail.length + 1 := by
    rw [← String.length_utf8EncodeChar, henc, List.length_cons]
  obtain ⟨k, rfl⟩ : ∃ k, i = k + 1 := ⟨i - 1, by omega⟩
  have hk : k < tail.length := by omega
  have hget : s[pos + (k + 1)]? = some tail[k] := by
    rw [← List.getElem?_drop, h.bytes, encode_cons, henc, List.cons_append,
      List.getElem?_cons_succ, List.getElem?_append_left hk, List.getElem?_eq_getElem hk]
  rw [hget, Option.any_some]
  exact htail _ (List.getElem_mem hk)

end Sees

/-- A run of bytes that satisfy the test up to one that does not, or to the end. -/
theorem spanBytes_eq {s : Bytes} {p : UInt8 → Bool} {start k : Nat}
    (hrun : ∀ i < k, (s[start + i]?).any p = true)
    (hstop : ∀ b, s[start + k]? = some b → p b = false) : spanBytes s p start = start + k := by
  rw [spanBytes_skip hrun]
  cases hb : s[start + k]? with
  | none => exact spanBytes_end p (List.getElem?_eq_none_iff.mp hb)
  | some b => exact spanBytes_here hb (hstop b hb)

/-- Stepping back from inside a character ends at its first byte. -/
theorem backOverContinuation_eq {s : Bytes} {start k : Nat}
    (hfirst : ∀ b, s[start]? = some b → isContinuation b = false)
    (hinner : ∀ i < k, (s[start + (i + 1)]?).any isContinuation = true) :
    backOverContinuation s (start + k) = start := by
  induction k with
  | zero =>
    cases start with
    | zero => rfl
    | succ start =>
      rw [Nat.add_zero, backOverContinuation, if_neg]
      intro hany
      obtain ⟨b, hb, hcont⟩ := exists_of_any hany
      rw [hfirst b hb] at hcont
      cases hcont
  | succ k ih =>
    have hlast : (s[start + k + 1]?).any isContinuation = true := hinner k (Nat.lt_succ_self k)
    rw [← Nat.add_assoc, backOverContinuation, if_pos hlast]
    exact ih fun i hi => hinner i (Nat.lt_succ_of_lt hi)

/-! ## Codepoint offsets -/

/-- The byte offset behind the first `k` codepoints. -/
def cpOffset (cs : List Char) (k : Nat) : Nat := (encode (cs.take k)).length

theorem cpOffset_length (cs : List Char) : cpOffset cs cs.length = (encode cs).length := by
  rw [cpOffset, List.take_length]

theorem cpOffset_of_length_le {cs : List Char} {k : Nat} (h : cs.length ≤ k) :
    cpOffset cs k = (encode cs).length := by
  rw [cpOffset, List.take_of_length_le h]

/-- A codepoint that is there starts before the end. -/
theorem cpOffset_lt {cs : List Char} {k : Nat} (h : k < cs.length) :
    cpOffset cs k < (encode cs).length := by
  have hsees := Sees.split (cs.take k) (cs.drop k)
  rw [List.take_append_drop, List.drop_eq_getElem_cons h] at hsees
  exact hsees.lt

/-- Counting forward from a character. -/
theorem forwardTarget_eq {s : Bytes} {pos : Nat} {rest : List Char} (h : Sees s pos rest)
    (n : Nat) : forwardTarget s n pos = pos + cpOffset rest n := by
  induction n generalizing pos rest with
  | zero => rfl
  | succ n ih =>
    cases rest with
    | nil =>
      rw [forwardTarget, if_neg h.not_lt]
      rfl
    | cons c rest =>
      have hsize := c.utf8Size_pos
      have hspan : spanBytes s isContinuation (pos + 1) = pos + 1 + (c.utf8Size - 1) := by
        refine spanBytes_eq ?_ ?_
        · intro i hi
          rw [Nat.add_assoc]
          exact h.inner (by omega) (by omega)
        · intro b hb
          refine h.tail.stops ?_
          rwa [show pos + c.utf8Size = pos + 1 + (c.utf8Size - 1) by omega]
      have hnext : pos + 1 + (c.utf8Size - 1) = pos + c.utf8Size := by omega
      rw [forwardTarget, if_pos h.lt, hspan, hnext, ih h.tail, cpOffset, cpOffset,
        List.take_succ_cons, encode_cons, List.length_append, String.length_utf8EncodeChar,
        Nat.add_assoc]

/-- Counting back from behind the characters `cs`. -/
theorem backwardTarget_eq (cs rest : List Char) (n : Nat) :
    backwardTarget (encode (cs ++ rest)) n (encode cs).length = cpOffset cs (cs.length - n) := by
  induction n generalizing cs rest with
  | zero => rw [backwardTarget, Nat.sub_zero, cpOffset_length]
  | succ n ih =>
    obtain rfl | ⟨ds, c, rfl⟩ := List.eq_nil_or_concat' cs
    · simp [backwardTarget, cpOffset]
    · have hsees := Sees.split ds (c :: rest)
      have hsize := c.utf8Size_pos
      have hlength : (encode (ds ++ [c])).length = (encode ds).length + (c.utf8Size - 1) + 1 := by
        rw [encode_append, List.length_append, encode_cons, encode_nil, List.append_nil,
          String.length_utf8EncodeChar]
        omega
      have hback : backOverContinuation (encode (ds ++ (c :: rest)))
          ((encode ds).length + (c.utf8Size - 1)) = (encode ds).length :=
        backOverContinuation_eq (fun b hb => hsees.stops hb)
          fun i hi => hsees.inner (Nat.succ_pos i) (by omega)
      have hcount : (ds ++ [c]).length - (n + 1) = ds.length - n := by
        rw [List.length_append, List.length_singleton]
        omega
      rw [hlength, List.append_assoc, List.singleton_append, backwardTarget, hback, ih, hcount,
        cpOffset, cpOffset, List.take_append_of_le_length (Nat.sub_le ..)]

/-- The offset of `OP_POS` and `OP_TAB` is that of the codepoint or of the end. -/
theorem posTarget_encode (cs : List Char) (n : Nat) : posTarget (encode cs) n = cpOffset cs n := by
  rw [posTarget, forwardTarget_eq (.start cs), Nat.zero_add]

/-- The offset of `OP_RPOS` and `OP_RTAB` is that of the codepoint or of the start. -/
theorem rposTarget_encode (cs : List Char) (n : Nat) :
    rposTarget (encode cs) n = cpOffset cs (cs.length - n) := by
  have hback := backwardTarget_eq cs [] n
  rwa [List.append_nil] at hback

/-! ## The laws -/

/-- The primitives that look at the cursor. -/
inductive PosOp where
  | pos
  | rpos
  | tab
  | rtab
  deriving Repr, DecidableEq

namespace PosOp

/-- The instruction. -/
def countOp : PosOp → CountOp
  | pos => .pos
  | rpos => .rpos
  | tab => .tab
  | rtab => .rtab

/-- Where the law of SNOBOL moves the cursor on the text `cs`. -/
def law (cs : List Char) (cursor n : Nat) : PosOp → Option Nat
  | pos => if n ≤ cs.length ∧ cursor = cpOffset cs n then some cursor else none
  | rpos => if n ≤ cs.length ∧ cursor = cpOffset cs (cs.length - n) then some cursor else none
  | tab => if n ≤ cs.length ∧ cursor ≤ cpOffset cs n then some (cpOffset cs n) else none
  | rtab =>
      if n ≤ cs.length ∧ cursor ≤ cpOffset cs (cs.length - n) then
        some (cpOffset cs (cs.length - n))
      else none

/-- The end that the scan of the handler runs into decides: the cursor stands at it and there
are fewer than `n` codepoints, or `TAB` takes the end of the subject for a position beyond it. -/
def Clamped (cs : List Char) (cursor n : Nat) : PosOp → Prop
  | pos => cs.length < n ∧ cursor = (encode cs).length
  | rpos | rtab => cs.length < n ∧ cursor = 0
  | tab => n = cs.length ∧ 0 < n ∧ cursor ≤ (encode cs).length

/-- The handlers compute the law but at the ends. -/
theorem matchCount_eq_law_iff (op : PosOp) (cs : List Char) (cursor n : Nat) :
    matchCount (encode cs) cursor op.countOp n = op.law cs cursor n ↔ ¬op.Clamped cs cursor n := by
  rcases Nat.lt_or_ge cs.length n with hlt | hle
  · -- fewer codepoints than counted: the scans end at an end of the subject
    have hzero : cs.length - n = 0 := by omega
    have hnot : ¬n ≤ cs.length := by omega
    have hstart : cpOffset cs 0 = 0 := rfl
    cases op with
    | pos =>
      simp [countOp, matchCount, law, Clamped, posTarget_encode, cpOffset_of_length_le (Nat.le_of_lt hlt), hlt,
        hnot]
    | rpos => simp [countOp, matchCount, law, Clamped, rposTarget_encode, hzero, hstart, hlt, hnot]
    | rtab =>
      simp [countOp, matchCount, law, Clamped, rposTarget_encode, hzero, hstart, hlt, hnot,
        Nat.pos_iff_ne_zero]
    | tab =>
      have hpos : 0 < n := by omega
      have hne : n ≠ cs.length := by omega
      simp [countOp, matchCount, law, Clamped, posTarget_encode, cpOffset_of_length_le (Nat.le_of_lt hlt), hnot,
        hpos, hne]
  · have hnot : ¬cs.length < n := by omega
    cases op with
    | pos => simp [countOp, matchCount, law, Clamped, posTarget_encode, hle, hnot]
    | rpos => simp [countOp, matchCount, law, Clamped, rposTarget_encode, hle, hnot]
    | rtab =>
      simp only [countOp, matchCount, law, Clamped, rposTarget_encode, hle, hnot, true_and,
        false_and, not_false_eq_true, iff_true]
      by_cases hcursor : cursor ≤ cpOffset cs (cs.length - n)
      · rw [if_neg (by omega), if_pos hcursor]
      · rw [if_pos (by omega), if_neg hcursor]
    | tab =>
      simp only [countOp, matchCount, law, Clamped, posTarget_encode, hle, true_and]
      rcases Nat.lt_or_eq_of_le hle with hinside | rfl
      · -- inside the subject the two tests of the handler are those of the law
        have hoffset := cpOffset_lt hinside
        rw [if_neg (by omega)]
        by_cases hcursor : cursor ≤ cpOffset cs n
        · rw [if_neg (by omega), if_pos hcursor]
          simp
          omega
        · rw [if_pos (by omega), if_neg hcursor]
          simp
          omega
      · -- at the length of the subject the first test fails whatever the cursor
        rw [cpOffset_length]
        by_cases hzero : cs.length = 0
        · rw [hzero, if_neg (by omega)]
          by_cases hcursor : cursor ≤ (encode cs).length
          · rw [if_neg (by omega), if_pos hcursor]
            simp
          · rw [if_pos (by omega), if_neg hcursor]
            simp
        · rw [if_pos (by omega)]
          by_cases hcursor : cursor ≤ (encode cs).length
          · rw [if_pos hcursor]
            simp
            omega
          · rw [if_neg hcursor]
            simp
            omega

end PosOp

/-- Move the cursor, or fail. -/
def Vm.moveCursor (vm : Vm W) : Option Nat → StepResult W
  | some pos => .running { vm with pos }
  | none => vm.backtrack

/-- Moving and failing leave different stacks. -/
theorem Vm.moveCursor_injective (vm : Vm W) : Function.Injective vm.moveCursor := by
  have hfails : ∀ pos, vm.moveCursor (some pos) ≠ vm.moveCursor none := by
    intro pos heq
    simp only [Vm.moveCursor, Vm.backtrack] at heq
    split at heq
    · cases heq
    · rename_i c rest hchoices
      injection heq with heq
      have hstack := congrArg (fun v => v.choices.length) heq
      simp only [Vm.restore, hchoices, List.length_cons] at hstack
      omega
  intro a b heq
  cases a with
  | none =>
    cases b with
    | none => rfl
    | some pos => exact absurd heq.symm (hfails pos)
  | some pos =>
    cases b with
    | none => exact absurd heq (hfails pos)
    | some pos' =>
      simp only [Vm.moveCursor] at heq
      injection heq with heq
      exact congrArg (fun v => some v.pos) heq

/-- A turn of the loop at an instruction that counts codepoints. -/
theorem vmStep_count {env : VmEnv W} {vm : Vm W} {op : CountOp} {n next : Nat}
    (hfetch : fetch env.bc vm.ip = some (.prim (.count op n), next)) :
    vmStep env vm = { vm with ip := next }.moveCursor (matchCount env.s vm.pos op n) := by
  rw [vmStep, hfetch]
  simp only [Prim.exec]
  cases matchCount env.s vm.pos op n with
  | none => rfl
  | some pos =>
    simp only [moveTo, Vm.apply, Vm.moveCursor, Store.record]
    split <;> rfl

/-- On a text the positional primitives of `vm_run` obey their laws exactly where the scan
does not take an end of the subject for the codepoint it counts to. -/
theorem vmStep_positional_iff {env : VmEnv W} {vm : Vm W} {cs : List Char} {op : PosOp}
    {n next : Nat} (hs : env.s = encode cs)
    (hfetch : fetch env.bc vm.ip = some (.prim (.count op.countOp n), next)) :
    vmStep env vm = { vm with ip := next }.moveCursor (op.law cs vm.pos n) ↔
      ¬op.Clamped cs vm.pos n := by
  rw [vmStep_count hfetch, hs, (Vm.moveCursor_injective _).eq_iff]
  exact op.matchCount_eq_law_iff cs vm.pos n

/-- The code of `TAB(2)`. -/
def tabTwo : Bytes := [OpCode.tab.code, 0, 0, 0, 2, OpCode.accept.code]

/-- From the start of `ab`, `TAB(2)` does not move to the end. -/
theorem tab_fails_at_length :
    vmStep (VmEnv.ofCode tabTwo (encode ['a', 'b']) .bare) (.zero ⟨[], ()⟩) ≠
      { (Vm.zero ⟨[], ()⟩ : Vm Unit) with ip := 5 }.moveCursor
        (PosOp.law ['a', 'b'] 0 2 .tab) := by
  have hfetch : fetch tabTwo 0 = some (.prim (.count .tab 2), 5) := by decide
  rw [vmStep_count hfetch, (Vm.moveCursor_injective _).ne_iff]
  decide

theorem vmStep_positional_tabTwo :
    vmStep (VmEnv.ofCode tabTwo (encode ['a', 'b', 'c']) .bare) (.zero ⟨[], ()⟩) =
      { (Vm.zero ⟨[], ()⟩ : Vm Unit) with ip := 5 }.moveCursor
        (PosOp.law ['a', 'b', 'c'] 0 2 .tab) := by
  have hfetch : fetch tabTwo 0 = some (.prim (.count PosOp.tab.countOp 2), 5) := by decide
  refine (vmStep_positional_iff rfl hfetch).mpr ?_
  rintro ⟨hlen, -⟩
  cases hlen

end Snobol4
