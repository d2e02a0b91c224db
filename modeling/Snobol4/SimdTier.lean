import Snobol4.Compiler
import Snobol4.MatchingProgress
import Snobol4.StraightLine

/-!
# SimdTier — the class automaton of single class instructions (`search_simd.c`)

For code that is one `OP_SPAN`, `OP_BREAK`, `OP_ANY` or `OP_NOTANY` with nothing but a
terminator behind it, the tier builds an automaton of two states over the bytes of the
class and searches with it, without the VM.
-/

namespace Snobol4

variable {W : Type}

/-! ## Eligibility -/

/-- The terminator that the loop of `check_simd_eligible` finds from `ip` on. -/
def simdTerminator (bc : Bytes) : Nat → Nat → Option LineEnd
  | 0, _ => none
  | fuel + 1, ip =>
      match bc[ip]?.bind OpCode.ofByte with
      | some .accept => some .accepted
      | some .fail => some .failed
      | some .abort => some .aborted
      | some .succeed => some .accepted
      | some .nop => simdTerminator bc fuel (ip + 1)
      | _ => none

/-- The class instructions. -/
def OpCode.setOp : OpCode → Option SetOp
  | .span => some .span
  | .break => some .break
  | .any => some .any
  | .notany => some .notany
  | _ => none

/-- The class instruction at the start of the code. -/
def simdRoot (bc : Bytes) : Option SetOp := (bc[0]?.bind OpCode.ofByte).bind OpCode.setOp

/-- `check_simd_eligible` -/
def checkSimdEligible (bc : Bytes) : Bool :=
  decide (2 ≤ bc.length) && (simdRoot bc).isSome && (simdTerminator bc bc.length 3).isSome

/-! ## The automaton -/

/-- `simd_nfa_trans_t` -/
structure SimdNfaState where
  charMask : UInt8 → Bool
  nextState : Nat
  isAccept : Bool
  isSplit : Bool

/-- `simd_nfa_t` -/
structure SimdNfa where
  states : List SimdNfaState
  startState : Nat
  isSpan : Bool
  isBreak : Bool
  isAny : Bool

/-- The accepting state. -/
def simdAccept : SimdNfaState := ⟨fun _ => false, 0, true, false⟩

/-- The automaton of `OP_SPAN`: state 0 stays on class bytes. -/
def spanNfa (mask : UInt8 → Bool) : SimdNfa where
  states := [⟨mask, 0, false, false⟩, simdAccept]
  startState := 0
  isSpan := true
  isBreak := false
  isAny := false

/-- The automaton of `OP_BREAK`: state 0 stays on the other bytes. -/
def breakNfa (mask : UInt8 → Bool) : SimdNfa where
  states := [⟨fun b => !mask b, 0, false, false⟩, simdAccept]
  startState := 0
  isSpan := false
  isBreak := true
  isAny := false

/-- The automaton of `OP_ANY`, and of `OP_NOTANY` with the inverted mask. -/
def anyNfa (mask : UInt8 → Bool) : SimdNfa where
  states := [⟨mask, 1, false, false⟩, simdAccept]
  startState := 0
  isSpan := false
  isBreak := false
  isAny := true

/-- The automaton of a class instruction over the bytes of its class. -/
def setNfa (mask : UInt8 → Bool) : SetOp → SimdNfa
  | .span => spanNfa mask
  | .break => breakNfa mask
  | .any => anyNfa mask
  | .notany => anyNfa fun b => !mask b

/-- The id of the class at the start of the code. -/
def simdSetId (bc : Bytes) : Nat := (readU16 bc 1).1

/-- `build_nfa_masks` -/
def buildNfaMasks (env : VmEnv W) : Option SimdNfa := do
  let op ← simdRoot env.bc
  if env.bc.length < 3 then none
  let ranges ← env.ranges (simdSetId env.bc)
  if ranges = [] then none
  let mask ← rangesToBitmap 255 ranges
  some (setNfa mask op)

namespace SimdNfa

/-- The states that state `i` of the set `state` leads to on a byte. -/
def transition (nfa : SimdNfa) (state : Nat) (byte : UInt8) (i : Nat) : Nat :=
  if state.testBit i then
    match nfa.states[i]? with
    | none => 0
    | some st =>
        if st.isAccept then 1 <<< i
        else if st.isSplit then 1 <<< st.nextState
        else if st.charMask byte then
          if st.nextState = i then 1 <<< i
          else if st.nextState < nfa.states.length then 1 <<< st.nextState
          else 0
        else 0
  else 0

/-- The next state set. -/
def next (nfa : SimdNfa) (state : Nat) (byte : UInt8) : Nat :=
  (List.range nfa.states.length).foldl (fun set i => set ||| nfa.transition state byte i) 0

/-- An accepting state is in the set. -/
def accepts (nfa : SimdNfa) (state : Nat) : Bool :=
  (List.range nfa.states.length).any fun i =>
    state.testBit i && (nfa.states[i]?).any (·.isAccept)

/-- How the loop of `simd_nfa_exec_scalar` ends. -/
inductive ScalarEnd where
  | accepted (stop : Nat)
  | ended (offset state : Nat)
  deriving Repr, DecidableEq

/-- The loop of `simd_nfa_exec_scalar`; `fuel` bytes are left. -/
def scalarLoop (nfa : SimdNfa) (s : Bytes) : Nat → Nat → Nat → ScalarEnd
  | 0, offset, state => .ended offset state
  | fuel + 1, offset, state =>
      match s[offset]? with
      | none => .ended offset state
      | some byte =>
          if nfa.accepts (nfa.next state byte) then .accepted (offset + 1)
          else if nfa.next state byte = 0 then .ended (offset + 1) 0
          else scalarLoop nfa s fuel (offset + 1) (nfa.next state byte)

/-- What `simd_nfa_exec_scalar` makes of the end of its loop. -/
def scalarStop (nfa : SimdNfa) (s : Bytes) (start : Nat) : ScalarEnd → Option Nat
  | .accepted stop => some stop
  | .ended offset state =>
      if nfa.accepts state then some offset
      else if nfa.isSpan = true ∧ start < offset ∧ (state ≠ 0 ∨ start + 1 < offset) then
        some (if state = 0 then offset - 1 else offset)
      else if nfa.isBreak then
        some (if state = 0 ∧ offset ≠ start ∧ offset ≤ s.length then offset - 1 else offset)
      else none

/-- `simd_nfa_exec_scalar`: the end of the match at `start`. -/
def execScalar (nfa : SimdNfa) (s : Bytes) (start : Nat) : Option Nat :=
  nfa.scalarStop s start (nfa.scalarLoop s (s.length - start) start (1 <<< nfa.startState))

/-- The byte can begin a match. -/
def begins (nfa : SimdNfa) (byte : UInt8) : Bool := (nfa.states[0]?).any (·.charMask byte)

/-- The scan of `tier_simd_nfa`; `fuel` bytes are left. -/
def scan (nfa : SimdNfa) (s : Bytes) : Nat → Nat → Option (Nat × Nat)
  | 0, _ => none
  | fuel + 1, offset =>
      match s[offset]? with
      | none => none
      | some byte =>
          if nfa.begins byte then
            match nfa.execScalar s offset with
            | some stop => some (offset, stop)
            | none => scan nfa s fuel (offset + 1)
          else scan nfa s fuel (offset + 1)

/-- `tier_simd_nfa` with the scalar verifier. -/
def search (nfa : SimdNfa) (s : Bytes) (start : Nat) (anchored : Bool) : Option (Nat × Nat) :=
  if anchored || nfa.isBreak then (nfa.execScalar s start).map fun stop => (start, stop)
  else nfa.scan s (s.length - start) start

end SimdNfa

/-! ## The verifier -/

namespace SimdNfa

variable {nfa : SimdNfa} {s : Bytes} {mask : UInt8 → Bool} {target offset : Nat}

/-- From the start state a byte of the mask leads on, any other nowhere. -/
theorem next_start (hstates : nfa.states = [⟨mask, target, false, false⟩, simdAccept])
    (htarget : target < 2) (byte : UInt8) :
    nfa.next 1 byte = if mask byte then 1 <<< target else 0 := by
  have hbit : Nat.testBit 1 1 = false := rfl
  unfold next
  rw [hstates]
  cases hmask : mask byte with
  | true =>
    rcases Nat.le_one_iff_eq_zero_or_eq_one.mp (Nat.le_of_lt_succ htarget) with rfl | rfl
    · simp [List.range_succ, transition, hstates, hmask, hbit]
    · simp [List.range_succ, transition, hstates, hmask, hbit]
  | false => simp [List.range_succ, transition, hstates, hmask, hbit]

theorem accepts_start (hstates : nfa.states = [⟨mask, target, false, false⟩, simdAccept]) :
    nfa.accepts 1 = false := by
  have hbit : Nat.testBit 1 1 = false := rfl
  unfold accepts
  rw [hstates]
  simp [List.range_succ, hbit]

theorem accepts_two (hstates : nfa.states = [⟨mask, target, false, false⟩, simdAccept]) :
    nfa.accepts 2 = true := by
  have hbit : Nat.testBit 2 1 = true := rfl
  unfold accepts
  rw [hstates]
  simp [List.range_succ, hbit, simdAccept]

theorem accepts_zero (nfa : SimdNfa) : nfa.accepts 0 = false := by
  unfold accepts
  simp

/-- A start state that leads to itself runs to the end of the bytes of its mask, and
reads the byte behind them. -/
theorem scalarLoop_stay (hstates : nfa.states = [⟨mask, 0, false, false⟩, simdAccept]) {n : Nat}
    (hn : s.length = offset + n) :
    nfa.scalarLoop s n offset 1 =
      if spanBytes s mask offset < s.length then .ended (spanBytes s mask offset + 1) 0
      else .ended s.length 1 := by
  induction n generalizing offset with
  | zero =>
    rw [spanBytes_end mask (by omega), if_neg (by omega), scalarLoop, hn]
    rfl
  | succ n ih =>
    obtain ⟨byte, hbyte⟩ : ∃ byte, s[offset]? = some byte :=
      ⟨_, List.getElem?_eq_getElem (show offset < s.length by omega)⟩
    rw [scalarLoop, hbyte]
    simp only
    rw [next_start hstates Nat.two_pos]
    cases hmask : mask byte with
    | true =>
      rw [if_pos rfl, Nat.one_shiftLeft, pow_zero, accepts_start hstates, spanBytes_more hbyte hmask,
        ← ih (by omega)]
      rfl
    | false =>
      rw [if_neg Bool.false_ne_true, accepts_zero, if_neg Bool.false_ne_true, if_pos rfl,
        spanBytes_here hbyte hmask, if_pos (by omega)]

/-- A start state that leads to the accepting state reads one byte. -/
theorem scalarLoop_advance (hstates : nfa.states = [⟨mask, 1, false, false⟩, simdAccept])
    (hle : offset ≤ s.length) :
    nfa.scalarLoop s (s.length - offset) offset 1 =
      match s[offset]? with
      | none => .ended offset 1
      | some byte => if mask byte then .accepted (offset + 1) else .ended (offset + 1) 0 := by
  cases hbyte : s[offset]? with
  | none =>
    have hlen := List.getElem?_eq_none_iff.mp hbyte
    rw [show s.length - offset = 0 by omega, scalarLoop]
  | some byte =>
    obtain ⟨hlt, -⟩ := List.getElem?_eq_some_iff.mp hbyte
    rw [show s.length - offset = s.length - offset - 1 + 1 by omega, scalarLoop, hbyte]
    simp only
    rw [next_start hstates Nat.one_lt_two]
    cases hmask : mask byte with
    | true =>
      rw [if_pos rfl, show 1 <<< 1 = 2 from rfl, accepts_two hstates]
      rfl
    | false =>
      rw [if_neg Bool.false_ne_true, accepts_zero]
      rfl

theorem execScalar_span (mask : UInt8 → Bool) (hle : offset ≤ s.length) :
    (spanNfa mask).execScalar s offset =
      if offset < spanBytes s mask offset then some (spanBytes s mask offset) else none := by
  have hstates : (spanNfa mask).states = [⟨mask, 0, false, false⟩, simdAccept] := rfl
  have hbounds := spanBytes_bounds s mask hle
  unfold execScalar
  rw [show (1 : Nat) <<< (spanNfa mask).startState = 1 from rfl,
    scalarLoop_stay hstates (by omega)]
  by_cases hend : spanBytes s mask offset < s.length
  · rw [if_pos hend, scalarStop, accepts_zero]
    by_cases hsome : offset < spanBytes s mask offset
    · rw [if_pos hsome, if_neg Bool.false_ne_true,
        if_pos ⟨rfl, by omega, .inr (by omega)⟩, if_pos rfl, Nat.add_sub_cancel]
    · rw [if_neg hsome, if_neg Bool.false_ne_true, if_neg (by omega)]
      rfl
  · rw [if_neg hend, scalarStop, accepts_start hstates, if_neg Bool.false_ne_true]
    by_cases hsome : offset < spanBytes s mask offset
    · rw [if_pos hsome, if_pos ⟨rfl, by omega, .inl Nat.one_ne_zero⟩, if_neg Nat.one_ne_zero,
        show s.length = spanBytes s mask offset by omega]
    · rw [if_neg hsome, if_neg (by omega)]
      rfl

theorem execScalar_break (mask : UInt8 → Bool) (hle : offset ≤ s.length) :
    (breakNfa mask).execScalar s offset = some (spanBytes s (fun b => !mask b) offset) := by
  have hstates : (breakNfa mask).states = [⟨fun b => !mask b, 0, false, false⟩, simdAccept] := rfl
  have hbreak : (breakNfa mask).isBreak = true := rfl
  have hbounds := spanBytes_bounds s (fun b => !mask b) hle
  unfold execScalar
  rw [show (1 : Nat) <<< (breakNfa mask).startState = 1 from rfl,
    scalarLoop_stay hstates (by omega)]
  by_cases hend : spanBytes s (fun b => !mask b) offset < s.length
  · rw [if_pos hend, scalarStop, accepts_zero, if_neg Bool.false_ne_true,
      if_neg fun h => Bool.false_ne_true h.1, if_pos hbreak, if_pos ⟨rfl, by omega, by omega⟩,
      Nat.add_sub_cancel]
  · rw [if_neg hend, scalarStop, accepts_start hstates, if_neg Bool.false_ne_true,
      if_neg fun h => Bool.false_ne_true h.1, if_pos hbreak, if_neg fun h => Nat.one_ne_zero h.1,
      show s.length = spanBytes s (fun b => !mask b) offset by omega]

theorem execScalar_any (mask : UInt8 → Bool) (hle : offset ≤ s.length) :
    (anyNfa mask).execScalar s offset = if (s[offset]?).any mask then some (offset + 1) else none := by
  have hstates : (anyNfa mask).states = [⟨mask, 1, false, false⟩, simdAccept] := rfl
  unfold execScalar
  rw [show (1 : Nat) <<< (anyNfa mask).startState = 1 from rfl, scalarLoop_advance hstates hle]
  cases hbyte : s[offset]? with
  | none => rfl
  | some byte =>
    cases hmask : mask byte with
    | true =>
      simp only [Option.any_some, hmask, if_true]
      rfl
    | false =>
      simp only [Option.any_some, hmask, Bool.false_eq_true, if_false, scalarStop, accepts_zero]
      rfl

end SimdNfa

/-! ## The verifier and the handlers of the VM -/

theorem rangesToBitmap_eq {limit : Nat} {ranges : List CpRange} {bitmap : UInt8 → Bool}
    (h : rangesToBitmap limit ranges = some bitmap) :
    bitmap = fun b => ranges.any fun r => r.holds b.toNat := by
  unfold rangesToBitmap at h
  split at h
  · exact (Option.some.inj h).symm
  · cases h

section

variable {s : Bytes} {ranges : List CpRange} {bitmap : UInt8 → Bool} {offset : Nat}

/-- On a class within ASCII the verifier moves as the handler on the window. -/
theorem setNfa_execScalar (hbitmap : rangesToBitmap 127 ranges = some bitmap) (op : SetOp)
    (hle : offset ≤ s.length) :
    (setNfa bitmap op).execScalar s offset =
      (matchSet (s.drop offset) (some ranges) 0 op).map (offset + ·) := by
  have hget : (s.drop offset)[0]? = s[offset]? := by rw [List.getElem?_drop, Nat.add_zero]
  cases op with
  | any =>
    rw [setNfa, SimdNfa.execScalar_any bitmap hle, matchSet, matchAny, hbitmap]
    simp only [hget]
    split <;> rfl
  | notany =>
    rw [setNfa, SimdNfa.execScalar_any _ hle, matchSet, matchNotany, Option.bind_some, hbitmap]
    simp only [hget]
    split <;> rfl
  | span =>
    have hspan := spanBytes_drop s bitmap offset 0
    rw [Nat.add_zero] at hspan
    rw [setNfa, SimdNfa.execScalar_span bitmap hle, matchSet, matchSpan, spanTarget, hbitmap]
    simp only [hspan]
    by_cases hsome : 0 < spanBytes (s.drop offset) bitmap 0
    · rw [if_pos (by omega), if_pos hsome]
      rfl
    · rw [if_neg (by omega), if_neg hsome]
      rfl
  | «break» =>
    have hspan := spanBytes_drop s (fun b => !bitmap b) offset 0
    rw [Nat.add_zero] at hspan
    rw [setNfa, SimdNfa.execScalar_break bitmap hle, matchSet, breakTarget, Option.bind_some, hbitmap,
      hspan]
    rfl

/-- A byte outside the mask begins no match. -/
theorem execScalar_of_begins {op : SetOp} (hop : op ≠ .break) {byte : UInt8}
    (hbyte : s[offset]? = some byte) (hbegins : (setNfa bitmap op).begins byte = false) :
    (setNfa bitmap op).execScalar s offset = none := by
  obtain ⟨hlt, -⟩ := List.getElem?_eq_some_iff.mp hbyte
  cases op with
  | any =>
    have hmask : bitmap byte = false := hbegins
    rw [setNfa, SimdNfa.execScalar_any _ hlt.le, hbyte, Option.any_some, hmask]
    rfl
  | notany =>
    have hmask : (!bitmap byte) = false := hbegins
    rw [setNfa, SimdNfa.execScalar_any _ hlt.le, hbyte, Option.any_some, hmask]
    rfl
  | span =>
    have hmask : bitmap byte = false := hbegins
    rw [setNfa, SimdNfa.execScalar_span _ hlt.le, spanBytes_here hbyte hmask, if_neg (lt_irrefl _)]
  | «break» => exact absurd rfl hop

/-- Nothing but `OP_BREAK` matches at the end of the subject. -/
theorem execScalar_end {op : SetOp} (hop : op ≠ .break) :
    (setNfa bitmap op).execScalar s s.length = none := by
  have hnone : s[s.length]? = none := List.getElem?_eq_none (le_refl _)
  cases op with
  | any | notany =>
    rw [setNfa, SimdNfa.execScalar_any _ (le_refl _), hnone]
    rfl
  | span =>
    rw [setNfa, SimdNfa.execScalar_span _ (le_refl _), spanBytes_end _ (le_refl _), if_neg (lt_irrefl _)]
  | «break» => exact absurd rfl hop

end

/-! ## The scan -/

/-- The scan passes over bytes that begin no match and stops before the end of the
subject, where nothing matches. -/
theorem SimdNfa.scan_eq {nfa : SimdNfa} {s : Bytes} {attempt : Nat → Attempt}
    (hattempt : ∀ o ≤ s.length, attempt o = .ofStop (nfa.execScalar s o))
    (hbegins : ∀ o byte, s[o]? = some byte → nfa.begins byte = false → nfa.execScalar s o = none)
    (hend : nfa.execScalar s s.length = none) {n offset : Nat} (hn : s.length = offset + n) :
    nfa.scan s n offset = firstFound attempt (n + 1) offset := by
  induction n generalizing offset with
  | zero =>
    have hlast : attempt offset = .failed := by
      rw [hattempt offset (by omega), show offset = s.length by omega, hend]
      rfl
    rw [scan, firstFound, hlast]
    rfl
  | succ n ih =>
    obtain ⟨byte, hbyte⟩ : ∃ byte, s[offset]? = some byte :=
      ⟨_, List.getElem?_eq_getElem (show offset < s.length by omega)⟩
    rw [scan, firstFound, hbyte, hattempt offset (by omega)]
    simp only
    cases hb : nfa.begins byte with
    | false =>
      rw [if_neg Bool.false_ne_true, hbegins offset byte hbyte hb]
      exact ih (by omega)
    | true =>
      rw [if_pos rfl]
      cases nfa.execScalar s offset with
      | some stop => rfl
      | none => exact ih (by omega)

/-! ## The code as a line -/

theorem simdTerminator_line {bc : Bytes} {fuel ip : Nat} {fin : LineEnd}
    (h : simdTerminator bc fuel ip = some fin) : StraightLine bc ip [] fin := by
  induction fuel generalizing ip with
  | zero => cases h
  | succ fuel ih =>
    rw [simdTerminator] at h
    cases hget : bc[ip]? with
    | none =>
      rw [hget] at h
      cases h
    | some byte =>
      rw [hget, Option.bind_some] at h
      have hfetch : fetch bc ip = some (operands bc byte (ip + 1)) := by rw [fetch, hget, Option.map_some]
      split at h
      · rename_i hop
        have hstop : fetch bc ip = some (.accept, ip + 1) := by rw [hfetch, operands, hop]
        exact .stop hstop h
      · rename_i hop
        have hstop : fetch bc ip = some (.fail, ip + 1) := by rw [hfetch, operands, hop]
        exact .stop hstop h
      · rename_i hop
        have hstop : fetch bc ip = some (.abort, ip + 1) := by rw [hfetch, operands, hop]
        exact .stop hstop h
      · rename_i hop
        have hstop : fetch bc ip = some (.succeed, ip + 1) := by rw [hfetch, operands, hop]
        exact .stop hstop h
      · rename_i hop
        have hnop : fetch bc ip = some (.prim .nop, ip + 1) := by rw [hfetch, operands, hop]
        exact .skip hnop rfl (ih h)
      · cases h

theorem fetch_simdRoot {bc : Bytes} {op : SetOp} (h : simdRoot bc = some op) (hlen : 3 ≤ bc.length) :
    fetch bc 0 = some (.prim (.set op (simdSetId bc)), 3) := by
  have hnext : (readU16 bc 1).2 = 3 := readU16_next hlen
  unfold simdRoot at h
  cases hget : bc[0]? with
  | none =>
    rw [hget] at h
    cases h
  | some byte =>
    rw [hget, Option.bind_some] at h
    cases hop : OpCode.ofByte byte with
    | none =>
      rw [hop] at h
      cases h
    | some o =>
      rw [hop, Option.bind_some] at h
      rw [fetch, hget, Option.map_some, operands, hop]
      cases o <;> cases h <;> simp only [Nat.zero_add, hnext, simdSetId]

/-- The root and its terminator are a line. -/
theorem simdRoot_line {bc : Bytes} {op : SetOp} {fin : LineEnd} (hroot : simdRoot bc = some op)
    (hend : simdTerminator bc bc.length 3 = some fin) :
    StraightLine bc 0 [.set op (simdSetId bc)] fin := by
  have hlen : 3 ≤ bc.length := by
    by_contra hshort
    have hnone : bc[3]? = none := List.getElem?_eq_none (by omega)
    cases hfuel : bc.length with
    | zero =>
      rw [hfuel] at hend
      cases hend
    | succ n =>
      rw [hfuel, simdTerminator, hnone] at hend
      cases hend
  exact .op (fetch_simdRoot hroot hlen) (simdTerminator_line hend)

/-! ## The tier -/

/-- `ascii_class_only` for a class instruction at the root. -/
def asciiClassOnly (env : VmEnv W) : Bool :=
  ((env.ranges (simdSetId env.bc)).bind (rangesToBitmap 127)).isSome

theorem buildNfaMasks_eq {env : VmEnv W} {op : SetOp} {ranges : List CpRange} {mask : UInt8 → Bool}
    (hroot : simdRoot env.bc = some op) (hlen : 3 ≤ env.bc.length)
    (hranges : env.ranges (simdSetId env.bc) = some ranges) (hne : ranges ≠ [])
    (hmask : rangesToBitmap 255 ranges = some mask) : buildNfaMasks env = some (setNfa mask op) := by
  unfold buildNfaMasks
  rw [hroot, hranges]
  simp only [Option.bind_eq_bind, Option.bind_some, hmask, if_neg (Nat.not_lt.mpr hlen), if_neg hne]

/-- On a class within ASCII the automaton has the bitmap of the handlers. -/
theorem buildNfaMasks_ascii {env : VmEnv W} {op : SetOp} {nfa : SimdNfa}
    (hroot : simdRoot env.bc = some op) (hbuild : buildNfaMasks env = some nfa)
    (hascii : asciiClassOnly env = true) :
    ∃ ranges bitmap, env.ranges (simdSetId env.bc) = some ranges ∧
      rangesToBitmap 127 ranges = some bitmap ∧ nfa = setNfa bitmap op := by
  unfold asciiClassOnly at hascii
  unfold buildNfaMasks at hbuild
  rw [hroot] at hbuild
  cases hranges : env.ranges (simdSetId env.bc) with
  | none =>
    rw [hranges] at hascii
    cases hascii
  | some ranges =>
    rw [hranges, Option.bind_some, Option.isSome_iff_exists] at hascii
    obtain ⟨bitmap, hbitmap⟩ := hascii
    refine ⟨ranges, bitmap, rfl, hbitmap, ?_⟩
    rw [hranges] at hbuild
    simp only [Option.bind_eq_bind, Option.bind_some] at hbuild
    split at hbuild
    · cases hbuild
    · split at hbuild
      · cases hbuild
      · obtain ⟨mask, hmask, hnfa⟩ := Option.bind_eq_some_iff.mp hbuild
        cases hnfa
        rw [rangesToBitmap_eq hmask, rangesToBitmap_eq hbitmap]

/-- The attempts of the reference search are those of the verifier. -/
theorem lineAttempt_set {env : VmEnv W} {ranges : List CpRange} {bitmap : UInt8 → Bool} {id o : Nat}
    (hranges : env.ranges id = some ranges) (hbitmap : rangesToBitmap 127 ranges = some bitmap)
    (op : SetOp) (ho : o ≤ env.s.length) :
    lineAttempt env [.set op id] .accepted o = .ofStop ((setNfa bitmap op).execScalar env.s o) := by
  have hwindow : (env.window o).ranges id = some ranges := hranges
  have hs : (env.window o).s = env.s.drop o := rfl
  rw [setNfa_execScalar hbitmap op ho, lineAttempt, lineTarget, LineOp.target, hwindow, hs]
  cases matchSet (env.s.drop o) (some ranges) 0 op with
  | none => rfl
  | some pos => rfl

/-- The search of the tier is the search by the attempts of its verifier. -/
theorem setNfa_search {s : Bytes} {bitmap : UInt8 → Bool} {op : SetOp} {attempt : Nat → Attempt}
    {start : Nat} {anchored : Bool} (hstart : start ≤ s.length)
    (hattempt : ∀ o ≤ s.length, attempt o = .ofStop ((setNfa bitmap op).execScalar s o)) :
    (setNfa bitmap op).search s start anchored = searchFrom attempt s.length start anchored := by
  have hlen : s.length + 1 - start = s.length - start + 1 := by omega
  unfold SimdNfa.search searchFrom
  cases anchored with
  | true =>
    rw [Bool.true_or, if_pos rfl, if_pos rfl, firstFound, hattempt start hstart]
    cases (setNfa bitmap op).execScalar s start with
    | none => rfl
    | some stop => rfl
  | false =>
    rw [if_neg Bool.false_ne_true, hlen]
    by_cases hbreak : op = .break
    · -- `OP_BREAK` matches at every offset, so at the first
      subst hbreak
      have hfound : (setNfa bitmap .break).execScalar s start = _ :=
        SimdNfa.execScalar_break bitmap hstart
      rw [show (setNfa bitmap .break).isBreak = true from rfl, Bool.or_true, if_pos rfl,
        firstFound, hattempt start hstart, hfound]
      rfl
    · have hother : (setNfa bitmap op).isBreak = false := by
        cases op with
        | «break» => exact absurd rfl hbreak
        | any | notany | span => rfl
      rw [hother, Bool.or_false, if_neg Bool.false_ne_true]
      exact SimdNfa.scan_eq hattempt (fun o byte hbyte hb => execScalar_of_begins hbreak hbyte hb)
        (execScalar_end hbreak) (by omega)

/-- On a class within ASCII and in front of a terminator that accepts, the tier reports
what the reference search reports. -/
theorem simdTier_reports_iff (env : VmEnv W) (nfa : SimdNfa) (anchored : Bool) (start : Nat)
    (vm₀ : Vm W) (result : Option (Nat × Nat)) (hstart : start ≤ env.s.length)
    (heligible : checkSimdEligible env.bc = true) (hbuild : buildNfaMasks env = some nfa)
    (hascii : asciiClassOnly env = true)
    (hend : simdTerminator env.bc env.bc.length 3 = some .accepted) :
    SearchReports env .empty anchored start vm₀ result ↔
      result = nfa.search env.s start anchored := by
  obtain ⟨op, hroot⟩ : ∃ op, simdRoot env.bc = some op := by
    rw [checkSimdEligible, Bool.and_eq_true, Bool.and_eq_true] at heligible
    exact Option.isSome_iff_exists.mp heligible.1.2
  obtain ⟨ranges, bitmap, hranges, hbitmap, rfl⟩ := buildNfaMasks_ascii hroot hbuild hascii
  rw [(simdRoot_line hroot hend).vmAttempts.reports_iff hstart vm₀,
    setNfa_search hstart fun o ho => lineAttempt_set hranges hbitmap op ho]

/-- The code of `SPAN('a')`. -/
def spanLetter : Bytes :=
  [7, 0, 1, 0, 0, 1, 0, 0, 0, 0, 0, 97, 0, 0, 0, 97, 0, 0, 0, 4, 0, 0, 0, 1, 0, 0, 0, 0, 83, 78, 66, 76]

/-- The bitmap of one codepoint. -/
def onlyByte (cp : Nat) (b : UInt8) : Bool := [(⟨cp, cp⟩ : CpRange)].any fun r => r.holds b.toNat

/-- `SPAN('a')` on "baa". -/
theorem simdTier_reports_iff_letter :
    SearchReports (VmEnv.ofCode spanLetter [0x62, 0x61, 0x61] .bare) .empty false 0
      (.zero ⟨[], ()⟩) (some (1, 3)) := by
  have hranges : (VmEnv.ofCode spanLetter [0x62, 0x61, 0x61] .bare).ranges 1 = some [⟨97, 97⟩] := by
    decide +kernel
  have hbuild : buildNfaMasks (VmEnv.ofCode spanLetter [0x62, 0x61, 0x61] .bare) =
      some (setNfa (onlyByte 97) .span) :=
    buildNfaMasks_eq (by decide +kernel) (by decide +kernel) hranges (by decide) rfl
  exact (simdTier_reports_iff (VmEnv.ofCode spanLetter [0x62, 0x61, 0x61] .bare) _ false 0 _ _
    (by decide) (by decide +kernel) hbuild (by decide +kernel) (by decide +kernel)).mpr
    (by decide +kernel)

/-- The code of `ANY('é')`. -/
def anyAccent : Bytes :=
  [5, 0, 1, 0, 0, 1, 0, 0, 0, 0, 0, 233, 0, 0, 0, 233, 0, 0, 0, 4, 0, 0, 0, 1, 0, 0, 0, 0, 83, 78, 66,
    76]

/-- The code of `SPAN('a') FAIL`. -/
def spanFail : Bytes :=
  [7, 0, 1, 1, 0, 0, 1, 0, 0, 0, 0, 0, 97, 0, 0, 0, 97, 0, 0, 0, 5, 0, 0, 0, 1, 0, 0, 0, 0, 83, 78, 66,
    76]

/-- `ANY('é')` matches "é", where the tier looks for the byte E9.  `SPAN('a') FAIL` does
not match "a", where the tier ignores the terminator. -/
theorem simdTier_differs :
    (compileAstToBytecodeC .caseSensitive (.any [0xC3, 0xA9]) = some anyAccent ∧
      checkSimdEligible anyAccent = true ∧
      SearchReports (VmEnv.ofCode anyAccent [0xC3, 0xA9] .bare) .empty false 0 (.zero ⟨[], ()⟩)
        (some (0, 2)) ∧
      ∃ nfa, buildNfaMasks (VmEnv.ofCode anyAccent [0xC3, 0xA9] .bare) = some nfa ∧
        nfa.search [0xC3, 0xA9] 0 false = none) ∧
    (compileAstToBytecodeC .caseSensitive (.concat [.span [0x61], .fail]) = some spanFail ∧
      checkSimdEligible spanFail = true ∧
      SearchReports (VmEnv.ofCode spanFail [0x61] .bare) .empty false 0 (.zero ⟨[], ()⟩) none ∧
      ∃ nfa, buildNfaMasks (VmEnv.ofCode spanFail [0x61] .bare) = some nfa ∧
        nfa.search [0x61] 0 false = some (0, 1)) := by
  constructor
  · have hline : StraightLine anyAccent 0 [.set .any 1] .accepted :=
      simdRoot_line (by decide +kernel) (by decide +kernel)
    have hranges : (VmEnv.ofCode anyAccent [0xC3, 0xA9] .bare).ranges 1 = some [⟨233, 233⟩] := by
      decide +kernel
    have hbuild : buildNfaMasks (VmEnv.ofCode anyAccent [0xC3, 0xA9] .bare) =
        some (setNfa (onlyByte 233) .any) :=
    buildNfaMasks_eq (by decide +kernel) (by decide +kernel) hranges (by decide) rfl
    refine ⟨by decide +kernel, by decide +kernel, ?_, _, hbuild, by decide +kernel⟩
    have hattempts : VmAttempts (VmEnv.ofCode anyAccent [0xC3, 0xA9] .bare)
        (lineAttempt _ [.set .any 1] .accepted) := StraightLine.vmAttempts hline
    exact (hattempts.reports_iff (by decide) _).mpr (by decide +kernel)
  · have hline : StraightLine spanFail 0 [.set .span 1] .failed :=
      simdRoot_line (by decide +kernel) (by decide +kernel)
    have hranges : (VmEnv.ofCode spanFail [0x61] .bare).ranges 1 = some [⟨97, 97⟩] := by
      decide +kernel
    have hbuild : buildNfaMasks (VmEnv.ofCode spanFail [0x61] .bare) =
        some (setNfa (onlyByte 97) .span) :=
    buildNfaMasks_eq (by decide +kernel) (by decide +kernel) hranges (by decide) rfl
    refine ⟨by decide +kernel, by decide +kernel, ?_, _, hbuild, by decide +kernel⟩
    have hattempts : VmAttempts (VmEnv.ofCode spanFail [0x61] .bare)
        (lineAttempt _ [.set .span 1] .failed) := StraightLine.vmAttempts hline
    exact (hattempts.reports_iff (by decide) _).mpr (by decide +kernel)

end Snobol4
