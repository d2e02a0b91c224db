import Snobol4.Labels
import Snobol4.LiteralPrefix
import Snobol4.RequiredLit

/-!
# LiteralOnly — patterns that are one literal (`search_meta.c`, `search_tiers.c`, `api.c`)

A pattern of one literal among `OP_NOP`s and `OP_FENCE`s is searched without the VM: by
`memmem`, by `memchr` where it is one byte, and by a comparison where the match is anchored.
That is right where the text of the literal stands inline behind its operands.
-/

namespace Snobol4

open Horspool

variable {W : Type}

/-! ## Recognising the pattern -/

/-- `OP_NOP` and `OP_FENCE` -/
def isIdleByte (b : UInt8) : Bool := b == OpCode.nop.code || b == OpCode.fence.code

/-- `check_literal_only`; the end of the literal is computed in 32 bits. -/
def checkLiteralOnly (bc : Bytes) : Bool :=
  let ip := spanBytes bc isIdleByte 0
  let off := (readU32 bc (ip + 1)).1
  let len := (readU32 bc (ip + 5)).1
  decide (2 ≤ bc.length) && decide (ip + 9 ≤ bc.length) && bc[ip]? == some OpCode.lit.code &&
    decide (off < bc.length ∧ (off + len) % 2 ^ 32 ≤ bc.length ∧ len ≠ 0) &&
    bc[spanBytes bc isIdleByte (ip + 9 + len)]? == some OpCode.accept.code

/-- The loop over leading zero-width instructions of `search_literal_only` and
`snobol_pattern_match_literal`; every turn takes at least one byte. -/
def skipZeroWidth (bc : Bytes) : Nat → Nat → Nat
  | 0, ip => ip
  | fuel + 1, ip =>
      match bc[ip]?.bind OpCode.ofByte with
      | some .nop | some .fence | some .anchor => skipZeroWidth bc fuel (ip + 1)
      | some .pos | some .rpos =>
          if ip + 5 ≤ bc.length then skipZeroWidth bc fuel (ip + 5) else ip
      | _ => ip

/-- The literal that `search_literal_only` and `snobol_pattern_match_literal` read. -/
def literalOnlyText (bc : Bytes) : Option Bytes :=
  let ip := skipZeroWidth bc bc.length 0
  if bc.length < ip + 9 ∨ bc[ip]? ≠ some OpCode.lit.code then none
  else
    let off := (readU32 bc (ip + 1)).1
    let len := (readU32 bc (ip + 5)).1
    if bc.length ≤ off ∨ bc.length < (off + len) % 2 ^ 32 ∨ len = 0 then none
    else some ((bc.drop off).take len)

/-! ## The searches -/

/-- `search_literal_only` -/
def searchLiteralOnly (bc s : Bytes) (start : Nat) (anchored : Bool) : Option (Nat × Nat) := do
  let lit ← literalOnlyText bc
  if s.length < lit.length then none
  else if anchored then
    if lit.length ≤ s.length - start ∧ (s.drop start).take lit.length = lit then
      some (start, start + lit.length)
    else none
  else if start + lit.length ≤ s.length then
    (memmem s lit start).map fun cand => (cand, cand + lit.length)
  else none

/-- The short circuit of `snobol_search_exec` for a literal of one byte. -/
def searchOneByte (s : Bytes) (b : UInt8) (start : Nat) : Option (Nat × Nat) :=
  (memchr s b start).map fun p => (p, p + 1)

/-- `snobol_pattern_match_literal`: the length of the match at 0. -/
def snobolPatternMatchLiteral (bc s : Bytes) : Option Nat :=
  if checkLiteralOnly bc then
    (literalOnlyText bc).bind fun lit =>
      if lit.length ≤ s.length ∧ s.take lit.length = lit then some lit.length else none
  else none

/-- The text of the literal stands behind its operands. -/
def LiteralInline (bc : Bytes) : Prop :=
  (readU32 bc (spanBytes bc isIdleByte 0 + 1)).1 = spanBytes bc isIdleByte 0 + 9

/-! ## The line of the pattern -/

/-- What `check_literal_only` sees of a pattern with an inline literal. -/
structure IsLiteral (bc lit : Bytes) (ip : Nat) : Prop where
  head : ip = spanBytes bc isIdleByte 0
  room : ip + 9 + lit.length < bc.length
  op : bc[ip]? = some OpCode.lit.code
  off : (readU32 bc (ip + 1)).1 = ip + 9
  len : (readU32 bc (ip + 5)).1 = lit.length
  text : (bc.drop (ip + 9)).take lit.length = lit
  ne_nil : lit ≠ []
  accept : bc[spanBytes bc isIdleByte (ip + 9 + lit.length)]? = some OpCode.accept.code

theorem le_spanBytes (bc : Bytes) (p : UInt8 → Bool) (ip : Nat) : ip ≤ spanBytes bc p ip :=
  Nat.le_add_right _ _

theorem isLiteral_of_check {bc : Bytes} (h : checkLiteralOnly bc = true)
    (hinline : LiteralInline bc) : ∃ lit ip, IsLiteral bc lit ip := by
  unfold checkLiteralOnly at h
  unfold LiteralInline at hinline
  simp only [Bool.and_eq_true, decide_eq_true_eq, beq_iff_eq, hinline] at h
  obtain ⟨⟨⟨⟨-, hlen⟩, hop⟩, -, -, hne⟩, haccept⟩ := h
  have hend := (List.getElem?_eq_some_iff.mp haccept).1
  have hroom := Nat.lt_of_le_of_lt (le_spanBytes bc isIdleByte _) hend
  have hlength : ((bc.drop (spanBytes bc isIdleByte 0 + 9)).take
      (readU32 bc (spanBytes bc isIdleByte 0 + 5)).1).length =
        (readU32 bc (spanBytes bc isIdleByte 0 + 5)).1 := by
    rw [List.length_take, List.length_drop]
    omega
  refine ⟨(bc.drop (spanBytes bc isIdleByte 0 + 9)).take
    (readU32 bc (spanBytes bc isIdleByte 0 + 5)).1, _, rfl, ?_, hop, hinline, hlength.symm, ?_, ?_, ?_⟩
  · rw [hlength]
    exact hroom
  · rw [hlength]
  · intro hnil
    rw [hnil] at hlength
    exact hne hlength.symm
  · rw [hlength]
    exact haccept

/-- The bytes that `spanBytes` goes over. -/
theorem spanBytes_spans {s : Bytes} {p : UInt8 → Bool} {pos i : Nat} (hle : pos ≤ i)
    (hlt : i < spanBytes s p pos) : ∃ b, s[i]? = some b ∧ p b = true := by
  have hi : i - pos < ((s.drop pos).takeWhile p).length := by
    unfold spanBytes at hlt
    omega
  have hmem := List.getElem_mem hi
  refine ⟨((s.drop pos).takeWhile p)[i - pos], ?_, List.mem_takeWhile_imp hmem⟩
  obtain ⟨rest, hrest⟩ : (s.drop pos).takeWhile p <+: s.drop pos := List.takeWhile_prefix p
  have hget : (s.drop pos)[i - pos]? = some ((s.drop pos).takeWhile p)[i - pos] := by
    rw [← List.getElem?_eq_getElem hi, ← List.getElem?_append_left hi, hrest]
  rw [List.getElem?_drop, show pos + (i - pos) = i by omega] at hget
  exact hget

theorem isIdleByte_op {b : UInt8} (h : isIdleByte b = true) :
    OpCode.ofByte b = some .nop ∨ OpCode.ofByte b = some .fence := by
  simp only [isIdleByte, Bool.or_eq_true, beq_iff_eq] at h
  obtain rfl | rfl := h
  · exact .inl rfl
  · exact .inr rfl

/-- A run of idle bytes is an empty line. -/
theorem lineTo_idle {bc : Bytes} {ip stop : Nat} (hle : ip ≤ stop)
    (h : ∀ i, ip ≤ i → i < stop → ∃ b, bc[i]? = some b ∧ isIdleByte b = true) :
    LineTo bc ip [] stop := by
  obtain ⟨n, rfl⟩ := Nat.le.dest hle
  induction n generalizing ip with
  | zero => exact .refl ip
  | succ n ih =>
    obtain ⟨b, hb, hidle⟩ := h ip (Nat.le_refl _) (by omega)
    have hrest : LineTo bc (ip + 1) [] (ip + 1 + n) :=
      ih (by omega) fun i hi hlt => h i (by omega) (by omega)
    rw [show ip + (n + 1) = ip + 1 + n by omega]
    obtain hop | hop := isIdleByte_op hidle
    · have hfetch : fetch bc ip = some (.prim .nop, ip + 1) := by
        rw [fetch, hb, Option.map_some]
        simp only [operands, hop]
      exact .skip hfetch rfl hrest
    · have hfetch : fetch bc ip = some (.fence, ip + 1) := by
        rw [fetch, hb, Option.map_some]
        simp only [operands, hop]
      exact .skip hfetch rfl hrest

theorem lineTo_spanBytes (bc : Bytes) (ip : Nat) : LineTo bc ip [] (spanBytes bc isIdleByte ip) :=
  lineTo_idle (le_spanBytes bc isIdleByte ip) fun _ hle hlt => spanBytes_spans hle hlt

/-- Idle bytes are skipped up to a literal. -/
theorem skipZeroWidth_eq {bc : Bytes} (h : bc[spanBytes bc isIdleByte 0]? = some OpCode.lit.code) :
    skipZeroWidth bc bc.length 0 = spanBytes bc isIdleByte 0 := by
  have hroom := (List.getElem?_eq_some_iff.mp h).1
  have hskip : ∀ n, ∀ fuel, n ≤ spanBytes bc isIdleByte 0 → spanBytes bc isIdleByte 0 - n < fuel →
      skipZeroWidth bc fuel n = spanBytes bc isIdleByte 0 := by
    intro n fuel hn hfuel
    induction fuel generalizing n with
    | zero => omega
    | succ fuel ih =>
      rw [skipZeroWidth]
      by_cases heq : n = spanBytes bc isIdleByte 0
      · rw [heq, h, Option.bind_some, OpCode.ofByte_code]
      · obtain ⟨b, hb, hidle⟩ := spanBytes_spans (Nat.zero_le n) (Nat.lt_of_le_of_ne hn heq)
        have hrest := ih (n + 1) (by omega) (by omega)
        rw [hb, Option.bind_some]
        obtain hop | hop := isIdleByte_op hidle
        · rw [hop]
          exact hrest
        · rw [hop]
          exact hrest
  exact hskip 0 bc.length (Nat.zero_le _) (by omega)

namespace IsLiteral

variable {bc lit : Bytes} {ip : Nat}

theorem fetch_literal (h : IsLiteral bc lit ip) :
    fetch bc ip = some (.prim (.lit (ip + 9) lit.length), ip + 9 + lit.length) := by
  have hroom := h.room
  have hoff : readU32 bc (ip + 1) = (ip + 9, ip + 5) :=
    Prod.ext h.off (readU32_next (by omega))
  have hlen : readU32 bc (ip + 5) = (lit.length, ip + 9) :=
    Prod.ext h.len (readU32_next (by omega))
  rw [fetch, h.op, Option.map_some]
  simp only [operands, OpCode.ofByte_code, hoff, hlen, if_true]

/-- The pattern is a line with one instruction. -/
theorem line (h : IsLiteral bc lit ip) : StraightLine bc 0 [.lit (ip + 9) lit.length] .accepted := by
  have hhead := lineTo_spanBytes bc 0
  rw [← h.head] at hhead
  have hfetch : fetch bc (spanBytes bc isIdleByte (ip + 9 + lit.length)) =
      some (.accept, spanBytes bc isIdleByte (ip + 9 + lit.length) + 1) := by
    rw [fetch, h.accept, Option.map_some]
    rfl
  have hstop : StraightLine bc (spanBytes bc isIdleByte (ip + 9 + lit.length)) [] .accepted :=
    .stop hfetch rfl
  exact hhead.append (.op h.fetch_literal ((lineTo_spanBytes bc _).append hstop))

/-- The attempt at an offset finds the literal or fails. -/
theorem attempt {env : VmEnv W} (h : IsLiteral env.bc lit ip) (o : Nat) :
    lineAttempt env [.lit (ip + 9) lit.length] .accepted o =
      if lit <+: env.s.drop o then .found (o + lit.length) else .failed := by
  have htarget : LineOp.target (env.window o) 0 (.lit (ip + 9) lit.length) =
      matchLit (env.s.drop o) lit lit.length 0 := by
    show matchLit (env.s.drop o) ((env.bc.drop (ip + 9)).take lit.length) lit.length 0 = _
    rw [h.text]
  rw [lineAttempt, lineTarget, htarget, matchLit, Nat.sub_zero, List.drop_zero, Nat.zero_add]
  by_cases hat : lit <+: env.s.drop o
  · have hle := hat.length_le
    rw [if_pos ⟨hle, (List.prefix_iff_eq_take.mp hat).symm⟩, if_pos hat]
    rfl
  · rw [if_neg, if_neg hat]
    · rfl
    · rintro ⟨-, htake⟩
      exact hat (htake ▸ List.take_prefix _ _)

theorem literalOnlyText_eq (h : IsLiteral bc lit ip) : literalOnlyText bc = some lit := by
  have hroom := h.room
  have hne : lit.length ≠ 0 := fun hzero => h.ne_nil (List.eq_nil_of_length_eq_zero hzero)
  have hwrap := Nat.mod_le (ip + 9 + lit.length) (2 ^ 32)
  unfold literalOnlyText
  simp only [skipZeroWidth_eq (h.head ▸ h.op), ← h.head, h.off, h.len, h.text]
  rw [if_neg, if_neg]
  · omega
  · rintro (hshort | hop)
    · omega
    · exact hop h.op

theorem litScan_idle {st : LitScan} {fuel scan stop : Nat} (hle : scan ≤ stop)
    (hidle : ∀ i, scan ≤ i → i < stop → ∃ b, bc[i]? = some b ∧ isIdleByte b = true)
    (hfuel : bc.length ≤ fuel + scan) : litScan bc fuel scan st = litScan bc fuel stop st := by
  induction fuel generalizing scan with
  | zero => rfl
  | succ fuel ih =>
    by_cases heq : scan = stop
    · rw [heq]
    obtain ⟨b, hb, hb'⟩ := hidle scan (Nat.le_refl _) (by omega)
    have hlt := (List.getElem?_eq_some_iff.mp hb).1
    have hstep : st.step bc scan = some (scan + 1, st) := by
      unfold LitScan.step
      rw [hb, Option.bind_some]
      obtain hop | hop := isIdleByte_op hb'
      · rw [hop]
      · rw [hop]
    rw [litScan, if_pos hlt, hstep]
    dsimp only
    rw [ih (by omega) (fun i hi hlt => hidle i (by omega) hlt) (by omega),
      litScan_fuel bc (by omega) 1]

/-- What the scan for the last literal remembers. -/
theorem litScan_eq (h : IsLiteral bc lit ip) :
    (litScan bc bc.length 0 .start).lastLit = lit.take maxPrefixLen := by
  have hroom := h.room
  have hpos : 0 < lit.length := List.length_pos_of_ne_nil h.ne_nil
  obtain ⟨n, hn⟩ : ∃ n, bc.length = n + 1 + 1 := ⟨bc.length - 2, by omega⟩
  have hwrap := Nat.mod_le (ip + 9 + lit.length) (2 ^ 32)
  -- up to the literal, over the literal, and up to the end
  rw [litScan_idle (Nat.zero_le ip) (fun i hle hlt => spanBytes_spans hle (h.head ▸ hlt)) (by omega),
    hn, litScan, if_pos (by omega)]
  have hstep : LitScan.start.step bc ip =
      some (ip + 9 + lit.length, LitScan.start.lit bc ip) := by
    unfold LitScan.step
    rw [h.op, Option.bind_some, OpCode.ofByte_code]
    simp only [h.len]
    rw [if_pos (by omega)]
  rw [hstep]
  dsimp only
  rw [litScan_idle (le_spanBytes bc isIdleByte _) (fun i hle hlt => spanBytes_spans hle hlt)
    (by omega), litScan, if_pos (List.getElem?_eq_some_iff.mp h.accept).1]
  have hend : (LitScan.start.lit bc ip).step bc
      (spanBytes bc isIdleByte (ip + 9 + lit.length)) = none := by
    unfold LitScan.step
    rw [h.accept, Option.bind_some, OpCode.ofByte_code]
  rw [hend]
  dsimp only
  unfold LitScan.lit
  simp only [h.off, h.len]
  rw [if_pos ⟨hpos, by omega, by omega⟩]
  dsimp only
  rw [Nat.min_comm, ← List.take_take, h.text]

end IsLiteral

/-! ## The search -/

/-- The first attempt that finds a literal is the first place where it stands. -/
theorem firstFound_eq_firstFrom {attempt : Nat → Attempt} {test : Nat → Bool} {len : Nat}
    (h : ∀ o, attempt o = if test o then .found (o + len) else .failed) (n o : Nat) :
    firstFound attempt n o = (firstFrom test n o).map fun i => (i, i + len) := by
  induction n generalizing o with
  | zero => rfl
  | succ n ih =>
    rw [firstFound, firstFrom, h o]
    by_cases htest : test o = true
    · rw [if_pos htest, if_pos htest]
      rfl
    · rw [if_neg htest, if_neg htest]
      exact ih (o + 1)

/-- The search by attempts is the search for the literal. -/
theorem searchFrom_literal {attempt : Nat → Attempt} {s lit : Bytes} {start : Nat}
    (hattempt : ∀ o, attempt o = if lit <+: s.drop o then .found (o + lit.length) else .failed)
    (hstart : start ≤ s.length) (hne : lit ≠ []) :
    searchFrom attempt s.length start false =
      (memmem s lit start).map fun cand => (cand, cand + lit.length) := by
  have htest : ∀ o, attempt o =
      if lit.isPrefixOf (s.drop o) then .found (o + lit.length) else .failed := by
    intro o
    simp only [List.isPrefixOf_iff_prefix]
    exact hattempt o
  have hend : attempt (start + (s.length - start)) = .failed := by
    rw [hattempt, if_neg]
    rw [show start + (s.length - start) = s.length by omega, List.drop_length]
    exact fun hprefix => hne (List.prefix_nil.mp hprefix)
  rw [searchFrom, if_neg Bool.false_ne_true, show s.length + 1 - start = s.length - start + 1 by omega,
    firstFound_succ hend, firstFound_eq_firstFrom htest]
  rfl

/-- Where the literal is too long nothing is found. -/
theorem memmem_short {s lit : Bytes} {start : Nat} (hne : lit ≠ [])
    (h : s.length < start + lit.length) : memmem s lit start = none := by
  rw [memmem, Option.eq_none_iff_forall_ne_some]
  intro cand hcand
  obtain ⟨hle, hat⟩ := le_of_mem_firstFrom hcand
  have hlen := (List.isPrefixOf_iff_prefix.mp hat).length_le
  have hpos := List.length_pos_of_ne_nil hne
  rw [List.length_drop] at hlen
  omega

/-- `search_literal_only` is the search by attempts. -/
theorem searchLiteralOnly_eq {bc s lit : Bytes} {ip start : Nat} {attempt : Nat → Attempt}
    (h : IsLiteral bc lit ip)
    (hattempt : ∀ o, attempt o = if lit <+: s.drop o then .found (o + lit.length) else .failed)
    (hstart : start ≤ s.length) (anchored : Bool) :
    searchLiteralOnly bc s start anchored = searchFrom attempt s.length start anchored := by
  have hpos := List.length_pos_of_ne_nil h.ne_nil
  unfold searchLiteralOnly
  rw [h.literalOnlyText_eq]
  simp only [Option.bind_eq_bind, Option.bind_some]
  cases anchored with
  | true =>
    rw [if_pos rfl, searchFrom, if_pos rfl, firstFound, hattempt]
    by_cases hat : lit <+: s.drop start
    · have hle := hat.length_le
      rw [List.length_drop] at hle
      rw [if_neg (by omega), if_pos ⟨hle, (List.prefix_iff_eq_take.mp hat).symm⟩, if_pos hat]
    · rw [if_neg hat]
      split
      · rfl
      · rw [if_neg]
        · rfl
        · rintro ⟨-, htake⟩
          exact hat (htake ▸ List.take_prefix _ _)
  | false =>
    rw [if_neg Bool.false_ne_true, searchFrom_literal hattempt hstart h.ne_nil]
    split
    · rw [memmem_short h.ne_nil (by omega)]
      rfl
    split
    · rfl
    · rw [memmem_short h.ne_nil (by omega)]
      rfl

theorem memmem_singleton (s : Bytes) (b : UInt8) (start : Nat) :
    memmem s [b] start = memchr s b start := by
  have htest : (fun i => [b].isPrefixOf (s.drop i)) = fun i => s[i]? == some b := by
    funext i
    rw [← List.head?_drop]
    cases s.drop i with
    | nil => rfl
    | cons c rest => simp [List.isPrefixOf, Bool.beq_comm]
  rw [memmem, htest]
  rfl

theorem searchOneByte_eq (s : Bytes) (b : UInt8) (start : Nat) :
    searchOneByte s b start = (memmem s [b] start).map fun cand => (cand, cand + [b].length) := by
  rw [searchOneByte, memmem_singleton]
  rfl

/-- A required literal of one byte is all of the literal. -/
theorem IsLiteral.eq_of_requiredLit {bc lit : Bytes} {ip : Nat} (h : IsLiteral bc lit ip)
    {isAltLiterals : Bool} {b : UInt8} (hreq : requiredLit isAltLiterals bc = some [b]) :
    lit = [b] := by
  unfold requiredLit at hreq
  simp only [h.litScan_eq] at hreq
  split at hreq
  · have htake := Option.some.inj hreq
    have hlen := congrArg List.length htake
    rw [List.length_take, List.length_singleton, maxPrefixLen] at hlen
    rwa [List.take_of_length_le (by unfold maxPrefixLen; omega)] at htake
  · cases hreq

/-- On a pattern whose one literal stands inline, the searches without the VM report what the
reference search reports. -/
theorem literalOnly_reports_iff (env : VmEnv W) (start : Nat) (vm₀ : Vm W)
    (result : Option (Nat × Nat)) (hstart : start ≤ env.s.length)
    (hcheck : checkLiteralOnly env.bc = true) (hinline : LiteralInline env.bc) :
    (∀ anchored, SearchReports env .empty anchored start vm₀ result ↔
      result = searchLiteralOnly env.bc env.s start anchored) ∧
    (∀ isAltLiterals b, requiredLit isAltLiterals env.bc = some [b] →
      (SearchReports env .empty false start vm₀ result ↔ result = searchOneByte env.s b start)) ∧
    (SearchReports env .empty true 0 vm₀ result ↔
      result = (snobolPatternMatchLiteral env.bc env.s).map fun len => (0, len)) := by
  obtain ⟨lit, ip, hlit⟩ := isLiteral_of_check hcheck hinline
  have hreports : ∀ (anchored : Bool) (start : Nat), start ≤ env.s.length →
      (SearchReports env .empty anchored start vm₀ result ↔
        result = searchFrom (lineAttempt env [.lit (ip + 9) lit.length] .accepted) env.s.length start
          anchored) :=
    fun anchored start hstart => hlit.line.vmAttempts.reports_iff hstart vm₀
  refine ⟨fun anchored => ?_, fun isAltLiterals b hreq => ?_, ?_⟩
  · rw [hreports anchored start hstart, searchLiteralOnly_eq hlit hlit.attempt hstart]
  · obtain rfl := hlit.eq_of_requiredLit hreq
    rw [hreports false start hstart, searchFrom_literal hlit.attempt hstart hlit.ne_nil,
      searchOneByte_eq]
  · rw [hreports true 0 (Nat.zero_le _), ← searchLiteralOnly_eq hlit hlit.attempt (Nat.zero_le _),
      searchLiteralOnly, snobolPatternMatchLiteral, if_pos hcheck, hlit.literalOnlyText_eq]
    simp only [Option.bind_eq_bind, Option.bind_some, List.drop_zero, Nat.sub_zero, Nat.zero_add,
      if_true]
    split
    · rename_i hshort
      rw [if_neg (by omega)]
      rfl
    split
    · rfl
    · rfl

/-- The code of `'ab'`. -/
def litAb : Bytes :=
  [4, 0, 0, 0, 9, 0, 0, 0, 2, 97, 98, 0, 0, 0, 0, 0, 0, 0, 0, 0, 83, 78, 66, 76]

/-- `'ab'` at the end of "cab". -/
theorem literalOnly_reports_iff_end :
    compileAstToBytecodeC .caseSensitive (.literal [0x61, 0x62]) = some litAb ∧
      SearchReports (VmEnv.ofCode litAb [0x63, 0x61, 0x62] .bare) .empty false 0 (.zero ⟨[], ()⟩)
        (some (1, 3)) := by
  refine ⟨by decide +kernel, ?_⟩
  exact ((literalOnly_reports_iff (VmEnv.ofCode litAb [0x63, 0x61, 0x62] .bare) 0 _ _ (by decide)
    (by decide +kernel) (by unfold LiteralInline; decide +kernel)).1 false).mpr (by decide +kernel)

/-! ## A literal that is not inline -/

/-- `FENCE … FENCE` and the literal of the byte 1, which is the opcode of `FAIL`. -/
def fencedLiteral (n : Nat) : AstNode := .concat (List.replicate n .fence ++ [.literal [1]])

/-- Its code, where the offset of the literal wraps to 0. -/
def fencedCode (n : Nat) : Bytes :=
  List.replicate n OpCode.fence.code ++ (OpCode.lit.code :: (emitU32 0 ++ (emitU32 1 ++
    [1, OpCode.accept.code, 0, 0, 0, 0, 0, 0, 0, 0, 83, 78, 66, 76])))

theorem emitPartsC_fenced (n : Nat) (st : CompilerState) :
    (emitPartsC .caseSensitive (List.replicate n .fence ++ [.literal [1]])).run st =
      .done ((), { st with buf := st.buf ++ (List.replicate n OpCode.fence.code ++
        ([OpCode.lit.code] ++ emitU32 (st.buf.length + n + 9) ++ emitU32 1 ++ [1])) }) := by
  induction n generalizing st with
  | zero => rfl
  | succ n ih =>
    have hfence : (emitNodeC .caseSensitive .fence).run st =
        .done ((), { st with buf := st.buf ++ [OpCode.fence.code] }) := rfl
    rw [List.replicate_succ, List.cons_append, emitPartsC, StateT.run_bind, hfence]
    refine (ih _).trans ?_
    simp only [List.length_append, List.length_singleton, List.append_assoc, List.replicate_succ]
    rw [show st.buf.length + 1 + n + 9 = st.buf.length + (n + 1) + 9 by omega]
    rfl

theorem compileAstToBytecodeC_fenced {n : Nat} (hn : n + 9 = 2 ^ 32) :
    compileAstToBytecodeC .caseSensitive (fencedLiteral n) = some (fencedCode n) := by
  have hwrap : emitU32 (0 + n + 9) = emitU32 0 := by
    rw [Nat.zero_add, hn]
    decide
  have hrun : (emitNodeC .caseSensitive (fencedLiteral n)).run .init = _ :=
    emitPartsC_fenced n .init
  have hbuf : OpCode.split.code ∉ List.replicate n OpCode.fence.code ++
      ([OpCode.lit.code] ++ emitU32 0 ++ emitU32 1 ++ [1]) ++ [OpCode.accept.code] := by
    simp only [List.mem_append, not_or]
    refine ⟨⟨fun hmem => ?_, by decide⟩, by decide⟩
    exact absurd (List.eq_of_mem_replicate hmem) (by decide)
  have hprogram := emitProgram_eq_some_iff.mpr ⟨_, hrun, rfl, rfl⟩
  simp only [CompilerState.init, List.length_nil, List.nil_append, hwrap] at hprogram
  rw [compileAstToBytecodeC_unfused hprogram (eligibleArms_of_no_split hbuf)]
  simp only [fencedCode, List.append_assoc]
  rfl

section

variable {n : Nat}

/-- The idle bytes in front of the literal. -/
theorem spanBytes_fenced (n : Nat) : spanBytes (fencedCode n) isIdleByte 0 = n := by
  have hidle : ∀ b ∈ List.replicate n OpCode.fence.code, isIdleByte b = true := by
    intro b hb
    rw [List.eq_of_mem_replicate hb]
    decide
  rw [spanBytes, List.drop_zero, fencedCode, List.takeWhile_append_of_pos hidle,
    List.takeWhile_cons_of_neg (by decide), List.append_nil, List.length_replicate, Nat.zero_add]

theorem fencedCode_drop (n i : Nat) : (fencedCode n).drop (n + i) =
    (OpCode.lit.code :: (emitU32 0 ++ (emitU32 1 ++
      [1, OpCode.accept.code, 0, 0, 0, 0, 0, 0, 0, 0, 83, 78, 66, 76]))).drop i := by
  have hlen : (List.replicate n OpCode.fence.code).length = n := List.length_replicate
  rw [fencedCode, ← List.drop_drop, List.drop_left' hlen]

theorem fencedCode_get (n i : Nat) : (fencedCode n)[n + i]? =
    (OpCode.lit.code :: (emitU32 0 ++ (emitU32 1 ++
      [1, OpCode.accept.code, 0, 0, 0, 0, 0, 0, 0, 0, 83, 78, 66, 76])))[i]? := by
  have hdrop := congrArg List.head? (fencedCode_drop n i)
  rwa [List.head?_drop, List.head?_drop] at hdrop

theorem length_fencedCode (n : Nat) : (fencedCode n).length = n + 23 := by
  simp [fencedCode]

theorem fencedCode_off (n : Nat) : readU32 (fencedCode n) (n + 1) = (0, n + 5) := by
  have hdrop : (fencedCode n).drop (n + 1) = emitU32 0 ++ (emitU32 1 ++
      [1, OpCode.accept.code, 0, 0, 0, 0, 0, 0, 0, 0, 83, 78, 66, 76]) := by
    rw [fencedCode_drop]
    rfl
  exact readU32_of_drop hdrop

theorem fencedCode_len (n : Nat) : readU32 (fencedCode n) (n + 5) = (1, n + 9) := by
  have hdrop : (fencedCode n).drop (n + 5) = emitU32 1 ++
      [1, OpCode.accept.code, 0, 0, 0, 0, 0, 0, 0, 0, 83, 78, 66, 76] := by
    rw [fencedCode_drop]
    rfl
  exact readU32_of_drop hdrop

theorem checkLiteralOnly_fenced (n : Nat) : checkLiteralOnly (fencedCode n) = true := by
  have hop : (fencedCode n)[n]? = some OpCode.lit.code := fencedCode_get n 0
  have haccept : (fencedCode n)[spanBytes (fencedCode n) isIdleByte (n + 9 + 1)]? =
      some OpCode.accept.code := by
    have hspan : spanBytes (fencedCode n) isIdleByte (n + 9 + 1) = n + 10 := by
      rw [spanBytes, show n + 9 + 1 = n + 10 from rfl, fencedCode_drop]
      rfl
    rw [hspan]
    exact fencedCode_get n 10
  unfold checkLiteralOnly
  simp only [spanBytes_fenced, fencedCode_off, fencedCode_len, length_fencedCode, hop, haccept]
  simp

theorem searchLiteralOnly_fenced (hn : 0 < n) :
    searchLiteralOnly (fencedCode n) [OpCode.fence.code] 0 false = some (0, 1) := by
  have hop : (fencedCode n)[n]? = some OpCode.lit.code := fencedCode_get n 0
  have hhead : (fencedCode n).take 1 = [OpCode.fence.code] := by
    obtain ⟨m, rfl⟩ := Nat.exists_eq_add_of_lt hn
    rw [fencedCode, Nat.zero_add, List.replicate_succ]
    rfl
  have htext : literalOnlyText (fencedCode n) = some [OpCode.fence.code] := by
    have hskip : skipZeroWidth (fencedCode n) (fencedCode n).length 0 =
        spanBytes (fencedCode n) isIdleByte 0 :=
      skipZeroWidth_eq (by rw [spanBytes_fenced]; exact hop)
    rw [spanBytes_fenced, length_fencedCode] at hskip
    unfold literalOnlyText
    simp only [length_fencedCode, hskip, fencedCode_off, fencedCode_len, hop, List.drop_zero, hhead]
    simp
  rw [searchLiteralOnly, htext]
  decide

/-- The VM runs the text of the literal, which is `FAIL`. -/
theorem straightLine_fenced (hn : 0 < n) :
    StraightLine (fencedCode n) 0 [.lit 0 1] .failed := by
  have hhead := lineTo_spanBytes (fencedCode n) 0
  rw [spanBytes_fenced] at hhead
  have hlit : fetch (fencedCode n) n = some (.prim (.lit 0 1), n + 9) := by
    rw [fetch, show (fencedCode n)[n]? = some OpCode.lit.code from fencedCode_get n 0,
      Option.map_some]
    simp only [operands, OpCode.ofByte_code, fencedCode_off, fencedCode_len]
    rw [if_neg (by omega)]
  have hfail : fetch (fencedCode n) (n + 9) = some (.fail, n + 9 + 1) := by
    rw [fetch, show (fencedCode n)[n + 9]? = some 1 from fencedCode_get n 9, Option.map_some]
    rfl
  exact hhead.append (.op hlit (.stop hfail rfl))

end

/-- Behind 2^32 - 9 `FENCE`s the offset of a literal wraps to 0: the search finds the byte of
`FENCE`, and the VM runs the text of the literal. -/
theorem literalOnly_wraps :
    compileAstToBytecodeC .caseSensitive (fencedLiteral 4294967287) =
        some (fencedCode 4294967287) ∧
      checkLiteralOnly (fencedCode 4294967287) = true ∧
      searchLiteralOnly (fencedCode 4294967287) [OpCode.fence.code] 0 false = some (0, 1) ∧
      SearchReports (VmEnv.ofCode (fencedCode 4294967287) [OpCode.fence.code] .bare) .empty false 0
        (.zero ⟨[], ()⟩) none := by
  have hall : ∀ n, n + 9 = 2 ^ 32 →
      compileAstToBytecodeC .caseSensitive (fencedLiteral n) = some (fencedCode n) ∧
        checkLiteralOnly (fencedCode n) = true ∧
        searchLiteralOnly (fencedCode n) [OpCode.fence.code] 0 false = some (0, 1) ∧
        SearchReports (VmEnv.ofCode (fencedCode n) [OpCode.fence.code] .bare) .empty false 0
          (.zero ⟨[], ()⟩) none := by
    intro n hn
    have hpos : 0 < n := by omega
    refine ⟨compileAstToBytecodeC_fenced hn, checkLiteralOnly_fenced n,
      searchLiteralOnly_fenced hpos, ?_⟩
    have hline : StraightLine (VmEnv.ofCode (fencedCode n) [OpCode.fence.code] .bare).bc 0 _ _ :=
      straightLine_fenced hpos
    refine (hline.vmAttempts.reports_iff (Nat.zero_le _) _).mpr (firstFound_none fun o _ _ => ?_).symm
    rw [lineAttempt]
    cases lineTarget _ _ _ with
    | none => rfl
    | some pos => rfl
  exact hall 4294967287 (by decide)

end Snobol4
