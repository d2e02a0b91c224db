import Snobol4.ExecutedTier

/-!
# CandidateScan — the tiers that look for a first byte (`search_tiers.c`)

`search_span_accelerated`, `search_bitmap_accelerated` and `search_literal_accelerated` share a
loop: go on to the next candidate, run `vm_exec` on the window there, and start again behind it.
The loop does not look at the abort flag, so that an attempt that executes `OP_ABORT` only fails.
-/

namespace Snobol4

open Horspool

variable {W : Type}

/-! ## The loop -/

/-- The loop over the candidates comes to an offset with the VM in the given state. -/
inductive ScanReach (env : VmEnv W) (candidate : Nat → Option Nat) (anchored : Bool) (start : Nat)
    (vm₀ : Vm W) : Nat → Vm W → Prop where
  | start : ScanReach env candidate anchored start vm₀ start vm₀
  | failed {offset cand : Nat} {vm final : Vm W}
      (h : ScanReach env candidate anchored start vm₀ offset vm)
      (hcand : candidate offset = some cand)
      (hexec : VmExec (env.window cand) (searchResetVm vm) false final)
      (hscan : anchored = false) :
      ScanReach env candidate anchored start vm₀ (cand + 1) final

/-- What the loop reports. -/
inductive ScanReports (env : VmEnv W) (candidate : Nat → Option Nat) (anchored : Bool)
    (start : Nat) (vm₀ : Vm W) : Option (Nat × Nat) → Prop where
  | found {offset cand : Nat} {vm final : Vm W}
      (h : ScanReach env candidate anchored start vm₀ offset vm)
      (hcand : candidate offset = some cand)
      (hexec : VmExec (env.window cand) (searchResetVm vm) true final) :
      ScanReports env candidate anchored start vm₀ (some (cand, cand + final.pos))
  | missed {offset : Nat} {vm : Vm W} (h : ScanReach env candidate anchored start vm₀ offset vm)
      (hend : candidate offset = none) : ScanReports env candidate anchored start vm₀ none
  | stopped {offset cand : Nat} {vm final : Vm W}
      (h : ScanReach env candidate anchored start vm₀ offset vm)
      (hcand : candidate offset = some cand)
      (hexec : VmExec (env.window cand) (searchResetVm vm) false final)
      (hanchored : anchored = true) : ScanReports env candidate anchored start vm₀ none

/-- The abort flag is not looked at. -/
def Attempt.lenient : Attempt → Attempt
  | .aborted => .failed
  | attempt => attempt

/-- Every offset in front of the next candidate fails. -/
structure Screens (attempt : Nat → Attempt) (len : Nat) (candidate : Nat → Option Nat) :
    Prop where
  bounds : ∀ {offset cand : Nat}, candidate offset = some cand → offset ≤ cand ∧ cand ≤ len
  skipped : ∀ {offset o : Nat}, offset ≤ o → o ≤ len → (∀ cand ∈ candidate offset, o < cand) →
    (attempt o).lenient = .failed

section

variable {env : VmEnv W} {attempt : Nat → Attempt} {candidate : Nat → Option Nat}
  {anchored : Bool} {start offset : Nat} {vm₀ vm : Vm W}

theorem VmAttempts.lenient_of_failure (h : VmAttempts env attempt) (hle : offset ≤ env.s.length)
    {final : Vm W} (hexec : VmExec (env.window offset) (searchResetVm vm) false final) :
    (attempt offset).lenient = .failed := by
  rw [h.of_failure hle hexec]
  cases final.abortFlag with
  | true => rfl
  | false => rfl

/-- Behind the attempts of the loop everything has failed. -/
theorem ScanReach.failed_before (hreach : ScanReach env candidate anchored start vm₀ offset vm)
    (h : VmAttempts env attempt) (hscreen : Screens attempt env.s.length candidate)
    (hstart : start ≤ env.s.length) :
    start ≤ offset ∧ offset ≤ env.s.length + 1 ∧
      ∀ o, start ≤ o → o < offset → (attempt o).lenient = .failed := by
  induction hreach with
  | start => exact ⟨Nat.le_refl _, Nat.le_succ_of_le hstart, fun o ho hlt => by omega⟩
  | @failed offset cand vm final hreach hcand hexec hscan ih =>
    obtain ⟨hle, -, hfailed⟩ := ih
    obtain ⟨hge, hlen⟩ := hscreen.bounds hcand
    refine ⟨by omega, by omega, ?_⟩
    intro o ho hlt
    obtain hbefore | hskip | rfl : o < offset ∨ (offset ≤ o ∧ o < cand) ∨ o = cand := by omega
    · exact hfailed o ho hbefore
    · refine hscreen.skipped hskip.1 (by omega) ?_
      intro cand' hcand'
      obtain rfl := Option.some.inj (hcand.symm.trans hcand')
      exact hskip.2
    · exact h.lenient_of_failure hlen hexec

/-- The offsets up to a candidate have failed. -/
theorem ScanReach.failed_until (hreach : ScanReach env candidate anchored start vm₀ offset vm)
    (h : VmAttempts env attempt) (hscreen : Screens attempt env.s.length candidate)
    (hstart : start ≤ env.s.length) {stop : Nat} (hstop : stop ≤ env.s.length + 1)
    (hnone : ∀ cand ∈ candidate offset, stop ≤ cand) :
    ∀ o, start ≤ o → o < stop → (attempt o).lenient = .failed := by
  obtain ⟨-, -, hfailed⟩ := hreach.failed_before h hscreen hstart
  intro o ho hlt
  by_cases hbefore : o < offset
  · exact hfailed o ho hbefore
  · refine hscreen.skipped (Nat.le_of_not_lt hbefore) (by omega) ?_
    intro cand hcand
    exact Nat.lt_of_lt_of_le hlt (hnone cand hcand)

/-- The first match is the one behind offsets that fail. -/
theorem searchFrom_of_failed {attempt : Nat → Attempt} {len cand stop : Nat} (hle : start ≤ cand)
    (hlen : cand ≤ len) (hfailed : ∀ o, start ≤ o → o < cand → attempt o = .failed)
    (hfound : attempt cand = .found stop) :
    searchFrom attempt len start false = some (cand, stop) := by
  have hskip : firstFound attempt (cand - start + (len + 1 - cand)) start =
      firstFound attempt (len + 1 - cand) (start + (cand - start)) :=
    firstFound_failed fun o ho hlt => hfailed o ho (by omega)
  rw [show cand - start + (len + 1 - cand) = len + 1 - start by omega,
    Nat.add_sub_cancel' hle, show len + 1 - cand = len - cand + 1 by omega, firstFound, hfound]
    at hskip
  exact hskip

/-- A report of the loop is the first match. -/
theorem ScanReports.eq_searchFrom {result : Option (Nat × Nat)}
    (hreport : ScanReports env candidate false start vm₀ result) (h : VmAttempts env attempt)
    (hscreen : Screens attempt env.s.length candidate) (hstart : start ≤ env.s.length) :
    result = searchFrom (fun o => (attempt o).lenient) env.s.length start false := by
  cases hreport with
  | @found offset cand vm final hreach hcand hexec =>
    obtain ⟨hge, hlen⟩ := hscreen.bounds hcand
    have hle := (hreach.failed_before h hscreen hstart).1
    have hfailed := hreach.failed_until h hscreen hstart (Nat.le_succ_of_le hlen)
      (fun cand' hcand' => Nat.le_of_eq (Option.some.inj (hcand.symm.trans hcand')))
    refine (searchFrom_of_failed (hle.trans hge) hlen hfailed ?_).symm
    rw [h.of_success hlen hexec]
    rfl
  | missed hreach hend =>
    have hfailed := hreach.failed_until h hscreen hstart (Nat.le_refl _) (by
      intro cand hcand
      rw [hend] at hcand
      cases hcand)
    refine (firstFound_none fun o ho hlt => hfailed o ho ?_).symm
    rw [if_neg Bool.false_ne_true] at hlt
    omega
  | stopped _ _ _ hanchored => cases hanchored

/-- From any offset the loop ends. -/
theorem ScanReach.reports (hreach : ScanReach env candidate anchored start vm₀ offset vm)
    (h : VmAttempts env attempt) (hscreen : Screens attempt env.s.length candidate) :
    ∃ result, ScanReports env candidate anchored start vm₀ result := by
  induction hmeasure : env.s.length + 1 - offset using Nat.strong_induction_on
    generalizing offset vm with
  | _ n ih =>
    cases hcand : candidate offset with
    | none => exact ⟨none, .missed hreach hcand⟩
    | some cand =>
      obtain ⟨hge, hlen⟩ := hscreen.bounds hcand
      -- the loop goes on behind an attempt that fails
      have hnext : ∀ final, VmExec (env.window cand) (searchResetVm vm) false final →
          ∃ result, ScanReports env candidate anchored start vm₀ result := by
        intro final hexec
        cases hanchored : anchored with
        | true =>
          subst hanchored
          exact ⟨none, .stopped hreach hcand hexec rfl⟩
        | false =>
          have hfailed := hreach.failed hcand hexec hanchored
          subst hanchored
          exact ih _ (by omega) hfailed rfl
      cases hattempt : attempt cand with
      | found stop =>
        obtain ⟨final, hexec, -⟩ := h.found hlen hattempt vm
        exact ⟨_, .found hreach hcand hexec⟩
      | failed =>
        obtain ⟨final, hexec, -⟩ := h.failed hlen hattempt vm
        exact hnext final hexec
      | aborted =>
        obtain ⟨final, hexec, -⟩ := h.aborted hlen hattempt vm
        exact hnext final hexec

/-- The loop reports the first match and nothing else. -/
theorem scanReports_iff (h : VmAttempts env attempt)
    (hscreen : Screens attempt env.s.length candidate) (hstart : start ≤ env.s.length)
    (vm₀ : Vm W) {result : Option (Nat × Nat)} :
    ScanReports env candidate false start vm₀ result ↔
      result = searchFrom (fun o => (attempt o).lenient) env.s.length start false := by
  constructor
  · intro hreport
    exact hreport.eq_searchFrom h hscreen hstart
  · rintro rfl
    obtain ⟨result, hreport⟩ :=
      (show ScanReach env candidate false start vm₀ start vm₀ from .start).reports h hscreen
    rw [← hreport.eq_searchFrom h hscreen hstart]
    exact hreport

end

/-! ## The tiers -/

/-- The class at the root: `class_bitmap`, and `candidate_bitmap` for an `OP_ANY`. -/
def rootClassBitmap (bc : Bytes) : UInt8 → Bool :=
  (getRangesPtr bc none (readU16 bc ((frontRoot bc).2 + 1)).1).elim (fun _ => false)
    fun c => asciiMap c.ranges

/-- The branches of an `OP_SPLIT` at the root. -/
def rootBranches (bc : Bytes) : List Nat :=
  let root := (frontRoot bc).2
  [(readU32 bc (root + 1)).1, (readU32 bc (root + 5)).1]

/-- `alt_bytes` -/
def branchByte (bc : Bytes) (off : Nat) : Option UInt8 := bc[(readU32 bc (off + 1)).1]?

/-- `candidate_bitmap` -/
def candidateBitmap (bc : Bytes) (b : UInt8) : Bool :=
  if rootOp bc = some .split then (rootBranches bc).any fun off => branchByte bc off == some b
  else rootClassBitmap bc b

/-- The next byte of a bitmap, which is one of ASCII bytes. -/
def bitmapCandidate (s : Bytes) (bitmap : UInt8 → Bool) (offset : Nat) : Option Nat :=
  firstFrom (fun i => (s[i]?).any fun b => decide (b.toNat ≤ 127) && bitmap b)
    (s.length - offset) offset

/-- `search_span_accelerated` -/
def searchSpanAccelerated (env : VmEnv W) : Bool → Nat → Vm W → Option (Nat × Nat) → Prop :=
  ScanReports env (bitmapCandidate env.s (rootClassBitmap env.bc))

/-- `search_bitmap_accelerated` -/
def searchBitmapAccelerated (env : VmEnv W) : Bool → Nat → Vm W → Option (Nat × Nat) → Prop :=
  ScanReports env (bitmapCandidate env.s (candidateBitmap env.bc))

/-- `search_literal_accelerated` with the prefix of the metadata. -/
def searchLiteralAccelerated (env : VmEnv W) (literalPrefix : Bytes) :
    Bool → Nat → Vm W → Option (Nat × Nat) → Prop :=
  ScanReports env fun offset =>
    if offset ≤ env.s.length then prefixCandidate env.s literalPrefix offset else none

/-- Without an anchor it reports what `PrefixReports` says. -/
theorem searchLiteralAccelerated_iff {env : VmEnv W} {literalPrefix : Bytes} {start : Nat}
    {vm₀ : Vm W} {result : Option (Nat × Nat)} :
    searchLiteralAccelerated env literalPrefix false start vm₀ result ↔
      PrefixReports env literalPrefix start vm₀ result := by
  have hcandidate : ∀ offset cand, (if offset ≤ env.s.length then
      prefixCandidate env.s literalPrefix offset else none) = some cand ↔
      offset ≤ env.s.length ∧ prefixCandidate env.s literalPrefix offset = some cand := by
    intro offset cand
    by_cases hle : offset ≤ env.s.length
    · simp [hle]
    · simp [hle]
  have hend : ∀ offset, (if offset ≤ env.s.length then
      prefixCandidate env.s literalPrefix offset else none) = none ↔
      env.s.length < offset ∨ prefixCandidate env.s literalPrefix offset = none := by
    intro offset
    by_cases hle : offset ≤ env.s.length
    · simp [hle]
    · simp [hle, Nat.lt_of_not_le hle]
  have hreach : ∀ offset vm, ScanReach env (fun offset => if offset ≤ env.s.length then
      prefixCandidate env.s literalPrefix offset else none) false start vm₀ offset vm ↔
      PrefixReach env literalPrefix start vm₀ offset vm := by
    intro offset vm
    constructor
    · intro h
      induction h with
      | start => exact .start
      | failed _ hcand hexec _ ih =>
        obtain ⟨hle, hcand⟩ := (hcandidate _ _).mp hcand
        exact .failed ih hle hcand hexec
    · intro h
      induction h with
      | start => exact .start
      | failed _ hle hcand hexec ih =>
        exact .failed ih ((hcandidate _ _).mpr ⟨hle, hcand⟩) hexec rfl
  constructor
  · intro h
    cases h with
    | found h hcand hexec =>
      obtain ⟨hle, hcand⟩ := (hcandidate _ _).mp hcand
      exact .found ((hreach _ _).mp h) hle hcand hexec
    | missed h hnone => exact .missed ((hreach _ _).mp h) ((hend _).mp hnone)
    | stopped _ _ _ hanchored => cases hanchored
  · intro h
    cases h with
    | found h hle hcand hexec =>
      exact .found ((hreach _ _).mpr h) ((hcandidate _ _).mpr ⟨hle, hcand⟩) hexec
    | missed h hnone => exact .missed ((hreach _ _).mpr h) ((hend _).mpr hnone)

/-! ## The root -/

/-- The instructions in front of the root do not move the cursor. -/
def FrontStill (env : VmEnv W) : Prop :=
  ∀ o pos, o ≤ env.s.length → lineTarget (env.window o) (frontRoot env.bc).1 0 = some pos → pos = 0

/-- The code from the root on fails at the start of the window at an offset. -/
def RootFails (env : VmEnv W) (o : Nat) : Prop :=
  ∀ vm, OnLine (frontRoot env.bc).2 0 vm → Ends (env.window o) vm .failed

section

variable {env : VmEnv W} {attempt : Nat → Attempt} {o : Nat}

theorem RootFails.lenient_failed (hroot : RootFails env o) (h : VmAttempts env attempt)
    (hstill : FrontStill env) (hle : o ≤ env.s.length) (vm : Vm W) :
    (attempt o).lenient = .failed := by
  have hstart : OnLine 0 0 (vmRunStart (vmExecStart (searchResetVm vm))) := ⟨rfl, rfl, rfl, rfl⟩
  have hends : Ends (env.window o) (vmRunStart (vmExecStart (searchResetVm vm))) .failed := by
    refine hstart.fails_behind (frontRoot_lineTo env.bc) ?_
    intro pos vm' htarget hvm'
    obtain rfl := hstill o pos hle htarget
    exact hroot vm' hvm'
  obtain ⟨n, final, hn, -⟩ := hends
  exact h.lenient_of_failure hle ⟨n, hn⟩

/-- A byte in an ASCII map is ASCII. -/
theorem asciiMap_le {ranges : List CpRange} {b : UInt8} (h : asciiMap ranges b = true) :
    b.toNat ≤ 127 := by
  rw [asciiMap, List.any_eq_true] at h
  obtain ⟨r, hr, hholds⟩ := h
  have hascii := List.mem_takeWhile_imp hr
  rw [Bool.and_eq_true, decide_eq_true_eq, decide_eq_true_eq] at hascii
  rw [CpRange.holds, decide_eq_true_eq] at hholds
  omega

theorem rootClassBitmap_le {bc : Bytes} {b : UInt8} (h : rootClassBitmap bc b = true) :
    b.toNat ≤ 127 := by
  unfold rootClassBitmap at h
  cases hranges : getRangesPtr bc none (readU16 bc ((frontRoot bc).2 + 1)).1 with
  | none =>
    rw [hranges] at h
    cases h
  | some c =>
    rw [hranges] at h
    exact asciiMap_le h

/-- Nothing matches an `OP_ANY` or `OP_SPAN` of an ASCII class at the end of the subject. -/
theorem matchSet_nil {ranges : List CpRange} {op : SetOp} (hop : op = .any ∨ op = .span)
    (hascii : (rangesToBitmap 127 ranges).isSome) : matchSet [] (some ranges) 0 op = none := by
  obtain ⟨bitmap, hbitmap⟩ := Option.isSome_iff_exists.mp hascii
  obtain rfl | rfl := hop
  · simp [matchSet, matchAny, hbitmap]
  · simp [matchSet, matchSpan, spanTarget, hbitmap, spanBytes]

/-- An `OP_SPAN` or `OP_ANY` at the root fails where no byte of its class stands. -/
theorem rootFails_of_class {op : OpCode} (hop : op = .any ∨ op = .span)
    (hroot : rootClassOp env.bc = some op) (hascii : rootClassAscii env.bc op = true)
    (hbyte : ∀ b, env.s[o]? = some b → rootClassBitmap env.bc b = false) : RootFails env o := by
  intro vm hvm
  obtain ⟨hrootOp, -⟩ := Option.filter_eq_some_iff.mp hroot
  obtain ⟨b, hb, hfetch⟩ := fetch_of_op hrootOp
  unfold rootClassAscii at hascii
  unfold rootClassBitmap at hbyte
  cases hranges : getRangesPtr env.bc none (readU16 env.bc ((frontRoot env.bc).2 + 1)).1 with
  | none =>
    rw [hranges] at hascii
    cases hascii
  | some c =>
    rw [hranges, Bool.and_eq_true] at hascii
    rw [hranges] at hbyte
    have henv : env.ranges (readU16 env.bc ((frontRoot env.bc).2 + 1)).1 = some c.ranges := by
      rw [VmEnv.ranges, getRangesPtr_eq env.rangeMeta_eq, ← getRangesPtr_eq (.inl rfl), hranges,
        Option.map_some]
    have hmatch : ∀ setOp : SetOp, setOp = .any ∨ setOp = .span →
        matchSet (env.s.drop o) (some c.ranges) 0 setOp = none := by
      intro setOp hsetOp
      cases hhead : (env.s.drop o)[0]? with
      | none =>
        rw [List.eq_nil_of_length_eq_zero (Nat.le_zero.mp (List.getElem?_eq_none_iff.mp hhead))]
        exact matchSet_nil hsetOp hascii.2
      | some a =>
        cases hresult : matchSet (env.s.drop o) (some c.ranges) 0 setOp with
        | none => rfl
        | some pos =>
          have hin := matchSet_start hhead hsetOp hascii.2 hresult
          rw [List.getElem?_drop, Nat.add_zero] at hhead
          have hout := hbyte a hhead
          rw [Option.elim_some, hin] at hout
          cases hout
    obtain rfl | rfl := hop
    · simp only [operands, hb] at hfetch
      refine hvm.op_fails (show fetch env.bc _ = some (.prim (LineOp.set .any _).prim, _) from
        hfetch) ?_
      exact (congrArg (matchSet _ · 0 .any) henv).trans (hmatch .any (.inl rfl))
    · simp only [operands, hb] at hfetch
      refine hvm.op_fails (show fetch env.bc _ = some (.prim (LineOp.set .span _).prim, _) from
        hfetch) ?_
      exact (congrArg (matchSet _ · 0 .span) henv).trans (hmatch .span (.inr rfl))

/-- A literal at the root fails where its prefix does not stand. -/
theorem rootFails_of_literal {lit : Bytes} (hlit : rootLiteral env.bc = some lit)
    (hat : ¬Stands (lit.take maxPrefixLen) env.s o) : RootFails env o := by
  intro vm hvm
  obtain ⟨⟨next, hfetch⟩, htext, -⟩ := rootLiteral_spec hlit
  refine hvm.op_fails hfetch ?_
  have hpre : lit <+: litText env.bc (frontRoot env.bc).2 := by
    rw [htext]
  refine matchLit_eq_none _ 0 hpre ?_
  intro hthere
  exact hat ((stands_drop.mp hthere).shorten (List.take_prefix _ _))

/-! ## Two letters -/

/-- A branch with a literal of one byte. -/
theorem checkSingleLit_spec {bc : Bytes} {off : Nat} (h : checkSingleLit bc off = true) :
    off + 10 ≤ bc.length ∧ bc[off]? = some OpCode.lit.code ∧ (readU32 bc (off + 5)).1 = 1 ∧
      ∃ b, branchByte bc off = some b ∧ litText bc off = [b] := by
  simp only [checkSingleLit, Bool.and_eq_true, decide_eq_true_eq, beq_iff_eq] at h
  obtain ⟨⟨⟨hlen, hop⟩, hone, hdata⟩, -⟩ := h
  refine ⟨hlen, hop, hone, bc[(readU32 bc (off + 1)).1], ?_, ?_⟩
  · rw [branchByte, List.getElem?_eq_getElem hdata]
  · rw [litText, hone, List.drop_eq_getElem_cons hdata]
    rfl

/-- The walk over alternatives takes such a branch. -/
theorem altLiterals_single {bc : Bytes} {off turns : Nat} {stack : List Nat}
    (h : checkSingleLit bc off = true) :
    altLiterals bc (turns + 1) (off :: stack) =
      (altLiterals bc turns stack).map (litText bc off :: ·) := by
  obtain ⟨hlen, hop, hone, b, hbyte, -⟩ := checkSingleLit_spec h
  have hdata := (List.getElem?_eq_some_iff.mp hbyte).1
  have hmod : ((readU32 bc (off + 1)).1 + 1) % 2 ^ 32 ≤ bc.length :=
    (Nat.mod_le _ _).trans hdata
  rw [altLiterals, if_neg (by omega), hop, Option.bind_some, OpCode.ofByte_code]
  simp only [hone]
  rw [if_neg (by omega)]

/-- Two alternatives of one byte at the root fail where neither byte stands. -/
theorem rootFails_of_letters (hroot : rootOp env.bc = some .split)
    (hlen : (frontRoot env.bc).2 + 9 ≤ env.bc.length)
    (hsingle : ∀ off ∈ rootBranches env.bc, checkSingleLit env.bc off = true)
    (hbyte : ∀ b, env.s[o]? = some b →
      ∀ off ∈ rootBranches env.bc, branchByte env.bc off ≠ some b) : RootFails env o := by
  intro vm hvm
  have hleft := hsingle _ List.mem_cons_self
  have hright := hsingle _ (List.mem_cons_of_mem _ List.mem_cons_self)
  have hleftLen := (checkSingleLit_spec hleft).1
  have hrightLen := (checkSingleLit_spec hright).1
  have htree : OnTree (frontRoot env.bc).2 [] vm :=
    ⟨hvm.ip, hvm.pos, by rw [hvm.choices]; rfl, hvm.abortFlag⟩
  have hlits : altLiterals (env.bc.take env.bc.length) 4 [(frontRoot env.bc).2] =
      some ((rootBranches env.bc).map (litText env.bc)) := by
    rw [List.take_length, altLiterals, if_neg (by omega), show env.bc[(frontRoot env.bc).2]?.bind
      OpCode.ofByte = some .split from hroot]
    dsimp only
    rw [if_neg (by simp only [List.length_nil]; omega), altLiterals_single hleft,
      altLiterals_single hright]
    rfl
  have hat : ∀ lit ∈ (rootBranches env.bc).map (litText env.bc),
      ¬Stands lit (env.window o).s 0 := by
    intro lit hmem hat
    obtain ⟨off, hoff, rfl⟩ := List.mem_map.mp hmem
    obtain ⟨-, -, -, b, hb, htext⟩ := checkSingleLit_spec (hsingle off hoff)
    have hstands := stands_drop.mp hat
    rw [htext, Nat.add_zero] at hstands
    exact hbyte b (hstands.getElem? (k := 0) (Nat.succ_pos _)) off hoff hb
  exact htree.ends hlits hat

/-! ## The candidates -/

theorem bitmapCandidate_bounds {s : Bytes} {bitmap : UInt8 → Bool} {offset cand : Nat}
    (h : bitmapCandidate s bitmap offset = some cand) : offset ≤ cand ∧ cand ≤ s.length := by
  obtain ⟨hle, htest⟩ := le_of_mem_firstFrom h
  refine ⟨hle, Nat.le_of_lt ?_⟩
  by_contra hlong
  rw [List.getElem?_eq_none (Nat.le_of_not_lt hlong)] at htest
  cases htest

/-- The scan goes past bytes that are not in the bitmap. -/
theorem bitmapCandidate_skips {s : Bytes} {bitmap : UInt8 → Bool} {offset : Nat}
    (hascii : ∀ b, bitmap b = true → b.toNat ≤ 127) (hle : offset ≤ o)
    (hskip : ∀ cand ∈ bitmapCandidate s bitmap offset, o < cand) (b : UInt8) (hb : s[o]? = some b) :
    bitmap b = false := by
  have hlt := (List.getElem?_eq_some_iff.mp hb).1
  have htest := firstFrom_skips hle (by omega) hskip
  rw [hb, Option.any_some, Bool.and_eq_false_iff] at htest
  obtain hbig | hout := htest
  · by_contra hin
    exact of_decide_eq_false hbig (hascii b (by simpa using hin))
  · exact hout

/-! ## The reports -/

/-- The metadata selects the scan. -/
inductive ScanTier (env : VmEnv W) (turns : Nat) : (Bool → Nat → Vm W → Option (Nat × Nat) → Prop) →
    Prop where
  | span (hspan : (deriveTierMeta turns env.bc).isSpanFamily = true)
      (hascii : (deriveTierMeta turns env.bc).asciiClassOnly = true) :
      ScanTier env turns (searchSpanAccelerated env)
  | bitmap (hbitmap : (deriveTierMeta turns env.bc).hasCandidateBitmap = true)
      (hascii : rootOp env.bc = some .split →
        ∀ off ∈ rootBranches env.bc, ∀ b ∈ branchByte env.bc off, b.toNat ≤ 127) :
      ScanTier env turns (searchBitmapAccelerated env)
  | literal {isAltLiterals captures : Bool}
      (hprefixed : (literalMeta isAltLiterals captures turns env.bc).hasLiteralPrefix = true) :
      ScanTier env turns (searchLiteralAccelerated env
        (literalMeta isAltLiterals captures turns env.bc).literalPrefix)

theorem screens_of_rootFails {candidate : Nat → Option Nat} (h : VmAttempts env attempt)
    (hstill : FrontStill env) (vm : Vm W)
    (hbounds : ∀ offset cand, candidate offset = some cand →
      offset ≤ cand ∧ cand ≤ env.s.length)
    (hskip : ∀ offset o, offset ≤ o → o ≤ env.s.length → (∀ cand ∈ candidate offset, o < cand) →
      RootFails env o) : Screens attempt env.s.length candidate where
  bounds hcand := hbounds _ _ hcand
  skipped hle hlen hpast := (hskip _ _ hle hlen hpast).lenient_failed h hstill hlen vm

theorem screens_span (h : VmAttempts env attempt) (hstill : FrontStill env) (vm : Vm W)
    {op : OpCode} (hop : op = .any ∨ op = .span) (hroot : rootClassOp env.bc = some op)
    (hascii : rootClassAscii env.bc op = true) :
    Screens attempt env.s.length (bitmapCandidate env.s (rootClassBitmap env.bc)) := by
  refine screens_of_rootFails h hstill vm (fun _ _ hcand => bitmapCandidate_bounds hcand) ?_
  intro offset o hle _ hpast
  exact rootFails_of_class hop hroot hascii
    (bitmapCandidate_skips (fun _ hin => rootClassBitmap_le hin) hle hpast)

theorem screens_letters (h : VmAttempts env attempt) (hstill : FrontStill env) (vm : Vm W)
    (hroot : rootOp env.bc = some .split) (hlen : (frontRoot env.bc).2 + 9 ≤ env.bc.length)
    (hsingle : ∀ off ∈ rootBranches env.bc, checkSingleLit env.bc off = true)
    (hascii : ∀ off ∈ rootBranches env.bc, ∀ b ∈ branchByte env.bc off, b.toNat ≤ 127) :
    Screens attempt env.s.length (bitmapCandidate env.s (candidateBitmap env.bc)) := by
  have hletters : ∀ b, candidateBitmap env.bc b = true ↔
      ∃ off ∈ rootBranches env.bc, branchByte env.bc off = some b := by
    intro b
    rw [candidateBitmap, if_pos hroot, List.any_eq_true]
    simp only [beq_iff_eq]
  refine screens_of_rootFails h hstill vm (fun _ _ hcand => bitmapCandidate_bounds hcand) ?_
  intro offset o hle _ hpast
  refine rootFails_of_letters hroot hlen hsingle ?_
  intro b hb off hoff hbranch
  have hout := bitmapCandidate_skips (fun b hin => ?_) hle hpast b hb
  · rw [(hletters b).mpr ⟨off, hoff, hbranch⟩] at hout
    cases hout
  · obtain ⟨off, hoff, hbranch⟩ := (hletters b).mp hin
    exact hascii off hoff b hbranch

theorem screens_literal (h : VmAttempts env attempt) (hstill : FrontStill env) (vm : Vm W)
    {lit : Bytes} (hlit : rootLiteral env.bc = some lit) :
    Screens attempt env.s.length fun offset =>
      if offset ≤ env.s.length then prefixCandidate env.s (lit.take maxPrefixLen) offset
      else none := by
  have hne : lit.take maxPrefixLen ≠ [] := by
    intro hnil
    obtain hzero | hempty := List.take_eq_nil_iff.mp hnil
    · cases hzero
    · exact (rootLiteral_spec hlit).2.2 hempty
  refine screens_of_rootFails h hstill vm ?_ ?_
  · intro offset cand hcand
    split at hcand
    · rename_i hle
      exact prefixCandidate_bounds hle hcand
    · cases hcand
  · intro offset o hle hlen hpast
    rw [if_pos (hle.trans hlen)] at hpast
    exact rootFails_of_literal hlit (prefixCandidate_skips hne hle hpast)

/-- The tiers that look for a first byte report the first of the matches at all offsets, where the
instructions in front of the root do not move the cursor; an attempt that aborts only fails. -/
theorem scanTier_reports_iff (env : VmEnv W) (attempt : Nat → Attempt) (turns : Nat)
    (reports : Bool → Nat → Vm W → Option (Nat × Nat) → Prop) (start : Nat) (vm₀ : Vm W)
    (result : Option (Nat × Nat)) (hstart : start ≤ env.s.length)
    (htier : ScanTier env turns reports) (h : VmAttempts env attempt) (hstill : FrontStill env) :
    reports false start vm₀ result ↔
      result = searchFrom (fun o => (attempt o).lenient) env.s.length start false := by
  cases htier with
  | span hspan hascii =>
    simp only [deriveTierMeta, Bool.and_eq_true, beq_iff_eq] at hspan hascii
    rw [hspan.1] at hascii
    exact scanReports_iff h (screens_span h hstill vm₀ (.inr rfl) hspan.1 hascii) hstart vm₀
  | bitmap hbitmap hascii =>
    simp only [deriveTierMeta, Bool.and_eq_true, Bool.or_eq_true, beq_iff_eq,
      decide_eq_true_eq] at hbitmap
    obtain ⟨⟨⟨⟨hroot, hlen⟩, hleft⟩, hright⟩ | ⟨hany, hclass⟩, -⟩ := hbitmap
    · have hsingle : ∀ off ∈ rootBranches env.bc, checkSingleLit env.bc off = true := by
        intro off hoff
        obtain rfl | hoff := List.mem_cons.mp hoff
        · exact hleft
        · obtain rfl := List.mem_singleton.mp hoff
          exact hright
      have hscreen := screens_letters h hstill vm₀ hroot hlen hsingle (hascii hroot)
      exact scanReports_iff h hscreen hstart vm₀
    · have hroot := (Option.filter_eq_some_iff.mp hany).1
      have hcandidates : candidateBitmap env.bc = rootClassBitmap env.bc := by
        funext b
        rw [candidateBitmap, if_neg (by rw [hroot]; decide)]
      rw [hany] at hclass
      unfold searchBitmapAccelerated
      rw [hcandidates]
      exact scanReports_iff h (screens_span h hstill vm₀ (.inl rfl) hany hclass) hstart vm₀
  | @literal isAltLiterals captures hprefixed =>
    cases hlit : rootLiteral env.bc with
    | none =>
      rw [literalMeta, hlit] at hprefixed
      cases hprefixed
    | some lit =>
      have htext : (literalMeta isAltLiterals captures turns env.bc).literalPrefix =
          lit.take maxPrefixLen := by
        rw [literalMeta, hlit]
      rw [htext]
      exact scanReports_iff h (screens_literal h hstill vm₀ hlit) hstart vm₀

end

/-- `SPAN('a')` on "baa". -/
theorem scanTier_reports_iff_letter :
    searchSpanAccelerated (VmEnv.ofCode spanLetter [0x62, 0x61, 0x61] .bare) false 0
      (.zero ⟨[], ()⟩) (some (1, 3)) := by
  have hline : StraightLine spanLetter 0 [.set .span 1] .accepted := .op rfl (.stop rfl rfl)
  have hstill : FrontStill (VmEnv.ofCode spanLetter [0x62, 0x61, 0x61] .bare) := by
    intro o pos _ htarget
    have hfront : (frontRoot spanLetter).1 = [] := by decide +kernel
    rw [show (frontRoot (VmEnv.ofCode spanLetter [0x62, 0x61, 0x61] Host.bare).bc).1 = [] from
      hfront] at htarget
    cases htarget
    rfl
  exact (scanTier_reports_iff (VmEnv.ofCode spanLetter [0x62, 0x61, 0x61] .bare) _ 0 _ 0 _ _
    (by decide) (.span (by decide +kernel) (by decide +kernel)) hline.vmAttempts hstill).mpr
    (by decide +kernel)

/-- The code of `TAB(1) SPAN('b')`. -/
def spanBehindTab : Bytes :=
  [38, 0, 0, 0, 1, 7, 0, 1, 0, 0, 1, 0, 0, 0, 0, 0, 98, 0, 0, 0, 98, 0, 0, 0, 9, 0, 0, 0, 1, 0, 0,
    0, 0, 83, 78, 66, 76]

/-- On "ab" the scan for `TAB(1) SPAN('b')` misses the match of the plain loop: it looks for the
letter at the offset and not behind the tab. -/
theorem spanScan_misses_behind_tab :
    compileAstToBytecodeC .caseSensitive (.concat [.tab 1, .span [0x62]]) = some spanBehindTab ∧
      searchSpanAccelerated (VmEnv.ofCode spanBehindTab [0x61, 0x62] .bare) false 0
        (.zero ⟨[], ()⟩) none ∧
      SearchReports (VmEnv.ofCode spanBehindTab [0x61, 0x62] .bare) .empty false 0
        (.zero ⟨[], ()⟩) (some (0, 2)) := by
  have hline : StraightLine spanBehindTab 0 [.count .tab 1, .set .span 1] .accepted :=
    .op rfl (.op rfl (.stop rfl rfl))
  have hattempts : VmAttempts (VmEnv.ofCode spanBehindTab [0x61, 0x62] .bare) _ := hline.vmAttempts
  refine ⟨by decide +kernel, ?_, (hattempts.reports_iff (by decide) _).mpr (by decide +kernel)⟩
  obtain ⟨final, hexec, -⟩ := hattempts.failed (show 1 ≤ 2 by decide) (by decide +kernel)
    (.zero ⟨[], ()⟩)
  exact .missed (ScanReach.start.failed (by decide +kernel) hexec rfl) (by decide +kernel)

/-- The code of `ANY('b') LEN(1)`. -/
def anyThenLen : Bytes :=
  [5, 0, 1, 12, 0, 0, 0, 1, 0, 0, 1, 0, 0, 0, 0, 0, 98, 0, 0, 0, 98, 0, 0, 0, 9, 0, 0, 0, 1, 0,
    0, 0, 0, 83, 78, 66, 76]

/-- The tier that answers the anchored search for `ANY('b') LEN(1)` in "abc" reports a match off
the anchor, where the plain loop reports nothing. -/
theorem bitmapScan_leaves_anchor :
    compileAstToBytecodeC .caseSensitive (.concat [.any [0x62], .len 1]) = some anyThenLen ∧
      (deriveTierMeta 0 anyThenLen).answeringTier none [0x61, 0x62, 0x63] 0 true = .bitmap ∧
      searchBitmapAccelerated (VmEnv.ofCode anyThenLen [0x61, 0x62, 0x63] .bare) true 0
        (.zero ⟨[], ()⟩) (some (1, 3)) ∧
      SearchReports (VmEnv.ofCode anyThenLen [0x61, 0x62, 0x63] .bare) .empty true 0
        (.zero ⟨[], ()⟩) none := by
  have hline : StraightLine anyThenLen 0 [.set .any 1, .count .len 1] .accepted :=
    .op rfl (.op rfl (.stop rfl rfl))
  have hattempts : VmAttempts (VmEnv.ofCode anyThenLen [0x61, 0x62, 0x63] .bare) _ :=
    hline.vmAttempts
  refine ⟨by decide +kernel, by decide +kernel, ?_,
    (hattempts.reports_iff (by decide) _).mpr (by decide +kernel)⟩
  have hattempt : lineAttempt (VmEnv.ofCode anyThenLen [0x61, 0x62, 0x63] Host.bare)
      [.set .any 1, .count .len 1] .accepted 1 = .found 3 := by decide +kernel
  obtain ⟨final, hexec, hstop⟩ := hattempts.found (show 1 ≤ 3 by decide) hattempt
    (.zero ⟨[], ()⟩)
  rw [hstop]
  exact .found .start (by decide +kernel) hexec

end Snobol4
