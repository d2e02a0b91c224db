import Snobol4.Automaton
import Snobol4.FusionTier
import Snobol4.RegisterClasses
import Snobol4.Minlength
import Snobol4.SearchVmSafety
import Snobol4.SimdTier

/-!
# SearchNext — iterating over the matches of a literal (`api.c`)

`snobol_pattern_search_next` looks for the required literal of the metadata, a copy of at most
16 bytes.  `snobol_pattern_search_ex` looks for all of the literal, with the automaton or the
tier that the cost model selects.
-/

namespace Snobol4

open Horspool

variable {W : Type}

/-! ## Metadata -/

/-- The size of an instruction in the walk of `bc_has_capture`, where the walk goes on. -/
def OpCode.captureWalkSize : OpCode → Option Nat
  | .fail | .nop | .fence | .rem | .dynamic => some 1
  | .jmp | .split | .lit | .emitLiteral => some 9
  | .any | .notany | .span | .break | .breakx => some 3
  | .assign | .eval => some 4
  | .len | .pos | .rpos | .tab | .rtab => some 5
  | .anchor => some 2
  | .repeatInit => some 14
  | .repeatStep => some 6
  | _ => none

/-- The loop of `bc_has_capture`. -/
def captureWalk (bc : Bytes) : Nat → Nat → Bool
  | 0, _ => false
  | fuel + 1, ip =>
      match bc[ip]?.bind OpCode.ofByte with
      | some .capStart | some .capEnd | some .emitCapture => true
      | some op =>
          match op.captureWalkSize with
          | some size => captureWalk bc fuel (ip + size)
          | none => false
      | none => false

/-- `has_capture` -/
def hasCapture (bc : Bytes) : Bool :=
  captureWalk bc bc.length 0 || (snobolBcRegisterClasses bc).contains .capture

/-- The operands that `check_automaton_eligible` steps over, for the opcodes it allows. -/
def OpCode.automatonOperands : OpCode → Option Nat
  | .accept | .fail | .capStart | .capEnd | .fence | .rem | .nop | .abort | .succeed => some 0
  | .any | .notany => some 2
  | .jmp | .len => some 4
  | .repeatStep => some 5
  | .split | .lit => some 8
  | .repeatInit => some 13
  | _ => none

/-- The walk of `check_automaton_eligible`; without a bound it ends at `OP_ACCEPT` and
`OP_FAIL`. -/
def automatonWalk (bc : Bytes) (limit : Nat) (bounded : Bool) : Nat → Nat → Bool
  | 0, _ => true
  | fuel + 1, ip =>
      if ip < limit then
        match bc[ip]?.bind OpCode.ofByte with
        | none => false
        | some op =>
            if !bounded && (op == .accept || op == .fail) then true
            else
              match op.automatonOperands with
              | none => false
              | some size =>
                  if limit < ip + 1 + size then false
                  else
                    automatonWalk bc limit bounded fuel
                      (ip + 1 + size + if op = .lit then (readU32 bc (ip + 5)).1 else 0)
      else true

/-- `check_automaton_eligible` -/
def checkAutomatonEligible (bc : Bytes) : Bool :=
  let bodyLen := snobolBcBodyLen bc
  decide (bc.length ≤ 512) &&
    automatonWalk bc (if 0 < bodyLen then bodyLen else bc.length) (decide (0 < bodyLen)) bc.length 0

/-- The fields of `snobol_search_meta_t` that the selection of a tier reads. -/
structure TierMeta where
  isBreakFamily : Bool
  isSpanFamily : Bool
  asciiClassOnly : Bool
  isLiteralOnly : Bool
  hasLiteralPrefix : Bool
  literalPrefixLen : Nat
  hasCandidateBitmap : Bool
  isSingleCharAlt : Bool
  isAltLiterals : Bool
  searchVmEligible : Bool
  simdEligible : Bool
  fusionEligible : Bool
  automatonEligible : Bool
  hasBmhSkip : Bool

/-- `snobol_search_derive_meta` on code whose first consuming instruction is `OP_LIT`. -/
def literalTierMeta (bc : Bytes) : TierMeta :=
  let captures := hasCapture bc
  let info := literalMeta false captures 0 bc
  { isBreakFamily := false
    isSpanFamily := false
    asciiClassOnly := false
    isLiteralOnly := checkLiteralOnly bc
    hasLiteralPrefix := info.hasLiteralPrefix
    literalPrefixLen := info.literalPrefix.length
    hasCandidateBitmap := false
    isSingleCharAlt := false
    isAltLiterals := false
    searchVmEligible := checkSearchVmEligible bc
    simdEligible := checkSimdEligible bc && !captures
    fusionEligible := (checkFusionEligible captures bc).isSome && !captures
    automatonEligible := checkAutomatonEligible bc && !captures
    hasBmhSkip := info.hasBmhSkip }

/-! ## Tiers -/

/-- `snobol_search_tier_t` -/
inductive Tier where
  | breakScan | spanScan | literal | literalPrefix | bitmap | altLit | searchVm | automaton
  | general | simdNfa | fusedAutomaton
  deriving Repr, DecidableEq

/-- `k_tier_cost`: the setup cost, and the divisor of the length of the subject. -/
def tierCosts : List (Tier × Int × Nat) :=
  [(.breakScan, 20, 8), (.spanScan, 20, 8), (.literal, 10, 16), (.literalPrefix, 30, 32),
   (.bitmap, 25, 12), (.altLit, 12, 20), (.searchVm, 50, 10), (.general, 100, 5),
   (.simdNfa, 15, 16), (.fusedAutomaton, 20, 8)]

/-- The tiers that `select_tier_by_cost` scores. -/
def TierMeta.eligible (info : TierMeta) (anchored : Bool) : Tier → Bool
  | .breakScan => !anchored && info.isBreakFamily && info.asciiClassOnly
  | .spanScan => !anchored && info.isSpanFamily && info.asciiClassOnly
  | .literal => info.isLiteralOnly
  | .literalPrefix => !anchored && info.hasLiteralPrefix && decide (0 < info.literalPrefixLen)
  | .bitmap => info.hasCandidateBitmap && info.isSingleCharAlt
  | .altLit => info.isAltLiterals
  | .searchVm => info.searchVmEligible && !info.isAltLiterals
  | .simdNfa => info.simdEligible && info.asciiClassOnly
  | .fusedAutomaton => info.fusionEligible && !info.hasLiteralPrefix
  | .general => true
  | .automaton => false

/-- A `size_t` cast to `int32_t`. -/
def toInt32 (n : Nat) : Int := (n + 2147483648) % 4294967296 - 2147483648

/-- One turn of the loop of `select_tier_by_cost`. -/
def TierMeta.score (info : TierMeta) (len : Nat) (anchored : Bool) (best : Tier × Int)
    (c : Tier × Int × Nat) : Tier × Int :=
  let cost := c.2.1 + toInt32 (len / c.2.2)
  if info.eligible anchored c.1 && decide (cost < best.2) then (c.1, cost) else best

/-- `select_tier_by_cost` -/
def TierMeta.selectTierByCost (info : TierMeta) (len : Nat) (anchored : Bool) : Tier :=
  (tierCosts.foldl (info.score len anchored) (.general, 2147483647)).1

/-- The tier that `dispatch_search_impl` runs. -/
def TierMeta.dispatchTier (info : TierMeta) (len : Nat) (dfaAvailable anchored : Bool) : Tier :=
  if dfaAvailable && info.automatonEligible && !info.isAltLiterals && info.hasBmhSkip && !anchored
  then .automaton
  else info.selectTierByCost len anchored

/-! ## The searches -/

/-- The loop of `search_literal_accelerated` comes to an offset with the VM in the given
state. -/
inductive PrefixReach (env : VmEnv W) (w : Bytes) (start : Nat) (vm₀ : Vm W) :
    Nat → Vm W → Prop where
  | start : PrefixReach env w start vm₀ start vm₀
  | failed {offset cand : Nat} {vm final : Vm W} (h : PrefixReach env w start vm₀ offset vm)
      (hle : offset ≤ env.s.length) (hcand : prefixCandidate env.s w offset = some cand)
      (hexec : VmExec (env.window cand) (searchResetVm vm) false final) :
      PrefixReach env w start vm₀ (cand + 1) final

/-- What `search_literal_accelerated` reports. -/
inductive PrefixReports (env : VmEnv W) (w : Bytes) (start : Nat) (vm₀ : Vm W) :
    Option (Nat × Nat) → Prop where
  | found {offset cand : Nat} {vm final : Vm W} (h : PrefixReach env w start vm₀ offset vm)
      (hle : offset ≤ env.s.length) (hcand : prefixCandidate env.s w offset = some cand)
      (hexec : VmExec (env.window cand) (searchResetVm vm) true final) :
      PrefixReports env w start vm₀ (some (cand, cand + final.pos))
  | missed {offset : Nat} {vm : Vm W} (h : PrefixReach env w start vm₀ offset vm)
      (hend : env.s.length < offset ∨ prefixCandidate env.s w offset = none) :
      PrefixReports env w start vm₀ none

/-- The loop of `tier_automaton` over the automaton. -/
def automatonLoop (dfa : Dfa) (info : SearchMeta) (s : Bytes) (anchored : Bool) :
    Nat → Nat → Option (Nat × Nat)
  | 0, _ => none
  | fuel + 1, offset =>
      match searchAutomatonExec dfa s offset with
      | some found => some found
      | none =>
          if s.length ≤ offset ∨ anchored then none
          else
            let next := info.advance s offset
            if s.length < next then none else automatonLoop dfa info s anchored fuel next

/-- What `tier_automaton` reports: what its loop over the automaton finds, or else what the
general tier reports. -/
inductive TierAutomaton (env : VmEnv W) (dfa : Option Dfa) (info : SearchMeta) (anchored : Bool)
    (start : Nat) (vm₀ : Vm W) : Option (Nat × Nat) → Prop where
  | found {dfa' : Dfa} {found : Nat × Nat} (hdfa : dfa = some dfa')
      (h : automatonLoop dfa' info env.s anchored (env.s.length + 1 - start) start = some found) :
      TierAutomaton env dfa info anchored start vm₀ (some found)
  | fallback {result : Option (Nat × Nat)}
      (hnone : ∀ dfa', dfa = some dfa' →
        automatonLoop dfa' info env.s anchored (env.s.length + 1 - start) start = none)
      (h : SearchReports env info anchored start vm₀ result) :
      TierAutomaton env dfa info anchored start vm₀ result

/-- What a tier reports. -/
inductive TierReports (env : VmEnv W) (info : SearchMeta) (w : Bytes) (start : Nat) (vm₀ : Vm W) :
    Tier → Option (Nat × Nat) → Prop where
  | literal : TierReports env info w start vm₀ .literal (searchLiteralOnly env.bc env.s start false)
  | literalPrefix {result : Option (Nat × Nat)} (h : PrefixReports env w start vm₀ result) :
      TierReports env info w start vm₀ .literalPrefix result
  | automaton {result : Option (Nat × Nat)}
      (h : TierAutomaton env (buildDfa env) info false start vm₀ result) :
      TierReports env info w start vm₀ .automaton result
  | general {result : Option (Nat × Nat)} (h : SearchReports env info false start vm₀ result) :
      TierReports env info w start vm₀ .general result

/-- What the restart loops read of the metadata. -/
def literalSearchMeta (bc : Bytes) : SearchMeta where
  startBitmap := some (startBitmap false bc)
  minlength := minlength bc
  bmhSkip := (literalMeta false (hasCapture bc) 0 bc).bmhSkip

/-- The tier that `snobol_pattern_search_ex` runs; it builds the automaton where the pattern is
eligible. -/
def literalTier (env : VmEnv W) : Tier :=
  let info := literalTierMeta env.bc
  info.dispatchTier env.s.length (info.automatonEligible && (buildDfa env).isSome) false

/-- `snobol_pattern_search_ex` on code whose first consuming instruction is `OP_LIT`: the one
byte short circuit, the filter on the required literal, and the tiers.  Where the filter
leaves the subject the call has no result that C defines. -/
def SearchExReports (env : VmEnv W) (start : Nat) (vm₀ : Vm W) (result : Option (Nat × Nat)) :
    Prop :=
  let required := requiredLit false env.bc
  match required.bind fun w => if w.length = 1 ∧ checkLiteralOnly env.bc then w.head? else none with
  | some b => result = searchOneByte env.s b start
  | none =>
      match searchPrefilterMiss required env.s start with
      | none => False
      | some true => result = none
      | some false =>
          if env.s.length < start then result = none
          else
            TierReports env (literalSearchMeta env.bc) (literalMeta false (hasCapture env.bc) 0
              env.bc).literalPrefix start vm₀ (literalTier env) result

/-- `snobol_pattern_search_next`: the position and the length. -/
def searchNext (bc s : Bytes) (start : Nat) : Option (Nat × Nat) :=
  match requiredLit false bc with
  | none => none
  | some w =>
      if checkLiteralOnly bc = false ∨ s.length < start then none
      else
        match w with
        | [b] => (memchr s b start).map fun p => (p, 1)
        | w => (memmem s w start).map fun p => (p, w.length)

/-! ## The code of a literal -/

/-- The instructions of a pattern that is one literal. -/
def literalBody (lit : Bytes) : Bytes :=
  OpCode.lit.code :: (emitU32 9 ++ (emitU32 lit.length ++ (lit ++ [OpCode.accept.code])))

/-- The bytecode of a pattern that is one literal. -/
def literalCode (lit : Bytes) : Bytes := literalBody lit ++ trailer (literalBody lit).length [] []

section

variable (lit : Bytes)

theorem literalCode_eq : literalCode lit =
    OpCode.lit.code :: (emitU32 9 ++ (emitU32 lit.length ++ (lit ++
      OpCode.accept.code :: [0, 0, 0, 0, 0, 0, 0, 0, 83, 78, 66, 76]))) := by
  simp only [literalCode, literalBody, List.cons_append, List.append_assoc, List.nil_append]
  rfl

theorem length_literalBody : (literalBody lit).length = lit.length + 10 := by
  simp only [literalBody, List.length_cons, List.length_append, length_emitU32, List.length_nil]
  omega

theorem length_literalCode : (literalCode lit).length = lit.length + 22 := by
  simp only [literalCode_eq, List.length_cons, List.length_append, length_emitU32, List.length_nil]
  omega

theorem literalCode_text_drop : (literalCode lit).drop 9 =
    lit ++ OpCode.accept.code :: [0, 0, 0, 0, 0, 0, 0, 0, 83, 78, 66, 76] := by
  rw [literalCode_eq]
  rfl

theorem literalCode_end_drop (n : Nat) : (literalCode lit).drop (9 + lit.length + n) =
    (OpCode.accept.code :: [0, 0, 0, 0, 0, 0, 0, 0, 83, 78, 66, 76]).drop n := by
  rw [Nat.add_assoc, ← List.drop_drop, literalCode_text_drop, ← List.drop_drop, List.drop_left]

theorem literalCode_off : (readU32 (literalCode lit) 1).1 = 9 := by
  have hdrop : (literalCode lit).drop 1 = emitU32 9 ++ (emitU32 lit.length ++ (lit ++
      OpCode.accept.code :: [0, 0, 0, 0, 0, 0, 0, 0, 83, 78, 66, 76])) := by
    rw [literalCode_eq]
    rfl
  rw [readU32_of_drop hdrop]
  rfl

variable {lit}

theorem literalCode_len (hlen : lit.length < 2 ^ 32) :
    (readU32 (literalCode lit) 5).1 = lit.length := by
  have hdrop : (literalCode lit).drop 5 = emitU32 lit.length ++ (lit ++
      OpCode.accept.code :: [0, 0, 0, 0, 0, 0, 0, 0, 83, 78, 66, 76]) := by
    rw [literalCode_eq]
    rfl
  rw [readU32_of_drop hdrop, Nat.mod_eq_of_lt hlen]

theorem literalCode_accept : (literalCode lit)[9 + lit.length]? = some OpCode.accept.code := by
  rw [← List.head?_drop]
  exact congrArg List.head? (literalCode_end_drop lit 0)

theorem spanBytes_idle_of_get {bc : Bytes} {ip : Nat} {b : UInt8} (h : bc[ip]? = some b)
    (hidle : isIdleByte b = false) : spanBytes bc isIdleByte ip = ip := by
  rw [← List.head?_drop] at h
  obtain ⟨rest, hrest⟩ := List.head?_eq_some_iff.mp h
  rw [spanBytes, hrest, List.takeWhile_cons_of_neg (by rw [hidle]; exact Bool.false_ne_true)]
  rfl

theorem isLiteral_literalCode (hne : lit ≠ []) (hlen : lit.length < 2 ^ 32) :
    IsLiteral (literalCode lit) lit 0 where
  head := (spanBytes_idle_of_get (b := OpCode.lit.code) rfl rfl).symm
  room := by
    rw [length_literalCode]
    omega
  op := rfl
  off := literalCode_off lit
  len := literalCode_len hlen
  text := by
    rw [literalCode_text_drop, List.take_left]
  ne_nil := hne
  accept := by
    rw [Nat.zero_add, spanBytes_idle_of_get literalCode_accept rfl]
    exact literalCode_accept

theorem literalCode_isLiteralCode (hne : lit ≠ []) (hlen : lit.length < 2 ^ 32) :
    LiteralCode (literalCode lit) lit where
  op := rfl
  off := literalCode_off lit
  len := literalCode_len hlen
  text k hk := by
    rw [← List.getElem?_drop, literalCode_text_drop, List.getElem?_append_left hk]
  accept := literalCode_accept
  noLit i hi hlit := by
    obtain ⟨n, rfl⟩ := Nat.le.dest hi
    rw [← List.head?_drop, literalCode_end_drop, List.head?_drop] at hlit
    have hmem := List.mem_of_getElem? hlit
    revert hmem
    decide
  pos := List.length_pos_of_ne_nil hne

/-- What the compiler makes of a literal that the peephole pass leaves alone. -/
theorem compileAstToBytecodeC_literal (h : OpCode.split.code ∉ literalBody lit) :
    compileAstToBytecodeC .caseSensitive (.literal lit) = some (literalCode lit) := by
  have hprogram : emitProgram .caseSensitive (.literal lit) =
      some { CompilerState.init with buf := literalBody lit } := by
    have hrun : (emitNodeC .caseSensitive (.literal lit)).run .init =
        .done ((), { CompilerState.init with
          buf := [] ++ ([OpCode.lit.code] ++ emitU32 (0 + 9) ++ emitU32 lit.length ++ lit) }) := rfl
    refine emitProgram_eq_some_iff.mpr ⟨_, hrun, rfl, ?_⟩
    simp only [literalBody, List.nil_append, List.append_assoc, List.cons_append, Nat.zero_add]
  rw [compileAstToBytecodeC_unfused hprogram (eligibleArms_of_no_split h)]
  rfl

/-! ## The metadata of a literal -/

theorem checkLiteralOnly_literalCode (hne : lit ≠ []) (hlen : lit.length + 9 < 2 ^ 32) :
    checkLiteralOnly (literalCode lit) = true := by
  have h := isLiteral_literalCode hne (show lit.length < 2 ^ 32 by omega)
  have hpos := List.length_pos_of_ne_nil hne
  have hop : (literalCode lit)[0]? = some OpCode.lit.code := rfl
  have haccept := h.accept
  unfold checkLiteralOnly
  simp only [← h.head, h.off, h.len, hop, haccept, length_literalCode]
  simp only [Bool.and_eq_true, decide_eq_true_eq, beq_self_eq_true, and_true]
  refine ⟨⟨by omega, by omega⟩, by omega, ?_, by omega⟩
  rw [Nat.mod_eq_of_lt (by omega)]
  omega

theorem requiredLit_literalCode (hne : lit ≠ []) (hlen : lit.length + 9 < 2 ^ 32) :
    requiredLit false (literalCode lit) = some (lit.take maxPrefixLen) := by
  have h := isLiteral_literalCode hne (show lit.length < 2 ^ 32 by omega)
  have hscan :
      (litScan (literalCode lit) (literalCode lit).length 0 .start).litBypassed = false := by
    have hstep : LitScan.start.step (literalCode lit) 0 =
        some (9 + lit.length, LitScan.start.lit (literalCode lit) 0) := by
      unfold LitScan.step
      rw [h.op, Option.bind_some, OpCode.ofByte_code]
      simp only [h.len]
      rw [if_pos (by rw [length_literalCode]; omega)]
    have hend : (LitScan.start.lit (literalCode lit) 0).step (literalCode lit) (9 + lit.length) =
        none := by
      unfold LitScan.step
      rw [literalCode_accept, Option.bind_some, OpCode.ofByte_code]
    rw [show (literalCode lit).length = lit.length + 20 + 1 + 1 by rw [length_literalCode], litScan,
      if_pos (by rw [length_literalCode]; omega), hstep]
    dsimp only
    rw [litScan, if_pos (by rw [length_literalCode]; omega), hend]
    unfold LitScan.lit
    dsimp only
    split
    · rfl
    · rfl
  have htake : lit.take maxPrefixLen ≠ [] := by
    rw [Ne, List.take_eq_nil_iff]
    rintro (hzero | hnil)
    · exact absurd hzero (by decide)
    · exact hne hnil
  unfold requiredLit
  simp only [hscan, h.litScan_eq, true_and]
  rw [if_pos htake]

theorem rootLiteral_literalCode (hne : lit ≠ []) (hlen : lit.length + 9 < 2 ^ 32) :
    rootLiteral (literalCode lit) = some lit := by
  have h := isLiteral_literalCode hne (show lit.length < 2 ^ 32 by omega)
  have hpos := List.length_pos_of_ne_nil hne
  have hroot : (frontRoot (literalCode lit)).2 = 0 := by
    unfold frontRoot
    rw [show (literalCode lit).length = lit.length + 21 + 1 by rw [length_literalCode]]
    rfl
  have htext : litText (literalCode lit) 0 = lit := by
    unfold litText
    rw [h.off, h.len]
    exact h.text
  unfold rootLiteral
  simp only [hroot, h.off, h.len, htext]
  rw [if_pos]
  refine ⟨h.op, ?_, ?_, ?_, hpos⟩
  · rw [length_literalCode]
    omega
  · rw [length_literalCode]
    omega
  · rw [Nat.mod_eq_of_lt (by omega), length_literalCode]
    omega

/-- The walk takes the literal and the end of the pattern. -/
theorem checkAutomatonEligible_literalCode (hne : lit ≠ []) (hlen : lit.length + 22 ≤ 512) :
    checkAutomatonEligible (literalCode lit) = true := by
  have h := isLiteral_literalCode hne (show lit.length < 2 ^ 32 by omega)
  have hbody : snobolBcBodyLen (literalCode lit) = lit.length + 10 := by
    rw [literalCode, snobolBcBodyLen_trailer, length_literalBody]
    · exact List.cons_ne_nil _ _
    · show (literalCode lit).length < 2 ^ 32
      rw [length_literalCode]
      omega
  unfold checkAutomatonEligible
  simp only [hbody, Bool.and_eq_true, decide_eq_true_eq]
  refine ⟨by rw [length_literalCode]; exact hlen, ?_⟩
  rw [if_pos (by omega), decide_eq_true (by omega : 0 < lit.length + 10), length_literalCode]
  rw [automatonWalk, if_pos (by omega), h.op, Option.bind_some, OpCode.ofByte_code]
  simp only [OpCode.automatonOperands, Bool.not_true, Bool.false_and, Bool.false_eq_true, if_false,
    if_true, h.len]
  rw [if_neg (by omega), show 0 + 1 + 8 + lit.length = 9 + lit.length by omega, automatonWalk,
    if_pos (by omega), literalCode_accept, Option.bind_some, OpCode.ofByte_code]
  simp only [OpCode.automatonOperands, Bool.not_true, Bool.false_and, Bool.false_eq_true, if_false]
  rw [if_neg (by omega), if_neg (by decide), automatonWalk, if_neg (by omega)]

end

/-! ## The costs -/

/-- The costs of the tiers fit an `int32_t`. -/
def CostsFit (len : Nat) : Prop := ∀ c ∈ tierCosts, c.2.1 + (len / c.2.2 : Nat) < 2147483648

theorem toInt32_eq {n : Nat} (h : n < 2147483648) : toInt32 n = n := by
  unfold toInt32
  omega

namespace TierMeta

variable {info : TierMeta} {len : Nat} {anchored : Bool}

theorem score_of_not_eligible {best : Tier × Int} {c : Tier × Int × Nat}
    (h : info.eligible anchored c.1 = false) : info.score len anchored best c = best := by
  rw [score, h, Bool.false_and, if_neg Bool.false_ne_true]

theorem score_of_le {best : Tier × Int} {c : Tier × Int × Nat}
    (h : best.2 ≤ c.2.1 + toInt32 (len / c.2.2)) : info.score len anchored best c = best := by
  rw [score, decide_eq_false (by omega), Bool.and_false, if_neg Bool.false_ne_true]

/-- Tiers that are not eligible or not cheaper do not win. -/
theorem foldl_score {best : Tier × Int} {costs : List (Tier × Int × Nat)}
    (h : ∀ c ∈ costs, info.eligible anchored c.1 = false ∨
      best.2 ≤ c.2.1 + toInt32 (len / c.2.2)) :
    costs.foldl (info.score len anchored) best = best := by
  induction costs with
  | nil => rfl
  | cons c costs ih =>
    obtain ⟨hfirst, hrest⟩ := List.forall_mem_cons.mp h
    have hbest : info.score len anchored best c = best := by
      obtain hnot | hle := hfirst
      · exact score_of_not_eligible hnot
      · exact score_of_le hle
    rw [List.foldl_cons, hbest, ih hrest]

/-- The literal tier wins where the others are dearer. -/
theorem selectTierByCost_literal (hliteral : info.isLiteralOnly = true)
    (hbreak : info.isBreakFamily = false) (hspan : info.isSpanFamily = false)
    (hcost : 10 + toInt32 (len / 16) < 2147483647)
    (hothers : ∀ c ∈ tierCosts.drop 3, info.eligible anchored c.1 = false ∨
      10 + toInt32 (len / 16) ≤ c.2.1 + toInt32 (len / c.2.2)) :
    info.selectTierByCost len anchored = .literal := by
  have hskip : (tierCosts.take 2).foldl (info.score len anchored) (.general, 2147483647) =
      (.general, 2147483647) := by
    refine foldl_score fun c hc => .inl ?_
    simp only [tierCosts, List.take_succ_cons, List.take_zero, List.mem_cons, List.not_mem_nil,
      or_false] at hc
    obtain rfl | rfl := hc
    · simp only [eligible, hbreak, Bool.and_false, Bool.false_and]
    · simp only [eligible, hspan, Bool.and_false, Bool.false_and]
  have htake : info.score len anchored (.general, 2147483647) (.literal, 10, 16) =
      (.literal, 10 + toInt32 (len / 16)) := by
    rw [score]
    simp only [eligible, hliteral, Bool.true_and, decide_eq_true_eq, hcost, if_true]
  have hrest : (tierCosts.drop 3).foldl (info.score len anchored)
      (.literal, 10 + toInt32 (len / 16)) = (.literal, 10 + toInt32 (len / 16)) :=
    foldl_score fun c hc => hothers c hc
  have hsplit : tierCosts = tierCosts.take 2 ++ (.literal, 10, 16) :: tierCosts.drop 3 := rfl
  rw [selectTierByCost, hsplit, List.foldl_append, hskip, List.foldl_cons, htake, hrest]

end TierMeta

theorem hasBmhSkip_literalCode {lit : Bytes} (hne : lit ≠ []) (hlen : lit.length + 9 < 2 ^ 32)
    (htwo : 2 ≤ lit.length) : (literalTierMeta (literalCode lit)).hasBmhSkip = true := by
  unfold literalTierMeta literalMeta
  simp only [rootLiteral_literalCode hne hlen, List.length_take, maxPrefixLen]
  exact decide_eq_true (by omega)

theorem CostsFit.toInt32_eq {len : Nat} (h : CostsFit len) :
    ∀ c ∈ tierCosts, toInt32 (len / c.2.2) = (len / c.2.2 : Nat) := by
  intro c hc
  have hcost := h c hc
  have hsetup : ∀ c ∈ tierCosts, 0 ≤ c.2.1 := by decide
  have := hsetup c hc
  exact Snobol4.toInt32_eq (by omega)

theorem hasLiteralPrefix_literalCode {lit : Bytes} (hne : lit ≠ []) (hlen : lit.length + 9 < 2 ^ 32) :
    (literalTierMeta (literalCode lit)).hasLiteralPrefix = !hasCapture (literalCode lit) := by
  unfold literalTierMeta literalMeta
  simp only [rootLiteral_literalCode hne hlen]

/-- Where the prefix tier is not eligible, or not cheaper, the literal tier wins. -/
theorem selectTierByCost_literalCode {lit : Bytes} {len : Nat} (hne : lit ≠ [])
    (hlen : lit.length + 9 < 2 ^ 32) (hcosts : CostsFit len)
    (hother : hasCapture (literalCode lit) = true ∨ len / 16 ≤ 20 + len / 32) :
    (literalTierMeta (literalCode lit)).selectTierByCost len false = .literal := by
  have hliteral := checkLiteralOnly_literalCode hne hlen
  have hprefix := hasLiteralPrefix_literalCode hne hlen
  have hfits := hcosts.toInt32_eq
  have hown : toInt32 (len / 16) = (len / 16 : Nat) :=
    hfits (.literal, 10, 16) (by decide)
  have hcost := hcosts (.general, 100, 5) (by decide)
  refine TierMeta.selectTierByCost_literal hliteral rfl rfl ?_ ?_
  · rw [hown]
    dsimp only at hcost
    omega
  · intro c hc
    have hmem : c ∈ tierCosts := List.mem_of_mem_drop hc
    rw [hown, hfits c hmem]
    simp only [tierCosts, List.drop_succ_cons, List.drop_zero, List.mem_cons, List.not_mem_nil,
      or_false] at hc
    obtain rfl | rfl | rfl | rfl | rfl | rfl | rfl := hc
    -- the prefix scan is the only tier that could be cheaper, on a long subject
    · obtain hcapture | hshort := hother
      · left
        simp only [TierMeta.eligible, hprefix, hcapture, Bool.not_true, Bool.and_false,
          Bool.false_and]
      · right
        dsimp only
        omega
    · exact .inl rfl
    · exact .inl rfl
    · right
      dsimp only
      omega
    · right
      dsimp only
      omega
    · left
      simp only [TierMeta.eligible, literalTierMeta, Bool.and_false]
    · right
      dsimp only
      omega

/-- Where the prefix tier is eligible and cheaper, it wins. -/
theorem selectTierByCost_prefix {lit : Bytes} {len : Nat} (hne : lit ≠ [])
    (hlen : lit.length + 9 < 2 ^ 32) (hcosts : CostsFit len)
    (hcapture : hasCapture (literalCode lit) = false) (hlong : 20 + len / 32 < len / 16) :
    (literalTierMeta (literalCode lit)).selectTierByCost len false = .literalPrefix := by
  have hliteral := checkLiteralOnly_literalCode hne hlen
  have hprefix := hasLiteralPrefix_literalCode hne hlen
  rw [hcapture] at hprefix
  have hpos : 0 < (literalTierMeta (literalCode lit)).literalPrefixLen := by
    unfold literalTierMeta literalMeta
    simp only [rootLiteral_literalCode hne hlen, List.length_take, maxPrefixLen]
    have := List.length_pos_of_ne_nil hne
    omega
  have hfits := hcosts.toInt32_eq
  have hown : toInt32 (len / 16) = (len / 16 : Nat) := hfits (.literal, 10, 16) (by decide)
  have hpre : toInt32 (len / 32) = (len / 32 : Nat) := hfits (.literalPrefix, 30, 32) (by decide)
  have hcost := hcosts (.general, 100, 5) (by decide)
  have hfirst : (tierCosts.take 3).foldl ((literalTierMeta (literalCode lit)).score len false)
      (.general, 2147483647) = (.literal, 10 + toInt32 (len / 16)) := by
    have hskip : (tierCosts.take 2).foldl ((literalTierMeta (literalCode lit)).score len false)
        (.general, 2147483647) = (.general, 2147483647) := by
      refine TierMeta.foldl_score fun c hc => .inl ?_
      simp only [tierCosts, List.take_succ_cons, List.take_zero, List.mem_cons, List.not_mem_nil,
        or_false] at hc
      obtain rfl | rfl := hc
      · rfl
      · rfl
    have hsplit : tierCosts.take 3 = tierCosts.take 2 ++ [(.literal, 10, 16)] := rfl
    rw [hsplit, List.foldl_append, hskip, List.foldl_cons, List.foldl_nil, TierMeta.score]
    have hcheaper : 10 + toInt32 (len / 16) < 2147483647 := by
      rw [hown]
      dsimp only at hcost
      omega
    have heligible : (literalTierMeta (literalCode lit)).eligible false .literal = true := hliteral
    simp only [heligible, Bool.true_and, decide_eq_true_eq, hcheaper, if_true]
  have htake : (literalTierMeta (literalCode lit)).score len false
      (.literal, 10 + toInt32 (len / 16)) (.literalPrefix, 30, 32) =
        (.literalPrefix, 30 + toInt32 (len / 32)) := by
    have heligible : (literalTierMeta (literalCode lit)).eligible false .literalPrefix = true := by
      simp only [TierMeta.eligible, hprefix, decide_eq_true hpos, Bool.not_false, Bool.and_self]
    have hcheaper : 30 + toInt32 (len / 32) < 10 + toInt32 (len / 16) := by
      rw [hown, hpre]
      omega
    rw [TierMeta.score]
    simp only [heligible, Bool.true_and, decide_eq_true_eq, hcheaper, if_true]
  have hrest : (tierCosts.drop 4).foldl ((literalTierMeta (literalCode lit)).score len false)
      (.literalPrefix, 30 + toInt32 (len / 32)) = (.literalPrefix, 30 + toInt32 (len / 32)) := by
    refine TierMeta.foldl_score fun c hc => ?_
    rw [hpre, hfits c (List.mem_of_mem_drop hc)]
    simp only [tierCosts, List.drop_succ_cons, List.drop_zero, List.mem_cons, List.not_mem_nil,
      or_false] at hc
    obtain rfl | rfl | rfl | rfl | rfl | rfl := hc
    · exact .inl rfl
    · exact .inl rfl
    · right
      dsimp only
      omega
    · right
      dsimp only
      omega
    · left
      simp only [TierMeta.eligible, literalTierMeta, Bool.and_false]
    · left
      simp only [TierMeta.eligible, hprefix, Bool.not_false, Bool.not_true, Bool.and_false]
  have hsplit : tierCosts = tierCosts.take 3 ++ (.literalPrefix, 30, 32) :: tierCosts.drop 4 := rfl
  rw [TierMeta.selectTierByCost, hsplit, List.foldl_append, hfirst, List.foldl_cons, htake, hrest]

/-! ## The tier that runs -/

section

variable {env : VmEnv W} {lit : Bytes} {start : Nat} {vm₀ : Vm W} {info : SearchMeta} {w : Bytes}

/-- The automaton of the literal runs, or the literal tier. -/
inductive LiteralTiers (env : VmEnv W) (lit : Bytes) : Prop where
  | automaton (htier : literalTier env = .automaton)
      (hbuild : buildDfa env = some (LiteralCode.dfaOf lit)) (hstates : lit.length < dfaDead)
  | literal (htier : literalTier env = .literal)

theorem literalTier_cases (hbc : env.bc = literalCode lit) (hne : lit ≠ [])
    (hlen : lit.length + 9 < 2 ^ 32) (hcosts : CostsFit env.s.length) :
    LiteralTiers env lit ∨
      literalTier env = .literalPrefix ∧ ¬(2 ≤ lit.length ∧ lit.length ≤ 16) := by
  have hcode : LiteralCode env.bc lit := by
    rw [hbc]
    exact literalCode_isLiteralCode hne (by omega)
  have hroom : env.bc.length = lit.length + 22 := by
    rw [hbc, length_literalCode]
  have hbuild : env.bc.length ≤ 512 → buildDfa env = some (LiteralCode.dfaOf lit) := by
    intro hsmall
    refine hcode.buildDfa_eq ?_ ?_
    · unfold dfaDead
      omega
    · unfold dfaMaxStates
      omega
  have hsmall : (literalTierMeta env.bc).automatonEligible = true → env.bc.length ≤ 512 := by
    intro heligible
    simp only [literalTierMeta, checkAutomatonEligible, Bool.and_eq_true, decide_eq_true_eq]
      at heligible
    exact heligible.1.1
  by_cases hauto : ((literalTierMeta env.bc).automatonEligible && (buildDfa env).isSome &&
      (literalTierMeta env.bc).automatonEligible && !(literalTierMeta env.bc).isAltLiterals &&
      (literalTierMeta env.bc).hasBmhSkip && !false) = true
  · simp only [Bool.and_eq_true] at hauto
    have hle := hsmall hauto.1.1.1.1.1
    refine .inl (.automaton ?_ (hbuild hle) (by unfold dfaDead; omega))
    unfold literalTier TierMeta.dispatchTier
    dsimp only
    rw [if_pos (by simpa only [Bool.and_eq_true] using hauto)]
  · have htier : literalTier env = (literalTierMeta env.bc).selectTierByCost env.s.length false := by
      unfold literalTier TierMeta.dispatchTier
      dsimp only
      rw [if_neg hauto]
    by_cases hother : hasCapture (literalCode lit) = true ∨
        env.s.length / 16 ≤ 20 + env.s.length / 32
    · refine .inl (.literal ?_)
      rw [htier, hbc]
      exact selectTierByCost_literalCode hne hlen hcosts hother
    · obtain ⟨hcapture, hlong⟩ := not_or.mp hother
      rw [Bool.not_eq_true] at hcapture
      right
      constructor
      · rw [htier, hbc]
        exact selectTierByCost_prefix hne hlen hcosts hcapture (Nat.lt_of_not_le hlong)
      -- the automaton is passed by only on account of captures
      · rintro ⟨htwo, hmax⟩
        have heligible : (literalTierMeta env.bc).automatonEligible = true := by
          simp only [literalTierMeta]
          rw [hbc, hcapture, checkAutomatonEligible_literalCode hne (by omega)]
          rfl
        have hbmh : (literalTierMeta env.bc).hasBmhSkip = true := by
          rw [hbc]
          exact hasBmhSkip_literalCode hne hlen htwo
        refine hauto ?_
        rw [heligible, hbmh, hbuild (hsmall heligible)]
        rfl

theorem memmem_isSome_iff {s w : Bytes} {start : Nat} (hw : w ≠ []) :
    (∃ cand, memmem s w start = some cand) ↔ w <:+: s.drop start := by
  constructor
  · rintro ⟨cand, hcand⟩
    obtain ⟨hle, hat⟩ := le_of_mem_firstFrom hcand
    obtain ⟨n, rfl⟩ := Nat.le.dest hle
    have hsuffix : s.drop (start + n) <:+ s.drop start := by
      rw [← List.drop_drop]
      exact List.drop_suffix n _
    exact (List.isPrefixOf_iff_prefix.mp hat).isInfix.trans hsuffix.isInfix
  · rintro ⟨front, rest, hsplit⟩
    cases hfind : memmem s w start with
    | some cand => exact ⟨cand, rfl⟩
    | none =>
      have hat : Stands w s (start + front.length) := by
        unfold Stands
        rw [← List.drop_drop, ← hsplit, List.append_assoc, List.drop_left]
        exact List.prefix_append w rest
      refine (memmem_skips hw (Nat.le_add_right start front.length) ?_ hat).elim
      intro cand hcand
      rw [hfind] at hcand
      cases hcand

/-- The loop of the tier ends in its first turn where the automaton finds something. -/
theorem automatonLoop_of_some {dfa : Dfa} {found : Nat × Nat} {s : Bytes} {anchored : Bool}
    (hle : start ≤ s.length) (h : searchAutomatonExec dfa s start = some found) :
    automatonLoop dfa info s anchored (s.length + 1 - start) start = some found := by
  rw [show s.length + 1 - start = s.length - start + 1 by omega, automatonLoop, h]

/-- What the loop finds was found by the automaton. -/
theorem searchAutomatonExec_of_tier {dfa : Dfa} {found : Nat × Nat} {s : Bytes} {fuel offset : Nat}
    {anchored : Bool} (hle : offset ≤ s.length)
    (h : automatonLoop dfa info s anchored fuel offset = some found) :
    ∃ o, o ≤ s.length ∧ searchAutomatonExec dfa s o = some found := by
  induction fuel generalizing offset with
  | zero => cases h
  | succ fuel ih =>
    rw [automatonLoop] at h
    cases hexec : searchAutomatonExec dfa s offset with
    | some found' =>
      rw [hexec] at h
      cases h
      exact ⟨offset, hle, hexec⟩
    | none =>
      rw [hexec] at h
      dsimp only at h
      split at h
      · cases h
      split at h
      · cases h
      · rename_i hnext
        exact ih (by omega) h

/-- What a tier reports is as long as the literal. -/
theorem length_of_tierReports {p q : Nat} (hbc : env.bc = literalCode lit) (hne : lit ≠ [])
    (hlen : lit.length + 9 < 2 ^ 32) (hstart : start ≤ env.s.length)
    (htiers : LiteralTiers env lit ∨ literalTier env = .literalPrefix)
    (h : TierReports env info w start vm₀ (literalTier env) (some (p, q))) :
    q = p + lit.length := by
  have hlit : IsLiteral env.bc lit 0 := by
    rw [hbc]
    exact isLiteral_literalCode hne (by omega)
  obtain (⟨htier, hbuild, hstates⟩ | htier) | htier := htiers
  · rw [htier] at h
    have hauto : TierAutomaton env (buildDfa env) info false start vm₀ (some (p, q)) := by
      cases h
      assumption
    cases hauto with
    | @found dfa found hbuild' hfound =>
      rw [hbuild] at hbuild'
      cases hbuild'
      obtain ⟨o, hle, hexec⟩ := searchAutomatonExec_of_tier hstart hfound
      rw [LiteralCode.searchAutomatonExec_dfaOf hne hstates env.s hle] at hexec
      obtain ⟨cand, -, hcand⟩ := Option.map_eq_some_iff.mp hexec
      cases hcand
      rfl
    | fallback _ hreports =>
      -- the general tier has run the VM, whose attempts find the literal or nothing
      obtain ⟨vm, final, hfound, rfl⟩ := hreports
      have hattempt := hlit.line.vmAttempts.of_success hfound.tries.1 hfound.exec
      rw [hlit.attempt] at hattempt
      split at hattempt
      · have hstop := Attempt.found.inj hattempt
        omega
      · cases hattempt
  · rw [htier] at h
    generalize hresult : some (p, q) = result at h
    cases h with
    | literal =>
      rw [searchLiteralOnly_eq hlit hlit.attempt hstart, searchFrom_literal hlit.attempt hstart hne]
        at hresult
      obtain ⟨cand, -, hcand⟩ := Option.map_eq_some_iff.mp hresult.symm
      cases hcand
      rfl
  · rw [htier] at h
    generalize hresult : some (p, q) = result at h
    cases h with
    | literalPrefix hreports =>
      cases hreports with
      | @found offset cand vm final hreach hle hcand hexec =>
        have hbound := prefixCandidate_bounds hle hcand
        have hattempt := hlit.line.vmAttempts.of_success hbound.2 hexec
        cases hresult
        rw [hlit.attempt] at hattempt
        split at hattempt
        · have hstop := Attempt.found.inj hattempt
          omega
        · cases hattempt
      | missed =>
        cases hresult

/-- Where the literal occurs, the tier reports its first occurrence. -/
theorem tierReports_iff {cand : Nat} {result : Option (Nat × Nat)}
    (hbc : env.bc = literalCode lit) (hne : lit ≠ []) (hlen : lit.length + 9 < 2 ^ 32)
    (hstart : start ≤ env.s.length)
    (htiers : LiteralTiers env lit)
    (hcand : memmem env.s lit start = some cand) :
    TierReports env info w start vm₀ (literalTier env) result ↔
      result = some (cand, cand + lit.length) := by
  have hlit : IsLiteral env.bc lit 0 := by
    rw [hbc]
    exact isLiteral_literalCode hne (by omega)
  obtain ⟨htier, hbuild, hstates⟩ | htier := htiers
  · have hexec : searchAutomatonExec (LiteralCode.dfaOf lit) env.s start =
        some (cand, cand + lit.length) := by
      rw [LiteralCode.searchAutomatonExec_dfaOf hne hstates env.s hstart, hcand]
      rfl
    have hfirst : automatonLoop (LiteralCode.dfaOf lit) info env.s false
        (env.s.length + 1 - start) start = some (cand, cand + lit.length) :=
      automatonLoop_of_some hstart hexec
    rw [htier]
    constructor
    · intro h
      have hauto : TierAutomaton env (buildDfa env) info false start vm₀ result := by
        cases h
        assumption
      cases hauto with
      | found hbuild' hfound =>
        rw [hbuild] at hbuild'
        cases hbuild'
        rw [← hfound, hfirst]
      | fallback hnone =>
        have hmissed := hnone _ hbuild
        rw [hfirst] at hmissed
        cases hmissed
    · rintro rfl
      exact .automaton (.found hbuild hfirst)
  · have hsearch : searchLiteralOnly env.bc env.s start false = some (cand, cand + lit.length) := by
      rw [searchLiteralOnly_eq hlit hlit.attempt hstart, searchFrom_literal hlit.attempt hstart hne,
        hcand]
      rfl
    rw [htier, ← hsearch]
    constructor
    · intro h
      cases h
      rfl
    · rintro rfl
      exact .literal

end

/-! ## The two searches -/

/-- The required literal is searched. -/
theorem searchNext_eq {bc s w : Bytes} {start : Nat} (hreq : requiredLit false bc = some w)
    (hcheck : checkLiteralOnly bc = true) (hstart : start ≤ s.length) :
    searchNext bc s start = (memmem s w start).map fun p => (p, w.length) := by
  have hgo : ¬(checkLiteralOnly bc = false ∨ s.length < start) := by
    rw [hcheck]
    rintro (hfalse | hpast)
    · cases hfalse
    · omega
  unfold searchNext
  rw [hreq]
  dsimp only
  rw [if_neg hgo]
  split
  · rw [memmem_singleton]
    rfl
  · rfl

theorem searchNext_literalCode {s lit : Bytes} {start : Nat} (hne : lit ≠ [])
    (hlen : lit.length + 9 < 2 ^ 32) (hstart : start ≤ s.length) :
    searchNext (literalCode lit) s start =
      (memmem s (lit.take maxPrefixLen) start).map fun p => (p, (lit.take maxPrefixLen).length) :=
  searchNext_eq (requiredLit_literalCode hne hlen) (checkLiteralOnly_literalCode hne hlen) hstart

/-- A literal of one byte is searched by `memchr`. -/
theorem searchExReports_one {env : VmEnv W} {b : UInt8} {start : Nat} {vm₀ : Vm W}
    {result : Option (Nat × Nat)} (hbc : env.bc = literalCode [b]) :
    SearchExReports env start vm₀ result ↔ result = searchOneByte env.s b start := by
  have hlen : [b].length + 9 < 2 ^ 32 := by
    rw [List.length_singleton]
    omega
  have hreq : requiredLit false env.bc = some [b] := by
    rw [hbc]
    exact requiredLit_literalCode (List.cons_ne_nil b []) hlen
  have hcheck : checkLiteralOnly env.bc = true := by
    rw [hbc]
    exact checkLiteralOnly_literalCode (List.cons_ne_nil b []) hlen
  unfold SearchExReports
  simp only [hreq, hcheck, Option.bind_some, List.length_singleton, and_self, if_true,
    List.head?_cons]

section

variable {env : VmEnv W} {lit : Bytes} {start : Nat} {vm₀ : Vm W} {result : Option (Nat × Nat)}

/-- The filter in front of a longer literal. -/
theorem searchExReports_filter (hbc : env.bc = literalCode lit) (hne : lit ≠ [])
    (hlen : lit.length + 9 < 2 ^ 32) (htwo : 2 ≤ lit.length) :
    SearchExReports env start vm₀ result ↔
      match searchPrefilterMiss (some (lit.take maxPrefixLen)) env.s start with
      | none => False
      | some true => result = none
      | some false =>
          if env.s.length < start then result = none
          else
            TierReports env (literalSearchMeta env.bc) (literalMeta false (hasCapture env.bc) 0
              env.bc).literalPrefix start vm₀ (literalTier env) result := by
  have hreq : requiredLit false env.bc = some (lit.take maxPrefixLen) := by
    rw [hbc]
    exact requiredLit_literalCode hne hlen
  have hmany : (lit.take maxPrefixLen).length ≠ 1 := by
    rw [List.length_take, maxPrefixLen]
    omega
  unfold SearchExReports
  simp only [hreq, Option.bind_some, hmany, false_and, if_false]

/-- Within the subject a longer literal goes to the filter and the tiers. -/
theorem searchExReports_tiers (hbc : env.bc = literalCode lit) (hne : lit ≠ [])
    (hlen : lit.length + 9 < 2 ^ 32) (htwo : 2 ≤ lit.length) (hstart : start ≤ env.s.length) :
    SearchExReports env start vm₀ result ↔
      if lit.take maxPrefixLen <:+: env.s.drop start then
        TierReports env (literalSearchMeta env.bc) (literalMeta false (hasCapture env.bc) 0
          env.bc).literalPrefix start vm₀ (literalTier env) result
      else result = none := by
  rw [searchExReports_filter hbc hne hlen htwo, searchPrefilterMiss]
  simp only [Nat.not_lt.mpr hstart, if_false]
  by_cases hoccurs : lit.take maxPrefixLen <:+: env.s.drop start
  · simp only [hoccurs, decide_true, Bool.not_true, if_true]
  · simp only [hoccurs, decide_false, Bool.not_false, if_false]

/-- Behind the end of the subject the filter leaves it. -/
theorem not_searchExReports_behind (hbc : env.bc = literalCode lit) (hne : lit ≠ [])
    (hlen : lit.length + 9 < 2 ^ 32) (htwo : 2 ≤ lit.length) (hpast : env.s.length < start) :
    ¬SearchExReports env start vm₀ result := by
  rw [searchExReports_filter hbc hne hlen htwo, searchPrefilterMiss]
  simp only [hpast, if_true, not_false_eq_true]

theorem searchNext_behind {bc s : Bytes} (hpast : s.length < start) :
    searchNext bc s start = none := by
  unfold searchNext
  cases requiredLit false bc with
  | none => rfl
  | some w => exact if_pos (.inr hpast)

/-- The two searches agree on a literal that fits the required literal. -/
theorem searchExReports_iff_next (hbc : env.bc = literalCode lit) (hne : lit ≠ [])
    (htwo : 2 ≤ lit.length) (hmax : lit.length ≤ 16) (hcosts : CostsFit env.s.length)
    (hstart : start ≤ env.s.length) :
    SearchExReports env start vm₀ result ↔
      result = (searchNext env.bc env.s start).map fun found => (found.1, found.1 + found.2) := by
  have hlen : lit.length + 9 < 2 ^ 32 := by omega
  have htake : lit.take maxPrefixLen = lit := List.take_of_length_le hmax
  have hnext : (searchNext env.bc env.s start).map (fun found => (found.1, found.1 + found.2)) =
      (memmem env.s lit start).map fun cand => (cand, cand + lit.length) := by
    rw [hbc, searchNext_literalCode hne hlen hstart, htake, Option.map_map]
    rfl
  rw [hnext, searchExReports_tiers hbc hne hlen htwo hstart, htake]
  -- the filter on the required literal answers for the tiers where it is absent
  cases hfind : memmem env.s lit start with
  | none =>
    have habsent : ¬lit <:+: env.s.drop start := by
      rw [← memmem_isSome_iff hne]
      rintro ⟨cand, hcand⟩
      rw [hfind] at hcand
      cases hcand
    rw [if_neg habsent]
    rfl
  | some cand =>
    have hoccurs : lit <:+: env.s.drop start := (memmem_isSome_iff hne).mp ⟨cand, hfind⟩
    have htiers : LiteralTiers env lit := by
      obtain htiers | ⟨-, hcut⟩ := literalTier_cases hbc hne hlen hcosts
      · exact htiers
      · exact (hcut ⟨htwo, hmax⟩).elim
    rw [if_pos hoccurs]
    exact tierReports_iff hbc hne hlen hstart htiers hfind

/-- What `snobol_pattern_search_ex` reports of a literal that is cut is no longer than it. -/
theorem not_searchExReports_cut {cand : Nat} (hbc : env.bc = literalCode lit)
    (hlen : lit.length + 9 < 2 ^ 32) (hmax : 16 < lit.length) (hcosts : CostsFit env.s.length)
    (hstart : start ≤ env.s.length) : ¬SearchExReports env start vm₀ (some (cand, cand + 16)) := by
  have hne : lit ≠ [] := by
    rintro rfl
    exact absurd hmax (Nat.not_lt_zero 16)
  rw [searchExReports_tiers hbc hne hlen (by omega) hstart]
  intro h
  split at h
  · have hq := length_of_tierReports hbc hne hlen hstart
      ((literalTier_cases hbc hne hlen hcosts).imp_right And.left) h
    omega
  · cases h

/-- At a position where the bytes that are kept of the literal occur, the two searches differ
if that is not all of it. -/
theorem searchNext_cut (hbc : env.bc = literalCode lit) (hne : lit ≠ [])
    (hlen : lit.length + 9 < 2 ^ 32) (hmax : 16 < lit.length) (hstart : start ≤ env.s.length)
    (hoccurs : lit.take maxPrefixLen <:+: env.s.drop start) :
    ∃ cand, searchNext env.bc env.s start = some (cand, 16) := by
  have htake : (lit.take maxPrefixLen).length = 16 := by
    rw [List.length_take, maxPrefixLen]
    omega
  obtain ⟨cand, hcand⟩ := (memmem_isSome_iff (List.ne_nil_of_length_pos (by omega))).mpr hoccurs
  refine ⟨cand, ?_⟩
  rw [hbc, searchNext_literalCode hne hlen hstart, hcand, htake]
  rfl

end

/-- `snobol_pattern_search_next` agrees with `snobol_pattern_search_ex` at a position of a
subject exactly where the required literal holds all of the literal, or does not occur, and the
filter stays in the subject. -/
theorem searchNext_agrees_iff (env : VmEnv W) (vm₀ : Vm W) (lit : Bytes) (start : Nat)
    (hne : lit ≠ []) (hlen : lit.length + 9 < 2 ^ 32) (hbc : env.bc = literalCode lit)
    (hcosts : CostsFit env.s.length) :
    (∀ result, SearchExReports env start vm₀ result ↔
      result = (searchNext env.bc env.s start).map fun found => (found.1, found.1 + found.2)) ↔
      (start ≤ env.s.length ∨ lit.length = 1) ∧
        (lit.length ≤ maxPrefixLen ∨ ¬lit.take maxPrefixLen <:+: env.s.drop start) := by
  have hpos := List.length_pos_of_ne_nil hne
  constructor
  · intro hagree
    constructor
    · by_contra hpast
      obtain ⟨hpast, hone⟩ := not_or.mp hpast
      have hlt : env.s.length < start := Nat.lt_of_not_le hpast
      refine not_searchExReports_behind hbc hne hlen (by omega) hlt ((hagree none).mpr ?_)
      rw [searchNext_behind hlt, Option.map_none]
    · by_contra hcut
      obtain ⟨hmax, hoccurs⟩ := not_or.mp hcut
      rw [not_not] at hoccurs
      rw [maxPrefixLen] at hmax
      have hstart : start ≤ env.s.length := by
        by_contra hpast
        rw [List.drop_eq_nil_of_le (by omega), List.infix_nil, List.take_eq_nil_iff] at hoccurs
        obtain hzero | hnil := hoccurs
        · exact absurd hzero (by decide)
        · exact hne hnil
      obtain ⟨cand, hnext⟩ := searchNext_cut hbc hne hlen (by omega) hstart hoccurs
      have hreport := (hagree (some (cand, cand + 16))).mpr (by rw [hnext, Option.map_some])
      exact not_searchExReports_cut hbc hlen (by omega) hcosts hstart hreport
  · rintro ⟨hplace, hwhole⟩ result
    obtain hone | htwo : lit.length = 1 ∨ 2 ≤ lit.length := by omega
    -- one byte never comes to the filter
    · obtain ⟨b, rfl⟩ := List.length_eq_one_iff.mp hone
      rw [searchExReports_one hbc]
      by_cases hstart : start ≤ env.s.length
      · rw [hbc, searchNext_literalCode hne hlen hstart, searchOneByte_eq, Option.map_map]
        rfl
      · have hnone : memmem env.s [b] start = none := by
          cases hfind : memmem env.s [b] start with
          | none => rfl
          | some cand =>
            have hoccurs := (memmem_isSome_iff (List.cons_ne_nil b [])).mp ⟨cand, hfind⟩
            rw [List.drop_eq_nil_of_le (by omega), List.infix_nil] at hoccurs
            cases hoccurs
        rw [searchNext_behind (Nat.lt_of_not_le hstart), searchOneByte_eq, hnone]
        rfl
    · have hstart : start ≤ env.s.length := by omega
      by_cases hmax : lit.length ≤ 16
      · exact searchExReports_iff_next hbc hne htwo hmax hcosts hstart
      · have habsent : ¬lit.take maxPrefixLen <:+: env.s.drop start := by
          obtain hfits | habsent := hwhole
          · exact absurd hfits hmax
          · exact habsent
        have htake : lit.take maxPrefixLen ≠ [] := by
          rw [Ne, List.take_eq_nil_iff]
          rintro (hzero | hnil)
          · exact absurd hzero (by decide)
          · exact hne hnil
        have hnone : memmem env.s (lit.take maxPrefixLen) start = none := by
          cases hfind : memmem env.s (lit.take maxPrefixLen) start with
          | none => rfl
          | some cand => exact absurd ((memmem_isSome_iff htake).mp ⟨cand, hfind⟩) habsent
        rw [searchExReports_tiers hbc hne hlen htwo hstart, if_neg habsent, hbc,
          searchNext_literalCode hne hlen hstart, hnone]
        rfl

/-- The match of `'ab'` in "cab". -/
theorem searchNext_agrees_iff_end :
    compileAstToBytecodeC .caseSensitive (.literal [0x61, 0x62]) = some litAb ∧
      searchNext litAb [0x63, 0x61, 0x62] 0 = some (1, 2) ∧
      SearchExReports (VmEnv.ofCode litAb [0x63, 0x61, 0x62] .bare) 0 (.zero ⟨[], ()⟩)
        (some (1, 3)) := by
  have hnext : searchNext litAb [0x63, 0x61, 0x62] 0 = some (1, 2) := by decide +kernel
  have hcosts : CostsFit 3 := by
    unfold CostsFit
    decide
  refine ⟨by decide +kernel, hnext, ?_⟩
  have hagree := (searchNext_agrees_iff (VmEnv.ofCode litAb [0x63, 0x61, 0x62] .bare)
    (.zero ⟨[], ()⟩) [0x61, 0x62] 0 (by decide) (by decide) (by decide +kernel) hcosts).mpr
    (by decide)
  refine (hagree (some (1, 3))).mpr ?_
  show some (1, 3) = (searchNext litAb [0x63, 0x61, 0x62] 0).map _
  rw [hnext]
  rfl

/-- The literal `'abcdefghijklmnopq'` of 17 bytes. -/
def cutLiteral : Bytes :=
  [97, 98, 99, 100, 101, 102, 103, 104, 105, 106, 107, 108, 109, 110, 111, 112, 113]

/-- On its first 16 bytes `snobol_pattern_search_next` finds a match. -/
theorem searchNext_finds_cut :
    compileAstToBytecodeC .caseSensitive (.literal cutLiteral) = some (literalCode cutLiteral) ∧
      searchNext (literalCode cutLiteral) (cutLiteral.take 16) 0 = some (0, 16) ∧
      ¬SearchExReports (VmEnv.ofCode (literalCode cutLiteral) (cutLiteral.take 16) .bare) 0
        (.zero ⟨[], ()⟩) (some (0, 16)) :=
  ⟨compileAstToBytecodeC_literal (by decide), by decide +kernel,
    not_searchExReports_cut rfl (by decide) (by decide) (by unfold CostsFit; decide)
      (Nat.zero_le _)⟩

end Snobol4
