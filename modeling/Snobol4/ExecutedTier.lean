import Snobol4.SearchNext

/-!
# ExecutedTier — the reported tier (`search_tiers.c`, `search_meta.c`)

`snobol_search_executed_tier` repeats the selection of `dispatch_search_impl` to name the tier
that a call runs.  Both let the automaton override the cost model, but the report asks for flat
alternations where the dispatch asks for all of them, and does not ask whether the call is
anchored.
-/

namespace Snobol4

variable {W : Type}

/-! ## Metadata -/

/-- The fields of `snobol_search_meta_t` that the selection and the report read. -/
structure SearchTierMeta extends TierMeta where
  isAltLiteralsFlat : Bool
  /-- Only alternations of literals are flat. -/
  alt_of_flat : isAltLiteralsFlat = true → isAltLiterals = true

/-- The loop of `check_alt_literals` over the jumps behind a literal, with its guard. -/
def followJumps (bc : Bytes) (limit : Nat) : Nat → Nat → Option Nat
  | 0, cur => if cur < limit ∧ bc[cur]? = some OpCode.jmp.code then none else some cur
  | guard + 1, cur =>
      if cur < limit ∧ bc[cur]? = some OpCode.jmp.code then
        followJumps bc limit guard (readU32 bc (cur + 1)).1
      else some cur

/-- `SNOBOL_AUTO_MAX_LIT_BYTES` -/
def autoMaxLitBytes : Nat := 250

/-- `check_alt_literals`, with the number of literal bytes so far. -/
def checkAltLiterals (bc : Bytes) (limit : Nat) : Nat → Nat → Nat → Option Nat
  | 0, _, _ => none
  | turns + 1, ip, litBytes =>
      if limit < ip + 2 then none
      else
        match bc[ip]?.bind OpCode.ofByte with
        | some .lit =>
            let len := (readU32 bc (ip + 5)).1
            if limit < ip + 10 ∨ limit < ip + 9 + len ∨ autoMaxLitBytes < litBytes + len then none
            else
              match followJumps bc limit limit (ip + 9 + len) with
              | none => none
              | some cur =>
                  if cur < limit ∧ bc[cur]? = some OpCode.accept.code then some (litBytes + len)
                  else none
        | some .split =>
            let a := (readU32 bc (ip + 1)).1
            let b := (readU32 bc (ip + 5)).1
            if limit < ip + 9 ∨ limit ≤ a ∨ limit ≤ b then none
            else (checkAltLiterals bc limit turns a litBytes).bind (checkAltLiterals bc limit turns b)
        | _ => none

/-- `alt_literals_share_prefix`: two literals start with one byte, or the walk gives up. -/
def altLiteralsSharePrefix (turns : Nat) (bc : Bytes) : Bool :=
  match altLiterals (altCode bc) turns [0] with
  | none => true
  | some lits => !decide ((lits.take collectedLits).map List.head?).Nodup

/-- `CHECK_SINGLE_LIT` -/
def checkSingleLit (bc : Bytes) (off : Nat) : Bool :=
  decide (off + 10 ≤ bc.length) && bc[off]? == some OpCode.lit.code &&
    decide ((readU32 bc (off + 5)).1 = 1 ∧ (readU32 bc (off + 1)).1 < bc.length) &&
    bc[off + 10]? == some OpCode.accept.code

/-- The opcode at the root. -/
def rootOp (bc : Bytes) : Option OpCode := bc[(frontRoot bc).2]?.bind OpCode.ofByte

/-- The class instruction at the root. -/
def rootClassOp (bc : Bytes) : Option OpCode :=
  (rootOp bc).filter fun op =>
    decide ((frontRoot bc).2 + 3 ≤ bc.length) && [.break, .breakx, .span, .any, .notany].contains op

/-- The class at the root is ASCII; `OP_ANY` and `OP_NOTANY` also want a range. -/
def rootClassAscii (bc : Bytes) (op : OpCode) : Bool :=
  match getRangesPtr bc none (readU16 bc ((frontRoot bc).2 + 1)).1 with
  | none => false
  | some c =>
      !([.any, .notany].contains op && c.ranges.isEmpty) && (rangesToBitmap 127 c.ranges).isSome

/-- `snobol_search_derive_meta` -/
def deriveTierMeta (turns : Nat) (bc : Bytes) : SearchTierMeta :=
  let captures := hasCapture bc
  let root := (frontRoot bc).2
  let op := rootClassOp bc
  let ascii := op.any (rootClassAscii bc)
  let breaks := op == some .break || op == some .breakx
  let spans := op == some .span
  let splits := rootOp bc == some .split
  let alt := splits && decide (10 ≤ bc.length) &&
    (checkAltLiterals bc (min bc.length 2048) turns 0 0).isSome
  let singleAlt := splits && decide (root + 9 ≤ bc.length) &&
    checkSingleLit bc (readU32 bc (root + 1)).1 && checkSingleLit bc (readU32 bc (root + 5)).1
  let bitmap := singleAlt || (op == some .any && ascii)
  let info := literalMeta alt captures turns bc
  { isBreakFamily := breaks && !captures
    isSpanFamily := spans && !captures
    asciiClassOnly := ascii
    isLiteralOnly := checkLiteralOnly bc
    hasLiteralPrefix := info.hasLiteralPrefix
    literalPrefixLen := info.literalPrefix.length
    hasCandidateBitmap := bitmap && !captures
    isSingleCharAlt := bitmap && !captures
    isAltLiterals := alt && !captures
    searchVmEligible := checkSearchVmEligible bc
    simdEligible := checkSimdEligible bc && !captures
    fusionEligible := (checkFusionEligible captures bc).isSome && !captures
    automatonEligible := checkAutomatonEligible bc && !((breaks || spans) && !ascii) && !captures
    hasBmhSkip := info.hasBmhSkip
    isAltLiteralsFlat := alt && !altLiteralsSharePrefix turns bc && !captures
    alt_of_flat := by
      simp only [Bool.and_eq_true]
      rintro ⟨⟨halt, -⟩, hcaptures⟩
      exact ⟨halt, hcaptures⟩ }

/-! ## The calls -/

/-- `search_automaton_exec_anchored` succeeds. -/
def automatonAnchored (dfa : Dfa) (s : Bytes) (start : Nat) : Bool :=
  dfa.accepts 0 ||
    match dfaWalk dfa (s.drop start) 0 start with
    | .accepted _ => true
    | .dead | .ended => false

/-- The tier that answers in `dispatch_search_impl`: the anchored pass of the automaton, or the
one from the table. -/
def TierMeta.answeringTier (info : TierMeta) (dfa : Option Dfa) (s : Bytes) (start : Nat)
    (anchored : Bool) : Tier :=
  if anchored && info.automatonEligible && !info.isAltLiterals && info.hasBmhSkip &&
      dfa.any (automatonAnchored · s start) then .automaton
  else info.dispatchTier s.length dfa.isSome anchored

/-- The call comes to the tiers: it is not answered by the one byte short circuit, by the
filter on the required literal, or for an offset behind the end. -/
def TierMeta.ReachesTiers (info : TierMeta) (required : Option Bytes) (s : Bytes) (start : Nat)
    (diag anchored : Bool) : Prop :=
  ¬(anchored = false ∧ diag = false ∧ info.isLiteralOnly = true ∧
      required.any (fun lit => decide (lit.length = 1)) = true) ∧
    searchPrefilterMiss required s start = some false ∧ start ≤ s.length

instance (info : TierMeta) (required : Option Bytes) (s : Bytes) (start : Nat)
    (diag anchored : Bool) : Decidable (info.ReachesTiers required s start diag anchored) :=
  inferInstanceAs (Decidable (¬(_ ∧ _ ∧ _ ∧ _) ∧ _ ∧ _))

/-- The tier that `snobol_search_exec`, or `snobol_search_exec_anchored`, runs. -/
def TierMeta.execTier (info : TierMeta) (required : Option Bytes) (dfa : Option Dfa) (s : Bytes)
    (start : Nat) (diag anchored : Bool) : Option Tier :=
  if info.ReachesTiers required s start diag anchored then
    some (info.answeringTier dfa s start anchored)
  else none

/-- `snobol_search_executed_tier` -/
def snobolSearchExecutedTier (info : Option SearchTierMeta) (dfaAvailable : Bool) (len : Nat)
    (anchored : Bool) : Tier :=
  match info with
  | none => .general
  | some info =>
      if dfaAvailable && info.automatonEligible && !info.isAltLiteralsFlat && info.hasBmhSkip then
        .automaton
      else info.selectTierByCost len anchored

/-! ## The agreement -/

/-- The cost model does not score the automaton. -/
theorem TierMeta.selectTierByCost_ne_automaton (info : TierMeta) (len : Nat) (anchored : Bool) :
    info.selectTierByCost len anchored ≠ .automaton := by
  suffices hgen : ∀ (cs : List (Tier × Int × Nat)) (best : Tier × Int), best.1 ≠ .automaton →
      (cs.foldl (info.score len anchored) best).1 ≠ .automaton from
    hgen tierCosts _ (by decide)
  intro cs
  induction cs with
  | nil =>
    intro best hbest
    exact hbest
  | cons c cs ih =>
    intro best hbest
    refine ih _ ?_
    unfold TierMeta.score
    simp only
    split
    · rename_i hscored
      intro hauto
      rw [show c.1 = .automaton from hauto] at hscored
      cases hscored
    · exact hbest

/-- The report names the automaton where the dispatch does not run it. -/
def SearchTierMeta.Misnamed (info : SearchTierMeta) (dfa : Option Dfa) (s : Bytes) (start : Nat)
    (anchored : Bool) : Prop :=
  dfa.isSome = true ∧ info.automatonEligible = true ∧ info.hasBmhSkip = true ∧
    info.isAltLiteralsFlat = false ∧
    (info.isAltLiterals = true ∨
      anchored = true ∧ dfa.any (automatonAnchored · s start) = false)

/-- The report agrees with the dispatch on all other calls. -/
theorem SearchTierMeta.executedTier_eq_answeringTier_iff (info : SearchTierMeta)
    (dfa : Option Dfa) (s : Bytes) (start : Nat) (anchored : Bool) :
    snobolSearchExecutedTier (some info) dfa.isSome s.length anchored =
        info.answeringTier dfa s start anchored ↔
      ¬info.Misnamed dfa s start anchored := by
  have hcost := info.selectTierByCost_ne_automaton s.length anchored
  have hflat := info.alt_of_flat
  simp only [snobolSearchExecutedTier, TierMeta.answeringTier, TierMeta.dispatchTier, Misnamed]
  cases dfa with
  | none => simp
  | some dfa =>
    -- without an automaton that can be used both sides are the tier of the cost model
    by_cases heligible : info.automatonEligible = true ∧ info.hasBmhSkip = true
    · obtain ⟨hauto, hbmh⟩ := heligible
      simp only [hauto, hbmh, Option.isSome_some, Option.any_some, Bool.and_true, Bool.true_and]
      cases halt : info.isAltLiterals with
      | true =>
        cases hisflat : info.isAltLiteralsFlat with
        | true => simp
        | false => simpa using hcost.symm
      | false =>
        have hnotflat : info.isAltLiteralsFlat = false := by
          cases hisflat : info.isAltLiteralsFlat with
          | true => rw [hflat hisflat] at halt; cases halt
          | false => rfl
        cases anchored with
        | false => simp [hnotflat]
        | true =>
          cases hpass : automatonAnchored dfa s start with
          | true => simp [hnotflat]
          | false => simpa [hnotflat] using hcost.symm
    · have hoff : (info.automatonEligible && info.hasBmhSkip) = false := by
        rw [← Bool.not_eq_true, Bool.and_eq_true]
        exact heligible
      rcases Bool.and_eq_false_iff.mp hoff with hauto | hbmh
      · simp [hauto]
      · simp [hbmh]

/-- `snobol_search_executed_tier` names the tier that a call runs, if it runs one, exactly where
the automaton is not named in place of another tier. -/
theorem executedTier_names_execTier_iff (info : SearchTierMeta) (required : Option Bytes)
    (dfa : Option Dfa) (s : Bytes) (start : Nat) (diag anchored : Bool) :
    (∀ tier, info.execTier required dfa s start diag anchored = some tier →
        snobolSearchExecutedTier (some info) dfa.isSome s.length anchored = tier) ↔
      ¬(info.ReachesTiers required s start diag anchored ∧
        info.Misnamed dfa s start anchored) := by
  rw [not_and, ← info.executedTier_eq_answeringTier_iff]
  unfold TierMeta.execTier
  constructor
  · intro hnames hreaches
    exact hnames _ (if_pos hreaches)
  · intro hagree tier htier
    split at htier
    · rename_i hreaches
      cases htier
      exact hagree hreaches
    · cases htier

/-- The code of `'abc' | 'abd'` behind its `OP_SPLIT`. -/
def altCommon : Bytes :=
  [3, 0, 0, 0, 9, 0, 0, 0, 26, 4, 0, 0, 0, 18, 0, 0, 0, 3, 0x61, 0x62, 0x63, 2, 0, 0, 0, 38,
    4, 0, 0, 0, 35, 0, 0, 0, 3, 0x61, 0x62, 0x64, 0, 0, 0, 0, 0, 0, 0, 0, 0, 83, 78, 66, 76]

/-- Where a shared prefix gives the alternation a table to skip by, the trie runs and the
automaton is reported. -/
theorem executedTier_misnames_altCommon :
    compileAstToBytecodeC .caseSensitive
        (.alt (.literal [0x61, 0x62, 0x63]) (.literal [0x61, 0x62, 0x64])) = some altCommon ∧
      snobolSearchExecutedTier (some (deriveTierMeta 4 altCommon)) true 3 false = .automaton ∧
      ∀ dfa : Dfa, (deriveTierMeta 4 altCommon).execTier
        (requiredLit (deriveTierMeta 4 altCommon).isAltLiterals altCommon) (some dfa)
        [0x61, 0x62, 0x64] 0 false false = some .altLit := by
  refine ⟨by decide +kernel, by decide +kernel, ?_⟩
  intro dfa
  have halt : (deriveTierMeta 4 altCommon).isAltLiterals = true := by decide +kernel
  have hcost : (deriveTierMeta 4 altCommon).selectTierByCost 3 false = .altLit := by decide +kernel
  have hreaches : (deriveTierMeta 4 altCommon).ReachesTiers (requiredLit true altCommon)
      [0x61, 0x62, 0x64] 0 false false := by decide +kernel
  rw [halt, TierMeta.execTier, if_pos hreaches]
  simp only [TierMeta.answeringTier, TierMeta.dispatchTier, halt, Bool.false_and, Bool.not_true,
    Bool.and_false]
  exact congrArg some hcost

end Snobol4
