import Mathlib.Data.List.Infix
import Snobol4.Compiler
import Snobol4.SearchLoop
import Snobol4.VmFlow

/-!
# RequiredLit — the literal that every match contains (`search_meta.c`, `search_tiers.c`)

A linear scan over the bytecode remembers the last literal, unless it sees that the
literal can be bypassed; a subject without it is rejected before any attempt.  The
rejection is right where every path of the code to its end spells the literal.
-/

namespace Snobol4

variable {W : Type}

/-! ## The scan -/

/-- `SNOBOL_SEARCH_MAX_PREFIX` -/
def maxPrefixLen : Nat := 16

/-- The variables of the scan for the last literal. -/
structure LitScan where
  /-- `last_lit[0 .. last_lit_len)` -/
  lastLit : Bytes
  lastLitOff : Nat
  litBypassed : Bool
  splitSeenBeforeLit : Bool
  splitBranchBypass : Bool
  skippableLoopEnd : Nat

/-- The scan before its first instruction. -/
def LitScan.start : LitScan := ⟨[], 0, false, false, false, 0⟩

/-- The branch at `target` of an `OP_SPLIT` jumps past the last literal behind its first
instruction. -/
def branchBypasses (bc : Bytes) (lastLitOff target : Nat) : Bool :=
  if bc.length ≤ target then false
  else
    let skip :=
      if bc[target]? = some OpCode.lit.code ∧ target + 9 ≤ bc.length then
        9 + (readU32 bc (target + 5)).1
      else if bc[target]? = some OpCode.jmp.code then 5
      else 1
    decide (target + skip + 5 ≤ bc.length) && bc[target + skip]? == some OpCode.jmp.code &&
      decide (lastLitOff < (readU32 bc (target + skip + 1)).1)

/-- The scan at an `OP_LIT`. -/
def LitScan.lit (bc : Bytes) (scan : Nat) (st : LitScan) : LitScan :=
  let off := (readU32 bc (scan + 1)).1
  let len := (readU32 bc (scan + 5)).1
  if 0 < len ∧ off < bc.length ∧ (off + len) % 2 ^ 32 ≤ bc.length then
    { st with
      lastLit := (bc.drop off).take (min len maxPrefixLen)
      lastLitOff := scan
      litBypassed := st.splitSeenBeforeLit || st.splitBranchBypass ||
        (decide (0 < st.skippableLoopEnd) && decide (scan < st.skippableLoopEnd)) }
  else { st with lastLitOff := scan }

/-- The scan at an `OP_SPLIT`. -/
def LitScan.split (bc : Bytes) (scan : Nat) (st : LitScan) : LitScan :=
  if st.lastLit = [] then { st with splitSeenBeforeLit := true, litBypassed := true }
  else if branchBypasses bc st.lastLitOff (readU32 bc (scan + 1)).1 ||
      branchBypasses bc st.lastLitOff (readU32 bc (scan + 5)).1 then
    { st with splitBranchBypass := true, litBypassed := true }
  else st

/-- The scan at an `OP_REPEAT_INIT`. -/
def LitScan.repeatInit (bc : Bytes) (scan : Nat) (st : LitScan) : LitScan :=
  let min := (readU32 bc (scan + 2)).1
  let skip := (readU32 bc (scan + 10)).1
  if min = 0 ∧ skip < bc.length ∧ scan < skip then { st with skippableLoopEnd := skip } else st

/-- One turn of the scan: the next offset, or nothing at the end of the pattern.  The
operands of the opcodes that it does not know are scanned as opcodes. -/
def LitScan.step (bc : Bytes) (scan : Nat) (st : LitScan) : Option (Nat × LitScan) :=
  match bc[scan]?.bind OpCode.ofByte with
  | some .accept | some .succeed | some .abort => none
  | some .lit =>
      if scan + 9 ≤ bc.length then some (scan + 9 + (readU32 bc (scan + 5)).1, st.lit bc scan)
      else some (scan + 1, st)
  | some .split =>
      some (scan + 9, if scan + 9 ≤ bc.length then st.split bc scan else st)
  | some .repeatInit =>
      some (scan + 14, if scan + 14 ≤ bc.length then st.repeatInit bc scan else st)
  | some .repeatStep => some (scan + 6, st)
  | some .jmp | some .len | some .pos | some .rpos | some .tab | some .rtab => some (scan + 5, st)
  | some .anchor | some .capStart | some .capEnd => some (scan + 2, st)
  | some .any | some .notany | some .span | some .break | some .breakx => some (scan + 3, st)
  | some .assign => some (scan + 4, st)
  | _ => some (scan + 1, st)

/-- The scan from `scan` on; every turn takes at least one byte. -/
def litScan (bc : Bytes) : Nat → Nat → LitScan → LitScan
  | 0, _, st => st
  | fuel + 1, scan, st =>
      if scan < bc.length then
        match st.step bc scan with
        | some (scan, st) => litScan bc fuel scan st
        | none => st
      else st

/-- `required_lit`, where `has_required_lit` is set. -/
def requiredLit (isAltLiterals : Bool) (bc : Bytes) : Option Bytes :=
  let st := litScan bc bc.length 0 .start
  if st.litBypassed = false ∧ isAltLiterals = false ∧ st.lastLit ≠ [] then some st.lastLit else none

/-- `search_prefilter_miss`: the required literal does not occur from `start` on.  Behind the
end of the subject the length that `memchr` and `memmem` are given wraps around and they leave
the subject: no answer. -/
def searchPrefilterMiss (required : Option Bytes) (s : Bytes) (start : Nat) : Option Bool :=
  match required with
  | none => some false
  | some lit => if s.length < start then none else some !decide (lit <:+: s.drop start)

/-- A turn of the scan goes forward. -/
theorem LitScan.step_lt {bc : Bytes} {scan scan' : Nat} {st st' : LitScan}
    (h : st.step bc scan = some (scan', st')) : scan < scan' := by
  unfold step at h
  split at h
  all_goals first
    | cases h; done
    | (split at h <;> cases h <;> omega)
    | (cases h; omega)

/-- The scan is over within the length of the code. -/
theorem litScan_fuel (bc : Bytes) {fuel scan : Nat} {st : LitScan} (h : bc.length ≤ fuel + scan)
    (more : Nat) : litScan bc (fuel + more) scan st = litScan bc fuel scan st := by
  induction fuel generalizing scan st with
  | zero =>
    cases more with
    | zero => rfl
    | succ more =>
      rw [Nat.zero_add] at h ⊢
      simp only [litScan]
      exact if_neg (by omega)
  | succ fuel ih =>
    rw [Nat.add_right_comm, litScan, litScan]
    split
    · cases hstep : st.step bc scan with
      | none => rfl
      | some next =>
        obtain ⟨scan', st'⟩ := next
        have hlt := LitScan.step_lt hstep
        exact ih (by omega)
    · rfl

/-! ## What the scan picks -/

/-- Where the walk goes from `scan`, whatever it has seen. -/
def scanNext (bc : Bytes) (scan : Nat) : Option Nat := (LitScan.start.step bc scan).map Prod.fst

/-- The offsets that the walk looks at before the end of the pattern. -/
def scanSites (bc : Bytes) : Nat → Nat → List Nat
  | 0, _ => []
  | fuel + 1, scan =>
      if scan < bc.length then
        match scanNext bc scan with
        | some next => scan :: scanSites bc fuel next
        | none => []
      else []

section

variable (bc : Bytes)

/-- An `OP_LIT` with its operands in the code. -/
def isLitOp (scan : Nat) : Bool :=
  bc[scan]?.bind OpCode.ofByte == some .lit && decide (scan + 9 ≤ bc.length)

/-- An `OP_LIT` with its text in the code. -/
def isLiteralSite (scan : Nat) : Bool :=
  isLitOp bc scan &&
    decide (0 < (readU32 bc (scan + 5)).1 ∧ (readU32 bc (scan + 1)).1 < bc.length ∧
      ((readU32 bc (scan + 1)).1 + (readU32 bc (scan + 5)).1) % 2 ^ 32 ≤ bc.length)

/-- The first 16 bytes of the literal at `scan`. -/
def siteText (scan : Nat) : Bytes :=
  (bc.drop (readU32 bc (scan + 1)).1).take (min (readU32 bc (scan + 5)).1 maxPrefixLen)

/-- An `OP_SPLIT` with its operands in the code. -/
def isSplitSite (scan : Nat) : Bool :=
  bc[scan]?.bind OpCode.ofByte == some .split && decide (scan + 9 ≤ bc.length)

/-- The end of the loop at `scan`, if that may make no turn. -/
def skippableEnd (scan : Nat) : Option Nat :=
  if bc[scan]?.bind OpCode.ofByte = some .repeatInit ∧ scan + 14 ≤ bc.length ∧
      (readU32 bc (scan + 2)).1 = 0 ∧ (readU32 bc (scan + 10)).1 < bc.length ∧
      scan < (readU32 bc (scan + 10)).1 then some (readU32 bc (scan + 10)).1
  else none

/-- The last literal among the sites. -/
def lastLiteralSite (sites : List Nat) : Option Nat := (sites.filter (isLiteralSite bc)).getLast?

/-- The last literal of the code. -/
def lastLiteral : Option Bytes :=
  (lastLiteralSite bc (scanSites bc bc.length 0)).map (siteText bc)

/-- The last `OP_LIT` among the sites. -/
def lastLitOp (sites : List Nat) : Nat := (sites.filter (isLitOp bc)).getLast?.getD 0

/-- The end of the last loop among the sites that may make no turn. -/
def lastSkippableEnd (sites : List Nat) : Nat := (sites.filterMap (skippableEnd bc)).getLast?.getD 0

/-- An alternation stands in front of every literal. -/
def EarlySplit (sites : List Nat) : Prop :=
  ∃ front back scan, sites = front ++ scan :: back ∧ isSplitSite bc scan = true ∧
    lastLiteralSite bc front = none

/-- A branch of an alternation jumps, behind its first instruction, past the last literal in
front of the alternation. -/
def BranchPast (sites : List Nat) : Prop :=
  ∃ front back scan, sites = front ++ scan :: back ∧ isSplitSite bc scan = true ∧
    lastLiteralSite bc front ≠ none ∧
    (branchBypasses bc (lastLitOp bc front) (readU32 bc (scan + 1)).1 = true ∨
      branchBypasses bc (lastLitOp bc front) (readU32 bc (scan + 5)).1 = true)

/-- The last literal is inside the last loop in front of it that may make no turn. -/
def InsideLoop (sites : List Nat) : Prop :=
  ∃ front back scan, sites = front ++ scan :: back ∧ isLiteralSite bc scan = true ∧
    lastLiteralSite bc back = none ∧ scan < lastSkippableEnd bc front

/-- The shapes by which the scan sees that the last literal can be bypassed. -/
def BypassSeen : Prop :=
  EarlySplit bc (scanSites bc bc.length 0) ∨ BranchPast bc (scanSites bc bc.length 0) ∨
    InsideLoop bc (scanSites bc bc.length 0)

end

section

variable {bc : Bytes} {sites : List Nat} {scan : Nat}

theorem concat_eq_append_cons {α : Type} {l front back : List α} {x a : α} :
    l ++ [x] = front ++ a :: back ↔
      (back = [] ∧ l = front ∧ x = a) ∨ ∃ rest, back = rest ++ [x] ∧ l = front ++ a :: rest := by
  constructor
  · intro h
    obtain rfl | ⟨rest, y, rfl⟩ := back.eq_nil_or_concat'
    · obtain ⟨hl, hx⟩ := List.append_inj' h rfl
      exact .inl ⟨rfl, hl, List.singleton_inj.mp hx⟩
    · rw [← List.cons_append, ← List.append_assoc] at h
      obtain ⟨hl, hx⟩ := List.append_inj' h rfl
      cases hx
      exact .inr ⟨rest, rfl, hl⟩
  · rintro (⟨rfl, rfl, rfl⟩ | ⟨rest, rfl, rfl⟩)
    · rfl
    · rw [List.append_assoc, List.cons_append]

theorem lastLiteralSite_concat : lastLiteralSite bc (sites ++ [scan]) =
    if isLiteralSite bc scan then some scan else lastLiteralSite bc sites := by
  rw [lastLiteralSite, List.filter_append, List.filter_singleton]
  cases hlit : isLiteralSite bc scan
  · simp [lastLiteralSite]
  · simp

theorem lastLitOp_concat : lastLitOp bc (sites ++ [scan]) =
    if isLitOp bc scan then scan else lastLitOp bc sites := by
  rw [lastLitOp, List.filter_append, List.filter_singleton]
  cases hlit : isLitOp bc scan
  · simp [lastLitOp]
  · simp

theorem lastSkippableEnd_concat : lastSkippableEnd bc (sites ++ [scan]) =
    (skippableEnd bc scan).getD (lastSkippableEnd bc sites) := by
  rw [lastSkippableEnd, List.filterMap_append]
  cases hend : skippableEnd bc scan with
  | none => simp [lastSkippableEnd, hend]
  | some loopEnd => simp [hend]

theorem earlySplit_concat : EarlySplit bc (sites ++ [scan]) ↔
    EarlySplit bc sites ∨ isSplitSite bc scan = true ∧ lastLiteralSite bc sites = none := by
  constructor
  · rintro ⟨front, back, a, hsites, hsplit, hnone⟩
    obtain ⟨-, rfl, rfl⟩ | ⟨rest, -, hrest⟩ := concat_eq_append_cons.mp hsites
    · exact .inr ⟨hsplit, hnone⟩
    · exact .inl ⟨front, rest, a, hrest, hsplit, hnone⟩
  · rintro (⟨front, rest, a, rfl, hsplit, hnone⟩ | ⟨hsplit, hnone⟩)
    · exact ⟨front, rest ++ [scan], a, by simp, hsplit, hnone⟩
    · exact ⟨sites, [], scan, rfl, hsplit, hnone⟩

theorem branchPast_concat : BranchPast bc (sites ++ [scan]) ↔
    BranchPast bc sites ∨ isSplitSite bc scan = true ∧ lastLiteralSite bc sites ≠ none ∧
      (branchBypasses bc (lastLitOp bc sites) (readU32 bc (scan + 1)).1 = true ∨
        branchBypasses bc (lastLitOp bc sites) (readU32 bc (scan + 5)).1 = true) := by
  constructor
  · rintro ⟨front, back, a, hsites, hpast⟩
    obtain ⟨-, rfl, rfl⟩ | ⟨rest, -, hrest⟩ := concat_eq_append_cons.mp hsites
    · exact .inr hpast
    · exact .inl ⟨front, rest, a, hrest, hpast⟩
  · rintro (⟨front, rest, a, rfl, hpast⟩ | hpast)
    · exact ⟨front, rest ++ [scan], a, by simp, hpast⟩
    · exact ⟨sites, [], scan, rfl, hpast⟩

theorem insideLoop_concat : InsideLoop bc (sites ++ [scan]) ↔
    if isLiteralSite bc scan then scan < lastSkippableEnd bc sites else InsideLoop bc sites := by
  have hnil : lastLiteralSite bc [] = none := rfl
  constructor
  · rintro ⟨front, back, a, hsites, hlit, hnone, hin⟩
    obtain ⟨-, rfl, rfl⟩ | ⟨rest, rfl, hrest⟩ := concat_eq_append_cons.mp hsites
    · rwa [if_pos hlit]
    · rw [lastLiteralSite_concat] at hnone
      split at hnone
      · cases hnone
      · rename_i hscan
        rw [if_neg hscan]
        exact ⟨front, rest, a, hrest, hlit, hnone, hin⟩
  · intro h
    split at h
    · rename_i hscan
      exact ⟨sites, [], scan, rfl, hscan, hnil, h⟩
    · rename_i hscan
      obtain ⟨front, rest, a, rfl, hlit, hnone, hin⟩ := h
      refine ⟨front, rest ++ [scan], a, by simp, hlit, ?_, hin⟩
      rw [lastLiteralSite_concat, if_neg hscan, hnone]

/-- What the scan has seen behind the sites. -/
structure LitScan.Saw (bc : Bytes) (sites : List Nat) (st : LitScan) : Prop where
  lastLit : st.lastLit = ((lastLiteralSite bc sites).map (siteText bc)).getD []
  lastLitOff : st.lastLitOff = lastLitOp bc sites
  loopEnd : st.skippableLoopEnd = lastSkippableEnd bc sites
  early : st.splitSeenBeforeLit = true ↔ EarlySplit bc sites
  branch : st.splitBranchBypass = true ↔ BranchPast bc sites
  bypassed : st.litBypassed = true ↔
    EarlySplit bc sites ∨ BranchPast bc sites ∨ InsideLoop bc sites

/-- What a turn of the scan does at `scan`. -/
def LitScan.turn (bc : Bytes) (st : LitScan) (scan : Nat) : LitScan :=
  if isLitOp bc scan then st.lit bc scan
  else if isSplitSite bc scan then st.split bc scan
  else if bc[scan]?.bind OpCode.ofByte = some .repeatInit ∧ scan + 14 ≤ bc.length then
    st.repeatInit bc scan
  else st

theorem isLiteralSite_of_isLitOp (h : isLitOp bc scan = true) :
    isLiteralSite bc scan = true ↔
      0 < (readU32 bc (scan + 5)).1 ∧ (readU32 bc (scan + 1)).1 < bc.length ∧
        ((readU32 bc (scan + 1)).1 + (readU32 bc (scan + 5)).1) % 2 ^ 32 ≤ bc.length := by
  rw [isLiteralSite, h, Bool.true_and, decide_eq_true_eq]

theorem isLitOp_of_isLiteralSite (h : isLiteralSite bc scan = true) : isLitOp bc scan = true :=
  (Bool.and_eq_true_iff.mp h).1

theorem isLiteralSite_of_not_isLitOp (h : isLitOp bc scan = false) :
    isLiteralSite bc scan = false := by
  rw [isLiteralSite, h, Bool.false_and]

theorem siteText_ne_nil (h : isLiteralSite bc scan = true) : siteText bc scan ≠ [] := by
  obtain ⟨hlen, hoff, -⟩ := (isLiteralSite_of_isLitOp (isLitOp_of_isLiteralSite h)).mp h
  refine List.ne_nil_of_length_pos ?_
  rw [siteText, List.length_take, List.length_drop, maxPrefixLen]
  omega

theorem isLiteralSite_of_last {a : Nat} (h : lastLiteralSite bc sites = some a) :
    isLiteralSite bc a = true :=
  (List.mem_filter.mp (List.mem_of_getLast? h)).2

theorem not_isSplitSite_of_isLitOp (h : isLitOp bc scan = true) : isSplitSite bc scan = false := by
  rw [isLitOp, Bool.and_eq_true, beq_iff_eq] at h
  rw [isSplitSite, h.1]
  rfl

theorem skippableEnd_eq_none {op : OpCode} (h : bc[scan]?.bind OpCode.ofByte = some op)
    (hne : op ≠ .repeatInit) : skippableEnd bc scan = none := by
  rw [skippableEnd, h, if_neg]
  rintro ⟨hop, -⟩
  exact hne (Option.some.inj hop)

namespace LitScan

variable {st : LitScan}

theorem Saw.lastLit_eq_nil_iff (h : st.Saw bc sites) :
    st.lastLit = [] ↔ lastLiteralSite bc sites = none := by
  rw [h.lastLit]
  cases hlast : lastLiteralSite bc sites with
  | none => simp
  | some a => simpa using siteText_ne_nil (isLiteralSite_of_last hlast)

/-- A turn at a site that is no literal, no alternation and no loop that is noted. -/
theorem Saw.idle (h : st.Saw bc sites) (hlit : isLitOp bc scan = false)
    (hsplit : isSplitSite bc scan = false) (hend : skippableEnd bc scan = none) :
    st.Saw bc (sites ++ [scan]) := by
  have hlit' := isLiteralSite_of_not_isLitOp hlit
  constructor
  · rw [lastLiteralSite_concat, hlit', if_neg Bool.false_ne_true, h.lastLit]
  · rw [lastLitOp_concat, hlit, if_neg Bool.false_ne_true, h.lastLitOff]
  · rw [lastSkippableEnd_concat, hend, Option.getD_none, h.loopEnd]
  · simp [earlySplit_concat, hsplit, h.early]
  · simp [branchPast_concat, hsplit, h.branch]
  · simp [earlySplit_concat, branchPast_concat, insideLoop_concat, hsplit, hlit', h.bypassed]

theorem Saw.lit (h : st.Saw bc sites) (hlit : isLitOp bc scan = true) :
    (st.lit bc scan).Saw bc (sites ++ [scan]) := by
  have hsplit := not_isSplitSite_of_isLitOp hlit
  have hop : bc[scan]?.bind OpCode.ofByte = some .lit := by
    rw [isLitOp, Bool.and_eq_true, beq_iff_eq] at hlit
    exact hlit.1
  have hend := skippableEnd_eq_none hop (by decide)
  unfold LitScan.lit
  dsimp only
  by_cases hvalid : isLiteralSite bc scan = true
  · rw [if_pos ((isLiteralSite_of_isLitOp hlit).mp hvalid)]
    constructor
    · simp only [lastLiteralSite_concat, hvalid, if_true, Option.map_some, Option.getD_some]
      rfl
    · simp only [lastLitOp_concat, hlit, if_true]
    · simp only [lastSkippableEnd_concat, hend, Option.getD_none, h.loopEnd]
    · simp [earlySplit_concat, hsplit, h.early]
    · simp [branchPast_concat, hsplit, h.branch]
    · have hloop : (decide (0 < st.skippableLoopEnd) && decide (scan < st.skippableLoopEnd)) =
          true ↔ scan < lastSkippableEnd bc sites := by
        rw [h.loopEnd, Bool.and_eq_true, decide_eq_true_eq, decide_eq_true_eq]
        omega
      rw [earlySplit_concat, branchPast_concat, insideLoop_concat, hsplit, if_pos hvalid, ← hloop]
      simp only [Bool.or_eq_true, h.early, h.branch, Bool.false_eq_true, false_and, or_false,
        or_assoc]
  · rw [if_neg fun hc => hvalid ((isLiteralSite_of_isLitOp hlit).mpr hc)]
    rw [Bool.not_eq_true] at hvalid
    constructor
    · simp only [lastLiteralSite_concat, hvalid, Bool.false_eq_true, if_false, h.lastLit]
    · simp only [lastLitOp_concat, hlit, if_true]
    · simp only [lastSkippableEnd_concat, hend, Option.getD_none, h.loopEnd]
    · simp [earlySplit_concat, hsplit, h.early]
    · simp [branchPast_concat, hsplit, h.branch]
    · simp [earlySplit_concat, branchPast_concat, insideLoop_concat, hsplit, hvalid, h.bypassed]

theorem Saw.split (h : st.Saw bc sites) (hsplit : isSplitSite bc scan = true) :
    (st.split bc scan).Saw bc (sites ++ [scan]) := by
  have hop : bc[scan]?.bind OpCode.ofByte = some .split := by
    rw [isSplitSite, Bool.and_eq_true, beq_iff_eq] at hsplit
    exact hsplit.1
  have hlit : isLitOp bc scan = false := by
    rw [isLitOp, hop]
    rfl
  have hlit' := isLiteralSite_of_not_isLitOp hlit
  have hend := skippableEnd_eq_none hop (by decide)
  have hlast : lastLiteralSite bc (sites ++ [scan]) = lastLiteralSite bc sites := by
    rw [lastLiteralSite_concat, hlit', if_neg Bool.false_ne_true]
  have hloop : lastSkippableEnd bc (sites ++ [scan]) = lastSkippableEnd bc sites := by
    rw [lastSkippableEnd_concat, hend, Option.getD_none]
  have hoff : lastLitOp bc (sites ++ [scan]) = lastLitOp bc sites := by
    rw [lastLitOp_concat, hlit, if_neg Bool.false_ne_true]
  have hinside : InsideLoop bc (sites ++ [scan]) ↔ InsideLoop bc sites := by
    rw [insideLoop_concat, hlit', if_neg Bool.false_ne_true]
  unfold LitScan.split
  by_cases hnone : lastLiteralSite bc sites = none
  -- in front of every literal
  · rw [if_pos (h.lastLit_eq_nil_iff.mpr hnone)]
    constructor
    · rw [hlast, h.lastLit]
    · rw [hoff, h.lastLitOff]
    · rw [hloop, h.loopEnd]
    · simp [earlySplit_concat, hsplit, hnone]
    · simp [branchPast_concat, hnone, h.branch]
    · simp [earlySplit_concat, hsplit, hnone]
  · rw [if_neg fun hnil => hnone (h.lastLit_eq_nil_iff.mp hnil)]
    have hearly : EarlySplit bc (sites ++ [scan]) ↔ EarlySplit bc sites := by
      simp [earlySplit_concat, hnone]
    split
    · rename_i hpast
      rw [Bool.or_eq_true, h.lastLitOff] at hpast
      constructor
      · rw [hlast, h.lastLit]
      · rw [hoff, h.lastLitOff]
      · rw [hloop, h.loopEnd]
      · rw [hearly, h.early]
      · simp [branchPast_concat, hsplit, hnone, hpast]
      · simp [branchPast_concat, hsplit, hnone, hpast]
    · rename_i hpast
      rw [Bool.or_eq_true, h.lastLitOff] at hpast
      have hbranch : BranchPast bc (sites ++ [scan]) ↔ BranchPast bc sites := by
        simp [branchPast_concat, hpast]
      constructor
      · rw [hlast, h.lastLit]
      · rw [hoff, h.lastLitOff]
      · rw [hloop, h.loopEnd]
      · rw [hearly, h.early]
      · rw [hbranch, h.branch]
      · rw [hearly, hbranch, hinside, h.bypassed]

theorem Saw.repeatInit (h : st.Saw bc sites)
    (hop : bc[scan]?.bind OpCode.ofByte = some .repeatInit) (hroom : scan + 14 ≤ bc.length) :
    (st.repeatInit bc scan).Saw bc (sites ++ [scan]) := by
  have hlit : isLitOp bc scan = false := by
    rw [isLitOp, hop]
    rfl
  have hsplit : isSplitSite bc scan = false := by
    rw [isSplitSite, hop]
    rfl
  unfold LitScan.repeatInit
  dsimp only
  split
  · rename_i hskip
    have hend : skippableEnd bc scan = some (readU32 bc (scan + 10)).1 := if_pos ⟨hop, hroom, hskip⟩
    have hlit' := isLiteralSite_of_not_isLitOp hlit
    constructor
    · simp only [lastLiteralSite_concat, hlit', Bool.false_eq_true, if_false, h.lastLit]
    · simp only [lastLitOp_concat, hlit, Bool.false_eq_true, if_false, h.lastLitOff]
    · simp only [lastSkippableEnd_concat, hend, Option.getD_some]
    · simp [earlySplit_concat, hsplit, h.early]
    · simp [branchPast_concat, hsplit, h.branch]
    · simp [earlySplit_concat, branchPast_concat, insideLoop_concat, hsplit, hlit', h.bypassed]
  · rename_i hskip
    refine h.idle hlit hsplit (if_neg ?_)
    rintro ⟨-, -, hend⟩
    exact hskip hend

theorem Saw.turn (h : st.Saw bc sites) : (st.turn bc scan).Saw bc (sites ++ [scan]) := by
  unfold LitScan.turn
  split
  · exact h.lit ‹_›
  split
  · exact h.split ‹_›
  split
  · rename_i hloop
    exact h.repeatInit hloop.1 hloop.2
  · rename_i hlit hsplit hloop
    rw [Bool.not_eq_true] at hlit hsplit
    refine h.idle hlit hsplit (if_neg ?_)
    rintro ⟨hop, hroom, -⟩
    exact hloop ⟨hop, hroom⟩

/-- A turn goes on at `scanNext`. -/
theorem step_eq (st : LitScan) :
    st.step bc scan = (scanNext bc scan).map fun next => (next, st.turn bc scan) := by
  unfold scanNext step turn isLitOp isSplitSite
  cases hop : bc[scan]?.bind OpCode.ofByte with
  | none => simp
  | some op =>
    cases op
    case lit =>
      by_cases hroom : scan + 9 ≤ bc.length
      · simp [hroom]
      · simp [hroom]
    case split =>
      by_cases hroom : scan + 9 ≤ bc.length
      · simp [hroom]
      · simp [hroom]
    case repeatInit =>
      by_cases hroom : scan + 14 ≤ bc.length
      · simp [hroom]
      · simp [hroom]
    all_goals simp

theorem Saw.litScan {fuel : Nat} (h : st.Saw bc sites) :
    (litScan bc fuel scan st).Saw bc (sites ++ scanSites bc fuel scan) := by
  induction fuel generalizing sites scan st with
  | zero => simpa [Snobol4.litScan, scanSites] using h
  | succ fuel ih =>
    rw [Snobol4.litScan, scanSites, step_eq]
    split
    · cases scanNext bc scan with
      | none => simpa using h
      | some next =>
        have hturn : (st.turn bc scan).Saw bc (sites ++ [scan]) := h.turn
        have hrest : (Snobol4.litScan bc fuel next (st.turn bc scan)).Saw bc
            (sites ++ [scan] ++ scanSites bc fuel next) := ih hturn
        simpa using hrest
    · simpa using h

theorem Saw.start : LitScan.start.Saw bc [] := by
  constructor <;> simp [LitScan.start, lastLiteralSite, lastLitOp, lastSkippableEnd, EarlySplit,
    BranchPast, InsideLoop]

end LitScan

/-- The scan requires the last literal, unless it sees that this can be bypassed. -/
theorem requiredLit_eq_some_iff {isAltLiterals : Bool} {lit : Bytes} :
    requiredLit isAltLiterals bc = some lit ↔
      isAltLiterals = false ∧ ¬BypassSeen bc ∧ lastLiteral bc = some lit := by
  have h : (litScan bc bc.length 0 .start).Saw bc ([] ++ scanSites bc bc.length 0) :=
    LitScan.Saw.start.litScan
  rw [List.nil_append] at h
  have hbypassed : (litScan bc bc.length 0 .start).litBypassed = false ↔ ¬BypassSeen bc := by
    rw [← Bool.not_eq_true, h.bypassed, BypassSeen]
  unfold requiredLit lastLiteral
  dsimp only
  rw [h.lastLit]
  cases hlast : lastLiteralSite bc (scanSites bc bc.length 0) with
  | none => simp
  | some a =>
    have hne := siteText_ne_nil (isLiteralSite_of_last hlast)
    simp only [Option.map_some, Option.getD_some]
    by_cases hseen : BypassSeen bc
    · have hflag : ¬(litScan bc bc.length 0 .start).litBypassed = false :=
        fun hflag => hbypassed.mp hflag hseen
      rw [if_neg fun hpick => hflag hpick.1]
      simp [hseen]
    · have hflag := hbypassed.mpr hseen
      cases isAltLiterals
      · simp [hflag, hne, hseen]
      · simp

end

/-! ## The paths of the code -/

/-- The instruction is an `OP_LIT` whose text contains `lit`. -/
def Instr.spells (bc lit : Bytes) : Instr → Bool
  | .prim (.lit off len) => decide (lit <:+: (bc.drop off).take len)
  | _ => false

/-- The addresses on paths from the start of the code that have not spelled `lit`. -/
inductive Unspelled (bc lit : Bytes) : Nat → Prop where
  | entry : Unspelled bc lit 0
  | step {ip next target : Nat} {instr : Instr} (h : Unspelled bc lit ip)
      (hfetch : fetch bc ip = some (instr, next)) (hspells : instr.spells bc lit = false)
      (hmem : target ∈ instr.successors (registerLabels bc) ip next) : Unspelled bc lit target

/-- Every path from the start of the code to `OP_ACCEPT` or `OP_SUCCEED` spells `lit`. -/
def OnEveryPath (bc lit : Bytes) : Prop :=
  ∀ ip instr next, Unspelled bc lit ip → fetch bc ip = some (instr, next) →
    instr ≠ .accept ∧ instr ≠ .succeed

/-! ## A run that spells the literal -/

/-- A literal that matches occurs in the subject. -/
theorem matchLit_isInfix {s text : Bytes} {len pos pos' : Nat}
    (h : matchLit s text len pos = some pos') : text <:+: s := by
  unfold matchLit at h
  split at h
  · rename_i hmatch
    rw [← hmatch.2]
    exact (List.take_prefix len _).isInfix.trans (List.drop_suffix pos s).isInfix
  · cases h

/-- Where the literal does not occur, the run keeps to paths that have not spelled it. -/
theorem Vm.Within.unspelled {env : VmEnv W} {vm : Vm W} {lit : Bytes} (hlit : ¬lit <:+: env.s)
    (hlabels : env.labelOffsets = registerLabels env.bc)
    (h : vm.Within (Unspelled env.bc lit)) :
    Keeps env.bc vm.ip (Unspelled env.bc lit) (vmStep env vm) := by
  refine h.step ?_
  intro instr next target hfetch hexec hmem
  refine h.ip.step hfetch ?_ (hlabels ▸ hmem)
  by_contra hspells
  rw [Bool.not_eq_false] at hspells
  match instr, hspells with
  | .prim (.lit off len), hspells =>
    have htext : lit <:+: (env.bc.drop off).take len := of_decide_eq_true hspells
    obtain ⟨pos, regs, undo, g, hnext⟩ := hexec _ rfl
    simp only [Prim.exec] at hnext
    cases hmatch : matchLit env.s ((env.bc.drop off).take len) len vm.pos with
    | none =>
      rw [hmatch] at hnext
      cases hnext
    | some pos' => exact hlit (htext.trans (matchLit_isInfix hmatch))

/-- A set of addresses that holds every unspelled one, and no end of the pattern. -/
def closedUnspelled (bc lit : Bytes) (set : List Nat) : Bool :=
  set.contains 0 && set.all fun ip =>
    match fetch bc ip with
    | none => true
    | some (instr, next) =>
        decide (instr ≠ .accept ∧ instr ≠ .succeed) && (instr.spells bc lit ||
          (instr.successors (registerLabels bc) ip next).all set.contains)

theorem OnEveryPath.of_closed {bc lit : Bytes} (set : List Nat)
    (h : closedUnspelled bc lit set = true) : OnEveryPath bc lit := by
  rw [closedUnspelled, Bool.and_eq_true, List.all_eq_true] at h
  obtain ⟨hentry, hall⟩ := h
  have hmem : ∀ ip, Unspelled bc lit ip → ip ∈ set := by
    intro ip hip
    induction hip with
    | entry => simpa using hentry
    | step _ hfetch hspells hmem ih =>
      have hclosed := hall _ ih
      rw [hfetch] at hclosed
      simp only [hspells, Bool.false_or, Bool.and_eq_true, List.all_eq_true] at hclosed
      simpa using hclosed.2 _ hmem
  intro ip instr next hip hfetch
  have hclosed := hall ip (hmem ip hip)
  rw [hfetch] at hclosed
  simp only [Bool.and_eq_true, decide_eq_true_eq] at hclosed
  exact hclosed.1

/-- The code of `ARBNO('a') 'x' LEN(1)`. -/
def behindLoop : Bytes :=
  [15, 0, 0, 0, 0, 0, 255, 255, 255, 255, 0, 0, 0, 30, 4, 0, 0, 0, 23, 0, 0, 0, 1, 97, 16, 0, 0, 0,
    0, 14, 4, 0, 0, 0, 39, 0, 0, 0, 1, 120, 12, 0, 0, 0, 1, 0, 0, 0, 0, 0, 0, 0, 0, 0, 83, 78, 66,
    76]

/-- The code of `'x' (LEN(1) | 'y')`. -/
def besideLen : Bytes :=
  [4, 0, 0, 0, 9, 0, 0, 0, 1, 120, 3, 0, 0, 0, 19, 0, 0, 0, 29, 12, 0, 0, 0, 1, 2, 0, 0, 0, 39, 4,
    0, 0, 0, 38, 0, 0, 0, 1, 121, 0, 0, 0, 0, 0, 0, 0, 0, 0, 83, 78, 66, 76]

end Snobol4
