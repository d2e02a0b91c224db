import Snobol4.CodeAt
import Snobol4.Fusion
import Snobol4.MatchingProgress
import Snobol4.StraightLine

/-!
# FusionTier — concatenations as segment lists (`search_meta.c`, `search_fusion.c`)

`check_fusion_eligible` walks the code of a concatenation and writes down one segment for
each literal and class instruction; `tier_fusion` matches the segments one after the other
at each offset, without the VM.
-/

namespace Snobol4

variable {W : Type}

/-! ## The segment list -/

/-- `MAX_FUSION_SEGMENTS` -/
def maxFusionSegments : Nat := 32

/-- A segment of `FUSION_LIT`, `FUSION_RUN` or `FUSION_CHAR`. -/
inductive FusionPiece where
  | lit (text : Bytes) (len : Nat)
  | run (bitmap : UInt8 → Bool) (min : Nat)
  | char (bitmap : UInt8 → Bool)

/-- `snobol_fusion_segment_t`; the branches of `FUSION_ALT` hold no `FUSION_ALT`. -/
inductive FusionSegment where
  | piece (p : FusionPiece)
  | alt (alts : List (List FusionPiece))

/-- What becomes of an instruction: the code is not eligible, nothing, or a segment. -/
inductive FusionStep where
  | reject
  | skip (next : Nat)
  | add (p : FusionPiece) (next : Nat)

/-- A class instruction; the class must lie within ASCII. -/
def fusionClass (bc : Bytes) (ip id : Nat) (mk : (UInt8 → Bool) → FusionPiece) : FusionStep :=
  if bc.length < ip + 3 then .reject
  else
    match (getRangesPtr bc none id).bind fun c => rangesToBitmap 127 c.ranges with
    | some bitmap => .add (mk bitmap) (ip + 3)
    | none => .reject

/-- A literal; the sums are those of 32-bit operands. -/
def fusionLit (bc : Bytes) (ip off len : Nat) : FusionStep :=
  if bc.length < ip + 9 then .reject
  else if bc.length ≤ off ∨ bc.length < (off + len) % 2 ^ 32 then .reject
  else if len = 0 then .skip (ip + 9)
  else .add (.lit ((bc.drop off).take len) len) (ip + (9 + len) % 2 ^ 32)

/-- The segment of an instruction. -/
def fusionStep (bc : Bytes) (ip : Nat) : Instr → FusionStep
  | .prim (.lit off len) => fusionLit bc ip off len
  | .prim (.set .span id) => fusionClass bc ip id fun bitmap => .run bitmap 1
  | .prim (.set .any id) => fusionClass bc ip id fun bitmap => .char bitmap
  | .prim (.set .notany id) => fusionClass bc ip id fun bitmap => .char fun b => !bitmap b
  | .prim (.set .break id) => fusionClass bc ip id fun bitmap => .run (fun b => !bitmap b) 0
  | _ => .reject

/-- The walk of a branch of `OP_SPLIT`, `count` segments so far. -/
def fusionBranch (bc : Bytes) : Nat → Nat → Nat → Option (List FusionPiece)
  | 0, _, _ => none
  | fuel + 1, ip, count =>
      match fetch bc ip with
      | none => some []
      | some (.prim .nop, _) => fusionBranch bc fuel (ip + 1) count
      | some (.fence, _) => fusionBranch bc fuel (ip + 1) count
      | some (.accept, _) => some []
      | some (.succeed, _) => some []
      | some (.jmp _, _) => some []
      | some (instr, _) =>
          if maxFusionSegments ≤ count then none
          else
            match fusionStep bc ip instr with
            | .reject => none
            | .skip next => fusionBranch bc fuel next count
            | .add p next => (fusionBranch bc fuel next (count + 1)).map (p :: ·)

/-- Every turn of a walk moves on or adds a segment. -/
def fusionFuel (bc : Bytes) : Nat := bc.length + maxFusionSegments + 1

/-- The branches of `OP_SPLIT`; none may be empty. -/
def fusionAlt (bc : Bytes) (ip a b : Nat) : Option (List (List FusionPiece)) := do
  if bc.length < ip + 9 then none
  if bc.length ≤ a ∨ bc.length ≤ b then none
  let left ← fusionBranch bc (fusionFuel bc) a 0
  if left.isEmpty then none
  let right ← fusionBranch bc (fusionFuel bc) b 0
  if right.isEmpty then none
  some [left, right]

/-- The walk of `check_fusion_eligible`, `count` segments so far.  `OP_SPLIT` counts two
segments, of which the second stays as the allocation left it, and the walk goes on behind
the instruction. -/
def fusionWalk (bc : Bytes) : Nat → Nat → Nat → Option (List FusionSegment)
  | 0, _, _ => none
  | fuel + 1, ip, count =>
      match fetch bc ip with
      | none => some []
      | some (.prim .nop, _) => fusionWalk bc fuel (ip + 1) count
      | some (.fence, _) => fusionWalk bc fuel (ip + 1) count
      | some (.accept, _) => some []
      | some (.succeed, _) => some []
      | some (instr, _) =>
          if maxFusionSegments ≤ count then none
          else
            match instr with
            | .split a b => do
                let alts ← fusionAlt bc ip a b
                let rest ← fusionWalk bc fuel (ip + 9) (count + 2)
                some (.alt alts :: .piece (.lit [] 0) :: rest)
            | instr =>
                match fusionStep bc ip instr with
                | .reject => none
                | .skip next => fusionWalk bc fuel next count
                | .add p next => (fusionWalk bc fuel next (count + 1)).map (.piece p :: ·)

/-- `check_fusion_eligible` -/
def checkFusionEligible (hasCapture : Bool) (bc : Bytes) : Option (List FusionSegment) := do
  if bc.length < 2 ∨ hasCapture then none
  let plan ← fusionWalk bc (fusionFuel bc) 0 0
  if plan.length < 2 then none
  some plan

/-! ## The tier -/

/-- A segment at the cursor. -/
def FusionPiece.exec (s : Bytes) (cur : Nat) : FusionPiece → Option Nat
  | lit text len =>
      if s.length < cur + len then none
      else if (s.drop cur).take len = text then some (cur + len) else none
  | run bitmap min =>
      if spanBytes s bitmap cur - cur < min then none else some (spanBytes s bitmap cur)
  | char bitmap => if (s[cur]?).any bitmap then some (cur + 1) else none

/-- The segments of a branch. -/
def execPieces (s : Bytes) : List FusionPiece → Nat → Option Nat
  | [], cur => some cur
  | p :: ps, cur => (p.exec s cur).bind (execPieces s ps)

/-- A segment at the cursor; of an alternative the first branch that matches. -/
def FusionSegment.exec (s : Bytes) (cur : Nat) : FusionSegment → Option Nat
  | piece p => p.exec s cur
  | alt alts => alts.findSome? fun ps => if ps.isEmpty then none else execPieces s ps cur

/-- `exec_fusion` -/
def execFusion (s : Bytes) : List FusionSegment → Nat → Option Nat
  | [], cur => some cur
  | seg :: segs, cur => (seg.exec s cur).bind (execFusion s segs)

/-- `tier_fusion`: the scan stops before the end of the subject. -/
def tierFusion (plan : List FusionSegment) (s : Bytes) (start : Nat) (anchored : Bool) :
    Option (Nat × Nat) :=
  firstFound (fun offset => .ofStop (execFusion s plan offset))
    (if anchored then 1 else s.length - start) start

/-! ## Code without alternatives -/

/-- The code at an address is a line of class instructions and of literals whose text
stands inline, up to an instruction that accepts. -/
inductive FusionLine (bc : Bytes) : Nat → Prop where
  | stop {ip next : Nat} {instr : Instr} (hfetch : fetch bc ip = some (instr, next))
      (hend : instr.lineEnd = some .accepted) : FusionLine bc ip
  | skip {ip : Nat} {instr : Instr} (hfetch : fetch bc ip = some (instr, ip + 1))
      (hidle : instr.idle = true) (h : FusionLine bc (ip + 1)) : FusionLine bc ip
  | set {ip : Nat} {op : SetOp} {id : Nat} (hfetch : fetch bc ip = some (.prim (.set op id), ip + 3))
      (h : FusionLine bc (ip + 3)) : FusionLine bc ip
  | lit {ip len : Nat} (hfetch : fetch bc ip = some (.prim (.lit (ip + 9) len), ip + 9 + len))
      (hlen : 9 + len < 2 ^ 32) (h : FusionLine bc (ip + 9 + len)) : FusionLine bc ip

/-- The segment of an `OP_BREAK`. -/
def FusionPiece.isBreak : FusionPiece → Bool
  | run _ min => decide (min = 0)
  | lit _ _ => false
  | char _ => false

def FusionSegment.isBreak : FusionSegment → Bool
  | piece p => p.isBreak
  | alt _ => false

/-- The text of a literal is not empty. -/
def FusionPiece.Proper : FusionPiece → Prop
  | lit _ len => len ≠ 0
  | run _ _ => True
  | char _ => True

/-- The segments do over the subject what the line does over its windows. -/
def Mirrors (env : VmEnv W) (ps : List FusionPiece) (ops : List LineOp) : Prop :=
  ∀ offset pos, execPieces env.s ps (offset + pos) =
    (lineTarget (env.window offset) ops pos).map (offset + ·)

section

variable {env : VmEnv W} {ps : List FusionPiece} {ops : List LineOp}

theorem Mirrors.nil (env : VmEnv W) : Mirrors env [] [] := fun _ _ => rfl

theorem Mirrors.cons {p : FusionPiece} {op : LineOp}
    (hp : ∀ offset pos, p.exec env.s (offset + pos) =
      (op.target (env.window offset) pos).map (offset + ·)) (h : Mirrors env ps ops) :
    Mirrors env (p :: ps) (op :: ops) := by
  intro offset pos
  rw [execPieces, lineTarget, hp]
  cases op.target (env.window offset) pos with
  | none => rfl
  | some pos' => exact h offset pos'

/-- An instruction without a segment moves nothing. -/
theorem Mirrors.skip {op : LineOp} (hop : ∀ offset pos, op.target (env.window offset) pos = some pos)
    (h : Mirrors env ps ops) : Mirrors env ps (op :: ops) := by
  intro offset pos
  rw [lineTarget, hop]
  exact h offset pos

theorem exec_lit (off : Nat) {len : Nat} (hlen : len ≠ 0) (offset pos : Nat) :
    (FusionPiece.lit ((env.bc.drop off).take len) len).exec env.s (offset + pos) =
      ((LineOp.lit off len).target (env.window offset) pos).map (offset + ·) := by
  have htake : ((env.s.drop offset).drop pos).take len = (env.s.drop (offset + pos)).take len := by
    rw [List.drop_drop]
  rw [FusionPiece.exec, LineOp.target, matchLit]
  simp only [VmEnv.window, List.length_drop, htake]
  by_cases hshort : env.s.length < offset + pos + len
  · rw [if_pos hshort, if_neg (by omega)]
    rfl
  · rw [if_neg hshort]
    by_cases htext : (env.s.drop (offset + pos)).take len = (env.bc.drop off).take len
    · rw [if_pos htext, if_pos ⟨by omega, htext⟩, Option.map_some, Nat.add_assoc]
    · rw [if_neg htext, if_neg fun h => htext h.2]
      rfl

theorem target_lit_zero (off offset pos : Nat) :
    (LineOp.lit off 0).target (env.window offset) pos = some pos := by
  rw [LineOp.target, matchLit, if_pos ⟨Nat.zero_le _, rfl⟩, Nat.add_zero]

/-- The segment of a class instruction. -/
def SetOp.piece (bitmap : UInt8 → Bool) : SetOp → FusionPiece
  | .any => .char bitmap
  | .notany => .char fun b => !bitmap b
  | .span => .run bitmap 1
  | .break => .run (fun b => !bitmap b) 0

theorem exec_set {ranges : List CpRange} {bitmap : UInt8 → Bool} {id : Nat}
    (hranges : env.ranges id = some ranges) (hbitmap : rangesToBitmap 127 ranges = some bitmap)
    (op : SetOp) (offset pos : Nat) :
    (op.piece bitmap).exec env.s (offset + pos) =
      ((LineOp.set op id).target (env.window offset) pos).map (offset + ·) := by
  have hwindow : (env.window offset).ranges id = some ranges := hranges
  have hs : (env.window offset).s = env.s.drop offset := rfl
  have hget : (env.s.drop offset)[pos]? = env.s[offset + pos]? := List.getElem?_drop
  rw [LineOp.target, hwindow, hs]
  cases op with
  | any =>
    simp only [SetOp.piece, FusionPiece.exec, matchSet, matchAny, hbitmap, hget]
    split <;> rfl
  | notany =>
    simp only [SetOp.piece, FusionPiece.exec, matchSet, matchNotany, Option.bind_some, hbitmap, hget]
    split <;> rfl
  | span =>
    simp only [SetOp.piece, FusionPiece.exec, matchSet, matchSpan, spanTarget, hbitmap, spanBytes_drop]
    by_cases hsome : pos < spanBytes (env.s.drop offset) bitmap pos
    · rw [if_neg (by omega), if_pos hsome]
      rfl
    · rw [if_pos (by omega), if_neg hsome]
      rfl
  | «break» =>
    simp only [SetOp.piece, FusionPiece.exec, matchSet, breakTarget, Option.bind_some, hbitmap,
      spanBytes_drop, Nat.not_lt_zero, if_false]
    rfl

end

/-! ## The plan of a line -/

theorem fusionStep_set {bc : Bytes} {ip id next : Nat} {op : SetOp} {p : FusionPiece}
    (h : fusionStep bc ip (.prim (.set op id)) = .add p next) :
    next = ip + 3 ∧ ∃ c bitmap, getRangesPtr bc none id = some c ∧
      rangesToBitmap 127 c.ranges = some bitmap ∧ p = op.piece bitmap := by
  have hclass : fusionClass bc ip id op.piece = .add p next := by
    cases op with
    | any | notany | span | «break» => exact h
  unfold fusionClass at hclass
  split at hclass
  · cases hclass
  · cases hranges : getRangesPtr bc none id with
    | none =>
      rw [hranges] at hclass
      cases hclass
    | some c =>
      rw [hranges, Option.bind_some] at hclass
      cases hbitmap : rangesToBitmap 127 c.ranges with
      | none =>
        rw [hbitmap] at hclass
        cases hclass
      | some bitmap =>
        rw [hbitmap] at hclass
        cases hclass
        exact ⟨rfl, c, bitmap, rfl, hbitmap, rfl⟩

/-- The VM sees the class that the check sees. -/
theorem ranges_of_getRangesPtr {env : VmEnv W} {id : Nat} {c : ClassRanges}
    (h : getRangesPtr env.bc none id = some c) : env.ranges id = some c.ranges := by
  rw [VmEnv.ranges, getRangesPtr_eq env.rangeMeta_eq, ← getRangesPtr_eq (.inl rfl), h, Option.map_some]

theorem fusionStep_set_ne_skip {bc : Bytes} {ip id next : Nat} (op : SetOp) :
    fusionStep bc ip (.prim (.set op id)) ≠ .skip next := by
  intro h
  have hclass : fusionClass bc ip id op.piece = .skip next := by
    cases op with
    | any | notany | span | «break» => exact h
  unfold fusionClass at hclass
  split at hclass
  · cases hclass
  · split at hclass <;> cases hclass

theorem fusionStep_lit_skip {bc : Bytes} {ip off len next : Nat}
    (h : fusionStep bc ip (.prim (.lit off len)) = .skip next) : len = 0 ∧ next = ip + 9 := by
  simp only [fusionStep, fusionLit] at h
  split at h
  · cases h
  · split at h
    · cases h
    · split at h
      · rename_i hzero
        cases h
        exact ⟨hzero, rfl⟩
      · cases h

theorem fusionStep_lit_add {bc : Bytes} {ip off len next : Nat} {p : FusionPiece}
    (h : fusionStep bc ip (.prim (.lit off len)) = .add p next) :
    len ≠ 0 ∧ next = ip + (9 + len) % 2 ^ 32 ∧ p = .lit ((bc.drop off).take len) len := by
  simp only [fusionStep, fusionLit] at h
  split at h
  · cases h
  · split at h
    · cases h
    · split at h
      · cases h
      · rename_i hpos
        cases h
        exact ⟨hpos, rfl, rfl⟩

/-- What the walk does with an instruction that is no `OP_SPLIT` and has a segment. -/
theorem fusionWalk_prim {bc : Bytes} {fuel ip count next : Nat} {q : Prim} {plan : List FusionSegment}
    (hfetch : fetch bc ip = some (.prim q, next)) (hq : q ≠ .nop)
    (h : fusionWalk bc (fuel + 1) ip count = some plan) :
    (∃ next', fusionStep bc ip (.prim q) = .skip next' ∧ fusionWalk bc fuel next' count = some plan) ∨
      ∃ p next' rest, fusionStep bc ip (.prim q) = .add p next' ∧
        fusionWalk bc fuel next' (count + 1) = some rest ∧ plan = .piece p :: rest := by
  have hwalk : fusionWalk bc (fuel + 1) ip count =
      if maxFusionSegments ≤ count then none
      else
        match fusionStep bc ip (.prim q) with
        | .reject => none
        | .skip next => fusionWalk bc fuel next count
        | .add p next => (fusionWalk bc fuel next (count + 1)).map (.piece p :: ·) := by
    rw [fusionWalk, hfetch]
    cases q <;> first | rfl | exact absurd rfl hq
  rw [hwalk] at h
  split at h
  · cases h
  · cases hstep : fusionStep bc ip (.prim q) with
    | reject =>
      rw [hstep] at h
      cases h
    | skip next' =>
      rw [hstep] at h
      exact .inl ⟨next', rfl, h⟩
    | add p next' =>
      rw [hstep] at h
      obtain ⟨rest, hrest, rfl⟩ := Option.map_eq_some_iff.mp h
      exact .inr ⟨p, next', rest, rfl, hrest, rfl⟩

/-- The plan of a line is the list of its segments. -/
theorem FusionLine.plan {env : VmEnv W} {ip : Nat} (h : FusionLine env.bc ip) {fuel count : Nat}
    {plan : List FusionSegment} (hwalk : fusionWalk env.bc fuel ip count = some plan) :
    ∃ ops ps, StraightLine env.bc ip ops .accepted ∧ plan = ps.map .piece ∧ Mirrors env ps ops ∧
      ∀ p ∈ ps, p.Proper := by
  induction h generalizing fuel count plan with
  | @stop ip next instr hfetch hend =>
    refine ⟨[], [], .stop hfetch hend, ?_, .nil env, List.forall_mem_nil _⟩
    cases fuel with
    | zero => cases hwalk
    | succ fuel =>
      rw [fusionWalk, hfetch] at hwalk
      cases instr with
      | accept | succeed => exact (Option.some.inj hwalk).symm
      | prim | fail | jmp | split | repeatInit | repeatStep | goto | breakx | fence | abort | unknown =>
        cases hend
  | @skip ip instr hfetch hidle hline ih =>
    cases fuel with
    | zero => cases hwalk
    | succ fuel =>
      have hnext : fusionWalk env.bc fuel (ip + 1) count = some plan := by
        rw [fusionWalk, hfetch] at hwalk
        cases instr with
        | prim q =>
          cases q with
          | nop => exact hwalk
          | _ => cases hidle
        | fence => exact hwalk
        | accept | succeed | fail | jmp | split | repeatInit | repeatStep | goto | breakx | abort
        | unknown => cases hidle
      obtain ⟨ops, ps, hstraight, hplan, hmirrors, hproper⟩ := ih hnext
      exact ⟨ops, ps, .skip hfetch hidle hstraight, hplan, hmirrors, hproper⟩
  | @set ip op id hfetch hline ih =>
    cases fuel with
    | zero => cases hwalk
    | succ fuel =>
      obtain ⟨next, hskip, -⟩ | ⟨p, next, rest, hadd, hrest, rfl⟩ :=
        fusionWalk_prim hfetch (by rintro ⟨⟩) hwalk
      · exact absurd hskip (fusionStep_set_ne_skip op)
      · obtain ⟨rfl, c, bitmap, hranges, hbitmap, rfl⟩ := fusionStep_set hadd
        obtain ⟨ops, ps, hstraight, rfl, hmirrors, hproper⟩ := ih hrest
        have hpiece : (op.piece bitmap).Proper := by
          cases op with
          | any | notany | span | «break» => trivial
        exact ⟨.set op id :: ops, op.piece bitmap :: ps, .op hfetch hstraight, rfl,
          .cons (exec_set (ranges_of_getRangesPtr hranges) hbitmap op) hmirrors,
          List.forall_mem_cons.mpr ⟨hpiece, hproper⟩⟩
  | @lit ip len hfetch hlen hline ih =>
    cases fuel with
    | zero => cases hwalk
    | succ fuel =>
      obtain ⟨next, hskip, hrest⟩ | ⟨p, next, rest, hadd, hrest, rfl⟩ :=
        fusionWalk_prim hfetch (by rintro ⟨⟩) hwalk
      -- an empty literal adds no segment and takes no byte
      · obtain ⟨rfl, rfl⟩ := fusionStep_lit_skip hskip
        obtain ⟨ops, ps, hstraight, hplan, hmirrors, hproper⟩ := ih hrest
        exact ⟨.lit (ip + 9) 0 :: ops, ps, .op hfetch hstraight, hplan,
          .skip (target_lit_zero (ip + 9)) hmirrors, hproper⟩
      · obtain ⟨hpos, rfl, rfl⟩ := fusionStep_lit_add hadd
        rw [Nat.mod_eq_of_lt hlen, ← Nat.add_assoc] at hrest
        obtain ⟨ops, ps, hstraight, rfl, hmirrors, hproper⟩ := ih hrest
        exact ⟨.lit (ip + 9) len :: ops, _ :: ps, .op hfetch hstraight, rfl,
          .cons (exec_lit (ip + 9) hpos) hmirrors, List.forall_mem_cons.mpr ⟨hpos, hproper⟩⟩

theorem checkFusionEligible_walk {hasCapture : Bool} {bc : Bytes} {plan : List FusionSegment}
    (h : checkFusionEligible hasCapture bc = some plan) :
    fusionWalk bc (fusionFuel bc) 0 0 = some plan := by
  simp only [checkFusionEligible, Option.bind_eq_bind] at h
  split at h
  · cases h
  · obtain ⟨plan', hwalk, h⟩ := Option.bind_eq_some_iff.mp h
    split at h
    · cases h
    · cases h
      exact hwalk

/-! ## Compiled patterns -/

/-- The walk rejects an instruction that has no segment and is no `OP_SPLIT`. -/
theorem fusionWalk_reject {bc : Bytes} {fuel ip count next : Nat} {instr : Instr}
    (hfetch : fetch bc ip = some (instr, next)) (hidle : instr.idle = false)
    (hend : instr.lineEnd ≠ some .accepted) (hsplit : ∀ a b, instr ≠ .split a b)
    (hstep : fusionStep bc ip instr = .reject) : fusionWalk bc (fuel + 1) ip count = none := by
  rw [fusionWalk, hfetch]
  cases instr with
  | prim q =>
    cases q with
    | nop => cases hidle
    | _ => simp only [hstep, ite_self]
  | fence => cases hidle
  | accept | succeed => exact absurd rfl hend
  | split a b => exact absurd rfl (hsplit a b)
  | fail | jmp | repeatInit | repeatStep | goto | breakx | abort | unknown =>
    simp only [hstep, ite_self]

/-- The walk turns an `OP_SPLIT` into `FUSION_ALT`. -/
theorem fusionWalk_split {bc : Bytes} {fuel ip count next a b : Nat} {plan : List FusionSegment}
    (hfetch : fetch bc ip = some (.split a b, next))
    (h : fusionWalk bc (fuel + 1) ip count = some plan) : ∃ alts, .alt alts ∈ plan := by
  rw [fusionWalk, hfetch] at h
  simp only at h
  split at h
  · cases h
  · obtain ⟨alts, -, h⟩ := Option.bind_eq_some_iff.mp h
    obtain ⟨rest, -, h⟩ := Option.bind_eq_some_iff.mp h
    cases h
    exact ⟨alts, List.mem_cons_self⟩

/-- Where the walk over compiled code meets no alternative, the code is a line. -/
theorem ItemsAt.fusionLine {bc : Bytes} {κ : List BlkItem} {ip fuel count : Nat}
    {plan : List FusionSegment} (h : ItemsAt bc κ ip)
    (hwalk : fusionWalk bc fuel ip count = some plan) (hno : ∀ alts, .alt alts ∉ plan) :
    FusionLine bc ip := by
  induction fuel generalizing κ ip count plan with
  | zero => cases hwalk
  | succ fuel ih =>
    -- an instruction that the walk does not take
    have hreject : ∀ {instr : Instr} {next : Nat}, fetch bc ip = some (instr, next) →
        instr.idle = false → instr.lineEnd ≠ some .accepted → (∀ a b, instr ≠ .split a b) →
        fusionStep bc ip instr = .reject → FusionLine bc ip := by
      intro instr next hfetch hidle hend hsplit hstep
      rw [fusionWalk_reject hfetch hidle hend hsplit hstep] at hwalk
      cases hwalk
    obtain ⟨κ', -, hhead⟩ := h.head
    cases hhead with
    | accept hfetch => exact .stop hfetch rfl
    | jmp hfetch hκ => exact hreject hfetch rfl (by rintro ⟨⟩) (by rintro a b ⟨⟩) rfl
    | iter hcode hκ =>
      exact hreject hcode.loop.2.2 rfl (by rintro ⟨⟩) (by rintro a b ⟨⟩) rfl
    | loop hcode hκ => exact hreject hcode.loop.1 rfl (by rintro ⟨⟩) (by rintro a b ⟨⟩) rfl
    | alt hcode hκ =>
      obtain ⟨alts, halts⟩ := fusionWalk_split hcode.alt.1 hwalk
      exact absurd halts (hno alts)
    | @leaf l κ ip hcode hκ =>
      have hfetch := hcode.leaf
      cases l with
      | nop =>
        rw [fusionWalk, hfetch] at hwalk
        exact .skip hfetch rfl (ih hκ hwalk hno)
      | fence =>
        rw [fusionWalk, hfetch] at hwalk
        exact .skip hfetch rfl (ih hκ hwalk hno)
      | accept | succeed => exact .stop hfetch rfl
      | set op id =>
        obtain ⟨next, hskip, -⟩ | ⟨p, next, rest, hadd, hrest, rfl⟩ :=
          fusionWalk_prim hfetch (by rintro ⟨⟩) hwalk
        · exact absurd hskip (fusionStep_set_ne_skip op)
        · obtain ⟨rfl, -⟩ := fusionStep_set hadd
          exact .set hfetch (ih hκ hrest fun alts h => hno alts (List.mem_cons_of_mem _ h))
      | lit text =>
        have hshort : ip + (9 + text.length) < 2 ^ 32 := hcode.short
        have hfetch' : fetch bc ip =
            some (.prim (.lit (ip + 9) text.length), ip + 9 + text.length) := by
          rw [hfetch, Nat.add_assoc]
          rfl
        have hκ' : ItemsAt bc κ (ip + 9 + text.length) := by
          rw [Nat.add_assoc]
          exact hκ
        obtain ⟨next, hskip, hrest⟩ | ⟨p, next, rest, hadd, hrest, rfl⟩ :=
          fusionWalk_prim hfetch' (by rintro ⟨⟩) hwalk
        · obtain ⟨hzero, rfl⟩ := fusionStep_lit_skip hskip
          have hrest' : fusionWalk bc fuel (ip + 9 + text.length) count = some plan := by
            rw [hzero]
            exact hrest
          exact .lit hfetch' (by omega) (ih hκ' hrest' hno)
        · obtain ⟨-, rfl, -⟩ := fusionStep_lit_add hadd
          rw [Nat.mod_eq_of_lt (by omega), ← Nat.add_assoc] at hrest
          exact .lit hfetch' (by omega)
            (ih hκ' hrest fun alts h => hno alts (List.mem_cons_of_mem _ h))
      | _ => exact hreject hfetch rfl (by rintro ⟨⟩) (by rintro a b ⟨⟩) rfl

/-- A compiled pattern whose plan has no alternative. -/
theorem WellEncoded.fusionLine {cfg : CompilerConfig} {ast : AstNode} {st : CompilerState} {bc : Bytes}
    (h : WellEncoded cfg ast st) (hcompile : compileAstToBytecodeC cfg ast = some bc)
    {hasCapture : Bool} {plan : List FusionSegment}
    (hplan : checkFusionEligible hasCapture bc = some plan) (hno : ∀ alts, .alt alts ∉ plan) :
    FusionLine bc 0 := by
  obtain ⟨b, hcode, haccept, -⟩ := h.code hcompile
  have hitems : ItemsAt bc [.pat b] 0 := .pat hcode (.accept (by rw [Nat.zero_add]; exact haccept))
  exact hitems.fusionLine (checkFusionEligible_walk hplan) hno

/-! ## The end of the subject -/

theorem execFusion_pieces (s : Bytes) (ps : List FusionPiece) (cur : Nat) :
    execFusion s (ps.map .piece) cur = execPieces s ps cur := by
  induction ps generalizing cur with
  | nil => rfl
  | cons p ps ih =>
    rw [List.map_cons, execFusion, execPieces, FusionSegment.exec]
    cases p.exec s cur with
    | none => rfl
    | some cur' => exact ih cur'

/-- Only a segment of `OP_BREAK` matches at the end. -/
theorem exec_end {s : Bytes} {p : FusionPiece} (hproper : p.Proper) (h : p.isBreak = false) :
    p.exec s s.length = none := by
  cases p with
  | lit text len =>
    have hlen : len ≠ 0 := hproper
    rw [FusionPiece.exec, if_pos (by omega)]
  | run bitmap min =>
    have hmin : min ≠ 0 := of_decide_eq_false h
    rw [FusionPiece.exec, spanBytes_end bitmap (le_refl _), if_pos (by omega)]
  | char bitmap =>
    rw [FusionPiece.exec, List.getElem?_eq_none (le_refl _)]
    rfl

/-- A segment of `OP_BREAK` matches everywhere, at the end nothing. -/
theorem exec_break {s : Bytes} {p : FusionPiece} (h : p.isBreak = true) {cur : Nat}
    (hle : cur ≤ s.length) :
    ∃ cur', p.exec s cur = some cur' ∧ cur' ≤ s.length ∧ (cur = s.length → cur' = s.length) := by
  cases p with
  | lit | char => cases h
  | run bitmap min =>
    obtain rfl : min = 0 := of_decide_eq_true h
    refine ⟨spanBytes s bitmap cur, ?_, (spanBytes_bounds s bitmap hle).2, ?_⟩
    · rw [FusionPiece.exec, if_neg (Nat.not_lt_zero _)]
    · rintro rfl
      exact spanBytes_end bitmap (le_refl _)

/-- A plan with another segment than those of `OP_BREAK` fails at the end. -/
theorem execPieces_end {s : Bytes} {ps : List FusionPiece} (hproper : ∀ p ∈ ps, p.Proper)
    (h : ∃ p ∈ ps, p.isBreak = false) : execPieces s ps s.length = none := by
  induction ps with
  | nil =>
    obtain ⟨p, hp, -⟩ := h
    cases hp
  | cons p ps ih =>
    rw [List.forall_mem_cons] at hproper
    rw [execPieces]
    cases hbreak : p.isBreak with
    | false =>
      rw [exec_end hproper.1 hbreak]
      rfl
    | true =>
      obtain ⟨cur', hexec, -, hend⟩ := exec_break hbreak (le_refl s.length)
      rw [hexec, Option.bind_some, hend rfl]
      refine ih hproper.2 ?_
      obtain ⟨q, hq, hother⟩ := h
      rcases List.mem_cons.mp hq with rfl | hq
      · rw [hbreak] at hother
        cases hother
      · exact ⟨q, hq, hother⟩

/-- A plan of `OP_BREAK`s matches everywhere. -/
theorem execPieces_breaks {s : Bytes} {ps : List FusionPiece} (h : ∀ p ∈ ps, p.isBreak = true)
    {cur : Nat} (hle : cur ≤ s.length) : ∃ stop, execPieces s ps cur = some stop := by
  induction ps generalizing cur with
  | nil => exact ⟨cur, rfl⟩
  | cons p ps ih =>
    rw [List.forall_mem_cons] at h
    obtain ⟨cur', hexec, hle', -⟩ := exec_break h.1 hle
    rw [execPieces, hexec, Option.bind_some]
    exact ih h.2 hle'

/-! ## The search -/

/-- Where the code has no alternative, the tier reports what the reference search reports
unless the search starts at the end of the subject and every instruction is an `OP_BREAK`. -/
theorem tierFusion_reports_iff (env : VmEnv W) (hasCapture : Bool) (plan : List FusionSegment)
    (anchored : Bool) (start : Nat) (vm₀ : Vm W) (hstart : start ≤ env.s.length)
    (hplan : checkFusionEligible hasCapture env.bc = some plan) (hline : FusionLine env.bc 0) :
    SearchReports env .empty anchored start vm₀ (tierFusion plan env.s start anchored) ↔
      anchored = true ∨ start < env.s.length ∨ ∃ seg ∈ plan, seg.isBreak = false := by
  obtain ⟨ops, ps, hstraight, rfl, hmirrors, hproper⟩ := hline.plan (checkFusionEligible_walk hplan)
  have hattempt : ∀ o, lineAttempt env ops .accepted o =
      .ofStop (execFusion env.s (ps.map .piece) o) := by
    intro o
    have hmirror := hmirrors o 0
    rw [Nat.add_zero] at hmirror
    rw [execFusion_pieces, hmirror, lineAttempt]
    cases lineTarget (env.window o) ops 0 with
    | none => rfl
    | some pos => rfl
  have hsome : (∃ seg ∈ ps.map FusionSegment.piece, seg.isBreak = false) ↔
      ∃ p ∈ ps, p.isBreak = false := by
    simp [FusionSegment.isBreak]
  rw [hstraight.vmAttempts.reports_iff hstart vm₀, hsome, tierFusion, searchFrom,
    ← firstFound_congr fun o _ _ => hattempt o]
  cases anchored with
  | true => simp
  | false =>
    rw [if_neg Bool.false_ne_true, if_neg Bool.false_ne_true,
      show env.s.length + 1 - start = env.s.length - start + 1 by omega]
    by_cases hother : ∃ p ∈ ps, p.isBreak = false
    · have hend : lineAttempt env ops .accepted (start + (env.s.length - start)) = .failed := by
        rw [hattempt, execFusion_pieces, Nat.add_sub_cancel' hstart, execPieces_end hproper hother]
        rfl
      rw [firstFound_succ hend]
      simp [hother]
    · have hbreaks : ∀ p ∈ ps, p.isBreak = true := by
        intro p hp
        by_contra hfalse
        exact hother ⟨p, hp, Bool.eq_false_iff.mpr hfalse⟩
      obtain ⟨stop, hstop⟩ := execPieces_breaks hbreaks hstart
      have hfound : lineAttempt env ops .accepted start = .found stop := by
        rw [hattempt, execFusion_pieces, hstop]
        rfl
      by_cases hlt : start < env.s.length
      · rw [show env.s.length - start = env.s.length - start - 1 + 1 by omega, firstFound, firstFound,
          hfound]
        simp [hlt]
      · rw [show env.s.length - start = 0 by omega, firstFound, firstFound, hfound]
        simp [hlt, hother]

/-- The code of `'a' SPAN('b')`. -/
def letterThenRun : Bytes :=
  [4, 0, 0, 0, 9, 0, 0, 0, 1, 97, 7, 0, 1, 0, 0, 1, 0, 0, 0, 0, 0, 98, 0, 0, 0, 98, 0, 0, 0, 14, 0, 0,
    0, 1, 0, 0, 0, 0, 83, 78, 66, 76]

/-- `'a' SPAN('b')` on "xabb". -/
theorem tierFusion_reports_iff_letterThenRun :
    ∃ plan, checkFusionEligible false letterThenRun = some plan ∧
      SearchReports (VmEnv.ofCode letterThenRun [0x78, 0x61, 0x62, 0x62] .bare) .empty false 0
        (.zero ⟨[], ()⟩) (tierFusion plan [0x78, 0x61, 0x62, 0x62] 0 false) := by
  have heligible : (checkFusionEligible false letterThenRun).isSome = true := by decide +kernel
  obtain ⟨plan, hplan⟩ := Option.isSome_iff_exists.mp heligible
  have haccept : fetch letterThenRun 13 = some (.accept, 14) := by decide +kernel
  have hend : FusionLine letterThenRun 13 := .stop haccept rfl
  have hspan : fetch letterThenRun 10 = some (.prim (.set .span 1), 13) := by decide +kernel
  have hlit : fetch letterThenRun 0 = some (.prim (.lit 9 1), 10) := by decide +kernel
  have hline : FusionLine letterThenRun 0 := .lit hlit (by decide) (.set hspan hend)
  exact ⟨plan, hplan, (tierFusion_reports_iff
    (VmEnv.ofCode letterThenRun [0x78, 0x61, 0x62, 0x62] .bare) false plan false 0 _ (by decide) hplan
    hline).mpr (.inr (.inl (by decide)))⟩

/-- The code of `BREAK('a') BREAK('b')`. -/
def twoBreaks : Bytes :=
  [8, 0, 1, 8, 0, 2, 0, 0, 1, 0, 0, 0, 0, 0, 98, 0, 0, 0, 98, 0, 1, 0, 0, 0, 0, 0, 97, 0, 0, 0, 97, 0,
    0, 0, 19, 0, 0, 0, 7, 0, 0, 0, 2, 0, 0, 0, 0, 83, 78, 66, 76]

/-- The code of `'a' SUCCEED | 'b'`. -/
def succeedOr : Bytes :=
  [3, 0, 0, 0, 9, 0, 0, 0, 25, 4, 0, 0, 0, 18, 0, 0, 0, 1, 97, 40, 2, 0, 0, 0, 35, 4, 0, 0, 0, 34, 0,
    0, 0, 1, 98, 0, 0, 0, 0, 0, 0, 0, 0, 0, 83, 78, 66, 76]

/-- `BREAK('a') BREAK('b')` matches the empty subject, where the scan tries no offset.
`'a' SUCCEED | 'b'` matches "b", where the plan goes through the left arm a second time. -/
theorem tierFusion_differs :
    (compileAstToBytecodeC .caseSensitive (.concat [.break [0x61], .break [0x62]]) = some twoBreaks ∧
      SearchReports (VmEnv.ofCode twoBreaks [] .bare) .empty false 0 (.zero ⟨[], ()⟩) (some (0, 0)) ∧
      (checkFusionEligible false twoBreaks).map (tierFusion · [] 0 false) = some none) ∧
    (compileAstToBytecodeC .caseSensitive
        (.alt (.concat [.literal [0x61], .succeed]) (.literal [0x62])) = some succeedOr ∧
      SearchReports (VmEnv.ofCode succeedOr [0x62] .bare) .empty false 0 (.zero ⟨[], ()⟩)
        (some (0, 1)) ∧
      (checkFusionEligible false succeedOr).map (tierFusion · [0x62] 0 false) = some none) := by
  constructor
  · refine ⟨by decide +kernel, ?_, by decide +kernel⟩
    have haccept : fetch twoBreaks 6 = some (.accept, 7) := by decide +kernel
    have hend : StraightLine twoBreaks 6 [] .accepted := .stop haccept rfl
    have hsecond : StraightLine twoBreaks 3 [.set .break 2] .accepted := .op (by decide +kernel) hend
    have hline : StraightLine twoBreaks 0 [.set .break 1, .set .break 2] .accepted :=
      .op (by decide +kernel) hsecond
    have hattempts : VmAttempts (VmEnv.ofCode twoBreaks [] .bare)
        (lineAttempt _ [.set .break 1, .set .break 2] .accepted) := StraightLine.vmAttempts hline
    exact (hattempts.reports_iff (by decide) _).mpr (by decide +kernel)
  · refine ⟨by decide +kernel, ?_, by decide +kernel⟩
    have hrun : (vmSteps ((VmEnv.ofCode succeedOr [0x62] .bare).window 0) 4
        (vmRunStart (vmExecStart (searchResetVm (.zero ⟨[], ()⟩))))).isAccepted = true := by
      decide +kernel
    have hpos : 1 = 0 + (vmSteps ((VmEnv.ofCode succeedOr [0x62] .bare).window 0) 4
        (vmRunStart (vmExecStart (searchResetVm (.zero ⟨[], ()⟩))))).vm.pos := by
      decide +kernel
    exact ⟨_, _, ⟨.start, SearchMeta.tries_empty.mpr (Nat.zero_le _), 4, StepResult.eq_halted hrun⟩,
      hpos⟩

end Snobol4
