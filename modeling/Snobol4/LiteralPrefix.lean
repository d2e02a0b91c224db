import Mathlib.Data.List.TakeWhile
import Snobol4.Compiler
import Snobol4.RequiredLit
import Snobol4.StraightLine
import Snobol4.Support.Horspool

/-!
# LiteralPrefix — the literal at the front of the code (`search_meta.c`, `search_tiers.c`)

The metadata records the bytes that a match is taken to start with: those of a literal
behind leading position instructions, or those that all alternatives share.  The prefix scan
goes on to the next place where they stand, and the Horspool table built from them lets the
restart loops step over offsets.  `first_byte` is recorded with them and no tier reads it.
-/

namespace Snobol4

open Horspool

variable {W : Type}

/-! ## The root instruction -/

/-- The instruction that the walk to the root steps over, with the next address. -/
def frontStep (bc : Bytes) (ip : Nat) : Option (Option LineOp × Nat) :=
  let count (op : CountOp) : Option (Option LineOp × Nat) :=
    if bc.length < ip + 5 then none else some (some (.count op (readU32 bc (ip + 1)).1), ip + 5)
  match bc[ip]?.bind OpCode.ofByte with
  | some .anchor =>
      if bc.length < ip + 2 then none else some (some (.anchor (readU8 bc (ip + 1)).1), ip + 2)
  | some .pos => count .pos
  | some .rpos => count .rpos
  | some .tab => count .tab
  | some .rtab => count .rtab
  | some .nop => some (none, ip + 1)
  | some .fence => some (none, ip + 1)
  | _ => none

/-- The walk over the leading instructions: what it steps over and where it stops. -/
def frontWalk (bc : Bytes) : Nat → Nat → List LineOp × Nat
  | 0, ip => ([], ip)
  | fuel + 1, ip =>
      match frontStep bc ip with
      | none => ([], ip)
      | some (op, next) =>
          let rest := frontWalk bc fuel next
          (op.toList ++ rest.1, rest.2)

/-- The instructions in front of the root and the address of the root; a walk past the end
of the code is taken back. -/
def frontRoot (bc : Bytes) : List LineOp × Nat :=
  let walk := frontWalk bc bc.length 0
  if bc.length ≤ walk.2 then ([], 0) else walk

/-- The operands of the `OP_LIT` at an address, as a byte string. -/
def litText (bc : Bytes) (ip : Nat) : Bytes :=
  (bc.drop (readU32 bc (ip + 1)).1).take (readU32 bc (ip + 5)).1

/-- The literal of an `OP_LIT` at the root. -/
def rootLiteral (bc : Bytes) : Option Bytes :=
  let ip := (frontRoot bc).2
  let off := (readU32 bc (ip + 1)).1
  let len := (readU32 bc (ip + 5)).1
  if bc[ip]? = some OpCode.lit.code ∧ ip + 9 ≤ bc.length ∧ off < bc.length ∧
      (off + len) % 2 ^ 32 ≤ bc.length ∧ 0 < len then some (litText bc ip)
  else none

/-! ## The alternatives -/

/-- The literals that the loop of `alt_literals_shared_prefix` comes to, within the given
number of turns. -/
def altLiterals (bc : Bytes) : Nat → List Nat → Option (List Bytes)
  | 0, _ => none
  | _ + 1, [] => some []
  | turns + 1, p :: stack =>
      if bc.length < p + 2 then none
      else
        match bc[p]?.bind OpCode.ofByte with
        | some .lit =>
            let off := (readU32 bc (p + 1)).1
            let len := (readU32 bc (p + 5)).1
            if bc.length < p + 10 ∨ bc.length ≤ off ∨ bc.length < (off + len) % 2 ^ 32 ∨
                len = 0 then none
            else (altLiterals bc turns stack).map (litText bc p :: ·)
        | some .split =>
            let a := (readU32 bc (p + 1)).1
            let b := (readU32 bc (p + 5)).1
            if bc.length < p + 9 ∨ bc.length ≤ a ∨ bc.length ≤ b ∨ 64 < stack.length + 2 then none
            else altLiterals bc turns (a :: b :: stack)
        | _ => none

/-- The number of literals that are collected; those behind it are dropped. -/
def collectedLits : Nat := 64

/-- The longest common prefix of at least two literals, up to the bound. -/
def sharedPrefix : List Bytes → Bytes
  | lit :: lit' :: lits =>
      let same (i : Nat) : Bool := (lit' :: lits).all fun l => l[i]? == lit[i]?
      lit.take ((List.range (min lit.length maxPrefixLen)).takeWhile same).length
  | _ => []

/-- The part of the code that the walk over alternatives looks at. -/
def altCode (bc : Bytes) : Bytes := bc.take 2048

/-- `alt_literals_shared_prefix`, where the root is an `OP_SPLIT`. -/
def altPrefix (turns : Nat) (bc : Bytes) : Bytes :=
  if bc[(frontRoot bc).2]? = some OpCode.split.code ∧ 10 ≤ bc.length then
    (altLiterals (altCode bc) turns [0]).elim [] fun lits => sharedPrefix (lits.take collectedLits)
  else []

/-! ## The metadata -/

/-- The fields of `snobol_search_meta_t` about the literal at the front. -/
structure LiteralMeta where
  /-- `literal_prefix[0 .. literal_prefix_len)` -/
  literalPrefix : Bytes
  hasLiteralPrefix : Bool
  /-- `has_bmh_skip`; `bmh_skip_len` is the length of the prefix. -/
  hasBmhSkip : Bool

/-- `snobol_search_derive_meta`, where `is_alt_literals` and `has_capture` are as given. -/
def literalMeta (isAltLiterals hasCapture : Bool) (turns : Nat) (bc : Bytes) : LiteralMeta :=
  match rootLiteral bc with
  | some lit =>
      let literalPrefix := lit.take maxPrefixLen
      ⟨literalPrefix, !hasCapture, decide (2 ≤ literalPrefix.length)⟩
  | none =>
      let literalPrefix := if isAltLiterals then altPrefix turns bc else []
      ⟨literalPrefix, false, decide (1 ≤ literalPrefix.length)⟩

/-- `bmh_skip_len` and `bmh_skip`. -/
def LiteralMeta.bmhSkip (info : LiteralMeta) : Option (Nat × (UInt8 → Nat)) :=
  if info.hasBmhSkip then some (info.literalPrefix.length, shift info.literalPrefix) else none

/-! ## The scans -/

def memchr (s : Bytes) (b : UInt8) (offset : Nat) : Option Nat :=
  firstFrom (fun i => s[i]? == some b) (s.length - offset) offset

def memmem (s w : Bytes) (offset : Nat) : Option Nat :=
  firstFrom (fun i => w.isPrefixOf (s.drop i)) (s.length - offset) offset

/-- The loop over `memchr` for two bytes; the last byte of the subject is a candidate when
it is the first of the two. -/
def pairedMemchr (s : Bytes) (b b' : UInt8) : Nat → Nat → Option Nat
  | 0, _ => none
  | fuel + 1, offset =>
      match memchr s b offset with
      | none => none
      | some p =>
          if p + 1 < s.length ∧ s[p + 1]? = some b' then some p
          else if s.length ≤ p + 1 then some p
          else pairedMemchr s b b' fuel (p + 1)

/-- The candidate that `search_literal_accelerated` goes on to. -/
def prefixCandidate (s literalPrefix : Bytes) (offset : Nat) : Option Nat :=
  match literalPrefix with
  | [] => some offset
  | [b] => memchr s b offset
  | [b, b'] => pairedMemchr s b b' (s.length - offset) offset
  | w => memmem s w offset

/-- The offset is skipped on account of the metadata: the prefix scan goes past it, or a
restart loop advances over it. -/
inductive SkippedOffset (s : Bytes) (info : LiteralMeta) (o : Nat) : Prop where
  | scan {offset : Nat} (hhas : info.hasLiteralPrefix = true) (hle : offset ≤ o)
      (hlen : o ≤ s.length)
      (hpast : ∀ cand ∈ prefixCandidate s info.literalPrefix offset, o < cand) :
      SkippedOffset s info o
  | advance {loop : SearchMeta} {offset : Nat} (hbmh : loop.bmhSkip = info.bmhSkip)
      (hlt : offset < o) (hnext : o < loop.advance s offset) : SkippedOffset s info o

/-! ## The prefix does not stand at a skipped offset -/

section

variable {s w : Bytes} {b b' : UInt8} {offset o : Nat}

theorem memchr_skips (hle : offset ≤ o) (h : ∀ cand ∈ memchr s b offset, o < cand)
    (hat : Stands (b :: w) s o) : False := by
  have hbyte : s[o]? = some b := hat.getElem? (k := 0) (Nat.succ_pos _)
  have hlt := hat.lt_length (List.cons_ne_nil b w)
  have hskip := firstFrom_skips hle (by omega) h
  simp only [hbyte, beq_self_eq_true, Bool.true_eq_false] at hskip

theorem memmem_skips (hw : w ≠ []) (hle : offset ≤ o) (h : ∀ cand ∈ memmem s w offset, o < cand)
    (hat : Stands w s o) : False := by
  have hlt := hat.lt_length hw
  have hskip := firstFrom_skips hle (by omega) h
  rw [Bool.eq_false_iff] at hskip
  exact hskip (List.isPrefixOf_iff_prefix.mpr hat)

theorem pairedMemchr_skips {fuel : Nat} (hfuel : s.length ≤ fuel + offset) (hle : offset ≤ o)
    (h : ∀ cand ∈ pairedMemchr s b b' fuel offset, o < cand) (hat : Stands [b, b'] s o) :
    False := by
  have hlt := hat.lt_length (List.cons_ne_nil b [b'])
  induction fuel generalizing offset with
  | zero => omega
  | succ fuel ih =>
    rw [pairedMemchr] at h
    cases hfirst : memchr s b offset with
    | none =>
      refine memchr_skips hle ?_ hat
      intro cand hcand
      rw [hfirst] at hcand
      cases hcand
    | some p =>
      obtain ⟨hp, -⟩ := le_of_mem_firstFrom hfirst
      rw [hfirst] at h
      by_cases hop : o < p
      · refine memchr_skips hle ?_ hat
        intro cand hcand
        rw [hfirst] at hcand
        cases hcand
        exact hop
      -- the scan stops at `p` only where both bytes stand or at the end of the subject
      · by_cases hboth : p + 1 < s.length ∧ s[p + 1]? = some b'
        · simp only [if_pos hboth] at h
          exact hop (h p rfl)
        · by_cases hend : s.length ≤ p + 1
          · simp only [if_neg hboth, if_pos hend] at h
            exact hop (h p rfl)
          · simp only [if_neg hboth, if_neg hend] at h
            have hne : o ≠ p := by
              rintro rfl
              have hsecond : s[o + 1]? = some b' := hat.getElem? (k := 1) (Nat.lt_succ_self 1)
              exact hboth ⟨by omega, hsecond⟩
            exact ih (by omega) (by omega) h

theorem memchr_bounds {s : Bytes} {b : UInt8} {offset cand : Nat}
    (h : memchr s b offset = some cand) : offset ≤ cand ∧ cand ≤ s.length := by
  obtain ⟨hle, htest⟩ := le_of_mem_firstFrom h
  refine ⟨hle, Nat.le_of_lt ?_⟩
  by_contra hlong
  rw [List.getElem?_eq_none (Nat.le_of_not_lt hlong)] at htest
  cases htest

theorem prefixCandidate_bounds {s w : Bytes} {offset cand : Nat} (hle : offset ≤ s.length)
    (h : prefixCandidate s w offset = some cand) : offset ≤ cand ∧ cand ≤ s.length := by
  match w with
  | [] =>
    cases h
    exact ⟨Nat.le_refl _, hle⟩
  | [b] => exact memchr_bounds h
  | [b, b'] =>
    have hpair : ∀ fuel offset, pairedMemchr s b b' fuel offset = some cand →
        offset ≤ cand ∧ cand ≤ s.length := by
      intro fuel
      induction fuel with
      | zero => exact fun offset h => by cases h
      | succ fuel ih =>
        intro offset h
        rw [pairedMemchr] at h
        cases hfirst : memchr s b offset with
        | none =>
          rw [hfirst] at h
          cases h
        | some p =>
          obtain ⟨hp, hlen⟩ := memchr_bounds hfirst
          rw [hfirst] at h
          dsimp only at h
          split at h
          · cases h
            exact ⟨hp, hlen⟩
          split at h
          · cases h
            exact ⟨hp, hlen⟩
          · obtain ⟨hnext, hbound⟩ := ih (p + 1) h
            exact ⟨by omega, hbound⟩
    exact hpair _ _ h
  | b :: b' :: b'' :: w =>
    obtain ⟨hge, htest⟩ := le_of_mem_firstFrom h
    refine ⟨hge, ?_⟩
    by_contra hlong
    rw [List.drop_eq_nil_of_le (by omega)] at htest
    cases htest

theorem prefixCandidate_skips (hw : w ≠ []) (hle : offset ≤ o)
    (h : ∀ cand ∈ prefixCandidate s w offset, o < cand) : ¬Stands w s o := by
  intro hat
  match w with
  | [] => exact hw rfl
  | [b] => exact memchr_skips hle h hat
  | [b, b'] => exact pairedMemchr_skips (by omega) hle h hat
  | b :: b' :: b'' :: w => exact memmem_skips hw hle h hat

theorem advance_skips {info : LiteralMeta} {loop : SearchMeta} (hbmh : loop.bmhSkip = info.bmhSkip)
    (hlt : offset < o) (hnext : o < loop.advance s offset) : ¬Stands info.literalPrefix s o := by
  unfold SearchMeta.advance at hnext
  rw [hbmh, LiteralMeta.bmhSkip] at hnext
  by_cases hhas : info.hasBmhSkip = true
  · rw [if_pos hhas] at hnext
    simp only at hnext
    split at hnext
    · cases hlast : s[offset + info.literalPrefix.length - 1]? with
      | none =>
        rw [hlast, Option.elim_none] at hnext
        omega
      | some a =>
        rw [hlast, Option.elim_some] at hnext
        exact not_stands_of_lt_shift hlast hlt (by omega)
    · omega
  · rw [if_neg hhas] at hnext
    simp only at hnext
    omega

end

/-- The recorded bytes do not stand at an offset that is skipped on their account. -/
theorem SkippedOffset.not_stands {s : Bytes} {info : LiteralMeta} {o : Nat}
    (h : SkippedOffset s info o) (hne : info.literalPrefix ≠ []) :
    ¬Stands info.literalPrefix s o := by
  cases h with
  | scan hhas hle hlen hpast => exact prefixCandidate_skips hne hle hpast
  | advance hbmh hlt hnext => exact advance_skips hbmh hlt hnext

/-! ## What the walks read -/

theorem fetch_of_op {bc : Bytes} {ip : Nat} {o : OpCode} (h : bc[ip]?.bind OpCode.ofByte = some o) :
    ∃ b, OpCode.ofByte b = some o ∧ fetch bc ip = some (operands bc b (ip + 1)) := by
  cases hget : bc[ip]? with
  | none =>
    rw [hget] at h
    cases h
  | some b =>
    rw [hget, Option.bind_some] at h
    refine ⟨b, h, ?_⟩
    rw [fetch, hget, Option.map_some]

/-- A literal whose operands are in the code. -/
theorem fetch_lit {bc : Bytes} {ip : Nat} (h : bc[ip]?.bind OpCode.ofByte = some .lit)
    (hlen : ip + 9 ≤ bc.length) :
    ∃ next, fetch bc ip =
      some (.prim (.lit (readU32 bc (ip + 1)).1 (readU32 bc (ip + 5)).1), next) := by
  have hnext : (readU32 bc (ip + 1)).2 = ip + 1 + 4 := readU32_next (by omega)
  obtain ⟨b, hop, hfetch⟩ := fetch_of_op h
  simp only [operands, hop, hnext] at hfetch
  exact ⟨_, hfetch⟩

/-- A branch whose operands are in the code. -/
theorem fetch_split {bc : Bytes} {ip : Nat} (h : bc[ip]?.bind OpCode.ofByte = some .split)
    (hlen : ip + 9 ≤ bc.length) :
    ∃ next, fetch bc ip = some (.split (readU32 bc (ip + 1)).1 (readU32 bc (ip + 5)).1, next) := by
  have hnext : (readU32 bc (ip + 1)).2 = ip + 1 + 4 := readU32_next (by omega)
  obtain ⟨b, hop, hfetch⟩ := fetch_of_op h
  simp only [operands, hop, hnext] at hfetch
  exact ⟨_, hfetch⟩

/-- An instruction with a count that the walk steps over. -/
theorem lineTo_count {bc : Bytes} {ip next stop : Nat} {op : Option LineOp} {ops : List LineOp}
    {count : CountOp}
    (hfetch : fetch bc ip =
      some (.prim (.count count (readU32 bc (ip + 1)).1), (readU32 bc (ip + 1)).2))
    (hstep : (if bc.length < ip + 5 then none
      else some (some (.count count (readU32 bc (ip + 1)).1), ip + 5)) = some (op, next))
    (h : LineTo bc next ops stop) : LineTo bc ip (op.toList ++ ops) stop := by
  by_cases hlen : bc.length < ip + 5
  · rw [if_pos hlen] at hstep
    cases hstep
  · rw [if_neg hlen] at hstep
    cases hstep
    have hnext : (readU32 bc (ip + 1)).2 = ip + 1 + 4 := readU32_next (by omega)
    have hfetch' : fetch bc ip =
        some (.prim (LineOp.count count (readU32 bc (ip + 1)).1).prim, ip + 5) := by
      rw [hfetch, hnext]
      rfl
    exact .op hfetch' h

theorem frontStep_lineTo {bc : Bytes} {ip next stop : Nat} {op : Option LineOp} {ops : List LineOp}
    (hstep : frontStep bc ip = some (op, next)) (h : LineTo bc next ops stop) :
    LineTo bc ip (op.toList ++ ops) stop := by
  rw [frontStep] at hstep
  cases hop : bc[ip]?.bind OpCode.ofByte with
  | none =>
    rw [hop] at hstep
    cases hstep
  | some o =>
    obtain ⟨b, hb, hfetch⟩ := fetch_of_op hop
    rw [hop] at hstep
    cases o with
    | anchor =>
      by_cases hlen : bc.length < ip + 2
      · rw [if_pos hlen] at hstep
        cases hstep
      · rw [if_neg hlen] at hstep
        cases hstep
        have hnext : (readU8 bc (ip + 1)).2 = ip + 1 + 1 := readU8_next (by omega)
        simp only [operands, hb, hnext] at hfetch
        have hfetch' : fetch bc ip =
            some (.prim (LineOp.anchor (readU8 bc (ip + 1)).1).prim, ip + 2) := hfetch
        exact .op hfetch' h
    | pos | rpos | tab | rtab =>
      simp only [operands, hb] at hfetch
      exact lineTo_count hfetch hstep h
    | nop | fence =>
      cases hstep
      simp only [operands, hb] at hfetch
      exact .skip hfetch rfl h
    | _ => cases hstep

theorem frontWalk_lineTo (bc : Bytes) (fuel ip : Nat) :
    LineTo bc ip (frontWalk bc fuel ip).1 (frontWalk bc fuel ip).2 := by
  induction fuel generalizing ip with
  | zero => exact .refl ip
  | succ fuel ih =>
    rw [frontWalk]
    cases hstep : frontStep bc ip with
    | none => exact .refl ip
    | some found =>
      obtain ⟨op, next⟩ := found
      exact frontStep_lineTo hstep (ih next)

/-- The code in front of the root is a line. -/
theorem frontRoot_lineTo (bc : Bytes) : LineTo bc 0 (frontRoot bc).1 (frontRoot bc).2 := by
  unfold frontRoot
  simp only
  split
  · exact .refl 0
  · exact frontWalk_lineTo bc bc.length 0

/-- The first places of a range at which a test holds. -/
theorem range_takeWhile {m i : Nat} {p : Nat → Bool}
    (h : i < ((List.range m).takeWhile p).length) : i < m ∧ p i = true := by
  have hpre := List.takeWhile_prefix p (l := List.range m)
  have hlt : i < m := by
    have hle := hpre.length_le
    rw [List.length_range] at hle
    omega
  have hget : ((List.range m).takeWhile p)[i] = i := by
    rw [hpre.getElem h, List.getElem_range]
  refine ⟨hlt, ?_⟩
  have hmem := List.mem_takeWhile_imp (List.getElem_mem h)
  rw [hget] at hmem
  exact hmem

/-- The shared prefix is a prefix of each literal. -/
theorem sharedPrefix_prefix {lits : List Bytes} {lit : Bytes} (h : lit ∈ lits) :
    sharedPrefix lits <+: lit := by
  match lits, h with
  | [lit'], h => exact List.nil_prefix
  | lit₀ :: lit₁ :: rest, h =>
    rw [sharedPrefix, List.prefix_iff_getElem?]
    intro i hi
    rw [List.length_take] at hi
    obtain ⟨hlt, hsame⟩ := range_takeWhile (Nat.lt_of_lt_of_le hi (Nat.min_le_left _ _))
    rw [List.getElem_take, ← List.getElem?_eq_getElem]
    obtain rfl | hmem := List.mem_cons.mp h
    · rfl
    · rw [List.all_eq_true] at hsame
      exact eq_of_beq (hsame lit hmem)

/-! ## Runs at a skipped offset -/

/-- A literal does not match where a prefix of it does not stand. -/
theorem matchLit_eq_none {s text w : Bytes} (len pos : Nat) (hpre : w <+: text)
    (hat : ¬Stands w s pos) : matchLit s text len pos = none := by
  refine if_neg ?_
  rintro ⟨-, rfl⟩
  exact hat (hpre.trans (List.take_prefix _ _))

/-- The part of the code that is looked at reads as the code. -/
theorem readU32_take {bc : Bytes} {n ip : Nat} (h : ip + 4 ≤ (bc.take n).length) :
    readU32 (bc.take n) ip = readU32 bc ip := by
  rw [List.length_take] at h
  have hlen := List.length_drop (l := bc) (i := ip)
  obtain ⟨k, hk⟩ : ∃ k, n - ip = k + 4 := ⟨n - ip - 4, by omega⟩
  unfold readU32
  rw [List.drop_take, hk]
  match hdrop : bc.drop ip with
  | [] | [_] | [_, _] | [_, _, _] =>
    simp only [hdrop, List.length_nil, List.length_cons] at hlen
    omega
  | a :: b :: c :: d :: rest => rfl

theorem litText_take {bc : Bytes} {n ip : Nat} (h : ip + 9 ≤ (bc.take n).length) :
    litText (bc.take n) ip <+: litText bc ip := by
  rw [litText, litText, readU32_take (by omega), readU32_take (by omega), List.drop_take]
  exact List.IsPrefix.take (List.take_prefix _ _) _

theorem bind_take {bc : Bytes} {n ip : Nat} {o : OpCode}
    (h : (bc.take n)[ip]?.bind OpCode.ofByte = some o) : bc[ip]?.bind OpCode.ofByte = some o := by
  rw [List.getElem?_take] at h
  split at h
  · exact h
  · cases h

/-- No alternative has matched: the cursor and every choice point stand at the start of the
window, at the addresses that the walk still has to visit. -/
structure OnTree (ip : Nat) (stack : List Nat) (vm : Vm W) : Prop where
  ip : vm.ip = ip
  pos : vm.pos = 0
  choices : vm.choices.map (fun c => (c.ip, c.pos)) = stack.map fun a => (a, 0)
  abortFlag : vm.abortFlag = false

section

variable {env : VmEnv W} {vm : Vm W} {ip : Nat} {stack : List Nat}

/-- An alternative that does not match: the run goes on as the walk does, or fails. -/
theorem OnTree.backtrack (h : OnTree ip stack vm) {vm' : Vm W}
    (hstep : vmStep env vm = vm'.backtrack) (hchoices : vm'.choices = vm.choices) (hflag : vm'.abortFlag = false)
    (hrest : ∀ p rest vm'', stack = p :: rest → OnTree p rest vm'' → Ends env vm'' .failed) :
    Ends env vm .failed := by
  cases hsaved : vm.choices with
  | nil =>
    refine ⟨1, vm', ?_, hflag⟩
    rw [vmSteps, hstep, Vm.backtrack, hchoices, hsaved]
  | cons c saved =>
    have hmap := h.choices
    rw [hsaved] at hmap
    cases stack with
    | nil => cases hmap
    | cons p rest =>
      rw [List.map_cons, List.map_cons, List.cons.injEq, Prod.mk.injEq] at hmap
      obtain ⟨⟨hip, hpos⟩, hmap⟩ := hmap
      rw [Vm.backtrack, hchoices, hsaved] at hstep
      exact Ends.step hstep (hrest p rest _ rfl ⟨hip, hpos, hmap, hflag⟩)

/-- The run over alternatives none of which stands at the start of the window. -/
theorem OnTree.ends {n turns : Nat} {lits : List Bytes} (h : OnTree ip stack vm)
    (hlits : altLiterals (env.bc.take n) turns (ip :: stack) = some lits)
    (hat : ∀ lit ∈ lits, ¬Stands lit env.s 0) : Ends env vm .failed := by
  induction turns generalizing ip stack vm lits with
  | zero => cases hlits
  | succ turns ih =>
    rw [altLiterals] at hlits
    by_cases hsize : (env.bc.take n).length < ip + 2
    · rw [if_pos hsize] at hlits
      cases hlits
    rw [if_neg hsize] at hlits
    cases hop : (env.bc.take n)[ip]?.bind OpCode.ofByte with
    | none =>
      rw [hop] at hlits
      cases hlits
    | some o =>
      rw [hop] at hlits
      cases o with
      | lit =>
        simp only at hlits
        split at hlits
        · cases hlits
        rename_i hbounds
        have hlen : ip + 9 ≤ (env.bc.take n).length := by omega
        have hlen' : ip + 9 ≤ env.bc.length :=
          Nat.le_trans hlen (List.length_take_le' n env.bc)
        obtain ⟨rest, hrest, rfl⟩ := Option.map_eq_some_iff.mp hlits
        obtain ⟨next, hfetch⟩ := fetch_lit (bind_take hop) hlen'
        have htarget : matchLit env.s (litText env.bc ip) (readU32 env.bc (ip + 5)).1 0 = none :=
          matchLit_eq_none _ 0 (litText_take hlen) (hat _ List.mem_cons_self)
        have hstep : vmStep env vm = Vm.backtrack { vm with ip := next } := by
          rw [litText] at htarget
          simp only [vmStep, h.ip, hfetch, Prim.exec, h.pos, htarget]
          rfl
        refine h.backtrack hstep rfl h.abortFlag ?_
        rintro p saved vm'' rfl hvm''
        exact ih hvm'' hrest fun lit hlit => hat lit (List.mem_cons_of_mem _ hlit)
      | split =>
        simp only at hlits
        split at hlits
        · cases hlits
        rename_i hbounds
        have hlen : ip + 9 ≤ (env.bc.take n).length := by omega
        have hlen' : ip + 9 ≤ env.bc.length :=
          Nat.le_trans hlen (List.length_take_le' n env.bc)
        rw [readU32_take (by omega), readU32_take (by omega)] at hlits
        obtain ⟨next, hfetch⟩ := fetch_split (bind_take hop) hlen'
        -- the second branch is saved where the walk puts it on its stack
        have hstep : vmStep env vm = .running { Vm.pushChoice env (readU32 env.bc (ip + 5)).1 vm.pos
            { vm with ip := next } with ip := (readU32 env.bc (ip + 1)).1 } := by
          rw [vmStep, h.ip, hfetch]
        refine Ends.step hstep (ih ⟨rfl, h.pos, ?_, h.abortFlag⟩ hlits hat)
        rw [List.map_cons, ← h.choices, ← h.pos]
        rfl
      | _ => cases hlits

end

/-! ## When the skipped offsets fail -/

/-- Where the instructions in front of the literal move the cursor, the literal does not
stand. -/
def FrontStays (env : VmEnv W) (o : Nat) : Prop :=
  ∀ lit ∈ rootLiteral env.bc, ∀ pos, lineTarget (env.window o) (frontRoot env.bc).1 0 = some pos →
    0 < pos → ¬Stands lit env.s (o + pos)

/-- The alternatives that were not collected start as the others do. -/
def DroppedShare (turns : Nat) (bc : Bytes) : Prop :=
  ∀ lits ∈ altLiterals (altCode bc) turns [0], ∀ lit ∈ lits.drop collectedLits,
    altPrefix turns bc <+: lit

theorem stands_drop {w s : Bytes} {o pos : Nat} :
    Stands w (s.drop o) pos ↔ Stands w s (o + pos) := by
  rw [Stands, Stands, List.drop_drop]

/-- What the code has at a root literal. -/
theorem rootLiteral_spec {bc lit : Bytes} (h : rootLiteral bc = some lit) :
    (∃ next, fetch bc (frontRoot bc).2 = some (.prim (LineOp.prim
      (.lit (readU32 bc ((frontRoot bc).2 + 1)).1 (readU32 bc ((frontRoot bc).2 + 5)).1)), next)) ∧
      litText bc (frontRoot bc).2 = lit ∧ lit ≠ [] := by
  unfold rootLiteral at h
  simp only at h
  split at h
  · rename_i hroot
    obtain ⟨hop, hlen, hoff, -, hpos⟩ := hroot
    cases h
    refine ⟨fetch_lit ?_ hlen, rfl, ?_⟩
    · rw [hop, Option.bind_some, OpCode.ofByte_code]
    · intro hnil
      have hlength := congrArg List.length hnil
      rw [litText, List.length_take, List.length_drop, List.length_nil] at hlength
      omega
  · cases h

/-- An offset is skipped only where bytes were recorded. -/
theorem SkippedOffset.literalPrefix_ne_nil {s : Bytes} {isAltLiterals hasCapture : Bool}
    {turns o : Nat} {bc : Bytes}
    (h : SkippedOffset s (literalMeta isAltLiterals hasCapture turns bc) o) :
    (literalMeta isAltLiterals hasCapture turns bc).literalPrefix ≠ [] := by
  intro hnil
  have hnone : (literalMeta isAltLiterals hasCapture turns bc).hasLiteralPrefix = false ∧
      (literalMeta isAltLiterals hasCapture turns bc).hasBmhSkip = false := by
    unfold literalMeta at hnil ⊢
    cases hroot : rootLiteral bc with
    | some lit =>
      simp only [hroot] at hnil
      have hne := (rootLiteral_spec hroot).2.2
      rw [List.take_eq_nil_iff] at hnil
      obtain hzero | hlit := hnil
      · cases hzero
      · exact absurd hlit hne
    | none =>
      simp only [hroot] at hnil
      simp only [hnil]
      exact ⟨trivial, rfl⟩
  obtain ⟨hscan, hbmh⟩ := hnone
  cases h with
  | scan hhas =>
    rw [hscan] at hhas
    cases hhas
  | @advance loop offset hloop hlt hnext =>
    unfold SearchMeta.advance at hnext
    rw [hloop, LiteralMeta.bmhSkip, hbmh] at hnext
    have hhere : o < offset + 1 := hnext
    omega

/-- The attempt of a literal root. -/
theorem rootLiteral_fails {env : VmEnv W} {vm : Vm W} {lit : Bytes} {o : Nat}
    (h : OnLine 0 0 vm) (hlit : rootLiteral env.bc = some lit)
    (hat : ¬Stands (lit.take maxPrefixLen) env.s o) (hfront : FrontStays env o) :
    Ends (env.window o) vm .failed := by
  obtain ⟨⟨next, hfetch⟩, htext, -⟩ := rootLiteral_spec hlit
  refine h.fails_behind (frontRoot_lineTo env.bc) ?_
  intro pos vm' htarget hvm'
  have hstands : ¬Stands lit env.s (o + pos) := by
    by_cases hpos : pos = 0
    · rw [hpos, Nat.add_zero]
      intro hthere
      exact hat (hthere.shorten (List.take_prefix _ _))
    · exact hfront lit hlit pos htarget (Nat.pos_of_ne_zero hpos)
  refine hvm'.op_fails hfetch ?_
  have hpre : lit <+: litText env.bc (frontRoot env.bc).2 := by
    rw [htext]
  exact matchLit_eq_none _ pos hpre fun hthere => hstands (stands_drop.mp hthere)

/-- The attempt of alternatives with a shared prefix. -/
theorem altPrefix_fails {env : VmEnv W} {vm : Vm W} {turns o : Nat} (h : OnTree 0 [] vm)
    (hne : altPrefix turns env.bc ≠ []) (hat : ¬Stands (altPrefix turns env.bc) env.s o)
    (hdropped : DroppedShare turns env.bc) : Ends (env.window o) vm .failed := by
  cases hlits : altLiterals (altCode env.bc) turns [0] with
  | none =>
    refine absurd ?_ hne
    rw [altPrefix, hlits]
    split <;> rfl
  | some lits =>
    have hshared : altPrefix turns env.bc = sharedPrefix (lits.take collectedLits) := by
      rw [altPrefix, hlits] at hne ⊢
      split at hne
      · rename_i hroot
        rw [if_pos hroot]
        rfl
      · exact absurd rfl hne
    refine h.ends hlits ?_
    intro lit hlit hthere
    have hstart : altPrefix turns env.bc <+: lit := by
      rw [← List.take_append_drop collectedLits lits] at hlit
      obtain hcollected | hrest := List.mem_append.mp hlit
      · rw [hshared]
        exact sharedPrefix_prefix hcollected
      · exact hdropped lits hlits lit hrest
    exact hat ((stands_drop.mp hthere).shorten hstart)

/-- The literal at the root lies in the code, and the pattern ends behind it. -/
def LiteralLast (bc : Bytes) : Prop :=
  (litText bc (frontRoot bc).2).length = (readU32 bc ((frontRoot bc).2 + 5)).1 ∧
    ∀ instr next, fetch bc (frontRoot bc).2 = some (instr, next) →
      StraightLine bc next [] .accepted

/-- A literal matches where it stands. -/
theorem matchLit_eq_some {s text : Bytes} {pos : Nat} (hat : Stands text s pos) :
    matchLit s text text.length pos = some (pos + text.length) := by
  have hlen := List.IsPrefix.length_le hat
  rw [List.length_drop] at hlen
  exact if_pos ⟨hlen, (List.prefix_iff_eq_take.mp hat).symm⟩

/-- Where the literal is all of the pattern, the cursor that comes to it finds a match. -/
theorem rootLiteral_matches {env : VmEnv W} {vm : Vm W} {o : Nat} (h : OnLine 0 0 vm)
    (hlast : LiteralLast env.bc) (hfront : ¬FrontStays env o) :
    ∃ stop, Ends (env.window o) vm (.found stop) := by
  unfold FrontStays at hfront
  push Not at hfront
  obtain ⟨lit, hlit, pos, htarget, -, hat⟩ := hfront
  obtain ⟨⟨next, hfetch⟩, htext, -⟩ := rootLiteral_spec hlit
  obtain ⟨hlength, hend⟩ := hlast
  have hline : StraightLine env.bc 0 ((frontRoot env.bc).1 ++ [.lit _ _]) .accepted :=
    (frontRoot_lineTo env.bc).append (.op hfetch (hend _ _ hfetch))
  have hmatch : matchLit (env.s.drop o) (litText env.bc (frontRoot env.bc).2)
      (readU32 env.bc ((frontRoot env.bc).2 + 5)).1 pos = some (pos + lit.length) := by
    rw [← hlength, htext]
    exact matchLit_eq_some (stands_drop.mpr hat)
  have hends := h.ends (show StraightLine (env.window o).bc 0 _ .accepted from hline)
  rw [lineTarget_append, htarget, Option.bind_some, lineTarget] at hends
  unfold litText at hmatch
  rw [show LineOp.target (env.window o) pos (.lit _ _) = some (pos + lit.length) from hmatch]
    at hends
  exact ⟨_, hends⟩

/-- `vm_exec` on the window at a skipped offset fails, where the instructions in front of the
literal do not bring the cursor to it and no alternative was left out of the shared prefix;
where they do and the literal is all that follows, it succeeds. -/
theorem skippedOffset_fails (env : VmEnv W) (isAltLiterals hasCapture : Bool) (turns o : Nat)
    (vm : Vm W)
    (hskip : SkippedOffset env.s (literalMeta isAltLiterals hasCapture turns env.bc) o) :
    (FrontStays env o → DroppedShare turns env.bc → ∃ final, VmExec (env.window o) vm false final) ∧
      (¬FrontStays env o → LiteralLast env.bc → ∃ final, VmExec (env.window o) vm true final) := by
  have hstart : OnLine 0 0 (vmRunStart (vmExecStart vm)) := ⟨rfl, rfl, rfl, rfl⟩
  constructor
  · intro hfront hdropped
    have hne := hskip.literalPrefix_ne_nil
    have hat := hskip.not_stands hne
    have hends : Ends (env.window o) (vmRunStart (vmExecStart vm)) .failed := by
      unfold literalMeta at hne hat
      cases hroot : rootLiteral env.bc with
      | some lit =>
        rw [hroot] at hat
        exact rootLiteral_fails hstart hroot hat hfront
      | none =>
        rw [hroot] at hat hne
        simp only at hat hne
        cases isAltLiterals with
        | false => exact absurd rfl hne
        | true => exact altPrefix_fails ⟨rfl, rfl, rfl, rfl⟩ hne hat hdropped
    obtain ⟨n, final, hn, -⟩ := hends
    exact ⟨final, n, hn⟩
  · intro hfront hlast
    obtain ⟨stop, n, final, hn, -⟩ := rootLiteral_matches hstart hlast hfront
    exact ⟨final, n, hn⟩

/-- The code of `POS(0) 'b'`. -/
def letterAtStart : Bytes :=
  [37, 0, 0, 0, 0, 4, 0, 0, 0, 14, 0, 0, 0, 1, 98, 0, 0, 0, 0, 0, 0, 0, 0, 0, 83, 78, 66, 76]

/-- The prefix scan of "ab" for it goes past the first letter. -/
theorem skippedOffset_fails_letterAtStart :
    SkippedOffset [0x61, 0x62] (literalMeta false false 0 letterAtStart) 0 ∧
      ∃ final, VmExec ((VmEnv.ofCode letterAtStart [0x61, 0x62] .bare).window 0) (.zero ⟨[], ()⟩)
        false final := by
  have hskip : SkippedOffset [0x61, 0x62] (literalMeta false false 0 letterAtStart) 0 := by
    refine .scan (by decide +kernel) (Nat.le_refl 0) (Nat.zero_le _) ?_
    have hcand : prefixCandidate [0x61, 0x62]
        (literalMeta false false 0 letterAtStart).literalPrefix 0 = some 1 := by decide +kernel
    intro cand hmem
    rw [hcand] at hmem
    cases hmem
    decide
  refine ⟨hskip, (skippedOffset_fails (VmEnv.ofCode letterAtStart [0x61, 0x62] .bare) false false
    0 0 (.zero ⟨[], ()⟩) hskip).1 ?_ ?_⟩
  · intro lit _ pos htarget hpos
    have hstays : lineTarget ((VmEnv.ofCode letterAtStart [0x61, 0x62] .bare).window 0)
        (frontRoot letterAtStart).1 0 = some 0 := by decide +kernel
    obtain rfl := Option.some.inj (hstays.symm.trans htarget)
    cases hpos
  · intro lits hlits
    cases hlits

/-- The code of `TAB(1) 'b'`. -/
def letterBehindTab : Bytes :=
  [38, 0, 0, 0, 1, 4, 0, 0, 0, 14, 0, 0, 0, 1, 98, 0, 0, 0, 0, 0, 0, 0, 0, 0, 83, 78, 66, 76]

/-- The prefix scan of "ab" skips the offset at which `TAB(1) 'b'` matches: it looks for the
letter there and not behind the tab. -/
theorem skippedOffset_matches :
    compileAstToBytecodeC .caseSensitive (.concat [.tab 1, .literal [0x62]]) =
        some letterBehindTab ∧
      SkippedOffset [0x61, 0x62] (literalMeta false false 0 letterBehindTab) 0 ∧
      ∃ final, VmExec ((VmEnv.ofCode letterBehindTab [0x61, 0x62] .bare).window 0) (.zero ⟨[], ()⟩)
        true final := by
  refine ⟨by decide +kernel, ?_, ?_⟩
  · refine .scan (by decide +kernel) (Nat.le_refl 0) (Nat.zero_le _) ?_
    have hcand : prefixCandidate [0x61, 0x62]
        (literalMeta false false 0 letterBehindTab).literalPrefix 0 = some 1 := by decide +kernel
    intro cand hmem
    rw [hcand] at hmem
    cases hmem
    decide
  · have hrun : (vmSteps ((VmEnv.ofCode letterBehindTab [0x61, 0x62] .bare).window 0) 3
        (vmRunStart (vmExecStart (.zero ⟨[], ()⟩)))).isAccepted = true := by decide +kernel
    exact ⟨_, 3, StepResult.eq_halted hrun⟩

end Snobol4
