import Snobol4.SearchLoop
import Snobol4.VmBounds

/-!
# Minlength — a lower bound on the length of a match (`search_meta.c`)

`compute_minlength` walks the bytecode and adds up what the instructions consume, with the
smaller arm at an `OP_SPLIT`.  A state of a run owes what the walk still adds up from its
address on.
-/

namespace Snobol4

variable {W : Type}

/-! ## The walk -/

/-- What a turn of the walk does: return, or go on at an address. -/
inductive MinStep where
  | stop (n : Nat)
  | go (ip len : Nat)

/-- `UINT32_MAX`, the bound of a branch that fails. -/
def deadBranch : Nat := 2 ^ 32 - 1

/-- The bound of an `OP_SPLIT`; dead branches do not count. -/
def branchMin (a b : Nat) : Nat :=
  if a ≠ deadBranch ∧ b ≠ deadBranch then min a b
  else if a ≠ deadBranch then a
  else if b ≠ deadBranch then b
  else 0

/-- The `switch` of `compute_minlength`; `nested` is the call for the arms of an `OP_SPLIT`. -/
def minStep (bc : Bytes) (nested : Nat → Nat) (ip len : Nat) : MinStep :=
  let add (n : Nat) : Nat := (len + n) % 2 ^ 32
  match bc[ip]?.bind OpCode.ofByte with
  | some .lit =>
      let n := (readU32 bc (ip + 5)).1
      if bc.length < ip + 9 then .stop 0 else .go (ip + 9 + n) (add n)
  | some .any | some .notany | some .span =>
      if bc.length < ip + 3 then .stop (add 1) else .go (ip + 3) (add 1)
  | some .break | some .breakx => .go (ip + 3) len
  | some .len =>
      if bc.length < ip + 5 then .stop len else .go (ip + 5) (add (readU32 bc (ip + 1)).1)
  | some .pos | some .rpos | some .tab | some .rtab =>
      if bc.length < ip + 5 then .stop len else .go (ip + 5) len
  | some .anchor | some .capStart | some .capEnd => .go (ip + 2) len
  | some .fence | some .nop => .go (ip + 1) len
  | some .assign => if bc.length < ip + 4 then .stop len else .go (ip + 4) len
  | some .split =>
      let a := (readU32 bc (ip + 1)).1
      let b := (readU32 bc (ip + 5)).1
      if bc.length < ip + 9 ∨ bc.length ≤ a ∨ bc.length ≤ b then .stop len
      else .stop (add (branchMin (nested a) (nested b)))
  | some .jmp =>
      let target := (readU32 bc (ip + 1)).1
      if bc.length < ip + 5 ∨ bc.length ≤ target then .stop len else .go target len
  | some .bal => .stop (add 2)
  | some .repeatStep | some .rem | some .accept | some .abort | some .succeed => .stop len
  | some .fail => .stop deadBranch
  | _ => .stop 0

/-- The loop of `compute_minlength` with its step cap. -/
def minLoop (bc : Bytes) (nested : Nat → Nat) : Nat → Nat → Nat → Nat
  | 0, ip, len => if bc.length ≤ ip then len else 0
  | fuel + 1, ip, len =>
      if bc.length ≤ ip then len
      else
        match minStep bc nested ip len with
        | .stop n => n
        | .go ip len => minLoop bc nested fuel ip len

/-- `compute_minlength`, where `depth` calls may be nested. -/
def computeMinlength (bc : Bytes) : Nat → Nat → Nat
  | 0, _ => 0
  | depth + 1, ip => minLoop bc (computeMinlength bc depth) (bc.length * 8 + 256) ip 0

/-- `snobol_search_meta_t.minlength` -/
def minlength (bc : Bytes) : Nat := computeMinlength bc 13 0

/-! ## Bounds of the walk -/

theorem branchMin_le {a b : Nat} (ha : a ≤ deadBranch) (hb : b ≤ deadBranch) :
    branchMin a b ≤ a ∧ branchMin a b ≤ b := by
  unfold branchMin
  split
  · exact ⟨min_le_left a b, min_le_right a b⟩
  split
  · rename_i hboth hleft
    have hdead : b = deadBranch := by
      by_contra hright
      exact hboth ⟨hleft, hright⟩
    exact ⟨le_rfl, hdead ▸ ha⟩
  split
  · rename_i hleft hright
    have hdead : a = deadBranch := by
      by_contra hne
      exact hleft hne
    exact ⟨hdead ▸ hb, le_rfl⟩
  · exact ⟨Nat.zero_le a, Nat.zero_le b⟩

/-- The numbers in a turn of the walk fit 32 bits. -/
def MinStep.Fits : MinStep → Prop
  | .stop n => n ≤ deadBranch
  | .go _ len => len ≤ deadBranch

theorem minStep_fits (bc : Bytes) (nested : Nat → Nat) (ip : Nat) {len : Nat}
    (h : len ≤ deadBranch) : (minStep bc nested ip len).Fits := by
  have hadd : ∀ n, (len + n) % 2 ^ 32 ≤ deadBranch := by
    intro n
    have := Nat.mod_lt (len + n) (show 0 < 2 ^ 32 by decide)
    unfold deadBranch
    omega
  have hite : ∀ (c : Prop) [Decidable c] (t e : MinStep), t.Fits → e.Fits →
      (if c then t else e).Fits := by
    intro c _ t e ht he
    split
    · exact ht
    · exact he
  unfold minStep
  cases bc[ip]?.bind OpCode.ofByte with
  | none => exact Nat.zero_le _
  | some op =>
    cases op with
    | lit => exact hite _ _ _ (Nat.zero_le _) (hadd _)
    | any | notany | span => exact hite _ _ _ (hadd 1) (hadd 1)
    | len => exact hite _ _ _ h (hadd _)
    | split => exact hite _ _ _ h (hadd _)
    | pos | rpos | tab | rtab | assign | jmp => exact hite _ _ _ h h
    | «break» | breakx | anchor | capStart | capEnd | fence | nop => exact h
    | repeatStep | rem | accept | abort | succeed => exact h
    | bal => exact hadd 2
    | fail => exact le_rfl
    | _ => exact Nat.zero_le _

theorem minLoop_le (bc : Bytes) (nested : Nat → Nat) (fuel ip : Nat) {len : Nat}
    (h : len ≤ deadBranch) : minLoop bc nested fuel ip len ≤ deadBranch := by
  induction fuel generalizing ip len with
  | zero =>
    rw [minLoop]
    split
    · exact h
    · exact Nat.zero_le _
  | succ fuel ih =>
    rw [minLoop]
    split
    · exact h
    have hfits := minStep_fits bc nested ip h
    cases hstep : minStep bc nested ip len with
    | stop n =>
      rw [hstep] at hfits
      exact hfits
    | go next len' =>
      rw [hstep] at hfits
      exact ih next hfits

theorem computeMinlength_le (bc : Bytes) (depth ip : Nat) :
    computeMinlength bc depth ip ≤ deadBranch := by
  cases depth with
  | zero => exact Nat.zero_le _
  | succ depth => exact minLoop_le bc _ _ ip (Nat.zero_le _)

/-! ## What an instruction consumes -/

/-- The bytes that an instruction that succeeds consumes at least. -/
def Prim.need : Prim → Nat
  | .lit _ len => len
  | .set .any _ | .set .notany _ | .set .span _ => 1
  | .count .len n => n
  | .bal _ _ => 2
  | _ => 0

theorem skipCps_need {s : Bytes} {n pos pos' : Nat} (h : skipCps s n pos = some pos') :
    pos + n ≤ pos' := by
  induction n generalizing pos with
  | zero =>
    cases h
    exact le_rfl
  | succ n ih =>
    unfold skipCps at h
    split at h
    · rename_i cp bytes hpeek
      have hbytes := peekCp_bounds hpeek
      have hrest := ih h
      omega
    · cases h

theorem matchAny_need {s : Bytes} {ranges : Option (List CpRange)} {pos pos' : Nat}
    (h : matchAny s ranges pos = some pos') : pos + 1 ≤ pos' := by
  unfold matchAny at h
  split at h
  · cases h
  split at h
  · simp only [Option.ite_none_right_eq_some, Option.some.injEq] at h
    omega
  split at h
  · rename_i hpeek
    have hbytes := peekCp_bounds hpeek
    simp only [Option.ite_none_right_eq_some, Option.some.injEq] at h
    omega
  · cases h

theorem matchNotany_need {s : Bytes} {ranges : Option (List CpRange)} {pos pos' : Nat}
    (h : matchNotany s ranges pos = some pos') : pos + 1 ≤ pos' := by
  unfold matchNotany at h
  split at h
  · simp only [Option.ite_none_right_eq_some, Option.some.injEq] at h
    omega
  split at h
  · rename_i hpeek
    have hbytes := peekCp_bounds hpeek
    simp only [Option.ite_none_left_eq_some, Option.some.injEq] at h
    omega
  · cases h

/-- The close delimiter takes a byte. -/
theorem balScan_need {s : Bytes} {openCp closeCp fuel pos pos' : Nat} {depth : Int}
    (h : balScan s openCp closeCp fuel pos depth = some pos') : pos + 1 ≤ pos' := by
  induction fuel generalizing pos depth with
  | zero => cases h
  | succ fuel ih =>
    unfold balScan at h
    split at h
    · cases h
    rename_i cp n hpeek
    have hn := peekCp_bounds hpeek
    split at h
    · have := ih h
      omega
    split at h
    · split at h
      · cases h
        omega
      · have := ih h
        omega
    · have := ih h
      omega

theorem opBal_need {s : Bytes} {openCp closeCp pos : Nat} {regs : Regs} {g : Globals W} :
    (opBal s openCp closeCp pos regs g).Forward s pos 2 := by
  unfold opBal
  split
  · trivial
  rename_i first bytes hpeek
  split
  · rename_i hopen
    refine moveTo_forward fun pos' hscan => ⟨?_, (balScan_bounds hscan).2⟩
    have hbytes := peekCp_bounds hpeek
    -- the open delimiter, and the close delimiter behind it
    cases hfuel : s.length with
    | zero =>
      rw [hfuel] at hscan
      cases hscan
    | succ fuel =>
      rw [hfuel, balScan, hpeek] at hscan
      simp only [hopen, if_true] at hscan
      have hclose := balScan_need hscan
      omega
  · trivial

/-- An instruction that goes on has consumed what it needs. -/
theorem Prim.exec_need (p : Prim) (env : VmEnv W) {pos : Nat} (regs : Regs) (g : Globals W)
    (h : pos ≤ env.s.length) : (p.exec env pos regs g).Forward env.s pos p.need := by
  cases p with
  | nop | label | emitLiteral => exact ⟨le_rfl, h⟩
  | lit off len =>
    refine moveTo_forward fun pos' hlit => ⟨?_, (matchLit_bounds h hlit).2⟩
    simp only [matchLit, Option.ite_none_right_eq_some, Option.some.injEq] at hlit
    exact hlit.2.le
  | set op id =>
    refine moveTo_forward fun pos' hset => ⟨?_, (matchSet_bounds h hset).2⟩
    have hbounds := matchSet_bounds h hset
    cases op with
    | any => exact matchAny_need hset
    | notany => exact matchNotany_need hset
    | span => exact hbounds.1
    | «break» => exact hbounds.1
  | capStart r | capEnd r | assign var r => exact ⟨le_rfl, h⟩
  | count op n =>
    refine moveTo_forward fun pos' hcount => ⟨?_, (matchCount_bounds h hcount).2⟩
    cases op with
    | len => exact skipCps_need hcount
    | _ => exact (matchCount_bounds h hcount).1
  | eval fn r => exact opEval_forward h
  | anchor type =>
    refine moveTo_forward fun pos' hanchor => ?_
    simp only [matchAnchor, Option.ite_none_right_eq_some, Option.some.injEq] at hanchor
    obtain ⟨-, rfl⟩ := hanchor
    exact ⟨le_rfl, h⟩
  | emitCapture r => exact opEmitCapture_forward h
  | tableGet table key reg => exact opTableGet_forward h
  | tableSet table key value => exact opTableSet_forward h
  | bal openCp closeCp => exact opBal_need
  | rem => exact ⟨h, le_rfl⟩

/-! ## What a state owes -/

/-- Whoever is at `ip` with `pos` bytes consumed will have consumed `bound` bytes at the end
of a match: they are consumed already, or the walk from `ip` on adds up the rest of them. -/
def Owes (bc : Bytes) (bound ip pos : Nat) : Prop :=
  bound ≤ pos ∨ ∃ base depth fuel len, base + len ≤ pos ∧
    bound ≤ base + minLoop bc (computeMinlength bc depth) fuel ip len

/-- The turn of the walk at `ip`, seen from the consumed bytes. -/
def MinStep.Owes (bc : Bytes) (bound base depth fuel : Nat) : MinStep → Prop
  | .stop n => bound ≤ base + n
  | .go ip len => bound ≤ base + minLoop bc (computeMinlength bc depth) fuel ip len

theorem owes_start (bc : Bytes) : Owes bc (minlength bc) 0 0 :=
  .inr ⟨0, 12, bc.length * 8 + 256, 0, le_rfl, (Nat.zero_add _).ge⟩

namespace Owes

variable {bc : Bytes} {bound ip pos pos' next : Nat}

theorem mono (h : Owes bc bound ip pos) (hpos : pos ≤ pos') : Owes bc bound ip pos' := by
  obtain hle | ⟨base, depth, fuel, len, hlen, hbound⟩ := h
  · exact .inl (hle.trans hpos)
  · exact .inr ⟨base, depth, fuel, len, hlen.trans hpos, hbound⟩

/-- One turn of the walk. -/
theorem turn (h : Owes bc bound ip pos) :
    bound ≤ pos ∨ ∃ base depth fuel len, base + len ≤ pos ∧
      (minStep bc (computeMinlength bc depth) ip len).Owes bc bound base depth fuel := by
  obtain hle | ⟨base, depth, fuel, len, hlen, hbound⟩ := h
  · exact .inl hle
  cases fuel with
  | zero =>
    rw [minLoop] at hbound
    split at hbound
    · exact .inl (hbound.trans hlen)
    · exact .inl (by omega)
  | succ fuel =>
    rw [minLoop] at hbound
    split at hbound
    · exact .inl (hbound.trans hlen)
    refine .inr ⟨base, depth, fuel, len, hlen, ?_⟩
    cases hstep : minStep bc (computeMinlength bc depth) ip len with
    | stop n =>
      rw [hstep] at hbound
      exact hbound
    | go next len' =>
      rw [hstep] at hbound
      exact hbound

/-- Behind the end of the code the walk is over. -/
theorem of_go {base depth fuel len : Nat} (hlen : base + len ≤ pos)
    (hbound : bound ≤ base + minLoop bc (computeMinlength bc depth) fuel ip len)
    (hnext : ip = next ∨ bc.length ≤ ip) : Owes bc bound next pos := by
  obtain rfl | hend := hnext
  · exact .inr ⟨base, depth, fuel, len, hlen, hbound⟩
  · left
    have hloop : minLoop bc (computeMinlength bc depth) fuel ip len = len := by
      cases fuel with
      | zero => rw [minLoop, if_pos hend]
      | succ fuel => rw [minLoop, if_pos hend]
    rw [hloop] at hbound
    exact hbound.trans hlen

end Owes

/-- A turn of the walk adds no more than `need`, and goes on at `next`, unless the code ends
there. -/
def MinStep.Within (bc : Bytes) (next need len : Nat) : MinStep → Prop
  | .stop n => n ≤ len + need
  | .go ip len' => len' ≤ len + need ∧ (ip = next ∨ bc.length ≤ ip)

/-- An instruction that the walk steps over pays what it adds. -/
theorem Owes.step {bc : Bytes} {bound ip pos pos' next need : Nat} (h : Owes bc bound ip pos)
    (hwithin : ∀ nested len, (minStep bc nested ip len).Within bc next need len)
    (hpos : pos + need ≤ pos') : Owes bc bound next pos' := by
  obtain hle | ⟨base, depth, fuel, len, hlen, howes⟩ := h.turn
  · exact .inl (hle.trans ((Nat.le_add_right pos need).trans hpos))
  have hat := hwithin (computeMinlength bc depth) len
  cases hstep : minStep bc (computeMinlength bc depth) ip len with
  | stop n =>
    rw [hstep] at howes hat
    simp only [MinStep.Owes] at howes
    simp only [MinStep.Within] at hat
    exact .inl (by omega)
  | go ip' len' =>
    rw [hstep] at howes hat
    exact .of_go (by have := hat.1; omega) howes hat.2

/-- An instruction at which the walk stops. -/
theorem Owes.stop {bc : Bytes} {bound ip pos : Nat} (h : Owes bc bound ip pos)
    (hstop : ∀ nested len, ∃ n ≤ len, minStep bc nested ip len = .stop n) : bound ≤ pos := by
  obtain hle | ⟨base, depth, fuel, len, hlen, howes⟩ := h.turn
  · exact hle
  obtain ⟨n, hn, hstep⟩ := hstop (computeMinlength bc depth) len
  rw [hstep] at howes
  exact howes.trans (by omega)

/-! ## The walk and the decoder -/

theorem add_mod_le (len n : Nat) : (len + n) % 2 ^ 32 ≤ len + n := Nat.mod_le _ _

/-- Where the operand is cut off, the code ends. -/
theorem readU8_or (bc : Bytes) (ip : Nat) :
    ip + 1 = (readU8 bc ip).2 ∨ bc.length ≤ ip + 1 := by
  by_cases hsize : ip + 1 ≤ bc.length
  · exact .inl (readU8_next hsize).symm
  · exact .inr (by omega)

theorem readU16_or (bc : Bytes) (ip : Nat) :
    ip + 2 = (readU16 bc ip).2 ∨ bc.length ≤ ip + 2 := by
  by_cases hsize : ip + 2 ≤ bc.length
  · exact .inl (readU16_next hsize).symm
  · exact .inr (by omega)

section

variable {bc : Bytes} {ip next : Nat}

/-- The byte and the operands of a fetched instruction. -/
theorem operands_of_fetch {instr : Instr} (h : fetch bc ip = some (instr, next)) :
    ∃ byte, bc[ip]? = some byte ∧ operands bc byte (ip + 1) = (instr, next) :=
  Option.map_eq_some_iff.mp h

/-- The walk steps over a plain instruction as the VM does, where the text of a literal is
inline. -/
theorem minStep_prim {q : Prim} (hfetch : fetch bc ip = some (.prim q, next))
    (hinline : ∀ off n, q = .lit off n → off = ip + 9) (nested : Nat → Nat) (len : Nat) :
    (minStep bc nested ip len).Within bc next q.need len := by
  obtain ⟨byte, hget, hoperands⟩ := operands_of_fetch hfetch
  unfold minStep
  rw [hget, Option.bind_some]
  cases hop : OpCode.ofByte byte with
  | none => exact Nat.zero_le _
  | some op =>
    cases op with
    | lit =>
      dsimp only
      split
      · exact Nat.zero_le _
      rename_i hsize
      have hoff : (readU32 bc (ip + 1)).2 = ip + 5 := readU32_next (by omega)
      have hlen : (readU32 bc (ip + 5)).2 = ip + 9 := readU32_next (by omega)
      simp only [operands, hop, hoff, hlen, Prod.mk.injEq, Instr.prim.injEq] at hoperands
      obtain ⟨rfl, rfl⟩ := hoperands
      -- the walk goes on behind the text, and so does the VM
      rw [if_pos (hinline _ _ rfl)]
      exact ⟨add_mod_le _ _, .inl rfl⟩
    | any | notany | span =>
      simp only [operands, hop, Prod.mk.injEq, Instr.prim.injEq] at hoperands
      obtain ⟨rfl, rfl⟩ := hoperands
      dsimp only
      split
      · exact add_mod_le _ _
      · exact ⟨add_mod_le _ _, readU16_or bc (ip + 1)⟩
    | «break» =>
      simp only [operands, hop, Prod.mk.injEq, Instr.prim.injEq] at hoperands
      obtain ⟨rfl, rfl⟩ := hoperands
      exact ⟨le_rfl, readU16_or bc (ip + 1)⟩
    | len =>
      simp only [operands, hop, Prod.mk.injEq, Instr.prim.injEq] at hoperands
      obtain ⟨rfl, rfl⟩ := hoperands
      dsimp only
      split
      · exact Nat.le_add_right _ _
      · exact ⟨add_mod_le _ _, .inl (readU32_next (by omega)).symm⟩
    | pos | rpos | tab | rtab =>
      simp only [operands, hop, Prod.mk.injEq, Instr.prim.injEq] at hoperands
      obtain ⟨rfl, rfl⟩ := hoperands
      dsimp only
      split
      · exact le_rfl
      · exact ⟨le_rfl, .inl (readU32_next (by omega)).symm⟩
    | anchor | capStart | capEnd =>
      simp only [operands, hop, Prod.mk.injEq, Instr.prim.injEq] at hoperands
      obtain ⟨rfl, rfl⟩ := hoperands
      exact ⟨le_rfl, readU8_or bc (ip + 1)⟩
    | nop =>
      simp only [operands, hop, Prod.mk.injEq, Instr.prim.injEq] at hoperands
      obtain ⟨rfl, rfl⟩ := hoperands
      exact ⟨le_rfl, .inl rfl⟩
    | assign =>
      dsimp only
      split
      · exact Nat.le_add_right _ _
      rename_i hsize
      have hvar : (readU16 bc (ip + 1)).2 = ip + 3 := readU16_next (by omega)
      have hreg : (readU8 bc (ip + 3)).2 = ip + 4 := readU8_next (by omega)
      simp only [operands, hop, hvar, hreg, Prod.mk.injEq, Instr.prim.injEq] at hoperands
      obtain ⟨rfl, rfl⟩ := hoperands
      exact ⟨le_rfl, .inl rfl⟩
    | bal =>
      simp only [operands, hop, Prod.mk.injEq, Instr.prim.injEq] at hoperands
      obtain ⟨rfl, -⟩ := hoperands
      exact add_mod_le _ _
    | rem =>
      simp only [operands, hop, Prod.mk.injEq, Instr.prim.injEq] at hoperands
      obtain ⟨rfl, -⟩ := hoperands
      exact le_rfl
    | eval | emitLiteral | emitCapture | label | tableGet | tableSet => exact Nat.zero_le _
    | _ => simp [operands, hop] at hoperands

/-- The instructions at which the walk returns what it has added up, or 0, and the VM goes on
or succeeds. -/
def Instr.endsWalk : Instr → Bool
  | .repeatInit .. | .repeatStep .. | .goto _ | .accept | .succeed => true
  | _ => false

theorem minStep_stop {instr : Instr} (hfetch : fetch bc ip = some (instr, next))
    (hends : instr.endsWalk = true) (nested : Nat → Nat) (len : Nat) :
    ∃ n ≤ len, minStep bc nested ip len = .stop n := by
  obtain ⟨byte, hget, hoperands⟩ := operands_of_fetch hfetch
  unfold minStep
  rw [hget, Option.bind_some]
  cases hop : OpCode.ofByte byte with
  | none => exact ⟨0, Nat.zero_le _, rfl⟩
  | some op =>
    cases op with
    | accept | succeed | repeatStep => exact ⟨len, le_rfl, rfl⟩
    | repeatInit | goto => exact ⟨0, Nat.zero_le _, rfl⟩
    | _ =>
      simp only [operands, hop, Prod.mk.injEq] at hoperands
      obtain ⟨rfl, -⟩ := hoperands
      cases hends

/-- The walk steps over `OP_FENCE` and `OP_BREAKX`. -/
theorem minStep_over {instr : Instr} (hfetch : fetch bc ip = some (instr, next))
    (hover : instr = .fence ∨ ∃ id, instr = .breakx id) (nested : Nat → Nat) (len : Nat) :
    (minStep bc nested ip len).Within bc next 0 len := by
  obtain ⟨byte, hget, hoperands⟩ := operands_of_fetch hfetch
  unfold minStep
  rw [hget, Option.bind_some]
  cases hop : OpCode.ofByte byte with
  | none => exact Nat.zero_le _
  | some op =>
    cases op with
    | fence =>
      simp only [operands, hop, Prod.mk.injEq] at hoperands
      obtain ⟨-, rfl⟩ := hoperands
      exact ⟨le_rfl, .inl rfl⟩
    | breakx =>
      simp only [operands, hop, Prod.mk.injEq] at hoperands
      obtain ⟨-, rfl⟩ := hoperands
      exact ⟨le_rfl, readU16_or bc (ip + 1)⟩
    | _ =>
      simp only [operands, hop, Prod.mk.injEq] at hoperands
      obtain ⟨rfl, -⟩ := hoperands
      simp at hover

theorem minStep_jmp {target : Nat} (hfetch : fetch bc ip = some (.jmp target, next))
    (nested : Nat → Nat) (len : Nat) : (minStep bc nested ip len).Within bc target 0 len := by
  obtain ⟨byte, hget, hoperands⟩ := operands_of_fetch hfetch
  unfold minStep
  rw [hget, Option.bind_some]
  cases hop : OpCode.ofByte byte with
  | none => exact Nat.zero_le _
  | some op =>
    cases op with
    | jmp =>
      simp only [operands, hop, Prod.mk.injEq, Instr.jmp.injEq] at hoperands
      obtain ⟨rfl, -⟩ := hoperands
      dsimp only
      split
      · exact le_rfl
      · exact ⟨le_rfl, .inl rfl⟩
    | _ => simp [operands, hop] at hoperands

/-- Both arms of an `OP_SPLIT` owe what is left of the bound. -/
theorem Owes.split {bound pos a b : Nat} (h : Owes bc bound ip pos)
    (hfetch : fetch bc ip = some (.split a b, next)) :
    Owes bc bound a pos ∧ Owes bc bound b pos := by
  obtain hle | ⟨base, depth, fuel, len, hlen, howes⟩ := h.turn
  · exact ⟨.inl hle, .inl hle⟩
  obtain ⟨byte, hget, hoperands⟩ := operands_of_fetch hfetch
  unfold minStep at howes
  rw [hget, Option.bind_some] at howes
  cases hop : OpCode.ofByte byte with
  | none => simp [operands, hop] at hoperands
  | some op =>
    cases op with
    | split =>
      rw [hop] at howes
      dsimp only at howes
      split at howes
      · have hdone : bound ≤ pos := howes.trans hlen
        exact ⟨.inl hdone, .inl hdone⟩
      rename_i hinside
      have hoff : (readU32 bc (ip + 1)).2 = ip + 5 := readU32_next (by omega)
      simp only [operands, hop, hoff, Prod.mk.injEq, Instr.split.injEq] at hoperands
      obtain ⟨⟨rfl, rfl⟩, -⟩ := hoperands
      have hmin := branchMin_le (computeMinlength_le bc depth (readU32 bc (ip + 1)).1)
        (computeMinlength_le bc depth (readU32 bc (ip + 5)).1)
      -- an arm pays from what was consumed in front of it
      have harm : ∀ arm, branchMin (computeMinlength bc depth (readU32 bc (ip + 1)).1)
          (computeMinlength bc depth (readU32 bc (ip + 5)).1) ≤ computeMinlength bc depth arm →
            Owes bc bound arm pos := by
        intro arm hle
        have hbound : bound ≤ base + len + computeMinlength bc depth arm := by
          have hsum := howes.trans (Nat.add_le_add_left (add_mod_le _ _) base)
          omega
        cases depth with
        | zero => exact .inl (hbound.trans hlen)
        | succ depth => exact .inr ⟨base + len, depth, _, 0, hlen, hbound⟩
      exact ⟨harm _ hmin.1, harm _ hmin.2⟩
    | _ => simp [operands, hop] at hoperands

end

/-! ## Runs -/

/-- Every thread of the state owes what is left of the bound. -/
structure Vm.Owes (env : VmEnv W) (bound : Nat) (vm : Vm W) : Prop where
  length : vm.pos ≤ env.s.length
  owes : Snobol4.Owes env.bc bound vm.ip vm.pos
  choices : ∀ c ∈ vm.choices, c.pos ≤ env.s.length ∧ Snobol4.Owes env.bc bound c.ip c.pos

/-- The run goes on with debts that can be paid, or it ends; a match has paid. -/
inductive Pays (env : VmEnv W) (bound : Nat) : StepResult W → Prop where
  | running {vm : Vm W} (h : vm.Owes env bound) : Pays env bound (.running vm)
  | failed (vm : Vm W) : Pays env bound (.halted false vm)
  | matched {vm : Vm W} (hbound : bound ≤ vm.pos) (hlen : vm.pos ≤ env.s.length) :
      Pays env bound (.halted true vm)

section

variable {env : VmEnv W} {bound : Nat} {vm : Vm W}

theorem Pays.backtrack
    (h : ∀ c ∈ vm.choices, c.pos ≤ env.s.length ∧ Owes env.bc bound c.ip c.pos) :
    Pays env bound vm.backtrack := by
  unfold Vm.backtrack
  split
  · exact .failed vm
  · rename_i c rest hchoices
    rw [hchoices] at h
    obtain ⟨hlen, howes⟩ := h c List.mem_cons_self
    exact .running ⟨hlen, howes, fun c' hc' => h c' (List.mem_cons_of_mem _ hc')⟩

theorem Pays.leave : Pays env bound vm.leave := by
  unfold Vm.leave
  split <;> exact .failed _

namespace Vm.Owes

/-- Where the bound is reached, any address will do. -/
theorem of_paid (hlen : vm.pos ≤ env.s.length) (hpaid : bound ≤ vm.pos)
    (hchoices : ∀ c ∈ vm.choices, c.pos ≤ env.s.length ∧ Snobol4.Owes env.bc bound c.ip c.pos) :
    vm.Owes env bound := ⟨hlen, .inl hpaid, hchoices⟩

theorem goto (h : vm.Owes env bound) {ip : Nat} (howes : Snobol4.Owes env.bc bound ip vm.pos) :
    Vm.Owes env bound { vm with ip } := ⟨h.length, howes, h.choices⟩

theorem pushChoice (h : vm.Owes env bound) (ip : Nat) {pos : Nat} (hlen : pos ≤ env.s.length)
    (howes : Snobol4.Owes env.bc bound ip pos) : (vm.pushChoice env ip pos).Owes env bound := by
  refine ⟨h.length, h.owes, ?_⟩
  intro c hc
  obtain rfl | hc := List.mem_cons.mp hc
  · exact ⟨hlen, howes⟩
  · exact h.choices c hc

theorem repeatInit (h : vm.Owes env bound) (hpaid : bound ≤ vm.pos) (loop min max skip : Nat) :
    (opRepeatInit env loop min max skip vm).Owes env bound := by
  unfold opRepeatInit
  split
  · dsimp only
    split
    · refine pushChoice ?_ skip h.length (.inl hpaid)
      exact ⟨h.length, h.owes, h.choices⟩
    · exact ⟨h.length, h.owes, h.choices⟩
  · exact h

/-- The shortcut moves on, and its retry is behind the last position of the loop. -/
theorem repeatGreedy (h : vm.Owes env bound) (hpaid : bound ≤ vm.pos) {loop target : Nat}
    (hshort : ∀ stop ∈ greedyRunEnd env target vm.pos, stop - vm.pos < 2 ^ 31)
    (hlast : bound ≤ vm.loopLastPos loop) : (opRepeatGreedy env loop target vm).Owes env bound := by
  obtain ⟨st, hst, heq⟩ := greedyExtend_eq env loop target vm h.length hshort
  obtain ⟨hle, hstop⟩ := greedyStop_bounds env target h.length
  have hsame : st.loopLastPos loop = vm.loopLastPos loop := by
    obtain rfl | ⟨n, rfl⟩ := hst
    · rfl
    · simp only [Store.count, Store.record, Store.setLoop]
      split
      · simp
      · simp
  have hmoved : Vm.Owes env bound
      { vm with
        toStore := st
        pos := greedyStop env target vm.pos } := .of_paid hstop (hpaid.trans hle) h.choices
  unfold opRepeatGreedy
  rw [heq]
  by_cases hretry : vm.loopLastPos loop < greedyStop env target vm.pos
  · have hpush := hmoved.pushChoice (vm.ip - 6) ((Nat.sub_le _ 1).trans hstop)
      (.inl (Nat.le_sub_one_of_lt (hlast.trans_lt hretry)))
    simp only [hsame, if_pos hretry]
    exact ⟨hpush.length, hpush.owes, hpush.choices⟩
  · simp only [hsame, if_neg hretry]
    exact ⟨hmoved.length, hmoved.owes, hmoved.choices⟩

theorem repeatIterate (h : vm.Owes env bound) (hpaid : bound ≤ vm.pos) (loop target : Nat) :
    (opRepeatIterate env loop target vm).Owes env bound := by
  have hcount : Vm.Owes env bound
      { vm with toStore := vm.toStore.count env loop ((vm.counters loop + 1) % 2 ^ 32) } :=
    ⟨h.length, h.owes, h.choices⟩
  have hpush := hcount.pushChoice vm.ip h.length (.inl hpaid)
  simp only [opRepeatIterate]
  split
  · exact .of_paid h.length hpaid h.choices
  split
  · split
    · exact hcount
    split
    · exact hcount
    · exact .of_paid h.length hpaid hpush.choices
  · exact hcount

theorem repeatStep (h : vm.Owes env bound) (hpaid : bound ≤ vm.pos) {loop target : Nat}
    (hgreedy : loop < maxLoops → takesGreedy env loop target vm = true →
      bound ≤ vm.loopLastPos loop ∧
        ∀ stop ∈ greedyRunEnd env target vm.pos, stop - vm.pos < 2 ^ 31) :
    (opRepeatStep env loop target vm).Owes env bound := by
  unfold opRepeatStep
  split
  · rename_i hloop
    split
    · rename_i htakes
      obtain ⟨hlast, hshort⟩ := hgreedy hloop htakes
      have hflagged : Vm.Owes env bound
          { vm with loopSpanGreedy := Function.update vm.loopSpanGreedy loop true } :=
        ⟨h.length, h.owes, h.choices⟩
      exact hflagged.repeatGreedy hpaid hshort hlast
    · exact h.repeatIterate hpaid loop target
  · exact h

theorem breakx (h : vm.Owes env bound) (setId : Nat) {here : Nat}
    (hhere : Snobol4.Owes env.bc bound here vm.pos) :
    (opBreakx env setId here vm).Owes env bound := by
  obtain ⟨hle, hstop⟩ := breakTarget_bounds env.s (env.ranges setId) h.length
  have hmoved : Vm.Owes env bound { vm with pos := breakTarget env.s (env.ranges setId) vm.pos } :=
    ⟨hstop, h.owes.mono hle, h.choices⟩
  unfold opBreakx
  dsimp only
  split
  · rename_i hlt
    have hskip : breakTarget env.s (env.ranges setId) vm.pos +
        (peekCp env.s (breakTarget env.s (env.ranges setId) vm.pos)).elim 1 (·.2) ≤
          env.s.length := by
      cases hpeek : peekCp env.s (breakTarget env.s (env.ranges setId) vm.pos) with
      | some step => exact (peekCp_bounds hpeek).2
      | none => exact hlt
    exact hmoved.pushChoice here hskip (hhere.mono (hle.trans (Nat.le_add_right _ _)))
  · exact hmoved

/-- What is paid where the walk ends. -/
theorem paid (h : vm.Owes env bound) {instr : Instr} {next : Nat}
    (hfetch : fetch env.bc vm.ip = some (instr, next)) (hends : instr.endsWalk = true) :
    bound ≤ vm.pos := h.owes.stop (minStep_stop hfetch hends)

/-- One turn of the VM. -/
theorem step (h : vm.Owes env bound)
    (hinline : ∀ off len next, fetch env.bc vm.ip = some (.prim (.lit off len), next) →
      off = vm.ip + 9)
    (hgreedy : ∀ loop target next, fetch env.bc vm.ip = some (.repeatStep loop target, next) →
      loop < maxLoops → takesGreedy env loop target vm = true →
        bound ≤ vm.loopLastPos loop ∧
          ∀ stop ∈ greedyRunEnd env target vm.pos, stop - vm.pos < 2 ^ 31) :
    Pays env bound (vmStep env vm) := by
  unfold vmStep
  cases hfetch : fetch env.bc vm.ip with
  | none => exact .backtrack h.choices
  | some fetched =>
    obtain ⟨instr, next⟩ := fetched
    cases instr with
    | prim q =>
      -- the walk adds what the instruction needs, and the VM moves by as much
      have hneed := q.exec_need env vm.regs vm.globals h.length
      have hwithin := minStep_prim hfetch (fun off len hq => hinline off len next (hq ▸ hfetch))
      dsimp only
      cases hexec : q.exec env vm.pos vm.regs vm.globals with
      | next pos regs undo g =>
        rw [hexec] at hneed
        exact .running ⟨hneed.2, h.owes.step hwithin hneed.1, h.choices⟩
      | fail g => exact .backtrack h.choices
      | leave g => exact .leave
    | accept => exact .matched (h.paid hfetch rfl) h.length
    | succeed => exact .matched (h.paid hfetch rfl) h.length
    | abort => exact .failed _
    | fail | unknown b => exact .backtrack h.choices
    | jmp target => exact .running ⟨h.length, h.owes.step (minStep_jmp hfetch) le_rfl, h.choices⟩
    | split a b =>
      obtain ⟨ha, hb⟩ := h.owes.split hfetch
      have hat : Vm.Owes env bound { vm with ip := a } := ⟨h.length, ha, h.choices⟩
      have hpush := hat.pushChoice b h.length hb
      exact .running ⟨hpush.length, ha, hpush.choices⟩
    | repeatInit loop min max skip =>
      have hpaid := h.paid hfetch rfl
      have hat : Vm.Owes env bound { vm with ip := next } := h.goto (.inl hpaid)
      exact .running (hat.repeatInit hpaid loop min max skip)
    | repeatStep loop target =>
      have hpaid := h.paid hfetch rfl
      have hat : Vm.Owes env bound { vm with ip := next } := h.goto (.inl hpaid)
      exact .running (hat.repeatStep hpaid (hgreedy loop target next hfetch))
    | goto label =>
      dsimp only
      split
      · exact .running (.of_paid h.length (h.paid hfetch rfl) h.choices)
      · exact .backtrack h.choices
    | breakx setId =>
      have hover := h.owes.step (minStep_over hfetch (.inr ⟨setId, rfl⟩)) le_rfl
      exact .running ((h.goto hover).breakx setId h.owes)
    | fence =>
      have hover := h.owes.step (minStep_over hfetch (.inl rfl)) le_rfl
      exact .running ⟨h.length, hover, by simp⟩

end Vm.Owes

end

/-- After `n` turns the loop was entered, and its last position is not before it. -/
def EnteredBefore (env : VmEnv W) (start : Vm W) (n loop lastPos : Nat) : Prop :=
  ∃ m < n, ∃ vm, vmSteps env m (vmRunStart start) = .running vm ∧ vm.pos ≤ lastPos ∧
    ∃ min max skip next, fetch env.bc vm.ip = some (.repeatInit loop min max skip, next)

/-- The turn behind `n` turns: the text of a literal is inline, and the greedy shortcut is
taken in a loop that was entered, and moves the cursor by less than 2³¹. -/
structure PlainTurn (env : VmEnv W) (start : Vm W) (n : Nat) (vm : Vm W) : Prop where
  inline : ∀ off len next, fetch env.bc vm.ip = some (.prim (.lit off len), next) →
    off = vm.ip + 9
  entered : ∀ loop target next, fetch env.bc vm.ip = some (.repeatStep loop target, next) →
    loop < maxLoops → takesGreedy env loop target vm = true →
      EnteredBefore env start n loop (vm.loopLastPos loop)
  short : ∀ loop target next, fetch env.bc vm.ip = some (.repeatStep loop target, next) →
    loop < maxLoops → takesGreedy env loop target vm = true →
      ∀ stop ∈ greedyRunEnd env target vm.pos, stop - vm.pos < 2 ^ 31

/-- Every state of a run whose turns are plain owes what is left of the minimum length. -/
theorem vmSteps_pays {env : VmEnv W} {start : Vm W} (hip : start.ip = 0) (hpos : start.pos = 0)
    (hplain : ∀ n vm, vmSteps env n (vmRunStart start) = .running vm → PlainTurn env start n vm)
    (n : Nat) : Pays env (minlength env.bc) (vmSteps env n (vmRunStart start)) := by
  induction n using Nat.strong_induction_on with
  | _ n ih =>
    cases n with
    | zero =>
      refine .running ⟨?_, ?_, by simp [vmRunStart]⟩
      · exact hpos.le.trans (Nat.zero_le _)
      · show Owes env.bc (minlength env.bc) start.ip start.pos
        rw [hip, hpos]
        exact owes_start env.bc
    | succ n =>
      have hbefore := ih n (Nat.lt_succ_self n)
      cases hn : vmSteps env n (vmRunStart start) with
      | halted ok final =>
        rw [vmSteps_halted hn 1, ← hn]
        exact hbefore
      | running vm =>
        rw [hn] at hbefore
        cases hbefore with
        | running howes =>
        have hturn := hplain n vm hn
        have hlast : vmSteps env (n + 1) (vmRunStart start) = vmStep env vm := by
          rw [vmSteps_add hn, vmSteps]
          cases vmStep env vm <;> rfl
        rw [hlast]
        refine howes.step hturn.inline fun loop target next hfetch hloop htakes =>
          ⟨?_, hturn.short loop target next hfetch hloop htakes⟩
        -- the loop was entered with the minimum length consumed
        obtain ⟨m, hm, vm', hvm', hle, min, max, skip, next', hinit⟩ :=
          hturn.entered loop target next hfetch hloop htakes
        have hpaid := ih m (hm.trans (Nat.lt_succ_self n))
        rw [hvm'] at hpaid
        cases hpaid with
        | running howes' => exact (howes'.paid hinit rfl).trans hle

/-- The loop is entered in this state. -/
def enters (env : VmEnv W) (loop lastPos : Nat) (vm : Vm W) : Bool :=
  decide (vm.pos ≤ lastPos) &&
    match fetch env.bc vm.ip with
    | some (.repeatInit loop' .., _) => loop' == loop
    | _ => false

/-- The turn behind `n` turns of a run is plain. -/
def plainTurn (env : VmEnv W) (start : Vm W) (n : Nat) (vm : Vm W) : Bool :=
  match fetch env.bc vm.ip with
  | some (.prim (.lit off _), _) => off == vm.ip + 9
  | some (.repeatStep loop target, _) =>
      ((greedyRunEnd env target vm.pos).all fun stop => decide (stop - vm.pos < 2 ^ 31)) &&
        (List.range n).any fun m =>
          (vmSteps env m (vmRunStart start)).isRunning &&
            enters env loop (vm.loopLastPos loop) (vmSteps env m (vmRunStart start)).vm
  | _ => true

theorem PlainTurn.of_plainTurn {env : VmEnv W} {start vm : Vm W} {n : Nat}
    (h : plainTurn env start n vm = true) : PlainTurn env start n vm := by
  unfold plainTurn at h
  constructor
  · intro off len next hfetch
    simp only [hfetch] at h
    exact beq_iff_eq.mp h
  · intro loop target next hfetch _ _
    simp only [hfetch, Bool.and_eq_true, List.any_eq_true, List.mem_range] at h
    obtain ⟨-, m, hm, hrunning, henters⟩ := h
    simp only [enters, Bool.and_eq_true, decide_eq_true_eq] at henters
    refine ⟨m, hm, _, StepResult.eq_running hrunning, henters.1, ?_⟩
    have hinit := henters.2
    split at hinit
    · rename_i loop' min max skip next' hfetch'
      exact ⟨min, max, skip, next', by rw [hfetch', beq_iff_eq.mp hinit]⟩
    · cases hinit
  · intro loop target next hfetch _ _ stop hstop
    simp only [hfetch, Bool.and_eq_true] at h
    exact of_decide_eq_true ((Option.all_eq_true _ _).mp h.1 stop hstop)

/-- The turns of a run that has ended are plain when the turns before its end are. -/
theorem PlainTurn.of_halted {env : VmEnv W} {start : Vm W} {n : Nat}
    (hend : (vmSteps env n (vmRunStart start)).isRunning = false)
    (h : ((List.range n).all fun m =>
      (vmSteps env m (vmRunStart start)).All (plainTurn env start m)) = true) (m : Nat) (vm : Vm W)
    (hm : vmSteps env m (vmRunStart start) = .running vm) : PlainTurn env start m vm := by
  have hlt : m < n := by
    by_contra hge
    obtain ⟨k, rfl⟩ := Nat.exists_eq_add_of_le (Nat.not_lt.mp hge)
    cases hn : vmSteps env n (vmRunStart start) with
    | running vm' =>
      rw [hn] at hend
      cases hend
    | halted ok final =>
      rw [vmSteps_halted hn k] at hm
      cases hm
  have hturn := List.all_eq_true.mp h m (List.mem_range.mpr hlt)
  rw [hm] at hturn
  exact .of_plainTurn hturn

/-- Where the turns of `vm_exec` on a window are plain, a match is at least as long as the
minimum length, which the window holds. -/
theorem minlength_le_of_vmExec (env : VmEnv W) (offset : Nat) (vm final : Vm W)
    (hoffset : offset ≤ env.s.length)
    (hplain : ∀ n u, vmSteps (env.window offset) n (vmRunStart (vmExecStart vm)) = .running u →
      PlainTurn (env.window offset) (vmExecStart vm) n u)
    (hexec : VmExec (env.window offset) vm true final) :
    minlength env.bc ≤ final.pos ∧ offset + minlength env.bc ≤ env.s.length := by
  obtain ⟨n, hn⟩ := hexec
  have hpays := vmSteps_pays rfl rfl hplain n
  rw [hn] at hpays
  cases hpays with
  | matched hbound hlen =>
    have hwindow : (env.window offset).s.length = env.s.length - offset := List.length_drop
    rw [hwindow] at hlen
    have hmin : minlength env.bc ≤ final.pos := hbound
    exact ⟨hmin, by omega⟩

/-- The code of `'a' ARBNO(SPAN('b'))`. -/
def letterSpans : Bytes :=
  [4, 0, 0, 0, 9, 0, 0, 0, 1, 97, 15, 0, 0, 0, 0, 0, 255, 255, 255, 255, 0, 0, 0, 33, 7, 0, 1, 16,
    0, 0, 0, 0, 24, 0, 0, 1, 0, 0, 0, 0, 0, 98, 0, 0, 0, 98, 0, 0, 0, 34, 0, 0, 0, 1, 0, 0, 0, 0,
    83, 78, 66, 76]

/-- `'a' ARBNO(SPAN('b'))` on "xabb" from offset 1. -/
theorem minlength_le_of_vmExec_letterSpans :
    ∃ final, VmExec ((VmEnv.ofCode letterSpans [0x78, 0x61, 0x62, 0x62] .bare).window 1)
        (.zero ⟨[], ()⟩) true final ∧
      minlength letterSpans ≤ final.pos ∧ 1 + minlength letterSpans ≤ 4 := by
  have hrun : (vmSteps ((VmEnv.ofCode letterSpans [0x78, 0x61, 0x62, 0x62] .bare).window 1) 6
      (vmRunStart (vmExecStart (.zero ⟨[], ()⟩)))).isAccepted = true := by decide +kernel
  have hexec : VmExec ((VmEnv.ofCode letterSpans [0x78, 0x61, 0x62, 0x62] .bare).window 1)
      (.zero ⟨[], ()⟩) true _ := ⟨6, StepResult.eq_halted hrun⟩
  refine ⟨_, hexec, ?_⟩
  exact minlength_le_of_vmExec (VmEnv.ofCode letterSpans [0x78, 0x61, 0x62, 0x62] .bare) 1
    (.zero ⟨[], ()⟩) _ (by decide)
    (PlainTurn.of_halted (n := 6) (by decide +kernel) (by decide +kernel)) hexec

/-! ## A jump into a loop -/

/-- `'ab' (:(L) | :(L)) S: ARBNO(SPAN('x') L: '') (POS(1) | LEN(1) :(S))`: behind the first
jump the loop is left, entered, and left again, and failure brings back the last position
from before it was entered. -/
def intoLoop : AstNode :=
  .concat
    [.literal [0x61, 0x62],
      .alt (.goto [0x4C]) (.goto [0x4C]),
      .label [0x53] (.arbno (.concat [.span [0x78], .label [0x4C] (.literal [])])),
      .alt (.pos 1) (.concat [.len 1, .goto [0x53]])]

/-- Its code. -/
def intoLoopCode : Bytes :=
  [4, 0, 0, 0, 9, 0, 0, 0, 2, 97, 98, 3, 0, 0, 0, 20, 0, 0, 0, 28, 23, 0, 0, 2, 0, 0, 0, 31, 23, 0,
    0, 22, 0, 1, 15, 0, 0, 0, 0, 0, 255, 255, 255, 255, 0, 0, 0, 69, 7, 0, 1, 22, 0, 0, 4, 0, 0, 0,
    63, 0, 0, 0, 0, 16, 0, 0, 0, 0, 48, 3, 0, 0, 0, 78, 0, 0, 0, 88, 37, 0, 0, 0, 1, 2, 0, 0, 0, 96,
    12, 0, 0, 0, 1, 23, 0, 1, 0, 0, 1, 0, 0, 0, 0, 0, 120, 0, 0, 0, 120, 0, 0, 0, 97, 0, 0, 0, 1, 0,
    0, 0, 54, 0, 0, 0, 34, 0, 0, 0, 2, 83, 78, 66, 76]

/-- The greedy shortcut steps back over the literal: a match of "abc" ends at 1, and the
minimum length is 2. -/
theorem minlength_over_vmExec :
    compileAstToBytecodeC .caseSensitive intoLoop = some intoLoopCode ∧
      minlength intoLoopCode = 2 ∧
      ∃ final, VmExec ((VmEnv.ofCode intoLoopCode [0x61, 0x62, 0x63] .bare).window 0)
        (.zero ⟨[], ()⟩) true final ∧ final.pos = 1 := by
  refine ⟨by decide +kernel, by decide +kernel, ?_⟩
  have hrun : (vmSteps ((VmEnv.ofCode intoLoopCode [0x61, 0x62, 0x63] .bare).window 0) 40
      (vmRunStart (vmExecStart (.zero ⟨[], ()⟩)))).isAccepted = true := by decide +kernel
  exact ⟨_, ⟨40, StepResult.eq_halted hrun⟩, by decide +kernel⟩

end Snobol4
