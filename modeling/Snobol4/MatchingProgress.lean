import Snobol4.Matching

/-!
# MatchingProgress — leaves never move the cursor back

Every handler of a plain instruction leaves the cursor where it is or moves it on,
and not beyond the end of the subject; `OP_SPAN` moves it on by at least one byte,
and the retry of `OP_BREAKX` lies behind the position it is saved at.
-/

namespace Snobol4

/-! ## Scans -/

theorem utf8PeekNext_bounds {s : Bytes} {pos n : Nat} {cp : UInt32}
    (h : utf8PeekNext s pos = some (cp, n)) : 0 < n ∧ pos + n ≤ s.length := by
  have hlen : (s.drop pos).length = s.length - pos := List.length_drop
  unfold utf8PeekNext at h
  cases hdrop : s.drop pos with
  | nil => simp [hdrop] at h
  | cons c rest =>
    rw [hdrop, List.length_cons] at hlen
    simp only [hdrop] at h
    split at h
    · cases h
      omega
    split at h
    · cases rest with
      | nil => simp at h
      | cons b₁ rest =>
        cases h
        simp only [List.length_cons] at hlen
        omega
    split at h
    · obtain _ | ⟨b₁, _ | ⟨b₂, rest⟩⟩ := rest
      · simp at h
      · simp at h
      · cases h
        simp only [List.length_cons] at hlen
        omega
    split at h
    · obtain _ | ⟨b₁, _ | ⟨b₂, _ | ⟨b₃, rest⟩⟩⟩ := rest
      · simp at h
      · simp at h
      · simp at h
      · cases h
        simp only [List.length_cons] at hlen
        omega
    · simp at h

theorem peekCp_bounds {s : Bytes} {pos cp n : Nat} (h : peekCp s pos = some (cp, n)) :
    0 < n ∧ pos + n ≤ s.length := by
  simp only [peekCp, Option.map_eq_some_iff, Prod.mk.injEq] at h
  obtain ⟨⟨cp', n'⟩, hpeek, -, rfl⟩ := h
  exact utf8PeekNext_bounds hpeek

theorem spanBytes_bounds (s : Bytes) (p : UInt8 → Bool) {pos : Nat} (h : pos ≤ s.length) :
    pos ≤ spanBytes s p pos ∧ spanBytes s p pos ≤ s.length := by
  have hlen := (List.takeWhile_sublist p (l := s.drop pos)).length_le
  rw [List.length_drop] at hlen
  unfold spanBytes
  omega

theorem spanCps_bounds (s : Bytes) (p : Nat → Bool) (fuel : Nat) {pos : Nat} (h : pos ≤ s.length) :
    pos ≤ spanCps s p fuel pos ∧ spanCps s p fuel pos ≤ s.length := by
  induction fuel generalizing pos with
  | zero => exact ⟨le_rfl, h⟩
  | succ fuel ih =>
    unfold spanCps
    split
    · rename_i cp n hpeek
      have := peekCp_bounds hpeek
      split
      · have := ih this.2
        omega
      · exact ⟨le_rfl, h⟩
    · exact ⟨le_rfl, h⟩

theorem skipCps_bounds {s : Bytes} {n pos pos' : Nat} (h : pos ≤ s.length)
    (hskip : skipCps s n pos = some pos') : pos ≤ pos' ∧ pos' ≤ s.length := by
  induction n generalizing pos with
  | zero =>
    cases hskip
    exact ⟨le_rfl, h⟩
  | succ n ih =>
    unfold skipCps at hskip
    split at hskip
    · rename_i cp bytes hpeek
      have := peekCp_bounds hpeek
      have := ih this.2 hskip
      omega
    · simp at hskip

theorem forwardTarget_le (s : Bytes) (n : Nat) {target : Nat} (h : target ≤ s.length) :
    forwardTarget s n target ≤ s.length := by
  induction n generalizing target with
  | zero => exact h
  | succ n ih =>
    unfold forwardTarget
    split
    · exact ih (spanBytes_bounds s _ (by omega)).2
    · exact h

theorem backOverContinuation_le (s : Bytes) (target : Nat) :
    backOverContinuation s target ≤ target := by
  induction target with
  | zero => exact le_rfl
  | succ target ih =>
    unfold backOverContinuation
    split
    · omega
    · exact le_rfl

theorem backwardTarget_le (s : Bytes) (n target : Nat) : backwardTarget s n target ≤ target := by
  induction n generalizing target with
  | zero => exact le_rfl
  | succ n ih =>
    cases target with
    | zero => exact le_rfl
    | succ target =>
      have := ih (backOverContinuation s target)
      have := backOverContinuation_le s target
      rw [backwardTarget]
      omega

theorem balScan_bounds {s : Bytes} {openCp closeCp fuel pos pos' : Nat} {depth : Int}
    (h : balScan s openCp closeCp fuel pos depth = some pos') : pos ≤ pos' ∧ pos' ≤ s.length := by
  induction fuel generalizing pos depth with
  | zero => simp [balScan] at h
  | succ fuel ih =>
    unfold balScan at h
    split at h
    · simp at h
    rename_i cp n hpeek
    have hn := peekCp_bounds hpeek
    split at h
    · have := ih h
      omega
    split at h
    · split at h
      · cases h
        omega
      · have := ih h
        omega
    · have := ih h
      omega

/-! ## Handlers -/

theorem matchLit_bounds {s text : Bytes} {len pos pos' : Nat} (h : pos ≤ s.length)
    (hmatch : matchLit s text len pos = some pos') : pos ≤ pos' ∧ pos' ≤ s.length := by
  simp only [matchLit, Option.ite_none_right_eq_some, Option.some.injEq] at hmatch
  omega

theorem breakTarget_bounds (s : Bytes) (ranges : Option (List CpRange)) {pos : Nat}
    (h : pos ≤ s.length) :
    pos ≤ breakTarget s ranges pos ∧ breakTarget s ranges pos ≤ s.length := by
  unfold breakTarget
  split
  · exact spanBytes_bounds s _ h
  · exact spanCps_bounds s _ _ h

/-- One byte. -/
private theorem byte_bounds {s : Bytes} {p : UInt8 → Bool} {pos pos' : Nat}
    (h : (if (s[pos]?).any p then some (pos + 1) else none) = some pos') :
    pos ≤ pos' ∧ pos' ≤ s.length := by
  simp only [Option.ite_none_right_eq_some, Option.some.injEq] at h
  obtain ⟨hany, rfl⟩ := h
  have hlt : pos < s.length := by
    by_contra hge
    simp [List.getElem?_eq_none (by omega : s.length ≤ pos)] at hany
  omega

theorem matchSet_bounds {s : Bytes} {ranges : Option (List CpRange)} {pos pos' : Nat} {op : SetOp}
    (h : pos ≤ s.length) (hmatch : matchSet s ranges pos op = some pos') :
    pos + (decide (op = .span)).toNat ≤ pos' ∧ pos' ≤ s.length := by
  cases op with
  | any =>
    simp only [matchSet, matchAny] at hmatch
    split at hmatch
    · simp at hmatch
    split at hmatch
    · exact byte_bounds hmatch
    split at hmatch
    · rename_i hpeek
      have := peekCp_bounds hpeek
      simp only [Option.ite_none_right_eq_some, Option.some.injEq] at hmatch
      simp only [reduceCtorEq, decide_false, Bool.toNat_false]
      omega
    · simp at hmatch
  | notany =>
    simp only [matchSet, matchNotany] at hmatch
    split at hmatch
    · exact byte_bounds hmatch
    split at hmatch
    · rename_i hpeek
      have := peekCp_bounds hpeek
      simp only [Option.ite_none_left_eq_some, Option.some.injEq] at hmatch
      simp only [reduceCtorEq, decide_false, Bool.toNat_false]
      omega
    · simp at hmatch
  | span =>
    simp only [matchSet, matchSpan] at hmatch
    split at hmatch
    · simp at hmatch
    rename_i ranges
    have hstop : spanTarget s ranges pos ≤ s.length := by
      unfold spanTarget
      split
      · exact (spanBytes_bounds s _ h).2
      · exact (spanCps_bounds s _ _ h).2
    simp only [Option.ite_none_right_eq_some, Option.some.injEq] at hmatch
    obtain ⟨hlt, rfl⟩ := hmatch
    exact ⟨hlt, hstop⟩
  | «break» =>
    cases hmatch
    exact breakTarget_bounds s ranges h

theorem matchCount_bounds {s : Bytes} {pos pos' n : Nat} {op : CountOp} (h : pos ≤ s.length)
    (hmatch : matchCount s pos op n = some pos') : pos ≤ pos' ∧ pos' ≤ s.length := by
  cases op with
  | len => exact skipCps_bounds h hmatch
  | rpos =>
    simp only [matchCount, Option.ite_none_right_eq_some, Option.some.injEq] at hmatch
    omega
  | rtab =>
    have : rposTarget s n ≤ s.length := backwardTarget_le s n s.length
    by_cases hlt : rposTarget s n < pos
    · simp [matchCount, hlt] at hmatch
    · simp only [matchCount, if_neg hlt, Option.some.injEq] at hmatch
      omega
  | pos =>
    simp only [matchCount, Option.ite_none_right_eq_some, Option.some.injEq] at hmatch
    omega
  | tab =>
    have : posTarget s n ≤ s.length := forwardTarget_le s n (Nat.zero_le s.length)
    by_cases hend : s.length ≤ posTarget s n ∧ 0 < n
    · simp [matchCount, hend] at hmatch
    by_cases hlt : posTarget s n < pos
    · simp [matchCount, hlt] at hmatch
    · simp only [matchCount, if_neg hend, if_neg hlt, Option.some.injEq] at hmatch
      omega

/-! ## Leaves -/

variable {W C : Type}

/-- A result that goes on does so at `k` bytes or more behind `pos`, within the
subject. -/
def PrimResult.Forward (s : Bytes) (pos k : Nat) : PrimResult W → Prop
  | .next pos' _ _ _ => pos + k ≤ pos' ∧ pos' ≤ s.length
  | _ => True

theorem moveTo_forward {s : Bytes} {pos k : Nat} {regs : Regs} {g : Globals W}
    {target : Option Nat}
    (h : ∀ pos', target = some pos' → pos + k ≤ pos' ∧ pos' ≤ s.length) :
    (moveTo regs g target).Forward s pos k := by
  cases target with
  | none => trivial
  | some pos' => exact h pos' rfl

theorem opEval_forward {s : Bytes} {host : Host W} {fn r pos : Nat} {regs : Regs}
    {g : Globals W} (h : pos ≤ s.length) : (opEval host s fn r pos regs g).Forward s pos 0 := by
  unfold opEval
  split
  · trivial
  split
  · split
    · exact ⟨le_rfl, h⟩
    · trivial
  · trivial

theorem opEmitCapture_forward {s : Bytes} {host : Host W} {r pos : Nat} {regs : Regs}
    {g : Globals W} (h : pos ≤ s.length) :
    (opEmitCapture host s r pos regs g).Forward s pos 0 := by
  unfold opEmitCapture
  split <;> exact ⟨le_rfl, h⟩

theorem opTableGet_forward {s : Bytes} {host : Host W} {table key pos : Nat} {regs : Regs}
    {g : Globals W} (h : pos ≤ s.length) :
    (opTableGet host s table key pos regs g).Forward s pos 0 := by
  unfold opTableGet
  split
  · trivial
  split
  · trivial
  split
  · trivial
  · exact ⟨le_rfl, h⟩

theorem opTableSet_forward {s : Bytes} {host : Host W} {table key value pos : Nat} {regs : Regs}
    {g : Globals W} (h : pos ≤ s.length) :
    (opTableSet host s table key value pos regs g).Forward s pos 0 := by
  unfold opTableSet
  split
  · trivial
  split
  · trivial
  split
  · trivial
  split
  · trivial
  · exact ⟨le_rfl, h⟩

theorem opBal_forward {s : Bytes} {openCp closeCp pos : Nat} {regs : Regs} {g : Globals W} :
    (opBal s openCp closeCp pos regs g).Forward s pos 0 := by
  unfold opBal
  split
  · trivial
  split
  · exact moveTo_forward fun pos' h => balScan_bounds h
  · trivial

namespace Leaf

/-- The instruction that consumes. -/
def isSpan : Leaf C → Bool
  | set .span _ => true
  | _ => false

variable {s : Bytes} {host : Host W} {ranges : C → Option (List CpRange)} {l : Leaf C}
  {st st' : Local} {g g' : Globals W}

/-- A plain result moves forward. -/
private theorem forward_of_move {result : PrimResult W} {k : Nat}
    (h : result.Forward s st.pos k) (hmove : result.move = .next st' g') :
    st.pos + k ≤ st'.pos ∧ st'.pos ≤ s.length := by
  cases result with
  | next pos regs undo g =>
    cases hmove
    exact h
  | _ => cases hmove

theorem exec_next (h : st.pos ≤ s.length) (hmove : l.exec s host ranges st g = .next st' g') :
    st.pos + l.isSpan.toNat ≤ st'.pos ∧ st'.pos ≤ s.length := by
  cases l with
  | lit text => exact forward_of_move (moveTo_forward fun _ => matchLit_bounds h) hmove
  | set op c =>
    have := forward_of_move (moveTo_forward fun _ => matchSet_bounds h) hmove
    cases op <;> exact this
  | count op n => exact forward_of_move (moveTo_forward fun _ => matchCount_bounds h) hmove
  | eval fn r => exact forward_of_move (opEval_forward h) hmove
  | anchor type =>
    have hanchor : ∀ pos', matchAnchor s st.pos type = some pos' →
        st.pos + 0 ≤ pos' ∧ pos' ≤ s.length := by
      intro pos' hpos
      simp only [matchAnchor, Option.ite_none_right_eq_some, Option.some.injEq] at hpos
      omega
    exact forward_of_move (moveTo_forward hanchor) hmove
  | emitCapture r => exact forward_of_move (opEmitCapture_forward h) hmove
  | tableGet key reg name => exact forward_of_move (opTableGet_forward h) hmove
  | tableSet key reg name => exact forward_of_move (opTableSet_forward h) hmove
  | bal openCp closeCp => exact forward_of_move opBal_forward hmove
  | rem =>
    cases hmove
    exact ⟨h, le_rfl⟩
  | nop | emitLiteral text | label id | capStart r | capEnd r | assign var r =>
    cases hmove
    exact ⟨le_rfl, h⟩
  | breakx c =>
    have := breakTarget_bounds s (ranges c) h
    simp only [exec, breakxMove] at hmove
    split at hmove
    · cases hmove
    · cases hmove
      exact this
  | accept | fail | goto id | fence | abort | succeed => cases hmove

theorem exec_choice {retry : Local} (h : st.pos ≤ s.length)
    (hmove : l.exec s host ranges st g = .choice st' g' retry) :
    (st.pos + l.isSpan.toNat ≤ st'.pos ∧ st'.pos ≤ s.length) ∧
      st'.pos < retry.pos ∧ retry.pos ≤ s.length := by
  have hplain : ∀ result : PrimResult W, result.move ≠ .choice st' g' retry := by
    intro result
    cases result <;> simp [PrimResult.move]
  cases l with
  | breakx c =>
    have hstop := breakTarget_bounds s (ranges c) h
    simp only [exec, breakxMove] at hmove
    split at hmove
    · rename_i hlt
      have hskip : 0 < (peekCp s (breakTarget s (ranges c) st.pos)).elim 1 (·.2) ∧
          breakTarget s (ranges c) st.pos +
            (peekCp s (breakTarget s (ranges c) st.pos)).elim 1 (·.2) ≤ s.length := by
        cases hpeek : peekCp s (breakTarget s (ranges c) st.pos) with
        | none => exact ⟨Nat.one_pos, hlt⟩
        | some step => exact peekCp_bounds hpeek
      cases hmove
      exact ⟨hstop, Nat.lt_add_of_pos_right hskip.1, hskip.2⟩
    · cases hmove
  | nop | emitLiteral text | label id | rem | accept | fail | goto id | fence | abort | succeed
  | capStart r | capEnd r | assign var r => cases hmove
  | _ => exact absurd hmove (hplain _)

theorem exec_cut (h : st.pos ≤ s.length) (hmove : l.exec s host ranges st g = .cut st' g') :
    st.pos + l.isSpan.toNat ≤ st'.pos ∧ st'.pos ≤ s.length := by
  have hplain : ∀ result : PrimResult W, result.move ≠ .cut st' g' := by
    intro result
    cases result <;> simp [PrimResult.move]
  cases l with
  | fence =>
    cases hmove
    exact ⟨le_rfl, h⟩
  | breakx c =>
    simp only [exec, breakxMove] at hmove
    split at hmove <;> cases hmove
  | nop | emitLiteral text | label id | rem | accept | fail | goto id | abort | succeed
  | capStart r | capEnd r | assign var r => cases hmove
  | _ => exact absurd hmove (hplain _)

end Leaf

end Snobol4
