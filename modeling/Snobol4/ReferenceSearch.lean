import Snobol4.SearchLoop

/-!
# ReferenceSearch — what a search reports (`search_tiers.c`)

The tiers are alternatives to one loop: run `vm_exec` on the window at one offset after
the other; the first success wins, and an attempt that executes `OP_ABORT` ends the search.
That loop is `tier_general_fallback` without metadata.  Where every attempt ends, the loop is
a function of the outcomes of the attempts.
-/

namespace Snobol4

variable {W : Type}

/-! ## Reports -/

/-- `tier_general_fallback` gives up. -/
inductive SearchMissed (env : VmEnv W) (info : SearchMeta) (anchored : Bool) (start : Nat)
    (vm₀ : Vm W) : Prop where
  | past {offset : Nat} {vm : Vm W} (h : SearchReach env info anchored start vm₀ offset vm)
      (hpast : env.s.length < offset)
  | short {offset : Nat} {vm : Vm W} (h : SearchReach env info anchored start vm₀ offset vm)
      (hskip : info.skips env.s offset = false) (hshort : env.s.length < offset + info.minlength)
      (hmin : 0 < info.minlength)
  | failed {offset : Nat} {vm final : Vm W}
      (h : SearchReach env info anchored start vm₀ offset vm) (htries : info.Tries env.s offset)
      (hexec : VmExec (env.window offset) (searchResetVm vm) false final)
      (hend : final.abortFlag = true ∨ env.s.length ≤ offset ∨ anchored = true)

/-- What `tier_general_fallback` reports: `match_start` and `match_end`, or no match. -/
def SearchReports (env : VmEnv W) (info : SearchMeta) (anchored : Bool) (start : Nat)
    (vm₀ : Vm W) : Option (Nat × Nat) → Prop
  | some (offset, stop) =>
      ∃ vm final, SearchFound env info anchored start vm₀ offset vm final ∧
        stop = offset + final.pos
  | none => SearchMissed env info anchored start vm₀

/-! ## Attempts -/

/-- How the attempt at one offset ends. -/
inductive Attempt where
  | found (stop : Nat)
  | failed
  | aborted
  deriving Repr, DecidableEq

/-- A match that ends at `stop`, or a failure. -/
def Attempt.ofStop : Option Nat → Attempt
  | some stop => .found stop
  | none => .failed

/-- The first of the `fuel` offsets from `offset` on at which an attempt finds a match. -/
def firstFound (attempt : Nat → Attempt) : Nat → Nat → Option (Nat × Nat)
  | 0, _ => none
  | fuel + 1, offset =>
      match attempt offset with
      | .found stop => some (offset, stop)
      | .failed => firstFound attempt fuel (offset + 1)
      | .aborted => none

/-- The search over a subject of `len` bytes. -/
def searchFrom (attempt : Nat → Attempt) (len start : Nat) (anchored : Bool) : Option (Nat × Nat) :=
  firstFound attempt (if anchored then 1 else len + 1 - start) start

theorem firstFound_failed {attempt : Nat → Attempt} {fuel n offset : Nat}
    (h : ∀ o, offset ≤ o → o < offset + n → attempt o = .failed) :
    firstFound attempt (n + fuel) offset = firstFound attempt fuel (offset + n) := by
  induction n generalizing offset with
  | zero => rw [Nat.zero_add, Nat.add_zero]
  | succ n ih =>
    have hhere := h offset (Nat.le_refl _) (by omega)
    rw [show n + 1 + fuel = n + fuel + 1 by omega, firstFound, hhere]
    simp only
    rw [ih fun o ho hlt => h o (by omega) (by omega), Nat.add_right_comm, Nat.add_assoc]

/-- Where all attempts fail nothing is found. -/
theorem firstFound_none {attempt : Nat → Attempt} {n offset : Nat}
    (h : ∀ o, offset ≤ o → o < offset + n → attempt o = .failed) :
    firstFound attempt n offset = none := by
  have hall : firstFound attempt (n + 0) offset = firstFound attempt 0 (offset + n) :=
    firstFound_failed h
  exact hall

theorem firstFound_congr {attempt attempt' : Nat → Attempt} {n offset : Nat}
    (h : ∀ o, offset ≤ o → o < offset + n → attempt o = attempt' o) :
    firstFound attempt n offset = firstFound attempt' n offset := by
  induction n generalizing offset with
  | zero => rfl
  | succ n ih =>
    rw [firstFound, firstFound, h offset (Nat.le_refl _) (by omega),
      ih fun o ho hlt => h o (by omega) (by omega)]

/-- An attempt that fails may be left out at the end. -/
theorem firstFound_succ {attempt : Nat → Attempt} {n offset : Nat}
    (h : attempt (offset + n) = .failed) :
    firstFound attempt (n + 1) offset = firstFound attempt n offset := by
  induction n generalizing offset with
  | zero =>
    rw [Nat.add_zero] at h
    simp only [firstFound, h]
  | succ n ih =>
    have hlast : attempt (offset + 1 + n) = .failed := by
      rw [Nat.add_right_comm]
      exact h
    rw [firstFound, ih hlast]
    rfl

/-- The attempts on the windows end as `attempt` says, whatever the VM before. -/
structure VmAttempts (env : VmEnv W) (attempt : Nat → Attempt) : Prop where
  found : ∀ {offset stop : Nat}, offset ≤ env.s.length → attempt offset = .found stop →
    ∀ vm, ∃ final, VmExec (env.window offset) (searchResetVm vm) true final ∧
      stop = offset + final.pos
  failed : ∀ {offset : Nat}, offset ≤ env.s.length → attempt offset = .failed →
    ∀ vm, ∃ final, VmExec (env.window offset) (searchResetVm vm) false final ∧
      final.abortFlag = false
  aborted : ∀ {offset : Nat}, offset ≤ env.s.length → attempt offset = .aborted →
    ∀ vm, ∃ final, VmExec (env.window offset) (searchResetVm vm) false final ∧
      final.abortFlag = true

namespace SearchMeta

theorem skips_empty (s : Bytes) (offset : Nat) : SearchMeta.empty.skips s offset = false := by
  unfold SearchMeta.skips SearchMeta.empty
  rfl

theorem tries_empty {s : Bytes} {offset : Nat} :
    SearchMeta.empty.Tries s offset ↔ offset ≤ s.length := by
  constructor
  · intro h
    exact h.1
  · intro h
    exact ⟨h, skips_empty s offset, .inl rfl⟩

end SearchMeta

namespace VmAttempts

variable {env : VmEnv W} {attempt : Nat → Attempt} {anchored : Bool} {start offset : Nat}
  {vm₀ vm final : Vm W}

/-- An attempt that succeeds. -/
theorem of_success (h : VmAttempts env attempt) (hle : offset ≤ env.s.length)
    (hexec : VmExec (env.window offset) (searchResetVm vm) true final) :
    attempt offset = .found (offset + final.pos) := by
  cases hattempt : attempt offset with
  | found stop =>
    obtain ⟨final', hexec', hstop⟩ := h.found hle hattempt vm
    obtain ⟨-, heq⟩ := hexec.unique hexec'
    rw [hstop, heq]
  | failed =>
    obtain ⟨final', hexec', -⟩ := h.failed hle hattempt vm
    cases (hexec.unique hexec').1
  | aborted =>
    obtain ⟨final', hexec', -⟩ := h.aborted hle hattempt vm
    cases (hexec.unique hexec').1

/-- An attempt that fails. -/
theorem of_failure (h : VmAttempts env attempt) (hle : offset ≤ env.s.length)
    (hexec : VmExec (env.window offset) (searchResetVm vm) false final) :
    attempt offset = if final.abortFlag then .aborted else .failed := by
  cases hattempt : attempt offset with
  | found stop =>
    obtain ⟨final', hexec', -⟩ := h.found hle hattempt vm
    cases (hexec.unique hexec').1
  | failed =>
    obtain ⟨final', hexec', hflag⟩ := h.failed hle hattempt vm
    obtain ⟨-, heq⟩ := hexec.unique hexec'
    rw [heq, hflag]
    rfl
  | aborted =>
    obtain ⟨final', hexec', hflag⟩ := h.aborted hle hattempt vm
    obtain ⟨-, heq⟩ := hexec.unique hexec'
    rw [heq, hflag]
    rfl

/-- The offsets the loop without metadata comes to: all attempts before have failed. -/
theorem of_reach (h : VmAttempts env attempt) (hstart : start ≤ env.s.length)
    (hreach : SearchReach env .empty anchored start vm₀ offset vm) :
    start ≤ offset ∧ offset ≤ env.s.length ∧ (∀ o, start ≤ o → o < offset → attempt o = .failed) ∧
      (start < offset → anchored = false) := by
  induction hreach with
  | start => exact ⟨Nat.le_refl _, hstart, fun o ho hlt => by omega, fun hlt => absurd hlt (Nat.lt_irrefl _)⟩
  | skip _ hskip ih =>
    rw [SearchMeta.skips_empty] at hskip
    cases hskip
  | @failed offset vm final hreach htries hexec habort hlt hscan ih =>
    obtain ⟨hle, hlen, hfailed, -⟩ := ih
    have hhere := h.of_failure hlen hexec
    rw [habort] at hhere
    refine ⟨Nat.le_succ_of_le hle, hlt, ?_, fun _ => hscan⟩
    intro o ho hlt'
    by_cases heq : o = offset
    · rw [heq]
      exact hhere
    · exact hfailed o ho (by
        have hbefore : o < offset + 1 := hlt'
        omega)

/-- The loop without metadata comes to an offset before which all attempts fail. -/
theorem reach (h : VmAttempts env attempt) (vm₀ : Vm W) {n : Nat} (hle : start + n ≤ env.s.length)
    (hfailed : ∀ o, start ≤ o → o < start + n → attempt o = .failed)
    (hscan : 0 < n → anchored = false) :
    ∃ vm, SearchReach env .empty anchored start vm₀ (start + n) vm := by
  induction n with
  | zero => exact ⟨vm₀, .start⟩
  | succ n ih =>
    have hanchored := hscan (Nat.succ_pos n)
    obtain ⟨vm, hreach⟩ := ih (by omega) (fun o ho hlt => hfailed o ho (by omega)) fun _ => hanchored
    obtain ⟨final, hexec, habort⟩ := h.failed (by omega) (hfailed (start + n) (by omega) (by omega)) vm
    exact ⟨final, hreach.failed (SearchMeta.tries_empty.mpr (by omega)) hexec habort (by omega)
      hanchored⟩

/-- A report is the first match of the attempts. -/
theorem eq_searchFrom (h : VmAttempts env attempt) (hstart : start ≤ env.s.length)
    {result : Option (Nat × Nat)} (hreport : SearchReports env .empty anchored start vm₀ result) :
    result = searchFrom attempt env.s.length start anchored := by
  -- the offsets before the last one fail, and the last one decides
  have hupto : ∀ {offset : Nat} {vm : Vm W}, SearchReach env .empty anchored start vm₀ offset vm →
      ∃ fuel, searchFrom attempt env.s.length start anchored = firstFound attempt (fuel + 1) offset ∧
        (env.s.length ≤ offset ∨ anchored = true → fuel = 0) := by
    intro offset vm hreach
    obtain ⟨hle, hlen, hfailed, hscan⟩ := h.of_reach hstart hreach
    unfold searchFrom
    cases hanchored : anchored with
    | true =>
      have heq : start = offset := by
        by_contra hne
        rw [hscan (by omega)] at hanchored
        cases hanchored
      subst heq
      exact ⟨0, rfl, fun _ => rfl⟩
    | false =>
      refine ⟨env.s.length - offset, ?_, ?_⟩
      · have hskip : firstFound attempt (offset - start + (env.s.length - offset + 1)) start =
            firstFound attempt (env.s.length - offset + 1) (start + (offset - start)) :=
          firstFound_failed fun o ho hlt => hfailed o ho (by omega)
        rw [show offset - start + (env.s.length - offset + 1) = env.s.length + 1 - start by omega,
          Nat.add_sub_cancel' hle] at hskip
        exact hskip
      · rintro (hge | hfalse)
        · omega
        · cases hfalse
  cases result with
  | some found =>
    obtain ⟨offset, stop⟩ := found
    obtain ⟨vm, final, hfound, rfl⟩ := hreport
    obtain ⟨fuel, heq, -⟩ := hupto hfound.reach
    rw [heq, firstFound, h.of_success (SearchMeta.tries_empty.mp hfound.tries) hfound.exec]
  | none =>
    cases hreport with
    | past hreach hpast =>
      have hlen := (h.of_reach hstart hreach).2.1
      omega
    | short _ _ _ hmin => exact absurd hmin (Nat.lt_irrefl 0)
    | @failed _ _ final hreach htries hexec hend =>
      obtain ⟨fuel, heq, hfuel⟩ := hupto hreach
      rw [heq, firstFound, h.of_failure (SearchMeta.tries_empty.mp htries) hexec]
      rcases hend with habort | hlast
      · rw [habort]
        rfl
      · rw [hfuel hlast]
        cases final.abortFlag with
        | true => rfl
        | false => rfl

/-- The first match of the attempts is reported. -/
theorem reports (h : VmAttempts env attempt) (hstart : start ≤ env.s.length) (vm₀ : Vm W) :
    SearchReports env .empty anchored start vm₀ (searchFrom attempt env.s.length start anchored) := by
  -- after `n` attempts that failed
  suffices hgen : ∀ fuel n, start + n ≤ env.s.length → (0 < n → anchored = false) →
      (if anchored then 1 else env.s.length + 1 - start) = n + (fuel + 1) →
      (∀ o, start ≤ o → o < start + n → attempt o = .failed) →
      SearchReports env .empty anchored start vm₀ (firstFound attempt (fuel + 1) (start + n)) by
    have hall := hgen (if anchored then 0 else env.s.length - start) 0 hstart
      (fun hlt => absurd hlt (Nat.lt_irrefl 0)) (by split <;> omega) fun o ho hlt => by omega
    unfold searchFrom
    have hfuel : (if anchored then 1 else env.s.length + 1 - start) =
        (if anchored then 0 else env.s.length - start) + 1 := by split <;> omega
    rw [hfuel]
    exact hall
  intro fuel
  induction fuel with
  | zero =>
    intro n hle hscan hfuel hfailed
    obtain ⟨vm, hreach⟩ := h.reach vm₀ hle hfailed hscan
    have htries := SearchMeta.tries_empty.mpr hle
    have hlast : env.s.length ≤ start + n ∨ anchored = true := by
      cases hanchored : anchored with
      | true => exact .inr rfl
      | false =>
        simp only [hanchored, Bool.false_eq_true, if_false] at hfuel
        left
        omega
    rw [firstFound]
    cases hattempt : attempt (start + n) with
    | found stop =>
      obtain ⟨final, hexec, hstop⟩ := h.found hle hattempt vm
      exact ⟨vm, final, ⟨hreach, htries, hexec⟩, hstop⟩
    | failed =>
      obtain ⟨final, hexec, -⟩ := h.failed hle hattempt vm
      exact .failed hreach htries hexec (.inr hlast)
    | aborted =>
      obtain ⟨final, hexec, habort⟩ := h.aborted hle hattempt vm
      exact .failed hreach htries hexec (.inl habort)
  | succ fuel ih =>
    intro n hle hscan hfuel hfailed
    obtain ⟨vm, hreach⟩ := h.reach vm₀ hle hfailed hscan
    have htries := SearchMeta.tries_empty.mpr hle
    have hmore : anchored = false ∧ start + n + 1 ≤ env.s.length := by
      cases hanchored : anchored with
      | true =>
        simp only [hanchored, if_true] at hfuel
        omega
      | false =>
        simp only [hanchored, Bool.false_eq_true, if_false] at hfuel
        exact ⟨rfl, by omega⟩
    rw [firstFound]
    cases hattempt : attempt (start + n) with
    | found stop =>
      obtain ⟨final, hexec, hstop⟩ := h.found hle hattempt vm
      exact ⟨vm, final, ⟨hreach, htries, hexec⟩, hstop⟩
    | failed =>
      refine ih (n + 1) hmore.2 (fun _ => hmore.1) (by omega) ?_
      intro o ho hlt
      by_cases heq : o = start + n
      · rw [heq]
        exact hattempt
      · exact hfailed o ho (by omega)
    | aborted =>
      obtain ⟨final, hexec, habort⟩ := h.aborted hle hattempt vm
      exact .failed hreach htries hexec (.inl habort)

/-- The loop without metadata reports the first match of the attempts and nothing else. -/
theorem reports_iff (h : VmAttempts env attempt) (hstart : start ≤ env.s.length) (vm₀ : Vm W)
    {result : Option (Nat × Nat)} :
    SearchReports env .empty anchored start vm₀ result ↔
      result = searchFrom attempt env.s.length start anchored := by
  constructor
  · exact h.eq_searchFrom hstart
  · rintro rfl
    exact h.reports hstart vm₀

end VmAttempts

end Snobol4
