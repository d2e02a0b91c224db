import Snobol4.Positional
import Snobol4.Support.Balance

/-!
# Balanced — `BAL` (`vm_exec.c`)

The handler counts the depth of two delimiters in an `int` from the cursor on and stops where it
is back at zero, which is the end of the balanced text that starts there if the depth stays below
2³¹.  Where the text does not start with the open delimiter the handler leaves the loop of `vm_run`
instead of failing.
-/

namespace Snobol4

open Utf8 Balance

variable {W : Type}

/-- The delimiters of the instruction. -/
def balDelims (openCp closeCp : Nat) (hne : openCp ≠ closeCp) : Delims Char where
  isOpen c := c.toNat == openCp
  isClose c := c.toNat == closeCp
  disjoint c h := by
    rw [beq_iff_eq] at h
    rw [h]
    exact beq_false_of_ne hne

section

variable {openCp closeCp : Nat} {hne : openCp ≠ closeCp}

/-- While the depth fits an `int`, the scan of the handler is the scan over the characters. -/
theorem balScan_eq {s : Bytes} {fuel pos : Nat} {rest : List Char} (h : Sees s pos rest)
    (hfuel : rest.length ≤ fuel) {depth : Int} (hpos : 0 < depth)
    (hbelow : (balDelims openCp closeCp hne).Below 2147483648 depth rest) :
    balScan s openCp closeCp fuel pos depth =
      ((balDelims openCp closeCp hne).scan depth rest).map fun n => pos + cpOffset rest n := by
  induction rest generalizing fuel pos depth with
  | nil =>
    cases fuel with
    | zero => rfl
    | succ fuel =>
      rw [balScan, h.peekCp_nil]
      rfl
  | cons c rest ih =>
    obtain ⟨fuel, rfl⟩ : ∃ k, fuel = k + 1 := ⟨fuel - 1, by rw [List.length_cons] at hfuel; omega⟩
    have hmore : ∀ o : Option Nat,
        (o.map fun n => pos + c.utf8Size + cpOffset rest n) =
          (o.map (· + 1)).map fun n => pos + cpOffset (c :: rest) n := by
      intro o
      rw [Option.map_map]
      refine congrArg (o.map ·) (funext fun n => ?_)
      rw [Function.comp, cpOffset, cpOffset, List.take_succ_cons, encode_cons, List.length_append,
        String.length_utf8EncodeChar, Nat.add_assoc]
    have hrest := fun {d : Int} => @ih fuel _ h.tail (Nat.le_of_succ_le_succ hfuel) d
    have hlt := hbelow.lt
    have hone : cpOffset (c :: rest) 1 = c.utf8Size := by
      rw [cpOffset, List.take_succ_cons, List.take_zero, encode_cons, encode_nil,
        List.append_nil, String.length_utf8EncodeChar]
    have hdepth := Delims.depth_singleton (D := balDelims openCp closeCp hne) c
    rw [balScan, h.peekCp, Delims.scan]
    cases hopen : (balDelims openCp closeCp hne).isOpen c with
    | true =>
      rw [hopen, if_pos rfl] at hdepth
      have htail := hbelow.tail (by omega)
      rw [hdepth] at htail
      have hc : c.toNat = openCp := by simpa [balDelims] using hopen
      simp only [if_pos hc, if_true, toInt_eq (by omega) htail.lt]
      rw [hrest (by omega) htail, hmore]
    | false =>
      have hc : ¬c.toNat = openCp := by simpa [balDelims] using hopen
      rw [hopen, if_neg Bool.false_ne_true] at hdepth
      simp only [if_neg hc, Bool.false_eq_true, if_false]
      cases hclose : (balDelims openCp closeCp hne).isClose c with
      | true =>
        have hc' : c.toNat = closeCp := by simpa [balDelims] using hclose
        rw [hclose, if_pos rfl] at hdepth
        simp only [if_pos hc', if_true, toInt_eq (show 0 ≤ depth - 1 by omega) (by omega)]
        split
        · rw [Option.map_some, hone]
        · have htail := hbelow.tail (by omega)
          rw [hdepth, ← Int.sub_eq_add_neg] at htail
          rw [hrest (by omega) htail, hmore]
      | false =>
        have hc' : ¬c.toNat = closeCp := by simpa [balDelims] using hclose
        rw [hclose, if_neg Bool.false_ne_true] at hdepth
        have htail := hbelow.tail (by omega)
        rw [hdepth, Int.add_zero] at htail
        simp only [if_neg hc', Bool.false_eq_true, if_false]
        rw [hrest hpos htail, hmore]

/-- The scan of the handler from an open delimiter ends behind the balanced text there. -/
theorem balScan_eq_some_iff {s : Bytes} {pos p : Nat} {c : Char} {rest : List Char}
    (h : Sees s pos (c :: rest)) (hopen : c.toNat = openCp)
    (hbelow : (balDelims openCp closeCp hne).Below 2147483648 0 (c :: rest)) :
    balScan s openCp closeCp s.length pos 0 = some p ↔
      ∃ w, w <+: c :: rest ∧ (balDelims openCp closeCp hne).IsBlock w ∧
        p = pos + (encode w).length := by
  have hfuel := h.length_le
  have hisOpen : (balDelims openCp closeCp hne).isOpen c = true := beq_iff_eq.mpr hopen
  have hoffset : ∀ w, w <+: c :: rest → cpOffset (c :: rest) w.length = (encode w).length := by
    intro w hw
    rw [cpOffset, ← List.prefix_iff_eq_take.mp hw]
  have hscan : balScan s openCp closeCp s.length pos 0 =
      (((balDelims openCp closeCp hne).scan 1 rest).map (· + 1)).map
        fun n => pos + cpOffset (c :: rest) n := by
    obtain ⟨fuel, hlen⟩ : ∃ k, s.length = k + 1 :=
      ⟨s.length - 1, by rw [List.length_cons] at hfuel; omega⟩
    rw [hlen, List.length_cons] at hfuel
    have hdepth := Delims.depth_singleton (D := balDelims openCp closeCp hne) c
    rw [hisOpen, if_pos rfl] at hdepth
    have htail := hbelow.tail (by omega)
    rw [hdepth] at htail
    rw [hlen, balScan, h.peekCp]
    simp only [if_pos hopen, toInt_eq (show (0 : Int) ≤ 0 + 1 by decide) (by decide)]
    rw [balScan_eq h.tail (Nat.le_of_succ_le_succ hfuel) (by decide) htail, Int.zero_add,
      Option.map_map]
    refine congrArg (Option.map · _) (funext fun n => ?_)
    rw [Function.comp, cpOffset, cpOffset, List.take_succ_cons, encode_cons, List.length_append,
      String.length_utf8EncodeChar, Nat.add_assoc]
  rw [hscan, Option.map_eq_some_iff]
  constructor
  · rintro ⟨n, hn, rfl⟩
    obtain ⟨w, hw, hblock, rfl⟩ := (Delims.scan_eq_some_iff_block hisOpen).mp hn
    exact ⟨w, hw, hblock, by rw [hoffset w hw]⟩
  · rintro ⟨w, hw, hblock, rfl⟩
    exact ⟨w.length, (Delims.scan_eq_some_iff_block hisOpen).mpr ⟨w, hw, hblock, rfl⟩,
      by rw [hoffset w hw]⟩

end

/-! ## The law -/

/-- From `vm` on, the turn moves the cursor behind the balanced text at the front of `rest`, or
fails when there is none; the choice stack stays as it is. -/
def BalObeys (openCp closeCp : Nat) (hne : openCp ≠ closeCp) (rest : List Char) (vm : Vm W)
    (result : StepResult W) : Prop :=
  ∃ target : Option Nat,
    (∀ p, target = some p ↔
      ∃ w, w <+: rest ∧ (balDelims openCp closeCp hne).IsBlock w ∧
        p = vm.pos + (encode w).length) ∧
      result = vm.moveCursor target

/-- The text starts with the open delimiter. -/
def StartsOpen (openCp : Nat) (rest : List Char) : Prop := rest.head?.map Char.toNat = some openCp

/-- Where the text at the cursor does not nest 2³¹ deep, `BAL` finds the balanced text there
exactly if the text starts with the open delimiter or there is no choice to go back to. -/
theorem vmStep_bal_iff {env : VmEnv W} {vm : Vm W} {openCp closeCp next : Nat}
    {rest : List Char} (hne : openCp ≠ closeCp) (hsees : Sees env.s vm.pos rest)
    (hshallow : (balDelims openCp closeCp hne).Below 2147483648 0 rest)
    (hfetch : fetch env.bc vm.ip = some (.prim (.bal openCp closeCp), next)) :
    BalObeys openCp closeCp hne rest { vm with ip := next } (vmStep env vm) ↔
      StartsOpen openCp rest ∨ vm.choices = [] := by
  have hstep : vmStep env vm =
      { vm with ip := next }.apply env (opBal env.s openCp closeCp vm.pos vm.regs vm.globals) := by
    rw [vmStep, hfetch]
    rfl
  rw [hstep]
  by_cases hopen : StartsOpen openCp rest
  · refine iff_of_true ?_ (.inl hopen)
    cases rest with
    | nil => cases hopen
    | cons c rest =>
      have hc : c.toNat = openCp := Option.some.inj hopen
      refine ⟨balScan env.s openCp closeCp env.s.length vm.pos 0,
        fun p => balScan_eq_some_iff hsees hc hshallow, ?_⟩
      rw [opBal, hsees.peekCp]
      simp only [if_pos hc]
      cases balScan env.s openCp closeCp env.s.length vm.pos 0 with
      | none => rfl
      | some pos =>
        simp only [moveTo, Vm.apply, Vm.moveCursor, Store.record]
        split <;> rfl
  · have hleave : opBal env.s openCp closeCp vm.pos vm.regs vm.globals = .leave vm.globals := by
      cases rest with
      | nil => rw [opBal, hsees.peekCp_nil]
      | cons c rest =>
        have hc : ¬c.toNat = openCp := fun hc => hopen (congrArg some hc)
        rw [opBal, hsees.peekCp]
        exact if_neg hc
    rw [hleave, or_iff_right hopen]
    constructor
    · rintro ⟨target, -, htarget⟩
      cases hchoices : vm.choices with
      | nil => rfl
      | cons c choices =>
        -- the turn ends the run, while moving and failing both go on
        simp only [Vm.apply, Vm.leave, hchoices] at htarget
        cases target with
        | some pos => cases htarget
        | none =>
          simp only [Vm.moveCursor, Vm.backtrack] at htarget
          cases htarget
    · intro hchoices
      refine ⟨none, ?_, ?_⟩
      · intro p
        refine iff_of_false (by simp) ?_
        rintro ⟨w, hw, hblock, -⟩
        obtain ⟨c, v, rfl, hc⟩ := hblock.opens
        obtain ⟨rest, rfl⟩ := hw
        exact hopen (congrArg some (beq_iff_eq.mp hc))
      · simp only [Vm.apply, Vm.leave, Vm.moveCursor, Vm.backtrack, hchoices]

/-- The code of `BAL('(', ')')`. -/
def balParens : Bytes := [OpCode.bal.code, 0, 0, 0, 0x28, 0, 0, 0, 0x29, OpCode.accept.code]

/-- The VM at the start of the code with one choice saved. -/
def Vm.oneChoice : Vm Unit :=
  (Vm.zero ⟨[], ()⟩).pushChoice (VmEnv.ofCode balParens [] .bare) 9 0

/-- In front of `a` the turn ends the run although there is a choice to go back to. -/
theorem bal_leaves_choice :
    Sees (encode ['a']) 0 ['a'] ∧
      ¬BalObeys 0x28 0x29 (by decide) ['a'] { Vm.oneChoice with ip := 9 }
        (vmStep (VmEnv.ofCode balParens (encode ['a']) .bare) Vm.oneChoice) := by
  refine ⟨.start _, ?_⟩
  have hturn : ∃ final, vmStep (VmEnv.ofCode balParens (encode ['a']) .bare) Vm.oneChoice =
      .halted false final := ⟨_, rfl⟩
  rintro ⟨target, -, htarget⟩
  obtain ⟨final, hfinal⟩ := hturn
  rw [hfinal] at htarget
  cases target with
  | some pos => cases htarget
  | none => cases htarget

theorem vmStep_bal_parens :
    BalObeys 0x28 0x29 (by decide) ['(', 'x', ')', 'y'] { (Vm.zero ⟨[], ()⟩ : Vm Unit) with ip := 9 }
      (vmStep (VmEnv.ofCode balParens (encode ['(', 'x', ')', 'y']) .bare) (.zero ⟨[], ()⟩)) := by
  have hfetch : fetch balParens 0 = some (.prim (.bal 0x28 0x29), 9) := by decide
  have hshallow : (balDelims 0x28 0x29 (by decide)).Below 2147483648 0 ['(', 'x', ')', 'y'] := by
    intro n hn _
    have hsmall : ∀ n ≤ 4, (0 : Int) + (balDelims 0x28 0x29 (by decide)).depth
        (['(', 'x', ')', 'y'].take n) < 2147483648 := by decide
    exact hsmall n hn
  exact (vmStep_bal_iff (by decide) (.start _) hshallow hfetch).mpr (.inl rfl)

end Snobol4
