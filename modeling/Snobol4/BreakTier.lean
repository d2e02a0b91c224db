import Snobol4.CandidateScan

/-!
# BreakTier — the tier that looks for a break character (`search_tiers.c`)

`search_break_accelerated` runs `vm_exec` at an offset and, where that fails, goes on behind the
first byte that ends its scan.  The attempts that it leaves out come to the same break character
and see the same text behind it, so that they end the same way, where the code does not ask how far
it stands from the start of the window.
-/

namespace Snobol4

variable {W : Type}

/-! ## A window in a window -/

section

variable {s : Bytes} {d pos : Nat}

theorem peekCp_drop (s : Bytes) (d pos : Nat) : peekCp (s.drop d) pos = peekCp s (d + pos) := by
  unfold peekCp utf8PeekNext
  rw [List.drop_drop]

theorem spanCps_drop (s : Bytes) (p : Nat → Bool) (fuel d pos : Nat) :
    spanCps s p fuel (d + pos) = d + spanCps (s.drop d) p fuel pos := by
  induction fuel generalizing pos with
  | zero => rfl
  | succ fuel ih =>
    rw [spanCps, spanCps, peekCp_drop]
    cases peekCp s (d + pos) with
    | none => rfl
    | some found =>
      dsimp only
      split
      · rw [Nat.add_assoc, ih]
      · rfl

/-- More fuel than bytes does nothing. -/
theorem spanCps_fuel {p : Nat → Bool} {fuel : Nat} (h : s.length ≤ fuel + pos) (more : Nat) :
    spanCps s p (fuel + more) pos = spanCps s p fuel pos := by
  induction fuel generalizing pos with
  | zero =>
    have hend : peekCp s pos = none := by
      have hdrop : s.drop pos = [] := List.drop_eq_nil_of_le (by omega)
      simp [peekCp, utf8PeekNext, hdrop]
    cases more with
    | zero => rfl
    | succ more => simp only [spanCps, hend]
  | succ fuel ih =>
    rw [Nat.add_right_comm, spanCps, spanCps]
    cases hpeek : peekCp s pos with
    | none => rfl
    | some found =>
      obtain ⟨cp, n⟩ := found
      have hn := peekCp_bounds hpeek
      dsimp only
      rw [ih (by omega)]

/-- The scan over codepoints with the lengths of the two windows for fuel. -/
theorem spanCps_window (s : Bytes) (p : Nat → Bool) (d pos : Nat) :
    spanCps s p s.length (d + pos) = d + spanCps (s.drop d) p (s.drop d).length pos := by
  have hlen : (s.drop d).length = s.length - d := List.length_drop
  have hfuel : spanCps (s.drop d) p ((s.drop d).length + (s.length - (s.drop d).length)) pos =
      spanCps (s.drop d) p (s.drop d).length pos :=
    spanCps_fuel (Nat.le_add_right _ _) _
  rw [Nat.add_sub_cancel' (by omega)] at hfuel
  rw [spanCps_drop, hfuel]

theorem skipCps_drop (s : Bytes) (n d pos : Nat) :
    skipCps s n (d + pos) = (skipCps (s.drop d) n pos).map (d + ·) := by
  induction n generalizing pos with
  | zero => rfl
  | succ n ih =>
    rw [skipCps, skipCps, peekCp_drop]
    cases peekCp s (d + pos) with
    | none => rfl
    | some found =>
      dsimp only
      rw [Nat.add_assoc, ih]

theorem matchLit_drop (s text : Bytes) (len d pos : Nat) :
    matchLit s text len (d + pos) = (matchLit (s.drop d) text len pos).map (d + ·) := by
  unfold matchLit
  rw [List.drop_drop, List.length_drop, Nat.sub_sub]
  split
  · rw [Option.map_some, Nat.add_assoc]
  · rfl

theorem spanTarget_drop (s : Bytes) (ranges : List CpRange) (d pos : Nat) :
    spanTarget s ranges (d + pos) = d + spanTarget (s.drop d) ranges pos := by
  unfold spanTarget
  split
  · exact spanBytes_drop ..
  · exact spanCps_window ..

theorem breakTarget_drop (s : Bytes) (ranges : Option (List CpRange)) (d pos : Nat) :
    breakTarget s ranges (d + pos) = d + breakTarget (s.drop d) ranges pos := by
  unfold breakTarget
  split
  · exact spanBytes_drop ..
  · exact spanCps_window ..

theorem matchSet_drop (s : Bytes) (ranges : Option (List CpRange)) (d pos : Nat) (op : SetOp) :
    matchSet s ranges (d + pos) op = (matchSet (s.drop d) ranges pos op).map (d + ·) := by
  cases op with
  | any =>
    unfold matchSet matchAny
    simp only [List.getElem?_drop, peekCp_drop]
    cases ranges with
    | none => rfl
    | some ranges =>
      dsimp only
      cases rangesToBitmap 127 ranges with
      | some bitmap =>
        dsimp only
        split <;> rfl
      | none =>
        cases peekCp s (d + pos) with
        | none => rfl
        | some found =>
          dsimp only
          split
          · rw [Option.map_some, Nat.add_assoc]
          · rfl
  | notany =>
    unfold matchSet matchNotany
    simp only [List.getElem?_drop, peekCp_drop]
    cases ranges.bind (rangesToBitmap 127) with
    | some bitmap =>
      dsimp only
      split <;> rfl
    | none =>
      cases peekCp s (d + pos) with
      | none => rfl
      | some found =>
        dsimp only
        split
        · rfl
        · rw [Option.map_some, Nat.add_assoc]
  | span =>
    unfold matchSet matchSpan
    cases ranges with
    | none => rfl
    | some ranges =>
      dsimp only
      rw [spanTarget_drop]
      grind
  | «break» => rw [matchSet, matchSet, breakTarget_drop, Option.map_some]

end

/-! ## Turn by turn -/

/-- The instructions that do not look at the start of the window or at a register; loops are left
out. -/
def Instr.floats : Instr → Bool
  | .prim p =>
      match p with
      | .nop | .lit .. | .set .. | .capStart _ | .capEnd _ | .assign .. | .emitLiteral .. | .label _
      | .rem => true
      | .count op _ => decide (op = .len)
      | _ => false
  | .repeatInit .. | .repeatStep .. => false
  | _ => true

/-- The code that is reached from an address has such instructions only. -/
structure FloatingCode (env : VmEnv W) (start : Nat) (allowed : Nat → Prop) : Prop where
  start : allowed start
  floats : ∀ ip instr next, allowed ip → fetch env.bc ip = some (instr, next) → instr.floats = true
  closed : ∀ ip instr next target, allowed ip → fetch env.bc ip = some (instr, next) →
    target ∈ instr.successors (registerLabels env.bc) ip next → allowed target

/-- The check of a list of addresses. -/
def floatsAll (bc : Bytes) (start : Nat) (ips : List Nat) : Bool :=
  ips.contains start && ips.all fun ip =>
    (fetch bc ip).all fun fetched =>
      fetched.1.floats && (fetched.1.successors (registerLabels bc) ip fetched.2).all ips.contains

theorem FloatingCode.of_floatsAll {env : VmEnv W} {start : Nat} {ips : List Nat}
    (h : floatsAll env.bc start ips = true) : FloatingCode env start (· ∈ ips) := by
  rw [floatsAll, Bool.and_eq_true, List.all_eq_true] at h
  obtain ⟨hstart, hall⟩ := h
  have hat : ∀ ip instr next, ip ∈ ips → fetch env.bc ip = some (instr, next) →
      instr.floats = true ∧
        ∀ target ∈ instr.successors (registerLabels env.bc) ip next, target ∈ ips := by
    intro ip instr next hip hfetch
    have hcheck := hall ip hip
    rw [hfetch, Option.all_some, Bool.and_eq_true, List.all_eq_true] at hcheck
    exact ⟨hcheck.1, fun target htarget => List.contains_iff_mem.mp (hcheck.2 target htarget)⟩
  exact ⟨List.contains_iff_mem.mp hstart, fun ip instr next hip hfetch =>
    (hat ip instr next hip hfetch).1, fun ip instr next target hip hfetch hsucc =>
    (hat ip instr next hip hfetch).2 target hsucc⟩

/-- Two VMs at the same byte of the subject: the window of the one starts `d` bytes before that of
the other. -/
structure Shifted (d : Nat) (vm vm' : Vm W) : Prop where
  ip : vm.ip = vm'.ip
  pos : vm.pos = d + vm'.pos
  choices : vm.choices.map (fun c => (c.ip, c.pos)) = vm'.choices.map fun c => (c.ip, d + c.pos)
  abortFlag : vm.abortFlag = vm'.abortFlag

/-- A turn on the one window, and one on the other. -/
inductive ShiftedTurn (d : Nat) : StepResult W → StepResult W → Prop where
  | running {vm vm' : Vm W} (h : Shifted d vm vm') : ShiftedTurn d (.running vm) (.running vm')
  | halted {ok : Bool} {vm vm' : Vm W} (hpos : ok = true → vm.pos = d + vm'.pos)
      (hflag : vm.abortFlag = vm'.abortFlag) :
      ShiftedTurn d (.halted ok vm) (.halted ok vm')

section

variable {env : VmEnv W} {d o : Nat} {vm vm' : Vm W}

theorem ShiftedTurn.backtrack
    (hchoices : vm.choices.map (fun c => (c.ip, c.pos)) =
      vm'.choices.map fun c => (c.ip, d + c.pos))
    (hflag : vm.abortFlag = vm'.abortFlag) : ShiftedTurn d vm.backtrack vm'.backtrack := by
  unfold Vm.backtrack
  cases hvm : vm.choices with
  | nil =>
    rw [hvm] at hchoices
    cases hvm' : vm'.choices with
    | nil => exact .halted (fun h => by cases h) hflag
    | cons c rest =>
      rw [hvm'] at hchoices
      cases hchoices
  | cons c rest =>
    rw [hvm] at hchoices
    cases hvm' : vm'.choices with
    | nil =>
      rw [hvm'] at hchoices
      cases hchoices
    | cons c' rest' =>
      rw [hvm', List.map_cons, List.map_cons, List.cons.injEq] at hchoices
      have hplace := Prod.mk.inj hchoices.1
      exact .running ⟨hplace.1, hplace.2, hchoices.2, hflag⟩

theorem ShiftedTurn.moves (env env' : VmEnv W) (h : Shifted d vm vm') (next : Nat)
    (target : Option Nat) :
    ShiftedTurn d
      (Vm.apply env { vm with ip := next } (moveTo vm.regs vm.globals (target.map (d + ·))))
      (Vm.apply env' { vm' with ip := next } (moveTo vm'.regs vm'.globals target)) := by
  cases target with
  | none => exact .backtrack h.choices h.abortFlag
  | some pos => exact .running ⟨rfl, rfl, h.choices, h.abortFlag⟩

/-- An instruction that leaves the cursor. -/
theorem ShiftedTurn.stays (env env' : VmEnv W) (h : Shifted d vm vm') (next : Nat)
    (regs regs' : Regs) (undo undo' : List UndoRecord) (g g' : Globals W) :
    ShiftedTurn d (Vm.apply env { vm with ip := next } (.next vm.pos regs undo g))
      (Vm.apply env' { vm' with ip := next } (.next vm'.pos regs' undo' g')) :=
  .running ⟨rfl, h.pos, h.choices, h.abortFlag⟩

theorem Shifted.breakx (h : Shifted d vm vm')
    (hs : (env.window (o + d)).s = (env.window o).s.drop d) (hle : o + d ≤ env.s.length)
    (setId here next : Nat) :
    Shifted d (opBreakx (env.window o) setId here { vm with ip := next })
      (opBreakx (env.window (o + d)) setId here { vm' with ip := next }) := by
  have hstop : breakTarget (env.window o).s ((env.window o).ranges setId) vm.pos =
      d + breakTarget (env.window (o + d)).s ((env.window (o + d)).ranges setId) vm'.pos := by
    rw [hs, h.pos]
    exact breakTarget_drop ..
  have hlen : (env.window o).s.length = d + (env.window (o + d)).s.length := by
    show (env.s.drop o).length = d + (env.s.drop (o + d)).length
    rw [List.length_drop, List.length_drop]
    omega
  unfold opBreakx
  dsimp only
  rw [hstop, hlen]
  by_cases hlt : breakTarget (env.window (o + d)).s ((env.window (o + d)).ranges setId) vm'.pos <
      (env.window (o + d)).s.length
  · rw [if_pos hlt, if_pos (Nat.add_lt_add_left hlt d), hs, peekCp_drop]
    refine ⟨rfl, rfl, ?_, h.abortFlag⟩
    exact congrArg₂ List.cons (Prod.ext rfl (Nat.add_assoc ..)) h.choices
  · rw [if_neg hlt, if_neg fun hlt' => hlt (Nat.lt_of_add_lt_add_left hlt')]
    exact ⟨rfl, rfl, h.choices, h.abortFlag⟩

/-- One turn. -/
theorem Shifted.step (h : Shifted d vm vm') (hle : o + d ≤ env.s.length)
    (hfloats : ∀ instr next, fetch env.bc vm.ip = some (instr, next) → instr.floats = true) :
    ShiftedTurn d (vmStep (env.window o) vm) (vmStep (env.window (o + d)) vm') := by
  have hs : (env.window (o + d)).s = (env.window o).s.drop d := by
    show env.s.drop (o + d) = (env.s.drop o).drop d
    rw [List.drop_drop]
  unfold vmStep
  rw [← h.ip]
  cases hfetch : fetch env.bc vm.ip with
  | none =>
    rw [show fetch (env.window o).bc vm.ip = none from hfetch,
      show fetch (env.window (o + d)).bc vm.ip = none from hfetch]
    exact .backtrack h.choices h.abortFlag
  | some fetched =>
    obtain ⟨instr, next⟩ := fetched
    have hfloat := hfloats instr next hfetch
    rw [show fetch (env.window o).bc vm.ip = some (instr, next) from hfetch,
      show fetch (env.window (o + d)).bc vm.ip = some (instr, next) from hfetch]
    cases instr with
    | prim p =>
      dsimp only
      cases p with
      | nop => exact .stays _ _ h next ..
      | lit off len =>
        have htarget := matchLit_drop (env.window o).s ((env.bc.drop off).take len) len d vm'.pos
        rw [← h.pos, ← hs] at htarget
        rw [Prim.exec, show matchLit (env.window o).s (((env.window o).bc.drop off).take len) len
          vm.pos = _ from htarget]
        exact .moves _ _ h next _
      | set op id =>
        have htarget := matchSet_drop (env.window o).s (env.ranges id) d vm'.pos op
        rw [← h.pos, ← hs] at htarget
        rw [Prim.exec, show matchSet (env.window o).s ((env.window o).ranges id) vm.pos op = _ from
          htarget]
        exact .moves _ _ h next _
      | capStart r => exact .stays _ _ h next ..
      | capEnd r => exact .stays _ _ h next ..
      | assign var r => exact .stays _ _ h next ..
      | emitLiteral off len => exact .stays _ _ h next ..
      | label l => exact .stays _ _ h next ..
      | count op n =>
        obtain rfl : op = .len := of_decide_eq_true hfloat
        have htarget := skipCps_drop (env.window o).s n d vm'.pos
        rw [← h.pos, ← hs] at htarget
        rw [Prim.exec, show matchCount (env.window o).s vm.pos .len n = _ from htarget]
        exact .moves _ _ h next _
      | rem =>
        refine .running ⟨rfl, ?_, h.choices, h.abortFlag⟩
        show (env.s.drop o).length = d + (env.s.drop (o + d)).length
        rw [List.length_drop, List.length_drop]
        omega
      | eval | emitCapture | tableGet | tableSet | bal | anchor => cases hfloat
    | accept => exact .halted (fun _ => h.pos) h.abortFlag
    | succeed => exact .halted (fun _ => h.pos) h.abortFlag
    | abort => exact .halted (fun habort => by cases habort) rfl
    | fail => exact .backtrack h.choices h.abortFlag
    | unknown _ => exact .backtrack h.choices h.abortFlag
    | jmp target => exact .running ⟨rfl, h.pos, h.choices, h.abortFlag⟩
    | split a b =>
      refine .running ⟨rfl, h.pos, ?_, h.abortFlag⟩
      exact congrArg₂ List.cons (Prod.ext rfl h.pos) h.choices
    | goto label =>
      dsimp only [VmEnv.window]
      cases (registerLabels env.bc)[label]? with
      | none => exact .backtrack h.choices h.abortFlag
      | some target => exact .running ⟨rfl, h.pos, h.choices, h.abortFlag⟩
    | breakx setId => exact .running (h.breakx hs hle setId vm.ip next)
    | fence => exact .running ⟨rfl, h.pos, rfl, h.abortFlag⟩
    | repeatInit | repeatStep => cases hfloat

/-- A run. -/
theorem Shifted.steps {start : Nat} {allowed : Nat → Prop} (h : Shifted d vm vm')
    (hle : o + d ≤ env.s.length) (hcode : FloatingCode env start allowed)
    (hwithin : vm.Within allowed) (n : Nat) :
    ShiftedTurn d (vmSteps (env.window o) n vm) (vmSteps (env.window (o + d)) n vm') := by
  induction n generalizing vm vm' with
  | zero => exact .running h
  | succ n ih =>
    have hturn := h.step hle fun instr next hfetch =>
      hcode.floats vm.ip instr next hwithin.ip hfetch
    have hkeeps : Keeps (env.window o).bc vm.ip allowed (vmStep (env.window o) vm) :=
      hwithin.step fun instr next target hfetch _ hsucc =>
        hcode.closed vm.ip instr next target hwithin.ip hfetch hsucc
    rw [vmSteps, vmSteps]
    generalize vmStep (env.window o) vm = result at hturn hkeeps
    generalize vmStep (env.window (o + d)) vm' = result' at hturn
    cases hturn with
    | running h' =>
      cases hkeeps with
      | running hwithin' => exact ih h' hwithin'
    | halted hpos hflag => exact .halted hpos hflag

/-- The run on the window that starts before ends as that on the other. -/
theorem Shifted.ends {start : Nat} {allowed : Nat → Prop} (h : Shifted d vm vm')
    (hle : o + d ≤ env.s.length) (hcode : FloatingCode env start allowed)
    (hwithin : vm.Within allowed) {attempt : Attempt}
    (hends : Ends (env.window (o + d)) vm' attempt) :
    Ends (env.window o) vm (attempt.shift d) := by
  cases attempt with
  | found stop =>
    obtain ⟨n, final, hn, rfl⟩ := hends
    have hturn := h.steps hle hcode hwithin n
    rw [hn] at hturn
    generalize hresult : vmSteps (env.window o) n vm = result at hturn
    cases hturn with
    | @halted _ final' _ hpos => exact ⟨n, final', hresult, hpos rfl⟩
  | failed =>
    obtain ⟨n, final, hn, hfinal⟩ := hends
    have hturn := h.steps hle hcode hwithin n
    rw [hn] at hturn
    generalize hresult : vmSteps (env.window o) n vm = result at hturn
    cases hturn with
    | @halted _ final' _ _ hflag => exact ⟨n, final', hresult, hflag.trans hfinal⟩
  | aborted =>
    obtain ⟨n, final, hn, hfinal⟩ := hends
    have hturn := h.steps hle hcode hwithin n
    rw [hn] at hturn
    generalize hresult : vmSteps (env.window o) n vm = result at hturn
    cases hturn with
    | @halted _ final' _ _ hflag => exact ⟨n, final', hresult, hflag.trans hfinal⟩

end

/-! ## The root -/

/-- A run that ends as another one. -/
theorem Ends.of_halts {env : VmEnv W} {vm vm' : Vm W} {attempt : Attempt}
    (hhalts : ∀ n ok final, vmSteps env n vm = .halted ok final →
      ∃ m, vmSteps env m vm' = .halted ok final) (h : Ends env vm attempt) :
    Ends env vm' attempt := by
  cases attempt with
  | found stop =>
    obtain ⟨n, final, hn, hpos⟩ := h
    obtain ⟨m, hm⟩ := hhalts n true final hn
    exact ⟨m, final, hm, hpos⟩
  | failed =>
    obtain ⟨n, final, hn, hflag⟩ := h
    obtain ⟨m, hm⟩ := hhalts n false final hn
    exact ⟨m, final, hm, hflag⟩
  | aborted =>
    obtain ⟨n, final, hn, hflag⟩ := h
    obtain ⟨m, hm⟩ := hhalts n false final hn
    exact ⟨m, final, hm, hflag⟩

theorem Ends.of_step {env : VmEnv W} {vm vm' : Vm W} {attempt : Attempt}
    (hstep : vmStep env vm = .running vm') (h : Ends env vm attempt) : Ends env vm' attempt := by
  refine h.of_halts fun n ok final hn => ?_
  cases n with
  | zero => cases hn
  | succ n =>
    rw [vmSteps_running hstep] at hn
    exact ⟨n, hn⟩

/-- Two states from which the next turn comes to the same. -/
theorem Ends.of_same_step {env : VmEnv W} {vm vm' : Vm W} {attempt : Attempt}
    (hstep : vmStep env vm = vmStep env vm') (h : Ends env vm attempt) : Ends env vm' attempt := by
  refine h.of_halts fun n ok final hn => ⟨n, ?_⟩
  cases n with
  | zero => cases hn
  | succ n =>
    rw [vmSteps, hstep] at hn
    rw [vmSteps]
    exact hn

/-- Instructions that do nothing lead to the root. -/
theorem OnLine.idle {env : VmEnv W} {ip stop pos : Nat} {vm : Vm W} (h : OnLine ip pos vm)
    (hline : LineTo env.bc ip [] stop) :
    ∃ vm', OnLine stop pos vm' ∧ ∀ attempt, Ends env vm attempt ↔ Ends env vm' attempt := by
  generalize hops : ([] : List LineOp) = ops at hline
  induction hline generalizing vm with
  | refl ip => exact ⟨vm, h, fun _ => Iff.rfl⟩
  | skip hfetch hidle _ ih =>
    obtain ⟨vm₁, hstep, hvm₁⟩ := h.step_idle hfetch hidle
    obtain ⟨vm', hvm', hends⟩ := ih hvm₁ hops
    exact ⟨vm', hvm', fun attempt => ⟨fun h => (hends attempt).mp (h.of_step hstep),
      fun h => Ends.step hstep ((hends attempt).mpr h)⟩⟩
  | op => cases hops

section

variable {env : VmEnv W} {op : OpCode} {o d : Nat}

/-- `search_break_accelerated`: the first byte from an offset on that ends the scan. -/
def breakScanEnd (s : Bytes) (bitmap : UInt8 → Bool) (offset : Nat) : Nat :=
  spanBytes s (fun b => decide (b.toNat ≤ 127) && !bitmap b) offset

theorem spanBytes_within {s : Bytes} {p : UInt8 → Bool} {pos i : Nat}
    (h : pos + i < spanBytes s p pos) : (s[pos + i]?).any p = true := by
  have hlt : i < ((s.drop pos).takeWhile p).length := by
    rw [spanBytes] at h
    omega
  obtain ⟨rest, hrest⟩ := List.takeWhile_prefix (l := s.drop pos) p
  rw [← List.getElem?_drop, ← hrest, List.getElem?_append_left hlt, List.getElem?_eq_getElem hlt,
    Option.any_some]
  exact List.mem_takeWhile_imp (List.getElem_mem hlt)

/-- The bytes of the scan are bytes of the run of the root. -/
theorem breakTarget_scanned (hascii : rootClassAscii env.bc op = true)
    (hle : o + d ≤ breakScanEnd env.s (rootClassBitmap env.bc) o) :
    breakTarget (env.s.drop o) (env.ranges (readU16 env.bc ((frontRoot env.bc).2 + 1)).1) 0 =
      breakTarget (env.s.drop o) (env.ranges (readU16 env.bc ((frontRoot env.bc).2 + 1)).1) d := by
  unfold rootClassAscii at hascii
  cases hranges : getRangesPtr env.bc none (readU16 env.bc ((frontRoot env.bc).2 + 1)).1 with
  | none =>
    rw [hranges] at hascii
    cases hascii
  | some c =>
    rw [hranges, Bool.and_eq_true] at hascii
    obtain ⟨bitmap, hbitmap⟩ := Option.isSome_iff_exists.mp hascii.2
    have henv : env.ranges (readU16 env.bc ((frontRoot env.bc).2 + 1)).1 = some c.ranges := by
      rw [VmEnv.ranges, getRangesPtr_eq env.rangeMeta_eq, ← getRangesPtr_eq (.inl rfl), hranges,
        Option.map_some]
    have hmap : rootClassBitmap env.bc = bitmap := by
      funext b
      rw [rootClassBitmap, hranges, Option.elim_some, asciiMap_eq hbitmap]
    have htarget : ∀ pos, breakTarget (env.s.drop o) (some c.ranges) pos =
        spanBytes (env.s.drop o) (fun b => !bitmap b) pos := by
      intro pos
      rw [breakTarget, Option.bind_some, hbitmap]
    rw [henv, htarget, htarget, spanBytes_skip (k := d), Nat.zero_add]
    intro i hi
    have hin : (env.s[o + i]?).any (fun b => decide (b.toNat ≤ 127) && !bitmap b) = true := by
      rw [← hmap]
      exact spanBytes_within (Nat.lt_of_lt_of_le (Nat.add_lt_add_left hi o) hle)
    obtain ⟨b, hb, hp⟩ := exists_of_any hin
    rw [Nat.zero_add, List.getElem?_drop, hb]
    exact (Bool.and_eq_true_iff.mp hp).2

/-- From the start of the window the root goes where it goes from the bytes of the scan. -/
theorem root_scanned (hroot : rootClassOp env.bc = some op) (hop : op = .break ∨ op = .breakx)
    (hascii : rootClassAscii env.bc op = true)
    (hle : o + d ≤ breakScanEnd env.s (rootClassBitmap env.bc) o) {vm : Vm W}
    (hvm : OnLine (frontRoot env.bc).2 0 vm) :
    vmStep (env.window o) vm = vmStep (env.window o) { vm with pos := d } := by
  obtain ⟨hrootOp, -⟩ := Option.filter_eq_some_iff.mp hroot
  obtain ⟨b, hb, hfetch⟩ := fetch_of_op hrootOp
  have htarget := breakTarget_scanned hascii hle
  have hfetch' : fetch (env.window o).bc vm.ip =
      some (operands env.bc b ((frontRoot env.bc).2 + 1)) := by
    rw [hvm.ip]
    exact hfetch
  unfold vmStep
  dsimp only
  rw [hfetch']
  obtain rfl | rfl := hop
  · simp only [operands, hb]
    rw [Prim.exec, Prim.exec, matchSet, matchSet, hvm.pos]
    rw [show breakTarget (env.window o).s ((env.window o).ranges _) 0 = _ from htarget]
    rfl
  · simp only [operands, hb]
    unfold opBreakx
    rw [hvm.pos]
    rw [show breakTarget (env.window o).s ((env.window o).ranges _) 0 = _ from htarget]
    rfl

end

/-! ## The tier -/

/-- The loop of `search_break_accelerated` comes to an offset with the VM in the given state. -/
inductive BreakReach (env : VmEnv W) (anchored : Bool) (start : Nat) (vm₀ : Vm W) :
    Nat → Vm W → Prop where
  | start : BreakReach env anchored start vm₀ start vm₀
  | failed {offset : Nat} {vm final : Vm W} (h : BreakReach env anchored start vm₀ offset vm)
      (hle : offset ≤ env.s.length)
      (hexec : VmExec (env.window offset) (searchResetVm vm) false final)
      (hlt : breakScanEnd env.s (rootClassBitmap env.bc) offset < env.s.length)
      (hscan : anchored = false) :
      BreakReach env anchored start vm₀ (breakScanEnd env.s (rootClassBitmap env.bc) offset + 1)
        final

/-- What `search_break_accelerated` reports. -/
inductive BreakReports (env : VmEnv W) (anchored : Bool) (start : Nat) (vm₀ : Vm W) :
    Option (Nat × Nat) → Prop where
  | found {offset : Nat} {vm final : Vm W} (h : BreakReach env anchored start vm₀ offset vm)
      (hle : offset ≤ env.s.length)
      (hexec : VmExec (env.window offset) (searchResetVm vm) true final) :
      BreakReports env anchored start vm₀ (some (offset, offset + final.pos))
  | failed {offset : Nat} {vm final : Vm W} (h : BreakReach env anchored start vm₀ offset vm)
      (hle : offset ≤ env.s.length)
      (hexec : VmExec (env.window offset) (searchResetVm vm) false final)
      (hend : env.s.length ≤ breakScanEnd env.s (rootClassBitmap env.bc) offset ∨ anchored = true) :
      BreakReports env anchored start vm₀ none
  | past {offset : Nat} {vm : Vm W} (h : BreakReach env anchored start vm₀ offset vm)
      (hpast : env.s.length < offset) : BreakReports env anchored start vm₀ none

/-- The code of a pattern that begins with `BREAK` or `BREAKX` of an ASCII class: nothing in front
of the root moves the cursor, and nothing behind it looks at the start of the window. -/
structure BreakCode (env : VmEnv W) (allowed : Nat → Prop) : Prop where
  root : ∃ op, rootClassOp env.bc = some op ∧ (op = .break ∨ op = .breakx) ∧
    rootClassAscii env.bc op = true
  front : (frontRoot env.bc).1 = []
  behind : FloatingCode env (frontRoot env.bc).2 allowed

section

variable {env : VmEnv W} {attempt : Nat → Attempt} {allowed : Nat → Prop} {anchored : Bool}
  {start offset o d : Nat} {vm₀ vm : Vm W}

/-- The attempts at the bytes of a scan end alike. -/
theorem BreakCode.ends_alike (hcode : BreakCode env allowed)
    (hscan : o + d ≤ breakScanEnd env.s (rootClassBitmap env.bc) o) (hle : o + d ≤ env.s.length)
    {vm vm' : Vm W} (hvm : OnLine 0 0 vm) (hvm' : OnLine 0 0 vm') {attempt : Attempt}
    (hends : Ends (env.window (o + d)) vm' attempt) :
    Ends (env.window o) vm (attempt.shift d) := by
  obtain ⟨op, hroot, hop, hascii⟩ := hcode.root
  have hline : LineTo env.bc 0 [] (frontRoot env.bc).2 := hcode.front ▸ frontRoot_lineTo env.bc
  have hline₁ : LineTo (env.window o).bc 0 [] (frontRoot env.bc).2 := hline
  have hline₂ : LineTo (env.window (o + d)).bc 0 [] (frontRoot env.bc).2 := hline
  obtain ⟨vm₁, hvm₁, hends₁⟩ := hvm.idle hline₁
  obtain ⟨vm₂, hvm₂, hends₂⟩ := hvm'.idle hline₂
  rw [hends₁]
  rw [hends₂] at hends
  have hshifted : Shifted d { vm₁ with pos := d } vm₂ := by
    refine ⟨hvm₁.ip.trans hvm₂.ip.symm, ?_, ?_, hvm₁.abortFlag.trans hvm₂.abortFlag.symm⟩
    · rw [hvm₂.pos]
      rfl
    · rw [show ({ vm₁ with pos := d } : Vm W).choices = [] from hvm₁.choices, hvm₂.choices]
      rfl
  have hwithin : ({ vm₁ with pos := d } : Vm W).Within allowed := by
    refine ⟨?_, ?_⟩
    · show allowed vm₁.ip
      rw [hvm₁.ip]
      exact hcode.behind.start
    · intro c hc
      rw [show ({ vm₁ with pos := d } : Vm W).choices = [] from hvm₁.choices] at hc
      cases hc
  have hfrom := hshifted.ends hle hcode.behind hwithin hends
  have hstep := root_scanned hroot hop hascii hscan hvm₁
  exact Ends.of_same_step hstep.symm hfrom

theorem VmAttempts.ends (h : VmAttempts env attempt) (hle : o ≤ env.s.length) (vm : Vm W) :
    ∃ result, Ends (env.window o) (vmRunStart (vmExecStart (searchResetVm vm))) result ∧
      attempt o = result.shift o := by
  cases hattempt : attempt o with
  | found stop =>
    obtain ⟨final, ⟨n, hn⟩, rfl⟩ := h.found hle hattempt vm
    exact ⟨.found final.pos, ⟨n, final, hn, rfl⟩, rfl⟩
  | failed =>
    obtain ⟨final, ⟨n, hn⟩, hflag⟩ := h.failed hle hattempt vm
    exact ⟨.failed, ⟨n, final, hn, hflag⟩, rfl⟩
  | aborted =>
    obtain ⟨final, ⟨n, hn⟩, hflag⟩ := h.aborted hle hattempt vm
    exact ⟨.aborted, ⟨n, final, hn, hflag⟩, rfl⟩

theorem VmAttempts.eq_of_ends (h : VmAttempts env attempt) (hle : o ≤ env.s.length) {vm : Vm W}
    {result : Attempt}
    (hends : Ends (env.window o) (vmRunStart (vmExecStart (searchResetVm vm))) result) :
    attempt o = result.shift o := by
  cases result with
  | found stop =>
    obtain ⟨n, final, hn, rfl⟩ := hends
    exact h.of_success hle ⟨n, hn⟩
  | failed =>
    obtain ⟨n, final, hn, hflag⟩ := hends
    rw [h.of_failure hle ⟨n, hn⟩, hflag]
    rfl
  | aborted =>
    obtain ⟨n, final, hn, hflag⟩ := hends
    rw [h.of_failure hle ⟨n, hn⟩, hflag]
    rfl

/-- What an attempt reports is one thing for all the bytes of a scan. -/
theorem BreakCode.attempt_eq (hcode : BreakCode env allowed) (h : VmAttempts env attempt)
    (hscan : o + d ≤ breakScanEnd env.s (rootClassBitmap env.bc) o) (hle : o + d ≤ env.s.length)
    (vm : Vm W) : attempt o = attempt (o + d) := by
  have hstart : OnLine 0 0 (vmRunStart (vmExecStart (searchResetVm vm))) := ⟨rfl, rfl, rfl, rfl⟩
  obtain ⟨result, hends, heq⟩ := h.ends hle vm
  rw [heq, h.eq_of_ends (Nat.le_of_add_right_le hle)
    (hcode.ends_alike hscan hle hstart hstart hends)]
  cases result with
  | found stop => exact congrArg Attempt.found (Nat.add_assoc o d stop).symm
  | failed => rfl
  | aborted => rfl

theorem le_breakScanEnd (s : Bytes) (bitmap : UInt8 → Bool) (offset : Nat) :
    offset ≤ breakScanEnd s bitmap offset := Nat.le_add_right _ _

/-- An attempt that fails rules out the bytes of its scan. -/
theorem BreakCode.failed_scan (hcode : BreakCode env allowed) (h : VmAttempts env attempt)
    (hle : offset ≤ env.s.length) {final : Vm W}
    (hexec : VmExec (env.window offset) (searchResetVm vm) false final) :
    ∀ o, offset ≤ o → o ≤ breakScanEnd env.s (rootClassBitmap env.bc) offset → o ≤ env.s.length →
      (attempt o).lenient = .failed := by
  intro o hge hscan hlen
  obtain ⟨d, rfl⟩ := Nat.exists_eq_add_of_le hge
  rw [← hcode.attempt_eq h hscan hlen vm]
  exact h.lenient_of_failure hle hexec

/-- All offsets in front of the loop have failed. -/
theorem BreakReach.failed_before (hreach : BreakReach env anchored start vm₀ offset vm)
    (hcode : BreakCode env allowed) (h : VmAttempts env attempt) (hstart : start ≤ env.s.length) :
    start ≤ offset ∧ offset ≤ env.s.length ∧
      ∀ o, start ≤ o → o < offset → (attempt o).lenient = .failed := by
  induction hreach with
  | start => exact ⟨Nat.le_refl _, hstart, fun o ho hlt => by omega⟩
  | @failed offset vm final hreach hle hexec hlt hscan ih =>
    obtain ⟨hge, -, hfailed⟩ := ih
    have hon := le_breakScanEnd env.s (rootClassBitmap env.bc) offset
    refine ⟨by omega, by omega, ?_⟩
    intro o ho hlt'
    by_cases hbefore : o < offset
    · exact hfailed o ho hbefore
    · exact hcode.failed_scan h hle hexec o (by omega) (by omega) (by omega)

theorem BreakReach.eq_start (hreach : BreakReach env true start vm₀ offset vm) :
    offset = start := by
  cases hreach with
  | start => rfl
  | failed _ _ _ _ hscan => cases hscan

/-- A report is the first match. -/
theorem BreakReports.eq_searchFrom {result : Option (Nat × Nat)}
    (hreport : BreakReports env anchored start vm₀ result) (hcode : BreakCode env allowed)
    (h : VmAttempts env attempt) (hstart : start ≤ env.s.length) :
    result = searchFrom (fun o => (attempt o).lenient) env.s.length start anchored := by
  cases hreport with
  | @found offset vm final hreach hle hexec =>
    obtain ⟨hge, -, hfailed⟩ := hreach.failed_before hcode h hstart
    have hfound : (attempt offset).lenient = .found (offset + final.pos) := by
      rw [h.of_success hle hexec]
      rfl
    cases anchored with
    | false => exact (searchFrom_of_failed hge hle hfailed hfound).symm
    | true =>
      obtain rfl := hreach.eq_start
      rw [searchFrom, if_pos rfl, firstFound, hfound]
  | @failed offset vm final hreach hle hexec hend =>
    obtain ⟨-, -, hfailed⟩ := hreach.failed_before hcode h hstart
    refine (firstFound_none fun o ho hlt => ?_).symm
    cases anchored with
    | false =>
      rw [if_neg Bool.false_ne_true] at hlt
      have hscan := hend.resolve_right Bool.false_ne_true
      by_cases hbefore : o < offset
      · exact hfailed o ho hbefore
      · exact hcode.failed_scan h hle hexec o (by omega) (by omega) (by omega)
    | true =>
      obtain rfl := hreach.eq_start
      rw [if_pos rfl] at hlt
      obtain rfl : o = offset := by omega
      exact h.lenient_of_failure hle hexec
  | past hreach hpast =>
    obtain ⟨-, hle, -⟩ := hreach.failed_before hcode h hstart
    exact absurd hpast (Nat.not_lt_of_le hle)

/-- The loop reports something. -/
theorem BreakReach.reports (hreach : BreakReach env anchored start vm₀ offset vm)
    (h : VmAttempts env attempt) : ∃ result, BreakReports env anchored start vm₀ result := by
  induction hn : env.s.length + 1 - offset using Nat.strongRecOn generalizing offset vm with
  | ind n ih =>
    by_cases hle : offset ≤ env.s.length
    · obtain ⟨result, hends, -⟩ := h.ends hle vm
      have hfails : ∀ final, VmExec (env.window offset) (searchResetVm vm) false final →
          ∃ result, BreakReports env anchored start vm₀ result := by
        intro final hexec
        by_cases hend : env.s.length ≤ breakScanEnd env.s (rootClassBitmap env.bc) offset ∨
            anchored = true
        · exact ⟨none, .failed hreach hle hexec hend⟩
        · have hmore := not_or.mp hend
          have hon := le_breakScanEnd env.s (rootClassBitmap env.bc) offset
          exact ih _ (by omega) (hreach.failed hle hexec (by omega)
            (Bool.eq_false_iff.mpr hmore.2)) rfl
      cases result with
      | found stop =>
        obtain ⟨n, final, hn, -⟩ := hends
        exact ⟨_, .found hreach hle ⟨n, hn⟩⟩
      | failed =>
        obtain ⟨n, final, hn, -⟩ := hends
        exact hfails final ⟨n, hn⟩
      | aborted =>
        obtain ⟨n, final, hn, -⟩ := hends
        exact hfails final ⟨n, hn⟩
    · exact ⟨none, .past hreach (Nat.lt_of_not_le hle)⟩

end

/-- The tier of `BREAK` and `BREAKX` reports the first of the matches at all offsets; an attempt
that aborts only fails. -/
theorem tierBreak_reports_iff (env : VmEnv W) (attempt : Nat → Attempt) (allowed : Nat → Prop)
    (anchored : Bool) (start : Nat) (vm₀ : Vm W) (result : Option (Nat × Nat))
    (hstart : start ≤ env.s.length) (hcode : BreakCode env allowed) (h : VmAttempts env attempt) :
    BreakReports env anchored start vm₀ result ↔
      result = searchFrom (fun o => (attempt o).lenient) env.s.length start anchored := by
  constructor
  · intro hreport
    exact hreport.eq_searchFrom hcode h hstart
  · rintro rfl
    have hreach : BreakReach env anchored start vm₀ start vm₀ := .start
    obtain ⟨result, hreport⟩ := hreach.reports h
    rw [← hreport.eq_searchFrom hcode h hstart]
    exact hreport

/-- The code of `BREAK(',') ',x'`. -/
def fieldThenX : Bytes :=
  [8, 0, 1, 4, 0, 0, 0, 12, 0, 0, 0, 2, 44, 120, 0, 0, 1, 0, 0, 0, 0, 0, 44, 0, 0, 0, 44, 0, 0, 0,
    15, 0, 0, 0, 1, 0, 0, 0, 0, 83, 78, 66, 76]

/-- `BREAK(',') ',x'` on "ab,cd,x": the attempt at 0 fails, and the next one is behind its comma. -/
theorem tierBreak_reports_iff_field :
    BreakReports (VmEnv.ofCode fieldThenX [0x61, 0x62, 0x2C, 0x63, 0x64, 0x2C, 0x78] .bare) false 0
      (.zero ⟨[], ()⟩) (some (3, 7)) := by
  let env := VmEnv.ofCode fieldThenX [0x61, 0x62, 0x2C, 0x63, 0x64, 0x2C, 0x78] .bare
  have hlit : fetch fieldThenX 3 = some (.prim (LineOp.lit 12 2).prim, 14) := by decide +kernel
  have haccept : fetch fieldThenX 14 = some (.accept, 15) := by decide +kernel
  have hline : StraightLine fieldThenX 0 [.set .break 1, .lit 12 2] .accepted :=
    .op rfl (.op hlit (.stop haccept rfl))
  have hattempts : VmAttempts env (lineAttempt env [.set .break 1, .lit 12 2] .accepted) :=
    hline.vmAttempts
  have hcode : BreakCode env (· ∈ [0, 3, 14]) :=
    ⟨⟨.break, by decide +kernel, .inl rfl, by decide +kernel⟩, by decide +kernel,
      .of_floatsAll (by decide +kernel)⟩
  exact (tierBreak_reports_iff env _ _ false 0 _ _ (Nat.zero_le _) hcode hattempts).mpr
    (by decide +kernel)

end Snobol4
