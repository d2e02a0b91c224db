import Snobol4.Support.Utf8
import Snobol4.VmInvariant

/-!
# VmBoundary — whole characters (`vm_exec.c`)

On a well-formed subject every handler moves the cursor from boundary to boundary, but
for two that count bytes: `OP_NOTANY` with an ASCII class takes one byte of whatever
stands there, and the greedy shortcut of `OP_REPEAT_STEP` goes one byte back.
-/

namespace Snobol4

open Utf8

variable {W : Type}

/-! ## The scans -/

/-- A codepoint is read with the bytes of its character. -/
theorem utf8PeekNext_width {s : Bytes} {pos n : Nat} {cp : UInt32}
    (h : utf8PeekNext s pos = some (cp, n)) : ∃ b tail, s.drop pos = b :: tail ∧ width b = n := by
  unfold utf8PeekNext at h
  cases hdrop : s.drop pos with
  | nil =>
    rw [hdrop] at h
    cases h
  | cons b tail =>
    refine ⟨b, tail, rfl, ?_⟩
    rw [hdrop] at h
    simp only at h
    unfold width
    split at h
    · rename_i hascii
      rw [if_pos hascii]
      cases h
      rfl
    rename_i hascii
    rw [if_neg hascii]
    split at h
    · rename_i htwo
      rw [if_pos htwo]
      split at h
      · cases h
        rfl
      · cases h
    rename_i htwo
    rw [if_neg htwo]
    split at h
    · rename_i hthree
      rw [if_pos hthree]
      split at h
      · cases h
        rfl
      · cases h
    rename_i hthree
    rw [if_neg hthree]
    split at h
    · rename_i hfour
      rw [if_pos hfour]
      split at h
      · cases h
        rfl
      · cases h
    · cases h

section

variable {s : Bytes} {pos : Nat}

theorem peekCp_boundary {cp n : Nat} (h : Boundary s pos) (hpeek : peekCp s pos = some (cp, n)) :
    Boundary s (pos + n) := by
  unfold peekCp at hpeek
  rw [Option.map_eq_some_iff] at hpeek
  obtain ⟨⟨cp', n'⟩, hnext, heq⟩ := hpeek
  obtain ⟨b, tail, hdrop, hwidth⟩ := utf8PeekNext_width hnext
  obtain rfl : n' = n := (Prod.mk.inj heq).2
  rw [← hwidth]
  exact h.next hdrop

/-- At a boundary inside the text a codepoint can be read. -/
theorem peekCp_ne_none (h : Boundary s pos) (hlt : pos < s.length) : peekCp s pos ≠ none := by
  obtain ⟨b, rest, tail, hdrop, hwidth⟩ := h.char hlt
  intro hpeek
  unfold peekCp at hpeek
  rw [Option.map_eq_none_iff] at hpeek
  unfold utf8PeekNext at hpeek
  unfold width at hwidth
  rw [hdrop] at hpeek
  simp only at hpeek
  by_cases hone : b < 0x80
  · rw [if_pos hone] at hpeek
    cases hpeek
  rw [if_neg hone] at hpeek hwidth
  by_cases htwo : b &&& 0xE0 = 0xC0
  · rw [if_pos htwo] at hpeek hwidth
    obtain ⟨b₁, rfl⟩ := List.length_eq_one_iff.mp (Nat.succ.inj hwidth).symm
    cases hpeek
  rw [if_neg htwo] at hpeek hwidth
  by_cases hthree : b &&& 0xF0 = 0xE0
  · rw [if_pos hthree] at hpeek hwidth
    obtain ⟨b₁, b₂, rfl⟩ := List.length_eq_two.mp (Nat.succ.inj hwidth).symm
    cases hpeek
  rw [if_neg hthree] at hpeek hwidth
  by_cases hfour : b &&& 0xF8 = 0xF0
  · rw [if_pos hfour] at hpeek hwidth
    obtain ⟨b₁, b₂, b₃, rfl⟩ := List.length_eq_three.mp (Nat.succ.inj hwidth).symm
    cases hpeek
  · rw [if_neg hfour] at hwidth
    cases hwidth

theorem skipCps_boundary {n pos' : Nat} (h : Boundary s pos) (hskip : skipCps s n pos = some pos') :
    Boundary s pos' := by
  induction n generalizing pos with
  | zero =>
    cases hskip
    exact h
  | succ n ih =>
    rw [skipCps] at hskip
    cases hpeek : peekCp s pos with
    | none =>
      rw [hpeek] at hskip
      cases hskip
    | some step =>
      rw [hpeek] at hskip
      exact ih (peekCp_boundary h hpeek) hskip

theorem spanCps_boundary (h : Boundary s pos) (p : Nat → Bool) (fuel : Nat) :
    Boundary s (spanCps s p fuel pos) := by
  induction fuel generalizing pos with
  | zero => exact h
  | succ fuel ih =>
    rw [spanCps]
    split
    · rename_i cp n hpeek
      split
      · exact ih (peekCp_boundary h hpeek)
      · exact h
    · exact h

theorem balScan_boundary {openCp closeCp fuel pos' : Nat} {depth : Int} (h : Boundary s pos)
    (hscan : balScan s openCp closeCp fuel pos depth = some pos') : Boundary s pos' := by
  induction fuel generalizing pos depth with
  | zero => cases hscan
  | succ fuel ih =>
    rw [balScan] at hscan
    split at hscan
    · cases hscan
    rename_i cp n hpeek
    have hnext := peekCp_boundary h hpeek
    split at hscan
    · exact ih hnext hscan
    split at hscan
    · split at hscan
      · cases hscan
        exact hnext
      · exact ih hnext hscan
    · exact ih hnext hscan

/-- A run of ASCII bytes. -/
theorem spanBytes_boundary {p : UInt8 → Bool} (h : Boundary s pos)
    (hascii : ∀ b, p b = true → b < 0x80) : Boundary s (spanBytes s p pos) := by
  unfold spanBytes
  generalize hrest : s.drop pos = rest
  induction rest generalizing pos with
  | nil => exact h
  | cons b rest ih =>
    by_cases hb : p b = true
    · have hget : s[pos]? = some b := by
        have := congrArg (·[0]?) hrest
        simpa using this
      have htail : s.drop (pos + 1) = rest := by
        rw [← List.drop_drop, hrest, List.drop_one, List.tail_cons]
      have hend := ih (h.succ hget (hascii b hb)) htail
      rw [List.takeWhile_cons_of_pos hb, List.length_cons, Nat.add_comm _ 1, ← Nat.add_assoc]
      exact hend
    · rw [List.takeWhile_cons_of_neg hb]
      exact h

/-- A scan for an ASCII byte. -/
theorem scanTo_boundary {p : UInt8 → Bool} (h : Boundary s pos)
    (hascii : ∀ b, p b = true → b < 0x80) :
    Boundary s (spanBytes s (fun b => !p b) pos) := by
  rw [boundary_iff h.wellFormed]
  refine ⟨(spanBytes_bounds s _ h.le).2, ?_⟩
  intro b hb
  refine isContinuation_of_ascii (hascii b ?_)
  simpa using spanBytes_stop hb

/-! ## The handlers -/

/-- A class that fits the ASCII bitmap holds ASCII bytes. -/
theorem ascii_of_bitmap {ranges : List CpRange} {bitmap : UInt8 → Bool}
    (h : rangesToBitmap 127 ranges = some bitmap) (b : UInt8) (hb : bitmap b = true) :
    b < 0x80 := by
  unfold rangesToBitmap at h
  split at h
  · rename_i hall
    cases h
    rw [List.any_eq_true] at hb
    obtain ⟨r, hr, hholds⟩ := hb
    have hbound := List.all_eq_true.mp hall r hr
    simp only [CpRange.holds, Bool.and_eq_true, decide_eq_true_eq] at hbound hholds
    rw [UInt8.lt_iff_toNat_lt]
    exact Nat.lt_of_le_of_lt (hholds.2.trans hbound.2) (by decide)
  · cases h

theorem matchAny_boundary {ranges : Option (List CpRange)} {pos' : Nat} (h : Boundary s pos)
    (hmatch : matchAny s ranges pos = some pos') : Boundary s pos' := by
  unfold matchAny at hmatch
  split at hmatch
  · cases hmatch
  split at hmatch
  · rename_i bitmap hbitmap
    cases hget : s[pos]? with
    | none => simp [hget] at hmatch
    | some b =>
      rw [hget, Option.any_some] at hmatch
      split at hmatch
      · rename_i hb
        cases hmatch
        exact h.succ hget (ascii_of_bitmap hbitmap b hb)
      · cases hmatch
  · split at hmatch
    · rename_i cp n hpeek
      split at hmatch
      · cases hmatch
        exact peekCp_boundary h hpeek
      · cases hmatch
    · cases hmatch

/-- `OP_NOTANY` with an ASCII class takes one byte. -/
theorem matchNotany_boundary {ranges : Option (List CpRange)} {pos' : Nat} (h : Boundary s pos)
    (hascii : (ranges.bind (rangesToBitmap 127)).isSome → ∀ b, s[pos]? = some b → b < 0x80)
    (hmatch : matchNotany s ranges pos = some pos') : Boundary s pos' := by
  unfold matchNotany at hmatch
  split at hmatch
  · rename_i bitmap hbitmap
    cases hget : s[pos]? with
    | none => simp [hget] at hmatch
    | some b =>
      rw [hget, Option.any_some] at hmatch
      split at hmatch
      · cases hmatch
        exact h.succ hget (hascii (by rw [hbitmap]; rfl) b hget)
      · cases hmatch
  · split at hmatch
    · rename_i cp n hpeek
      split at hmatch
      · cases hmatch
      · cases hmatch
        exact peekCp_boundary h hpeek
    · cases hmatch

theorem spanTarget_boundary (h : Boundary s pos) (ranges : List CpRange) :
    Boundary s (spanTarget s ranges pos) := by
  unfold spanTarget
  split
  · rename_i bitmap hbitmap
    exact spanBytes_boundary h (ascii_of_bitmap hbitmap)
  · exact spanCps_boundary h _ _

theorem breakTarget_boundary (h : Boundary s pos) (ranges : Option (List CpRange)) :
    Boundary s (breakTarget s ranges pos) := by
  unfold breakTarget
  split
  · rename_i bitmap hbitmap
    rw [Option.bind_eq_some_iff] at hbitmap
    obtain ⟨ranges', -, hbitmap⟩ := hbitmap
    exact scanTo_boundary h (ascii_of_bitmap hbitmap)
  · exact spanCps_boundary h _ _

theorem matchSet_boundary {ranges : Option (List CpRange)} {op : SetOp} {pos' : Nat}
    (h : Boundary s pos)
    (hascii : op = .notany → (ranges.bind (rangesToBitmap 127)).isSome →
      ∀ b, s[pos]? = some b → b < 0x80)
    (hmatch : matchSet s ranges pos op = some pos') : Boundary s pos' := by
  cases op with
  | any => exact matchAny_boundary h hmatch
  | notany => exact matchNotany_boundary h (hascii rfl) hmatch
  | span =>
    simp only [matchSet, matchSpan] at hmatch
    split at hmatch
    · cases hmatch
    · split at hmatch
      · cases hmatch
        exact spanTarget_boundary h _
      · cases hmatch
  | «break» =>
    cases hmatch
    exact breakTarget_boundary h ranges

/-- Positions from the start are counted over continuation bytes. -/
theorem forwardTarget_boundary (n : Nat) (h : Boundary s pos) :
    Boundary s (forwardTarget s n pos) := by
  induction n generalizing pos with
  | zero => exact h
  | succ n ih =>
    rw [forwardTarget]
    split
    · rename_i hlt
      refine ih ((boundary_iff h.wellFormed _).mpr ⟨(spanBytes_bounds s _ hlt).2, ?_⟩)
      intro b hb
      exact spanBytes_stop hb
    · exact h

theorem backOverContinuation_boundary (hs : WellFormed s) (h : pos ≤ s.length) :
    Boundary s (backOverContinuation s pos) := by
  induction pos with
  | zero => exact boundary_zero hs
  | succ pos ih =>
    rw [backOverContinuation]
    split
    · exact ih (by omega)
    · rename_i hnot
      refine (boundary_iff hs _).mpr ⟨h, ?_⟩
      intro b hb
      rw [hb, Option.any_some] at hnot
      exact Bool.eq_false_of_not_eq_true hnot

/-- Positions from the end are counted back over continuation bytes. -/
theorem backwardTarget_boundary (n : Nat) (h : Boundary s pos) :
    Boundary s (backwardTarget s n pos) := by
  induction n generalizing pos with
  | zero => exact h
  | succ n ih =>
    cases pos with
    | zero => exact h
    | succ pos => exact ih (backOverContinuation_boundary h.wellFormed (by have := h.le; omega))

theorem matchCount_boundary {op : CountOp} {n pos' : Nat} (h : Boundary s pos)
    (hmatch : matchCount s pos op n = some pos') : Boundary s pos' := by
  have hstart : Boundary s (posTarget s n) :=
    forwardTarget_boundary n (boundary_zero h.wellFormed)
  have hend : Boundary s (rposTarget s n) :=
    backwardTarget_boundary n (boundary_length h.wellFormed)
  cases op with
  | len => exact skipCps_boundary h hmatch
  | pos | rpos =>
    simp only [matchCount] at hmatch
    split at hmatch
    · cases hmatch
      exact h
    · cases hmatch
  | tab =>
    simp only [matchCount] at hmatch
    split at hmatch
    · cases hmatch
    split at hmatch
    · cases hmatch
    · cases hmatch
      exact hstart
  | rtab =>
    simp only [matchCount] at hmatch
    split at hmatch
    · cases hmatch
    · cases hmatch
      exact hend

theorem matchAnchor_boundary {type pos' : Nat} (h : Boundary s pos)
    (hmatch : matchAnchor s pos type = some pos') : Boundary s pos' := by
  unfold matchAnchor at hmatch
  by_cases hat : if type = 0 then pos = 0 else pos = s.length
  · rw [if_pos hat] at hmatch
    cases hmatch
    exact h
  · rw [if_neg hat] at hmatch
    cases hmatch

theorem matchLit_boundary {text : Bytes} {len pos' : Nat} (h : Boundary s pos)
    (htext : WellFormed text) (hmatch : matchLit s text len pos = some pos') :
    Boundary s pos' := by
  unfold matchLit at hmatch
  split at hmatch
  · rename_i hmatches
    obtain ⟨hlen, htake⟩ := hmatches
    cases hmatch
    have hsize : text.length = len := by
      rw [← htake, List.length_take, List.length_drop]
      omega
    have hdrop : s.drop pos = text ++ (s.drop pos).drop len := by
      rw [← htake, List.take_append_drop]
    rw [← hsize]
    exact h.text htext hdrop
  · cases hmatch

end

/-! ## Registers -/

/-- The value of a register: the one it had before, or a boundary. -/
def Kept (s : Bytes) (before now : Nat) : Prop := now = before ∨ Boundary s now

/-- A value that some register had before, or a boundary. -/
def KeptAny (s : Bytes) (before : Regs) (now : Nat) : Prop :=
  Boundary s now ∨ ∃ r, now = before.capStart r ∨ now = before.capEnd r ∨
    now = before.varStart r ∨ now = before.varEnd r

/-- Capture bounds that were written stand at boundaries, and variables hold capture
bounds. -/
structure Regs.Whole (s : Bytes) (now before : Regs) : Prop where
  capStart : ∀ r, Kept s (before.capStart r) (now.capStart r)
  capEnd : ∀ r, Kept s (before.capEnd r) (now.capEnd r)
  varStart : ∀ v, KeptAny s before (now.varStart v)
  varEnd : ∀ v, KeptAny s before (now.varEnd v)

/-- The values that an undo record brings back. -/
def UndoRecord.Whole (s : Bytes) (before : Regs) : UndoRecord → Prop
  | .counterDec _ _ _ => True
  | .capWrite reg _ start stop =>
      Kept s (before.capStart reg) start ∧ Kept s (before.capEnd reg) stop
  | .varWrite _ start stop => KeptAny s before start ∧ KeptAny s before stop

/-- The registers and everything the trail brings back. -/
structure Store.Whole (s : Bytes) (before : Regs) (st : Store) : Prop where
  regs : st.regs.Whole s before
  trail : ∀ e ∈ st.trail, e.Whole s before

/-- The copies of a legacy record. -/
def Saved.Whole (s : Bytes) (before : Regs) : Saved → Prop
  | .trailBase _ => True
  | .snapshot capStart capEnd _ _ =>
      (∀ r, Kept s (before.capStart r) (capStart r)) ∧ ∀ r, Kept s (before.capEnd r) (capEnd r)

section

variable {s : Bytes} {before regs : Regs} {pos : Nat}

theorem Regs.Whole.refl (s : Bytes) (regs : Regs) : regs.Whole s regs where
  capStart _ := .inl rfl
  capEnd _ := .inl rfl
  varStart v := .inr ⟨v, .inr (.inr (.inl rfl))⟩
  varEnd v := .inr ⟨v, .inr (.inr (.inr rfl))⟩

theorem Regs.Whole.keptAny_capStart (h : regs.Whole s before) (r : Nat) :
    KeptAny s before (regs.capStart r) := by
  rcases h.capStart r with hkept | hboundary
  · exact .inr ⟨r, .inl hkept⟩
  · exact .inl hboundary

theorem Regs.Whole.keptAny_capEnd (h : regs.Whole s before) (r : Nat) :
    KeptAny s before (regs.capEnd r) := by
  rcases h.capEnd r with hkept | hboundary
  · exact .inr ⟨r, .inr (.inl hkept)⟩
  · exact .inl hboundary

theorem opCapStart_whole (r : Nat) (h : regs.Whole s before) (hpos : Boundary s pos) :
    (opCapStart r pos regs).1.Whole s before ∧
      ∀ e ∈ (opCapStart r pos regs).2, e.Whole s before := by
  unfold opCapStart
  split
  · constructor
    · refine ⟨?_, h.capEnd, h.varStart, h.varEnd⟩
      exact (Function.forall_update_iff _ fun i x => Kept s (before.capStart i) x).mpr
        ⟨.inr hpos, fun i _ => h.capStart i⟩
    · intro e he
      obtain rfl := List.mem_singleton.mp he
      exact ⟨h.capStart r, h.capEnd r⟩
  · exact ⟨h, nofun⟩

theorem opCapEnd_whole (r : Nat) (h : regs.Whole s before) (hpos : Boundary s pos) :
    (opCapEnd r pos regs).1.Whole s before ∧ ∀ e ∈ (opCapEnd r pos regs).2, e.Whole s before := by
  unfold opCapEnd
  split
  · constructor
    · refine ⟨h.capStart, ?_, ?_, ?_⟩
      · exact (Function.forall_update_iff _ fun i x => Kept s (before.capEnd i) x).mpr
          ⟨.inr hpos, fun i _ => h.capEnd i⟩
      · exact (Function.forall_update_iff _ fun _ x => KeptAny s before x).mpr
          ⟨h.keptAny_capStart r, fun i _ => h.varStart i⟩
      · exact (Function.forall_update_iff _ fun _ x => KeptAny s before x).mpr
          ⟨.inl hpos, fun i _ => h.varEnd i⟩
    · intro e he
      simp only [List.mem_cons, List.not_mem_nil, or_false] at he
      rcases he with rfl | rfl
      · exact ⟨h.varStart r, h.varEnd r⟩
      · exact ⟨h.capStart r, h.capEnd r⟩
  · exact ⟨h, nofun⟩

theorem opAssign_whole (var r : Nat) (h : regs.Whole s before) :
    (opAssign var r regs).1.Whole s before ∧
      ∀ e ∈ (opAssign var r regs).2, e.Whole s before := by
  unfold opAssign
  split
  · constructor
    · refine ⟨h.capStart, h.capEnd, ?_, ?_⟩
      · exact (Function.forall_update_iff _ fun _ x => KeptAny s before x).mpr
          ⟨h.keptAny_capStart r, fun i _ => h.varStart i⟩
      · exact (Function.forall_update_iff _ fun _ x => KeptAny s before x).mpr
          ⟨h.keptAny_capEnd r, fun i _ => h.varEnd i⟩
    · intro e he
      obtain rfl := List.mem_singleton.mp he
      exact ⟨h.varStart var, h.varEnd var⟩
  · exact ⟨h, nofun⟩

end

/-- The registers after one undo record. -/
theorem Store.regs_undo_whole {s : Bytes} {before : Regs} {st : Store} {e : UndoRecord}
    (h : st.regs.Whole s before) (he : e.Whole s before) : (st.undo e).regs.Whole s before := by
  cases e with
  | counterDec loop count lastPos =>
    simp only [Store.undo]
    split
    · exact h
    · exact h
  | capWrite reg sub start stop =>
    have hstart : ∀ i, Kept s (before.capStart i) (Function.update st.regs.capStart reg start i) :=
      (Function.forall_update_iff _ fun i x => Kept s (before.capStart i) x).mpr
        ⟨he.1, fun i _ => h.capStart i⟩
    have hstop : ∀ i, Kept s (before.capEnd i) (Function.update st.regs.capEnd reg stop i) :=
      (Function.forall_update_iff _ fun i x => Kept s (before.capEnd i) x).mpr
        ⟨he.2, fun i _ => h.capEnd i⟩
    simp only [Store.undo]
    split
    · split
      · exact ⟨hstart, h.capEnd, h.varStart, h.varEnd⟩
      split
      · exact ⟨h.capStart, hstop, h.varStart, h.varEnd⟩
      · exact ⟨hstart, hstop, h.varStart, h.varEnd⟩
    · exact h
  | varWrite var start stop =>
    simp only [Store.undo]
    split
    · refine ⟨h.capStart, h.capEnd, ?_, ?_⟩
      · exact (Function.forall_update_iff _ fun _ x => KeptAny s before x).mpr
          ⟨he.1, fun i _ => h.varStart i⟩
      · exact (Function.forall_update_iff _ fun _ x => KeptAny s before x).mpr
          ⟨he.2, fun i _ => h.varEnd i⟩
    · exact h

/-- The cursor, the registers and what is restored stand at boundaries. -/
def Invariant.whole (s : Bytes) (before : Regs) : Invariant where
  pos := Boundary s
  regs regs := regs.Whole s before
  undo e := e.Whole s before
  saved c := c.Whole s before

theorem Invariant.whole_stable (s : Bytes) (before : Regs) : (Invariant.whole s before).Stable where
  used _ _ _ h := ⟨h.capStart, h.capEnd, h.varStart, h.varEnd⟩
  counterDec _ _ _ := trivial
  undone _ _ h he := Store.regs_undo_whole h he
  trailBase _ := trivial
  snapshot _ _ _ h := ⟨h.capStart, h.capEnd⟩
  copied regs used capStart capEnd _ _ h hcopy := by
    refine ⟨?_, ?_, h.varStart, h.varEnd⟩
    · intro r
      simp only [Store.restoreBelow]
      split
      · exact hcopy.1 r
      · exact h.capStart r
    · intro r
      simp only [Store.restoreBelow]
      split
      · exact hcopy.2 r
      · exact h.capEnd r

/-! ## Turns that keep to whole characters -/

/-- The greedy shortcut can step over the run and one byte back: the run is shorter than
the `int32_t` it is cast to, ends in front of a character, and the byte before it is a
character unless the loop has been there. -/
structure GreedyWhole (env : VmEnv W) (loop target : Nat) (vm : Vm W) : Prop where
  short : ∀ stop ∈ greedyRunEnd env target vm.pos, stop - vm.pos < 2 ^ 31
  stop : ∀ b, env.s[greedyStop env target vm.pos]? = some b → isContinuation b = false
  back : vm.loopLastPos loop < greedyStop env target vm.pos →
    ∀ b, env.s[greedyStop env target vm.pos - 1]? = some b → b < 0x80

/-- The next turn keeps to whole characters: a literal is well-formed, `OP_NOTANY` with an
ASCII class stands in front of an ASCII byte, and so does the greedy shortcut. -/
structure WholeChars (env : VmEnv W) (vm : Vm W) : Prop where
  lit : ∀ off len next, fetch env.bc vm.ip = some (.prim (.lit off len), next) →
    WellFormed ((env.bc.drop off).take len)
  notany : ∀ id next, fetch env.bc vm.ip = some (.prim (.set .notany id), next) →
    ((env.ranges id).bind (rangesToBitmap 127)).isSome →
      ∀ b, env.s[vm.pos]? = some b → b < 0x80
  greedy : ∀ loop target next, fetch env.bc vm.ip = some (.repeatStep loop target, next) →
    loop < maxLoops → takesGreedy env loop target vm = true → GreedyWhole env loop target vm

/-- The cursor, the choice points and the capture bounds stand at boundaries. -/
structure Vm.Whole (s : Bytes) (before : Regs) (vm : Vm W) : Prop where
  pos : Boundary s vm.pos
  store : vm.toStore.Whole s before
  choices : ∀ c ∈ vm.choices, Boundary s c.pos ∧ c.saved.Whole s before

/-- The outcome of a plain instruction. -/
def PrimResult.Whole (s : Bytes) (before : Regs) : PrimResult W → Prop
  | .next pos regs undo _ =>
      Boundary s pos ∧ regs.Whole s before ∧ ∀ e ∈ undo, e.Whole s before
  | .fail _ => True
  | .leave _ => True

section

variable {env : VmEnv W} {before regs : Regs} {pos : Nat} {g : Globals W} {vm : Vm W}

theorem Vm.whole_iff {s : Bytes} : vm.Whole s before ↔ vm.Keeps (.whole s before) :=
  ⟨fun h => ⟨h.pos, ⟨h.store.regs, h.store.trail⟩, h.choices⟩,
    fun h => ⟨h.pos, ⟨h.store.regs, h.store.trail⟩, h.choices⟩⟩

theorem PrimResult.whole_iff {s : Bytes} {result : PrimResult W} :
    result.Whole s before ↔ result.Keeps (.whole s before) := by
  cases result with
  | next | fail | leave => rfl

/-- A plain instruction goes from boundary to boundary. -/
theorem Prim.exec_whole (p : Prim) (hpos : Boundary env.s pos) (hregs : regs.Whole env.s before)
    (hlit : ∀ off len, p = .lit off len → WellFormed ((env.bc.drop off).take len))
    (hnotany : ∀ id, p = .set .notany id → ((env.ranges id).bind (rangesToBitmap 127)).isSome →
      ∀ b, env.s[pos]? = some b → b < 0x80) :
    (p.exec env pos regs g).Whole env.s before := by
  rw [PrimResult.whole_iff]
  cases p with
  | nop | label | emitLiteral => exact .stay hpos hregs _
  | lit off len =>
    exact moveTo_keeps hregs (fun pos' h => matchLit_boundary hpos (hlit off len rfl) h) g
  | set op id =>
    refine moveTo_keeps hregs (fun pos' h => matchSet_boundary hpos ?_ h) g
    intro hop
    exact hnotany id (by rw [hop])
  | capStart r =>
    obtain ⟨hstart, hundo⟩ := opCapStart_whole r hregs hpos
    exact ⟨hpos, hstart, hundo⟩
  | capEnd r =>
    obtain ⟨hend, hundo⟩ := opCapEnd_whole r hregs hpos
    exact ⟨hpos, hend, hundo⟩
  | assign var r =>
    obtain ⟨hassign, hundo⟩ := opAssign_whole var r hregs
    exact ⟨hpos, hassign, hundo⟩
  | count op n => exact moveTo_keeps hregs (fun pos' h => matchCount_boundary hpos h) g
  | eval fn r => exact opEval_keeps hpos hregs fn r
  | anchor type => exact moveTo_keeps hregs (fun pos' h => matchAnchor_boundary hpos h) g
  | emitCapture r =>
    simp only [Prim.exec, opEmitCapture]
    split
    · exact .stay hpos hregs _
    · exact .stay hpos hregs _
  | tableGet table key reg => exact opTableGet_keeps hpos hregs table key
  | tableSet table key value => exact opTableSet_keeps hpos hregs table key value
  | bal openCp closeCp =>
    exact opBal_keeps hregs fun fuel pos' hscan => balScan_boundary hpos hscan
  | rem => exact .stay (boundary_length hpos.wellFormed) hregs g

/-- The shortcut goes to the end of the run, and the byte before it is a character. -/
theorem GreedyWhole.keeps {loop target : Nat} (hpos : Boundary env.s vm.pos)
    (h : GreedyWhole env loop target vm) : GreedyKeeps (.whole env.s before) env loop target vm := by
  obtain ⟨hlow, hle⟩ := greedyStop_bounds env target hpos.le
  refine ⟨h.short, (boundary_iff hpos.wellFormed _).mpr ⟨hle, h.stop⟩, ?_⟩
  intro hmoved
  -- an ASCII byte is a character
  have hget := List.getElem?_eq_getElem
    (show greedyStop env target vm.pos - 1 < env.s.length by omega)
  exact boundary_of_ascii hpos.wellFormed hget (h.back hmoved _ hget)

/-- A turn that keeps to whole characters. -/
theorem Vm.Whole.step (h : vm.Whole env.s before) (hcond : WholeChars env vm) :
    (vmStep env vm).vm.Whole env.s before := by
  have hstop := breakTarget_boundary h.pos
  rw [Vm.whole_iff]
  refine (Vm.whole_iff.mp h).step (Invariant.whole_stable _ _) h.pos.le ?_ ?_ hstop ?_
  · intro p next hfetch
    rw [← PrimResult.whole_iff]
    refine p.exec_whole h.pos h.store.regs ?_ ?_
    · rintro off len rfl
      exact hcond.lit off len next hfetch
    · rintro id rfl
      exact hcond.notany id next hfetch
  · intro loop target next hfetch hloop htakes
    exact (hcond.greedy loop target next hfetch hloop htakes).keeps h.pos
  · intro ranges hlt
    cases hpeek : peekCp env.s (breakTarget env.s ranges vm.pos) with
    | some step => exact peekCp_boundary (hstop ranges) hpeek
    | none => exact absurd hpeek (peekCp_ne_none (hstop ranges) hlt)

end

/-- In a run that starts at a boundary and whose turns keep to whole characters, the
cursor, the choice points and the capture bounds written stand at boundaries, in every
state and at the end. -/
theorem vmRun_whole (env : VmEnv W) (start : Vm W) (hstart : Boundary env.s start.pos)
    (hcond : ∀ vm, VmReach env start vm → WholeChars env vm) :
    (∀ vm, VmReach env start vm → vm.Whole env.s start.regs) ∧
      ∀ ok final, VmRun env start ok final → final.Whole env.s start.regs := by
  have hzero : (vmRunStart start).Whole env.s start.regs :=
    ⟨hstart, ⟨.refl env.s start.regs, nofun⟩, nofun⟩
  obtain ⟨hreach, hend⟩ := vmRun_keeps (Vm.whole_iff.mp hzero) fun vm hvm h =>
    Vm.whole_iff.mp ((Vm.whole_iff.mpr h).step (hcond vm hvm))
  exact ⟨fun vm hvm => Vm.whole_iff.mpr (hreach vm hvm),
    fun ok final hfinal => Vm.whole_iff.mpr (hend ok final hfinal)⟩

/-! ## Runs over accented letters -/

/-- `WholeChars` as a test, for ASCII literals. -/
def wholeChars (env : VmEnv W) (vm : Vm W) : Bool :=
  match fetch env.bc vm.ip with
  | some (.prim (.lit off len), _) => ((env.bc.drop off).take len).all (· < 0x80)
  | some (.prim (.set .notany _), _) => (env.s[vm.pos]?).all (· < 0x80)
  | some (.repeatStep loop target, _) =>
      (greedyRunEnd env target vm.pos).all (· - vm.pos < 2 ^ 31) &&
        (env.s[greedyStop env target vm.pos]?).all (!isContinuation ·) &&
        (env.s[greedyStop env target vm.pos - 1]?).all
          fun b => vm.loopLastPos loop ≥ greedyStop env target vm.pos || b < 0x80
  | _ => true

theorem WholeChars.of_wholeChars {env : VmEnv W} {vm : Vm W} (h : wholeChars env vm = true) :
    WholeChars env vm := by
  unfold wholeChars at h
  constructor
  · intro off len next hfetch
    rw [hfetch] at h
    apply wellFormed_of_ascii
    simpa using h
  · intro id next hfetch _ b hb
    rw [hfetch] at h
    simpa [hb] using h
  · intro loop target next hfetch _ _
    rw [hfetch] at h
    simp only [Bool.and_eq_true] at h
    obtain ⟨⟨hshort, hstop⟩, hback⟩ := h
    refine ⟨?_, ?_, ?_⟩
    · intro stop hrun
      rw [Option.mem_def.mp hrun] at hshort
      simpa using hshort
    · intro b hb
      simpa [hb] using hstop
    · intro hmoved b hb
      rw [hb] at hback
      have hcases : greedyStop env target vm.pos ≤ vm.loopLastPos loop ∨ b < 0x80 := by
        simpa using hback
      exact hcases.resolve_left (Nat.not_le_of_lt hmoved)

/-- The states of a run that ends after `n` turns. -/
theorem VmReach.wholeChars {env : VmEnv W} {start vm final : Vm W} {ok : Bool} {n : Nat}
    (hend : vmSteps env n (vmRunStart start) = .halted ok final)
    (h : ∀ m < n, (vmSteps env m (vmRunStart start)).All (Snobol4.wholeChars env) = true)
    (hvm : VmReach env start vm) : WholeChars env vm := by
  refine VmReach.forall_of_steps (P := WholeChars env) hend ?_ vm hvm
  intro m hm vm hvm
  have hall := h m hm
  rw [hvm] at hall
  exact .of_wholeChars hall

/-- `@r0(SPAN('a')*) ANY('é') 'b' NOTANY('x')` -/
def letterRuns : Bytes :=
  [9, 0, 15, 1, 0, 0, 0, 0, 255, 255, 255, 255, 0, 0, 0, 25, 7, 0, 1, 16, 1, 0, 0, 0, 16, 10, 0,
    5, 0, 2, 4, 0, 0, 0, 39, 0, 0, 0, 1, 98, 6, 0, 3, 0, 0, 1, 0, 0, 0, 0, 0, 120, 0, 0, 0, 120,
    0, 1, 0, 0, 0, 0, 0, 233, 0, 0, 0, 233, 0, 1, 0, 0, 0, 0, 0, 97, 0, 0, 0, 97, 0, 0, 0, 68,
    0, 0, 0, 56, 0, 0, 0, 44, 0, 0, 0, 3, 0, 0, 0, 0, 83, 78, 66, 76]

/-- Over "aaébc". -/
theorem vmRun_whole_letterRuns :
    ∃ final, VmRun (VmEnv.ofCode letterRuns [0x61, 0x61, 0xC3, 0xA9, 0x62, 0x63] .bare)
      (.zero ⟨[], ()⟩) true final ∧
        final.Whole [0x61, 0x61, 0xC3, 0xA9, 0x62, 0x63] (Vm.zero ⟨[], ()⟩).regs := by
  have hend := StepResult.eq_halted
    (show (vmSteps (VmEnv.ofCode letterRuns [0x61, 0x61, 0xC3, 0xA9, 0x62, 0x63] .bare) 9
      (vmRunStart (.zero ⟨[], ()⟩))).isAccepted = true by decide +kernel)
  have hstart : Boundary [0x61, 0x61, 0xC3, 0xA9, 0x62, 0x63] 0 :=
    boundary_zero ⟨['a', 'a', 'é', 'b', 'c'], by decide +kernel⟩
  have hwhole := vmRun_whole (VmEnv.ofCode letterRuns _ .bare) (.zero ⟨[], ()⟩) hstart
    fun vm hvm => hvm.wholeChars hend (by decide +kernel)
  exact ⟨_, ⟨9, hend⟩, hwhole.2 true _ ⟨9, hend⟩⟩

/-- `NOTANY('a')` -/
def notLetter : Bytes :=
  [6, 0, 1, 0, 0, 1, 0, 0, 0, 0, 0, 97, 0, 0, 0, 97, 0, 0, 0, 4, 0, 0, 0, 1, 0, 0, 0, 0, 83, 78, 66,
    76]

/-- `NOTANY('a')` matches the first byte of "é". -/
theorem vmRun_notany_splits :
    compileAstToBytecodeC .caseSensitive (.notany [0x61]) = some notLetter ∧
      WellFormed [0xC3, 0xA9] ∧
      ∃ final, VmRun (VmEnv.ofCode notLetter [0xC3, 0xA9] .bare) (.zero ⟨[], ()⟩) true final ∧
        ¬Boundary [0xC3, 0xA9] final.pos := by
  have hwhole : WellFormed [0xC3, 0xA9] := ⟨['é'], by decide +kernel⟩
  have hend := StepResult.eq_halted (show (vmSteps (VmEnv.ofCode notLetter [0xC3, 0xA9] .bare) 2
    (vmRunStart (.zero ⟨[], ()⟩))).isAccepted = true by decide +kernel)
  refine ⟨by decide +kernel, hwhole, _, ⟨2, hend⟩, ?_⟩
  rw [boundary_iff hwhole]
  have hpos : (vmSteps (VmEnv.ofCode notLetter [0xC3, 0xA9] .bare) 2
      (vmRunStart (.zero ⟨[], ()⟩))).vm.pos = 1 := by decide +kernel
  rw [hpos]
  intro h
  exact absurd (h.2 0xA9 rfl) (by decide)

/-- The code of `ARBNO(SPAN('a') 'é')`. -/
def accentedRuns : Bytes :=
  [15, 0, 0, 0, 0, 0, 255, 255, 255, 255, 0, 0, 0, 34, 7, 0, 1, 4, 0, 0, 0, 26, 0, 0, 0, 2, 195,
    169, 16, 0, 0, 0, 0, 14, 0, 0, 1, 0, 0, 0, 0, 0, 97, 0, 0, 0, 97, 0, 0, 0, 35, 0, 0, 0, 1, 0, 0,
    0, 0, 83, 78, 66, 76]

-- on "aé" the greedy shortcut saves a choice point inside the "é"
example : (vmSteps (VmEnv.ofCode accentedRuns [0x61, 0xC3, 0xA9] .bare) 4
    (vmRunStart (.zero ⟨[], ()⟩))).vm.choices.map (·.pos) = [2, 0] := by decide +kernel

end Snobol4
