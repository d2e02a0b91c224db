import Snobol4.CandidateScan
import Snobol4.RegisterClasses
import Snobol4.SearchVm
import Snobol4.VmTrail

/-!
# SearchVmAgrees — where the two interpreters agree (`search_tiers.c`, `vm_exec.c`)

`search_vm_exec` and `vm_run` differ on the positional instructions, on loops and on subjects with
characters of more than one byte.  On the other instructions, over ASCII subjects, they go the
same way turn by turn.  `search_vm_exec` copies the registers into every choice point and `vm_run`
keeps a trail; the relation between the two is that a pop finds the same registers.  The loop of
`tier_search_vm` then comes to the same offsets as the loop of `tier_general_fallback`.
-/

namespace Snobol4

variable {W : Type}

/-! ## ASCII subjects -/

/-- All bytes are ASCII. -/
def IsAscii (s : Bytes) : Prop := ∀ b ∈ s, b.toNat < 128

instance (s : Bytes) : Decidable (IsAscii s) := inferInstanceAs (Decidable (∀ b ∈ s, _))

/-- An ASCII byte is in a class: by the map of the class where it has one, else as a codepoint. -/
def classHas (ranges : List CpRange) (b : UInt8) : Bool :=
  match rangesToBitmap 127 ranges with
  | some map => map b
  | none => rangeContains ranges b.toNat

theorem rangeSearch_holds {ranges : List CpRange} {cp fuel lo hi : Nat}
    (h : rangeSearch ranges cp fuel lo hi = true) : ∃ r ∈ ranges, r.holds cp = true := by
  induction fuel generalizing lo hi with
  | zero => cases h
  | succ fuel ih =>
    rw [rangeSearch] at h
    split at h
    · dsimp only at h
      cases hget : ranges[lo + (hi - lo) / 2]? with
      | none =>
        rw [hget] at h
        cases h
      | some r =>
        rw [hget] at h
        dsimp only at h
        split at h
        · exact ih h
        split at h
        · exact ih h
        · refine ⟨r, List.mem_of_getElem? hget, ?_⟩
          rw [CpRange.holds, decide_eq_true_eq]
          omega
    · cases h

/-- The binary search finds no more than the map. -/
theorem map_of_rangeContains {ranges : List CpRange} {map : UInt8 → Bool} {b : UInt8}
    (hmap : rangesToBitmap 127 ranges = some map) (h : rangeContains ranges b.toNat = true) :
    map b = true := by
  obtain ⟨r, hr, hholds⟩ := rangeSearch_holds h
  unfold rangesToBitmap at hmap
  split at hmap
  · cases hmap
    exact List.any_eq_true.mpr ⟨r, hr, hholds⟩
  · cases hmap

section

variable {s : Bytes} {pos : Nat} {b : UInt8}

theorem IsAscii.peekCp (hs : IsAscii s) (hb : s[pos]? = some b) :
    peekCp s pos = some (b.toNat, 1) :=
  peekCp_ascii hb (hs b (List.mem_of_getElem? hb))

theorem peekCp_end (hb : s[pos]? = none) : peekCp s pos = none := by
  have hdrop : s.drop pos = [] := List.drop_eq_nil_of_le (List.getElem?_eq_none_iff.mp hb)
  simp [peekCp, utf8PeekNext, hdrop]

theorem IsAscii.nextCp (hs : IsAscii s) (hb : s[pos]? = some b) :
    nextCp s pos = some (pos + 1) := by
  rw [Snobol4.nextCp, hs.peekCp hb, Option.map_some]

theorem nextCp_end (hb : s[pos]? = none) : nextCp s pos = none := by
  rw [nextCp, peekCp_end hb, Option.map_none]

/-- A scan over codepoints is one over bytes. -/
theorem IsAscii.spanCps (hs : IsAscii s) (p : Nat → Bool) {fuel : Nat}
    (hfuel : s.length ≤ fuel + pos) :
    spanCps s p fuel pos = spanBytes s (fun b => p b.toNat) pos := by
  induction fuel generalizing pos with
  | zero => rw [Snobol4.spanCps, spanBytes_end _ (by omega)]
  | succ fuel ih =>
    rw [Snobol4.spanCps]
    cases hb : s[pos]? with
    | none => rw [peekCp_end hb, spanBytes_end _ (List.getElem?_eq_none_iff.mp hb)]
    | some b =>
      rw [hs.peekCp hb]
      dsimp only
      cases hp : p b.toNat with
      | true => rw [if_pos rfl, ih (by omega), ← spanBytes_more hb hp]
      | false => rw [if_neg Bool.false_ne_true, spanBytes_here hb hp]

/-! ## Classes -/

theorem matchAny_ascii (hs : IsAscii s) (ranges : List CpRange) (pos : Nat) :
    matchAny s (some ranges) pos =
      if (s[pos]?).any (classHas ranges) then some (pos + 1) else none := by
  unfold matchAny classHas
  dsimp only
  cases hmap : rangesToBitmap 127 ranges with
  | some map => rfl
  | none =>
    dsimp only
    cases hb : s[pos]? with
    | none => simp only [peekCp_end hb, Option.any_none, Bool.false_eq_true, if_false]
    | some b => simp only [hs.peekCp hb, Option.any_some]

theorem matchNotany_ascii (hs : IsAscii s) (ranges : Option (List CpRange)) (pos : Nat) :
    matchNotany s ranges pos =
      if (s[pos]?).any fun b => !ranges.any (classHas · b) then some (pos + 1) else none := by
  unfold matchNotany classHas
  cases ranges with
  | none =>
    cases hb : s[pos]? with
    | none => simp [peekCp_end hb]
    | some b => simp [hs.peekCp hb]
  | some ranges =>
    cases hmap : rangesToBitmap 127 ranges with
    | some map => simp [hmap]
    | none =>
      cases hb : s[pos]? with
      | none => simp [hmap, peekCp_end hb]
      | some b => cases hin : rangeContains ranges b.toNat <;> simp [hmap, hs.peekCp hb, hin]

theorem breakTarget_ascii (hs : IsAscii s) (ranges : Option (List CpRange)) (pos : Nat) :
    breakTarget s ranges pos = spanBytes s (fun b => !ranges.any (classHas · b)) pos := by
  unfold breakTarget classHas
  cases ranges with
  | none => exact hs.spanCps _ (Nat.le_add_right _ _)
  | some ranges =>
    cases hmap : rangesToBitmap 127 ranges with
    | some map => simp [hmap]
    | none =>
      simp only [Option.bind_some, hmap, Option.any_some]
      exact hs.spanCps _ (Nat.le_add_right _ _)

end

section

variable {env : VmEnv W} {id pos : Nat}

theorem buildRangeMeta_get {bc : Bytes} {table : List (Option ClassRanges)}
    (h : buildRangeMeta bc = some table) (hpos : 0 < id) (hid : id - 1 < table.length) :
    (table[id - 1]?).join = parseRanges bc id := by
  simp only [buildRangeMeta, Option.bind_eq_bind, Option.bind_eq_some_iff] at h
  obtain ⟨tail, -, htable⟩ := h
  have hmap : ∃ n, table = (List.range n).map fun i => parseRanges bc (i + 1) := by
    grind
  obtain ⟨n, rfl⟩ := hmap
  rw [List.length_map, List.length_range] at hid
  rw [List.getElem?_map, List.getElem?_range hid, Option.map_some, Option.join_some,
    Nat.sub_add_cancel hpos]

/-- The table of the search has the classes of the code. -/
theorem VmEnv.searchRanges_eq (env : VmEnv W) (id : Nat) : env.searchRanges id = env.ranges id := by
  have hranges : env.ranges id = (parseRanges env.bc id).map (·.ranges) := by
    rw [VmEnv.ranges, getRangesPtr_eq env.rangeMeta_eq]
  unfold VmEnv.searchRanges
  cases hentry : env.srange id with
  | none =>
    dsimp only
    split
    · rfl
    · rename_i hzero
      obtain rfl : id = 0 := by omega
      rfl
  | some entry =>
    dsimp only
    obtain ⟨table, htable, hentry⟩ := Option.bind_eq_some_iff.mp hentry
    split at hentry
    · rename_i hid
      cases hentry
      have hget : getRangesPtr env.bc env.rangeMeta id = (table[id - 1]?).join := by
        obtain hnone | hmeta := env.rangeMeta_eq
        · rw [hnone] at htable
          cases htable
        · rw [getRangesPtr_eq (.inr hmeta)]
          rw [hmeta] at htable
          exact (buildRangeMeta_get htable (by omega) (by omega)).symm
      rw [VmEnv.ranges, hget]
    · cases hentry

theorem VmEnv.searchInClass_ascii (hs : IsAscii env.s) {ranges : List CpRange}
    (hranges : env.ranges id = some ranges) (pos : Nat) :
    env.searchInClass id ranges pos = (env.s[pos]?).any (classHas ranges) := by
  unfold VmEnv.searchInClass
  cases hb : env.s[pos]? with
  | none => rfl
  | some b =>
    rw [Option.any_some, Option.any_some]
    cases hmap : rangesToBitmap 127 ranges with
    | some map =>
      have hplain : ((some map).any (fun map => map b) ||
          (peekCp env.s pos).any fun found => rangeContains ranges found.1) = map b := by
        rw [hs.peekCp hb, Option.any_some, Option.any_some]
        show (map b || rangeContains ranges b.toNat) = map b
        cases hin : rangeContains ranges b.toNat with
        | true => rw [map_of_rangeContains hmap hin, Bool.true_or]
        | false => rw [Bool.or_false]
      rw [classHas, hmap]
      dsimp only
      split
      · rename_i map' hentry
        obtain ⟨entry, hentry, hmap'⟩ := Option.bind_eq_some_iff.mp hentry
        obtain rfl : entry = ranges := by
          have hsearch := env.searchRanges_eq id
          rw [VmEnv.searchRanges] at hsearch
          obtain hsome := Option.join_eq_some_iff.mp hentry
          rw [hsome, hranges] at hsearch
          exact Option.some.inj hsearch
        rw [Option.some.inj (hmap.symm.trans hmap')]
      · exact hplain
    | none =>
      rw [classHas, hmap]
      dsimp only
      split
      · rename_i map' hentry
        obtain ⟨entry, hentry, hmap'⟩ := Option.bind_eq_some_iff.mp hentry
        have hsearch := env.searchRanges_eq id
        rw [VmEnv.searchRanges] at hsearch
        rw [Option.join_eq_some_iff.mp hentry, hranges] at hsearch
        cases hsearch
        rw [hmap] at hmap'
        cases hmap'
      · rw [hs.peekCp hb, Option.any_none, Bool.false_or, Option.any_some]

/-- The class test of the two scans for a break character. -/
theorem VmEnv.searchBreaks_ascii (hs : IsAscii env.s) (id pos : Nat) :
    ((env.searchRanges id).any fun ranges => env.searchInClass id ranges pos) =
      (env.s[pos]?).any fun b => (env.ranges id).any (classHas · b) := by
  rw [env.searchRanges_eq]
  cases hranges : env.ranges id with
  | none => cases env.s[pos]? with
    | none => rfl
    | some b => rfl
  | some ranges =>
    rw [Option.any_some, env.searchInClass_ascii hs hranges]
    rfl

theorem searchBreak_ascii (hs : IsAscii env.s) {fuel : Nat} (hfuel : env.s.length ≤ fuel + pos) :
    searchBreak env id (env.searchRanges id) fuel pos = breakTarget env.s (env.ranges id) pos := by
  rw [breakTarget_ascii hs]
  induction fuel generalizing pos with
  | zero => rw [searchBreak, spanBytes_end _ (by omega)]
  | succ fuel ih =>
    rw [searchBreak, env.searchBreaks_ascii hs]
    cases hb : env.s[pos]? with
    | none =>
      have hend := List.getElem?_eq_none_iff.mp hb
      rw [if_neg (by omega), spanBytes_end _ hend]
    | some b =>
      rw [if_pos (List.getElem?_eq_some_iff.mp hb).1, Option.any_some, hs.nextCp hb]
      dsimp only
      cases hin : (env.ranges id).any (classHas · b) with
      | true => rw [if_pos rfl, spanBytes_here hb (by rw [hin]; rfl)]
      | false =>
        rw [if_neg Bool.false_ne_true, ih (by omega), ← spanBytes_more hb (by rw [hin]; rfl)]

theorem searchBreakx_ascii (hs : IsAscii env.s) {fuel : Nat} (hfuel : env.s.length ≤ fuel + pos) :
    searchBreakx env id (env.searchRanges id) fuel pos = breakTarget env.s (env.ranges id) pos := by
  rw [breakTarget_ascii hs]
  induction fuel generalizing pos with
  | zero => rw [searchBreakx, spanBytes_end _ (by omega)]
  | succ fuel ih =>
    rw [searchBreakx, env.searchBreaks_ascii hs]
    cases hb : env.s[pos]? with
    | none =>
      have hend := List.getElem?_eq_none_iff.mp hb
      rw [if_neg (by omega), spanBytes_end _ hend]
    | some b =>
      rw [if_pos (List.getElem?_eq_some_iff.mp hb).1, Option.any_some]
      cases hin : (env.ranges id).any (classHas · b) with
      | true => rw [if_pos rfl, spanBytes_here hb (by rw [hin]; rfl)]
      | false =>
        rw [if_neg Bool.false_ne_true, ih (by omega), ← spanBytes_more hb (by rw [hin]; rfl)]

/-- The class instructions of the two interpreters. -/
theorem searchSet_ascii (hs : IsAscii env.s) (op : SetOp)
    (hlisted : op = .notany → (env.srange id).join = env.ranges id) :
    searchSet env id pos op = matchSet env.s (env.ranges id) pos op := by
  cases op with
  | any =>
    rw [searchSet, env.searchBreaks_ascii hs, matchSet]
    cases hranges : env.ranges id with
    | none =>
      cases hb : env.s[pos]? with
      | none => rfl
      | some b => rfl
    | some ranges =>
      rw [matchAny_ascii hs]
      cases hb : env.s[pos]? with
      | none => rfl
      | some b => rw [hs.nextCp hb]; rfl
  | notany =>
    rw [searchSet, hlisted rfl, matchSet, matchNotany_ascii hs, ← env.searchRanges_eq,
      env.searchBreaks_ascii hs, env.searchRanges_eq]
    cases hb : env.s[pos]? with
    | none => rw [nextCp_end hb]; rfl
    | some b =>
      rw [hs.nextCp hb, Option.any_some, Option.any_some]
      cases (env.ranges id).any (classHas · b) with
      | true => rfl
      | false => rfl
  | span => rw [searchSet, env.searchRanges_eq, matchSet]
  | «break» => rw [searchSet, searchBreak_ascii hs (Nat.le_add_right _ _), matchSet]

end

/-! ## Turn by turn -/

/-- The instructions on which the interpreters agree over ASCII subjects; `OP_NOTANY` wants its
class in the table of the search. -/
def VmEnv.shares (env : VmEnv W) : Instr → Bool
  | .prim .nop | .prim (.lit ..) | .prim (.capStart _) | .prim (.capEnd _) | .prim (.assign ..) =>
      true
  | .prim (.set op id) => decide (op = .notany → (env.srange id).join = env.ranges id)
  | .prim (.count op _) => decide (op = .len)
  | .prim (.anchor _) => true
  | .accept | .fail | .jmp _ | .split .. | .breakx _ | .fence | .abort | .succeed => true
  | _ => false

/-- The code that is reached from the start has such instructions only. -/
structure SharedCode (env : VmEnv W) (allowed : Nat → Prop) : Prop where
  start : allowed 0
  shares : ∀ ip instr next, allowed ip → fetch env.bc ip = some (instr, next) →
    env.shares instr = true
  closed : ∀ ip instr next target, allowed ip → fetch env.bc ip = some (instr, next) →
    target ∈ instr.successors env.labelOffsets ip next → allowed target

/-- The check of a list of addresses. -/
def VmEnv.sharesAll (env : VmEnv W) (ips : List Nat) : Bool :=
  ips.contains 0 && ips.all fun ip =>
    (fetch env.bc ip).all fun (instr, next) =>
      env.shares instr && (instr.successors env.labelOffsets ip next).all ips.contains

theorem SharedCode.of_sharesAll {env : VmEnv W} {ips : List Nat} (h : env.sharesAll ips = true) :
    SharedCode env (· ∈ ips) := by
  rw [VmEnv.sharesAll, Bool.and_eq_true, List.all_eq_true] at h
  obtain ⟨hstart, hall⟩ := h
  have hat : ∀ ip instr next, ip ∈ ips → fetch env.bc ip = some (instr, next) →
      env.shares instr = true ∧
        ∀ target ∈ instr.successors env.labelOffsets ip next, target ∈ ips := by
    intro ip instr next hip hfetch
    have hcheck := hall ip hip
    rw [hfetch, Option.all_some, Bool.and_eq_true, List.all_eq_true] at hcheck
    exact ⟨hcheck.1, fun target htarget => List.contains_iff_mem.mp (hcheck.2 target htarget)⟩
  exact ⟨List.contains_iff_mem.mp hstart, fun ip instr next hip hfetch =>
    (hat ip instr next hip hfetch).1, fun ip instr next target hip hfetch hsucc =>
    (hat ip instr next hip hfetch).2 target hsucc⟩

/-- The choice points of the two interpreters, newest first: they go on at the same places, and
with the same registers where the registers are to be the `same`.  The bases of the one lie within
a trail of `n` records. -/
inductive SavedAlike (same : Prop) (st : Store) : List Choice → List SearchChoice → Nat → Prop where
  | nil (n : Nat) : SavedAlike same st [] [] n
  | cons {c : Choice} {c' : SearchChoice} {cs : List Choice} {cs' : List SearchChoice}
      {base n : Nat} (hbase : same → Store.BaseIs c base ∧ base ≤ n) (hip : c.ip = c'.ip)
      (hpos : c.pos = c'.pos) (hregs : same → (st.restore c).regs = c'.regs)
      (h : SavedAlike same st cs cs' base) : SavedAlike same st (c :: cs) (c' :: cs') n

/-- The interpreters stand at the same place, with the same choice points. -/
structure InLockstep (same : Prop) (vm : Vm W) (svm : SearchVm) : Prop where
  ip : vm.ip = svm.ip
  pos : vm.pos = svm.pos
  regs : same → vm.regs = svm.regs
  saved : SavedAlike same vm.toStore vm.choices svm.choices vm.trail.length
  abortFlag : vm.abortFlag = false

/-- A turn of the one interpreter, and one of the other. -/
inductive SameTurn (same : Prop) : StepResult W → SearchStep → Prop where
  | running {vm : Vm W} {svm : SearchVm} (h : InLockstep same vm svm) :
      SameTurn same (.running vm) (.running svm)
  | matched {vm : Vm W} {svm : SearchVm} (hpos : vm.pos = svm.pos)
      (hregs : same → vm.regs = svm.regs) : SameTurn same (.halted true vm) (.matched svm)
  | failed {vm : Vm W} {svm : SearchVm} (hflag : vm.abortFlag = false) :
      SameTurn same (.halted false vm) (.failed svm)
  | aborted {vm : Vm W} {svm : SearchVm} (hflag : vm.abortFlag = true) :
      SameTurn same (.halted false vm) (.aborted svm)

/-! ### Choice points -/

namespace Store

theorem record_nil (env : VmEnv W) (st : Store) : st.record env [] = st := by
  unfold record
  split <;> rfl

theorem record_trail {env : VmEnv W} (hcompact : env.compact = true) (undone : List UndoRecord)
    (st : Store) : (st.record env undone).trail = undone ++ st.trail := by
  rw [record, if_pos hcompact]

end Store

namespace SavedAlike

variable {same : Prop} {env : VmEnv W} {st st' : Store} {cs : List Choice}
  {cs' : List SearchChoice} {n : Nat}

theorem mono (h : SavedAlike same st cs cs' n) {n' : Nat} (hle : same → n ≤ n') :
    SavedAlike same st cs cs' n' := by
  cases h with
  | nil => exact .nil n'
  | cons hbase hip hpos hregs h =>
    exact .cons (fun hsame => ⟨(hbase hsame).1, (hbase hsame).2.trans (hle hsame)⟩) hip hpos hregs h

/-- Other registers from which the pops come to the same. -/
theorem congr (h : SavedAlike same st cs cs' n)
    (hkeeps : same → ∀ c base, Store.BaseIs c base → base ≤ n →
      (st'.restore c).regs = (st.restore c).regs) : SavedAlike same st' cs cs' n := by
  induction h with
  | nil n => exact .nil n
  | cons hbase hip hpos hregs _ ih =>
    refine .cons hbase hip hpos (fun hsame => ?_) (ih fun hsame c base hc hle => ?_)
    · obtain ⟨hc, hle⟩ := hbase hsame
      exact (hkeeps hsame _ _ hc hle).trans (hregs hsame)
    · exact hkeeps hsame c base hc (hle.trans (hbase hsame).2)

theorem push (hcompact : env.compact = true) (h : SavedAlike same st cs cs' st.trail.length)
    (hfits : same → st.TrailFits env) (ip pos : Nat) {regs : Regs} (hregs : same → st.regs = regs) :
    SavedAlike same st (st.choice env ip pos :: cs) (⟨ip, pos, regs⟩ :: cs') st.trail.length := by
  refine .cons (fun hsame => ?_) rfl rfl (fun hsame => ?_) h
  · exact ⟨Store.choice_base hcompact (hfits hsame) ip pos, Nat.le_refl _⟩
  · rw [Store.restore_choice (hfits hsame)]
    exact hregs hsame

/-- A recorded write. -/
theorem write (hcompact : env.compact = true) (h : SavedAlike same st cs cs' st.trail.length)
    {regs : Regs} {undone : List UndoRecord} (hreverts : Store.Reverts st.regs regs undone) :
    SavedAlike same ({ st with regs }.record env undone) cs cs'
      ({ st with regs }.record env undone).trail.length := by
  have hkept : SavedAlike same ({ st with regs }.record env undone) cs cs' st.trail.length := by
    refine h.congr fun _ c base hc hle => ?_
    rw [Store.restore_write hcompact hc hle hreverts]
  refine hkept.mono fun _ => ?_
  rw [Store.record_trail hcompact, List.length_append]
  exact Nat.le_add_left _ _

/-- A pop leaves the choice points below alike. -/
theorem pop {c : Choice} {c' : SearchChoice}
    (h : SavedAlike same st (c :: cs) (c' :: cs') st.trail.length) :
    SavedAlike same (st.restore c) cs cs' (st.restore c).trail.length := by
  cases h with
  | @cons _ _ _ _ base _ hbase hip hpos hregs h =>
    have hlen : same → base ≤ (st.restore c).trail.length := by
      intro hsame
      obtain ⟨hc, hle⟩ := hbase hsame
      rw [Store.restore_trail, Store.cutTrail, hc, List.length_drop]
      omega
    refine SavedAlike.mono (h.congr fun hsame c'' base'' hc'' hle'' => ?_) hlen
    rw [Store.restore_restore hc'' (hbase hsame).1 hle'']

end SavedAlike

/-! ### One turn and a run -/

section

variable {same : Prop} {env : VmEnv W} {vm : Vm W} {svm : SearchVm}

theorem SameTurn.backtrack
    (hsaved : SavedAlike same vm.toStore vm.choices svm.choices vm.trail.length)
    (hflag : vm.abortFlag = false) : SameTurn same vm.backtrack svm.backtrack := by
  unfold Vm.backtrack SearchVm.backtrack
  generalize hcs : vm.choices = cs at hsaved
  generalize hcs' : svm.choices = cs' at hsaved
  cases hsaved with
  | nil => exact .failed hflag
  | cons hbase hip hpos hregs h =>
    exact .running ⟨hip, hpos, hregs, (SavedAlike.cons hbase hip hpos hregs h).pop, hflag⟩

/-- An instruction that moves the cursor or fails. -/
theorem SameTurn.moves (h : InLockstep same vm svm) (next : Nat) (target : Option Nat) :
    SameTurn same (Vm.apply env { vm with ip := next } (moveTo vm.regs vm.globals target))
      (svm.goOn next target) := by
  cases target with
  | none => exact SameTurn.backtrack h.saved h.abortFlag
  | some pos =>
    refine .running ⟨rfl, rfl, ?_, ?_, h.abortFlag⟩
    · exact fun hsame => (Store.record_regs env [] vm.toStore).trans (h.regs hsame)
    · show SavedAlike same (vm.toStore.record env []) _ _ (vm.toStore.record env []).trail.length
      rw [Store.record_nil]
      exact h.saved

theorem SameTurn.writes (hcompact : env.compact = true) (h : InLockstep same vm svm) (next : Nat)
    {written : Regs × List UndoRecord} (hreverts : Store.Reverts vm.regs written.1 written.2)
    {regs : Regs} (hregs : same → written.1 = regs) :
    SameTurn same (Vm.apply env { vm with ip := next } (writeRegs vm.pos vm.globals written))
      (.running { svm with ip := next, pos := vm.pos, regs }) := by
  refine .running ⟨rfl, rfl, ?_, h.saved.write hcompact hreverts, h.abortFlag⟩
  intro hsame
  exact (Store.record_regs ..).trans (hregs hsame)

theorem InLockstep.breakx (hcompact : env.compact = true) (h : InLockstep same vm svm)
    (hfits : same → vm.toStore.TrailFits env) (hs : IsAscii env.s) (setId next : Nat) :
    InLockstep same (opBreakx env setId vm.ip { vm with ip := next })
      (SearchVm.breakx env setId vm.ip { svm with ip := next }) := by
  have hstop : searchBreakx env setId (env.searchRanges setId) env.s.length vm.pos =
      breakTarget env.s (env.ranges setId) vm.pos :=
    searchBreakx_ascii hs (Nat.le_add_right _ _)
  unfold opBreakx SearchVm.breakx
  dsimp only
  rw [← h.pos, hstop]
  split
  · exact ⟨rfl, rfl, h.regs, h.saved.push hcompact hfits _ _ h.regs, h.abortFlag⟩
  · exact ⟨rfl, rfl, h.regs, h.saved, h.abortFlag⟩

/-- One turn. -/
theorem InLockstep.step (hcompact : env.compact = true) (h : InLockstep same vm svm)
    (hfits : same → vm.toStore.TrailFits env) (hs : IsAscii env.s)
    (hshares : ∀ instr next, fetch env.bc vm.ip = some (instr, next) → env.shares instr = true) :
    SameTurn same (vmStep env vm) (svm.step env) := by
  unfold vmStep SearchVm.step
  rw [← h.ip]
  cases hfetch : fetch env.bc vm.ip with
  | none => exact .backtrack h.saved h.abortFlag
  | some fetched =>
    obtain ⟨instr, next⟩ := fetched
    have hshare := hshares instr next hfetch
    cases instr with
    | prim p =>
      dsimp only
      cases p with
      | nop =>
        rw [Prim.exec, SearchVm.prim, ← h.pos]
        exact .moves h next (some vm.pos)
      | lit off len =>
        rw [Prim.exec, SearchVm.prim, ← h.pos]
        exact .moves h next _
      | set op id =>
        rw [Prim.exec, SearchVm.prim, ← h.pos, searchSet_ascii hs op (of_decide_eq_true hshare)]
        exact .moves h next _
      | capStart r =>
        rw [Prim.exec, SearchVm.prim, ← h.pos]
        exact .writes hcompact h next (Store.opCapStart_reverts r vm.pos vm.regs) fun hsame => by
          rw [h.regs hsame]
      | capEnd r =>
        rw [Prim.exec, SearchVm.prim, ← h.pos]
        exact .writes hcompact h next (Store.opCapEnd_reverts r vm.pos vm.regs) fun hsame => by
          rw [h.regs hsame]
      | assign var r =>
        rw [Prim.exec, SearchVm.prim, ← h.pos]
        exact .writes hcompact h next (Store.opAssign_reverts var r vm.regs) fun hsame => by
          rw [h.regs hsame]
      | count op n =>
        obtain rfl : op = .len := of_decide_eq_true hshare
        rw [Prim.exec, SearchVm.prim, ← h.pos]
        exact .moves h next _
      | anchor type =>
        rw [Prim.exec, SearchVm.prim, ← h.pos]
        exact .moves h next _
      | eval | emitLiteral | emitCapture | label | tableGet | tableSet | bal | rem =>
        exact absurd hshare Bool.false_ne_true
    | accept => exact .matched h.pos h.regs
    | succeed => exact .matched h.pos h.regs
    | abort => exact .aborted rfl
    | fail => exact .backtrack h.saved h.abortFlag
    | jmp target => exact .running ⟨rfl, h.pos, h.regs, h.saved, h.abortFlag⟩
    | split a b =>
      refine .running ⟨rfl, h.pos, h.regs, ?_, h.abortFlag⟩
      dsimp only [SearchVm.pushChoice, Vm.pushChoice]
      rw [← h.pos]
      exact h.saved.push hcompact hfits b vm.pos h.regs
    | breakx setId => exact .running (h.breakx hcompact hfits hs setId next)
    | fence => exact .running ⟨rfl, h.pos, h.regs, .nil _, h.abortFlag⟩
    | repeatInit | repeatStep | goto | unknown => exact absurd hshare Bool.false_ne_true

/-- A run. -/
theorem InLockstep.steps (hcompact : env.compact = true) {allowed : Nat → Prop}
    (h : InLockstep same vm svm) (hs : IsAscii env.s) (hcode : SharedCode env allowed)
    (hwithin : vm.Within allowed)
    (hfits : same → ∀ m vm', vmSteps env m vm = .running vm' → vm'.toStore.TrailFits env) (n : Nat) :
    SameTurn same (vmSteps env n vm) (SearchVm.steps env n svm) := by
  induction n generalizing vm svm with
  | zero => exact .running h
  | succ n ih =>
    have hturn := h.step hcompact (fun hsame => hfits hsame 0 vm rfl) hs fun instr next hfetch =>
      hcode.shares vm.ip instr next hwithin.ip hfetch
    have hkeeps := hwithin.step fun instr next target hfetch _ hsucc =>
      hcode.closed vm.ip instr next target hwithin.ip hfetch hsucc
    have hlater : ∀ vm₁, vmStep env vm = .running vm₁ → same → ∀ m vm',
        vmSteps env m vm₁ = .running vm' → vm'.toStore.TrailFits env := by
      intro vm₁ hstep hsame m vm' hm
      exact hfits hsame (m + 1) vm' ((vmSteps_running hstep m).trans hm)
    rw [vmSteps, SearchVm.steps]
    generalize vmStep env vm = result at hturn hkeeps hlater
    generalize svm.step env = result' at hturn
    cases hturn with
    | running h' =>
      cases hkeeps with
      | running hwithin' => exact ih h' hwithin' (hlater _ rfl)
    | matched hpos hregs => exact .matched hpos hregs
    | failed hflag => exact .failed hflag
    | aborted hflag => exact .aborted hflag

end

/-! ## How the calls end -/

/-- What a caller sees of the end of an attempt. -/
inductive ExecEnd where
  | found (stop : Nat) (regs : Regs)
  | failed
  | aborted

/-- The end of a run of `vm_run`. -/
def StepResult.execEnd : StepResult W → Option ExecEnd
  | .running _ => none
  | .halted true vm => some (.found vm.pos vm.regs)
  | .halted false vm => some (if vm.abortFlag then .aborted else .failed)

/-- The end of a run of `search_vm_exec`. -/
def SearchStep.execEnd : SearchStep → Option ExecEnd
  | .running _ => none
  | .matched vm => some (.found vm.pos vm.regs)
  | .failed _ => some .failed
  | .aborted _ => some .aborted
  | .unknown => none

theorem SameTurn.execEnd {result : StepResult W} {result' : SearchStep}
    (h : SameTurn True result result') : result.execEnd = result'.execEnd := by
  cases h with
  | running h => rfl
  | matched hpos hregs => rw [StepResult.execEnd, SearchStep.execEnd, hpos, hregs trivial]
  | failed hflag =>
    rw [StepResult.execEnd, hflag]
    rfl
  | aborted hflag =>
    rw [StepResult.execEnd, hflag]
    rfl

/-- `vm_exec` ends so. -/
def VmEnds (env : VmEnv W) (vm : Vm W) (last : ExecEnd) : Prop :=
  ∃ n, (vmSteps env n (vmRunStart (vmExecStart vm))).execEnd = some last

/-- `search_vm_exec` ends so. -/
def SearchVmEnds (env : VmEnv W) (svm : SearchVm) (last : ExecEnd) : Prop :=
  ∃ n, (svm.steps env n).execEnd = some last

/-- Over ASCII subjects, on code without positional instructions and loops, `search_vm_exec` ends
as `vm_exec` does, from the same registers and with the same registers, in every run whose trail
stays below 2³² records. -/
theorem searchVm_ends_iff (env : VmEnv W) (hcompact : env.compact = true) (hs : IsAscii env.s)
    (allowed : Nat → Prop) (hcode : SharedCode env allowed) (vm : Vm W) (svm : SearchVm)
    (hip : svm.ip = 0) (hpos : svm.pos = 0) (hchoices : svm.choices = [])
    (hregs : svm.regs = (vmExecStart vm).regs)
    (hfits : ∀ vm', VmReach env (vmExecStart vm) vm' → vm'.toStore.TrailFits env) (last : ExecEnd) :
    SearchVmEnds env svm last ↔ VmEnds env vm last := by
  have hlockstep : InLockstep True (vmRunStart (vmExecStart vm)) svm := by
    refine ⟨hip.symm, hpos.symm, fun _ => hregs.symm, ?_, rfl⟩
    rw [hchoices]
    exact .nil _
  have hwithin : (vmRunStart (vmExecStart vm)).Within allowed :=
    ⟨hcode.start, fun c hc => by cases hc⟩
  refine exists_congr fun n => ?_
  have htrail : True → ∀ m vm', vmSteps env m (vmRunStart (vmExecStart vm)) = .running vm' →
      vm'.toStore.TrailFits env := fun _ m vm' hm => hfits vm' (VmReach.steps .start hm)
  rw [(hlockstep.steps hcompact hs hcode hwithin htrail n).execEnd]

/-- The addresses of the instructions of `captureOrPair`. -/
def captureOrPairIps : List Nat := [0, 9, 11, 21, 23, 33, 38, 49]

/-- On "ab" the capture is closed when 'x' fails, and both interpreters take it back. -/
theorem searchVm_ends_iff_capture :
    ∃ regs : Regs, regs.capEnd 0 = 0 ∧
      VmEnds (VmEnv.ofCode captureOrPair [0x61, 0x62] .bare) (.zero ⟨[], ()⟩) (.found 2 regs) := by
  let env := VmEnv.ofCode captureOrPair [0x61, 0x62] .bare
  have hlast : (match SearchVm.steps env 8 .zero with
      | .matched vm => decide (vm.pos = 2 ∧ vm.regs.capEnd 0 = 0)
      | _ => false) = true := by decide +kernel
  cases hresult : SearchVm.steps env 8 .zero with
  | matched final =>
    rw [hresult] at hlast
    obtain ⟨hpos, hcap⟩ := of_decide_eq_true hlast
    refine ⟨final.regs, hcap, ?_⟩
    have hcode : SharedCode env (· ∈ captureOrPairIps) := .of_sharesAll (by decide +kernel)
    have hend : vmSteps env 8 (vmRunStart (vmExecStart (.zero ⟨[], ()⟩))) = .halted true _ :=
      StepResult.eq_halted (by decide +kernel)
    refine (searchVm_ends_iff env rfl (by decide +kernel) _ hcode (.zero ⟨[], ()⟩) .zero rfl rfl rfl
      rfl (VmReach.trailFits hend (by decide +kernel)) _).mp ⟨8, ?_⟩
    rw [hresult, SearchStep.execEnd, hpos]
  | _ =>
    rw [hresult] at hlast
    cases hlast

/-! ## The tier -/

/-- `search_vm_writeback_to_vm`; the memory of the choice points is not a stack of `vm_run`. -/
def SearchVm.writebackToVm (svm : SearchVm) (vm : Vm W) : Vm W :=
  { vm with
    ip := svm.ip
    pos := svm.pos
    regs :=
      { capStart := Store.restoreBelow svm.regs.maxCapUsed svm.regs.capStart vm.regs.capStart
        capEnd := Store.restoreBelow svm.regs.maxCapUsed svm.regs.capEnd vm.regs.capEnd
        varStart := Store.restoreBelow svm.regs.varCount svm.regs.varStart vm.regs.varStart
        varEnd := Store.restoreBelow svm.regs.varCount svm.regs.varEnd vm.regs.varEnd
        varCount := svm.regs.varCount
        maxCapUsed := svm.regs.maxCapUsed }
    counters := svm.counters
    loopLastPos := svm.loopLastPos
    maxCounterUsed := svm.maxCounterUsed
    choices := [] }

/-- The first `n` turns of `search_vm_exec` at an offset. -/
def searchVmAttempt (env : VmEnv W) (offset : Nat) (vm : Vm W) (stack : Regs) (n : Nat) :
    SearchStep :=
  SearchVm.steps (env.window offset) n
    (searchVmInitFromVm stack (snobolBcRegisterClasses env.bc) (searchResetVm vm))

/-- The loop of `tier_search_vm` comes to an offset, with the VM in the given state and the
registers of the search VM as the last attempt left them. -/
inductive SearchVmReach (env : VmEnv W) (info : SearchMeta) (anchored : Bool) (start : Nat)
    (vm₀ : Vm W) (stack₀ : Regs) : Nat → Vm W → Regs → Prop where
  | start : SearchVmReach env info anchored start vm₀ stack₀ start vm₀ stack₀
  | failed {offset n : Nat} {vm : Vm W} {stack : Regs} {final : SearchVm}
      (h : SearchVmReach env info anchored start vm₀ stack₀ offset vm stack)
      (hexec : searchVmAttempt env offset vm stack n = .failed final)
      (hlt : offset < env.s.length) (hscan : anchored = false) :
      SearchVmReach env info anchored start vm₀ stack₀ (info.advance env.s offset)
        (final.writebackToVm (searchResetVm vm)) final.regs

/-- What `tier_search_vm` reports. -/
inductive SearchVmReports (env : VmEnv W) (info : SearchMeta) (anchored : Bool) (start : Nat)
    (vm₀ : Vm W) (stack₀ : Regs) : Option (Nat × Nat) → Prop where
  | found {offset n : Nat} {vm : Vm W} {stack : Regs} {final : SearchVm}
      (h : SearchVmReach env info anchored start vm₀ stack₀ offset vm stack)
      (hle : offset ≤ env.s.length)
      (hexec : searchVmAttempt env offset vm stack n = .matched final) :
      SearchVmReports env info anchored start vm₀ stack₀ (some (offset, offset + final.pos))
  | aborted {offset n : Nat} {vm : Vm W} {stack : Regs} {final : SearchVm}
      (h : SearchVmReach env info anchored start vm₀ stack₀ offset vm stack)
      (hle : offset ≤ env.s.length)
      (hexec : searchVmAttempt env offset vm stack n = .aborted final) :
      SearchVmReports env info anchored start vm₀ stack₀ none
  | failed {offset n : Nat} {vm : Vm W} {stack : Regs} {final : SearchVm}
      (h : SearchVmReach env info anchored start vm₀ stack₀ offset vm stack)
      (hle : offset ≤ env.s.length)
      (hexec : searchVmAttempt env offset vm stack n = .failed final)
      (hend : env.s.length ≤ offset ∨ anchored = true) :
      SearchVmReports env info anchored start vm₀ stack₀ none
  | past {offset : Nat} {vm : Vm W} {stack : Regs}
      (h : SearchVmReach env info anchored start vm₀ stack₀ offset vm stack)
      (hpast : env.s.length < offset) : SearchVmReports env info anchored start vm₀ stack₀ none

/-- The metadata that both loops look at. -/
def SearchMeta.skipOnly (info : SearchMeta) : SearchMeta := ⟨none, 0, info.bmhSkip⟩

theorem SearchMeta.skips_skipOnly (info : SearchMeta) (s : Bytes) (offset : Nat) :
    info.skipOnly.skips s offset = false := by
  unfold SearchMeta.skips SearchMeta.skipOnly
  rfl

theorem SearchMeta.tries_skipOnly (info : SearchMeta) {s : Bytes} {offset : Nat}
    (hle : offset ≤ s.length) : info.skipOnly.Tries s offset :=
  ⟨hle, info.skips_skipOnly s offset, .inl rfl⟩

section

variable {env : VmEnv W} {allowed : Nat → Prop} {info : SearchMeta} {anchored : Bool}
  {start offset : Nat} {vm₀ vm vm' : Vm W} {stack₀ stack : Regs}

theorem SharedCode.window (h : SharedCode env allowed) (offset : Nat) :
    SharedCode (env.window offset) allowed where
  start := h.start
  shares := h.shares
  closed ip instr next target hip hfetch hsucc := by
    refine h.closed ip instr next target hip hfetch ?_
    have hshare := h.shares ip instr next hip hfetch
    cases instr with
    | goto label => exact absurd hshare Bool.false_ne_true
    | _ => exact hsucc

/-- An attempt of the tier and one of `tier_general_fallback`. -/
theorem searchVmAttempt_turn (hcompact : env.compact = true) (hs : IsAscii env.s)
    (hcode : SharedCode env allowed) (offset : Nat) (vm vm' : Vm W) (stack : Regs) (n : Nat) :
    SameTurn False (vmSteps (env.window offset) n (vmRunStart (vmExecStart (searchResetVm vm'))))
      (searchVmAttempt env offset vm stack n) := by
  have hlockstep : InLockstep False (vmRunStart (vmExecStart (searchResetVm vm')))
      (searchVmInitFromVm stack (snobolBcRegisterClasses env.bc) (searchResetVm vm)) :=
    ⟨rfl, rfl, False.elim, .nil _, rfl⟩
  have hwithin : (vmRunStart (vmExecStart (searchResetVm vm'))).Within allowed :=
    ⟨hcode.start, fun c hc => by cases hc⟩
  have hwindow : IsAscii (env.window offset).s := fun b hb => hs b (List.mem_of_mem_drop hb)
  have hcompact' : (env.window offset).compact = true := hcompact
  exact hlockstep.steps hcompact' hwindow (hcode.window offset) hwithin False.elim n

section

variable (hcompact : env.compact = true) (hs : IsAscii env.s) (hcode : SharedCode env allowed)
include hcompact hs hcode

theorem searchVmAttempt_matched {n : Nat} {final : SearchVm}
    (h : searchVmAttempt env offset vm stack n = .matched final) (vm' : Vm W) :
    ∃ final', VmExec (env.window offset) (searchResetVm vm') true final' ∧
      final'.pos = final.pos := by
  have hturn := searchVmAttempt_turn hcompact hs hcode offset vm vm' stack n
  rw [h] at hturn
  generalize hresult : vmSteps _ _ _ = result at hturn
  cases hturn with
  | @matched final' _ hpos => exact ⟨final', ⟨n, hresult⟩, hpos⟩

theorem searchVmAttempt_failed {n : Nat} {final : SearchVm}
    (h : searchVmAttempt env offset vm stack n = .failed final) (vm' : Vm W) :
    ∃ final', VmExec (env.window offset) (searchResetVm vm') false final' ∧
      final'.abortFlag = false := by
  have hturn := searchVmAttempt_turn hcompact hs hcode offset vm vm' stack n
  rw [h] at hturn
  generalize hresult : vmSteps _ _ _ = result at hturn
  cases hturn with
  | @failed final' _ hflag => exact ⟨final', ⟨n, hresult⟩, hflag⟩

theorem searchVmAttempt_aborted {n : Nat} {final : SearchVm}
    (h : searchVmAttempt env offset vm stack n = .aborted final) (vm' : Vm W) :
    ∃ final', VmExec (env.window offset) (searchResetVm vm') false final' ∧
      final'.abortFlag = true := by
  have hturn := searchVmAttempt_turn hcompact hs hcode offset vm vm' stack n
  rw [h] at hturn
  generalize hresult : vmSteps _ _ _ = result at hturn
  cases hturn with
  | @aborted final' _ hflag => exact ⟨final', ⟨n, hresult⟩, hflag⟩

/-- The general loop comes to the offsets of the tier. -/
theorem SearchVmReach.general
    (h : SearchVmReach env info anchored start vm₀ stack₀ offset vm stack) :
    ∃ vm', SearchReach env info.skipOnly anchored start vm₀ offset vm' := by
  induction h with
  | start => exact ⟨vm₀, .start⟩
  | @failed offset n vm stack final h hexec hlt hscan ih =>
    obtain ⟨vm', hreach⟩ := ih
    obtain ⟨final', hexec', hflag⟩ := searchVmAttempt_failed hcompact hs hcode hexec vm'
    have htries := info.tries_skipOnly (Nat.le_of_lt hlt)
    exact ⟨final', .failed hreach htries hexec' hflag hlt hscan⟩

/-- The tier comes to the offsets of the general loop. -/
theorem SearchReach.searchVm (stack₀ : Regs)
    (h : SearchReach env info.skipOnly anchored start vm₀ offset vm) :
    ∃ vm' stack, SearchVmReach env info anchored start vm₀ stack₀ offset vm' stack := by
  induction h with
  | start => exact ⟨vm₀, stack₀, .start⟩
  | skip h hskip ih =>
    rw [info.skips_skipOnly] at hskip
    cases hskip
  | @failed offset vm final h htries hexec habort hlt hscan ih =>
    obtain ⟨vm', stack, hreach⟩ := ih
    obtain ⟨n, hn⟩ := hexec
    have hturn := searchVmAttempt_turn hcompact hs hcode offset vm' vm stack n
    rw [hn] at hturn
    generalize hresult : searchVmAttempt env offset vm' stack n = result at hturn
    cases hturn with
    | @failed _ final' _ => exact ⟨_, _, .failed hreach hresult hlt hscan⟩
    | aborted hflag =>
      rw [habort] at hflag
      cases hflag

theorem SearchVmReports.general {result : Option (Nat × Nat)}
    (h : SearchVmReports env info anchored start vm₀ stack₀ result) :
    SearchReports env info.skipOnly anchored start vm₀ result := by
  cases h with
  | found h hle hexec =>
    obtain ⟨vm', hreach⟩ := h.general hcompact hs hcode
    obtain ⟨final', hexec', hpos⟩ := searchVmAttempt_matched hcompact hs hcode hexec vm'
    exact ⟨vm', final', ⟨hreach, info.tries_skipOnly hle, hexec'⟩, by rw [hpos]⟩
  | aborted h hle hexec =>
    obtain ⟨vm', hreach⟩ := h.general hcompact hs hcode
    obtain ⟨final', hexec', hflag⟩ := searchVmAttempt_aborted hcompact hs hcode hexec vm'
    exact .failed hreach (info.tries_skipOnly hle) hexec' (.inl hflag)
  | failed h hle hexec hend =>
    obtain ⟨vm', hreach⟩ := h.general hcompact hs hcode
    obtain ⟨final', hexec', -⟩ := searchVmAttempt_failed hcompact hs hcode hexec vm'
    exact .failed hreach (info.tries_skipOnly hle) hexec' (.inr hend)
  | past h hpast =>
    obtain ⟨vm', hreach⟩ := h.general hcompact hs hcode
    exact .past hreach hpast

theorem SearchReports.searchVm (stack₀ : Regs) {result : Option (Nat × Nat)}
    (h : SearchReports env info.skipOnly anchored start vm₀ result) :
    SearchVmReports env info anchored start vm₀ stack₀ result := by
  cases result with
  | some found =>
    obtain ⟨offset, stop⟩ := found
    obtain ⟨vm, final, ⟨hreach, htries, n, hn⟩, rfl⟩ := h
    obtain ⟨vm', stack, hreach'⟩ := hreach.searchVm hcompact hs hcode stack₀
    have hturn := searchVmAttempt_turn hcompact hs hcode offset vm' vm stack n
    rw [hn] at hturn
    generalize hresult : searchVmAttempt env offset vm' stack n = result at hturn
    cases hturn with
    | matched hpos =>
      rw [hpos]
      exact .found hreach' htries.1 hresult
  | none =>
    cases h with
    | past h hpast =>
      obtain ⟨vm', stack, hreach'⟩ := h.searchVm hcompact hs hcode stack₀
      exact .past hreach' hpast
    | short _ _ _ hmin => exact absurd hmin (Nat.lt_irrefl 0)
    | @failed offset vm final h htries hexec hend =>
      obtain ⟨n, hn⟩ := hexec
      obtain ⟨vm', stack, hreach'⟩ := h.searchVm hcompact hs hcode stack₀
      have hturn := searchVmAttempt_turn hcompact hs hcode offset vm' vm stack n
      rw [hn] at hturn
      generalize hresult : searchVmAttempt env offset vm' stack n = result at hturn
      cases hturn with
      | failed hflag =>
        refine .failed hreach' htries.1 hresult (hend.resolve_left ?_)
        rw [hflag]
        exact Bool.false_ne_true
      | aborted hflag => exact .aborted hreach' htries.1 hresult

end

end

/-- Over ASCII subjects, on code without positional instructions and loops, the search VM tier
reports what the general tier reports that skips as it does, whatever both VMs hold before. -/
theorem tierSearchVm_reports_iff (env : VmEnv W) (hcompact : env.compact = true)
    (hs : IsAscii env.s) (allowed : Nat → Prop) (hcode : SharedCode env allowed)
    (info : SearchMeta) (anchored : Bool) (start : Nat) (vm₀ : Vm W) (stack₀ : Regs)
    (result : Option (Nat × Nat)) :
    SearchVmReports env info anchored start vm₀ stack₀ result ↔
      SearchReports env info.skipOnly anchored start vm₀ result :=
  ⟨fun h => h.general hcompact hs hcode, fun h => h.searchVm hcompact hs hcode stack₀⟩

/-- On "xab" the attempt at 0 fails and the one at 1 takes the second branch. -/
theorem tierSearchVm_reports_iff_capture :
    SearchReports (VmEnv.ofCode captureOrPair [0x78, 0x61, 0x62] .bare) .empty false 0
      (.zero ⟨[], ()⟩) (some (1, 3)) := by
  let env := VmEnv.ofCode captureOrPair [0x78, 0x61, 0x62] .bare
  let vm : Vm Unit := .zero ⟨[], ()⟩
  let stack := SearchVm.zero.regs
  have hfirst : (match searchVmAttempt env 0 vm stack 8 with
      | .failed final =>
          (match searchVmAttempt env 1 (final.writebackToVm (searchResetVm vm)) final.regs 8 with
            | .matched final => decide (final.pos = 2)
            | _ => false)
      | _ => false) = true := by decide +kernel
  cases hfailed : searchVmAttempt env 0 vm stack 8 with
  | failed final =>
    rw [hfailed] at hfirst
    dsimp only at hfirst
    have hreach : SearchVmReach env .empty false 0 vm stack 1
        (final.writebackToVm (searchResetVm vm)) final.regs :=
      .failed .start hfailed (by decide) rfl
    cases hmatched :
        searchVmAttempt env 1 (final.writebackToVm (searchResetVm vm)) final.regs 8 with
    | matched final' =>
      rw [hmatched] at hfirst
      have hreport := SearchVmReports.found hreach (by decide) hmatched
      rw [of_decide_eq_true hfirst] at hreport
      have hcode : SharedCode env (· ∈ captureOrPairIps) := .of_sharesAll (by decide +kernel)
      have hiff := tierSearchVm_reports_iff env rfl (by decide +kernel) _ hcode .empty false 0 vm
        stack (some (1, 1 + 2))
      exact hiff.mp hreport
    | _ =>
      rw [hmatched] at hfirst
      cases hfirst
  | _ =>
    rw [hfailed] at hfirst
    cases hfirst

end Snobol4
