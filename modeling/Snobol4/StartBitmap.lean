import Mathlib.Data.List.TakeWhile
import Snobol4.Compiler
import Snobol4.SearchLoop

/-!
# StartBitmap — the bytes a match can start with (`search_meta.c`)

`compute_start_bitmap` walks the bytecode from its start over zero-width instructions and
collects the first bytes of the instructions that consume.
-/

namespace Snobol4

variable {W : Type}

/-! ## The walk -/

/-- What the walk does at an instruction: add start bytes and end the branch, go on, or
take both branches. -/
inductive StartStep where
  | stop (bytes : UInt8 → Bool)
  | go (ip : Nat)
  | fork (left right : Nat)

/-- The map that `ranges_to_ascii_bitmap` leaves behind: it returns at the first range
outside ASCII. -/
def asciiMap (ranges : List CpRange) (b : UInt8) : Bool :=
  (ranges.takeWhile fun r => decide (r.start ≤ 127) && decide (r.stop ≤ 127)).any
    fun r => r.holds b.toNat

/-- The `switch` of `compute_start_bitmap`. -/
def startStep (bc : Bytes) (ip : Nat) : StartStep :=
  let all : StartStep := .stop fun _ => true
  let within (size : Nat) (step : StartStep) : StartStep :=
    if bc.length < ip + size then all else step
  let set (bytes : List CpRange → UInt8 → Bool) : StartStep :=
    within 3 ((parseRanges bc (readU16 bc (ip + 1)).1).elim all fun c => .stop (bytes c.ranges))
  match bc[ip]?.bind OpCode.ofByte with
  | some .lit =>
      let off := (readU32 bc (ip + 1)).1
      let len := (readU32 bc (ip + 5)).1
      within 9
        (if bc.length ≤ off ∨ bc.length < (off + len) % 2 ^ 32 ∨ len = 0 then all
        else .stop fun b => bc[off]? == some b)
  | some .any => set asciiMap
  | some .notany => set fun ranges b => !asciiMap ranges b
  | some .span => set asciiMap
  | some .split =>
      let left := (readU32 bc (ip + 1)).1
      let right := (readU32 bc (ip + 5)).1
      within 9 (if bc.length ≤ left ∨ bc.length ≤ right then all else .fork left right)
  | some .capStart => .go (ip + 2)
  | some .capEnd => .go (ip + 2)
  | some .fence => .go (ip + 1)
  | some .nop => .go (ip + 1)
  | some .anchor => .go (ip + 2)
  | some .assign => within 4 (.go (ip + 4))
  | some .pos => within 5 (.go (ip + 5))
  | some .rpos => within 5 (.go (ip + 5))
  | some .tab => within 5 (.go (ip + 5))
  | some .rtab => within 5 (.go (ip + 5))
  | some .jmp =>
      let target := (readU32 bc (ip + 1)).1
      within 5 (if bc.length ≤ target then all else .go target)
  | some .accept => .stop fun _ => false
  | some .fail => .stop fun _ => false
  | some .abort => .stop fun _ => false
  | some .succeed => .stop fun _ => false
  | _ => all

/-- The loop of `compute_start_bitmap` with its work stack, after which every byte is
allowed when the steps run out. -/
def startWalk (bc : Bytes) : Nat → List Nat → Nat → (UInt8 → Bool) → UInt8 → Bool
  | 0, _, _, _ => fun _ => true
  | fuel + 1, stack, ip, bitmap =>
      let done (bytes : UInt8 → Bool) : UInt8 → Bool :=
        let bitmap := fun b => bitmap b || bytes b
        match stack with
        | [] => bitmap
        | next :: stack => startWalk bc fuel stack next bitmap
      match startStep bc ip with
      | .stop bytes => done bytes
      | .go next => if next < bc.length then startWalk bc fuel stack next bitmap else bitmap
      | .fork left right =>
          if stack.length < 2048 then startWalk bc fuel (left :: stack) right bitmap
          else done fun _ => true

/-- `compute_start_bitmap` from the start of the code. -/
def computeStartBitmap (bc : Bytes) : UInt8 → Bool :=
  if bc.length = 0 then fun _ => false
  else startWalk bc (bc.length * 8 + 256) [] 0 fun _ => false

/-- The bitmap that the metadata exposes; `mayMatchEmpty` is what the root instruction
was classified as. -/
def startBitmap (mayMatchEmpty : Bool) (bc : Bytes) : UInt8 → Bool :=
  if mayMatchEmpty then fun _ => true else computeStartBitmap bc

/-! ## What the walk covers -/

/-- The walk comes from `ip` to an address. -/
inductive FrontFrom (bc : Bytes) (ip : Nat) : Nat → Prop where
  | refl : FrontFrom bc ip ip
  | go {mid next : Nat} (h : FrontFrom bc ip mid) (hstep : startStep bc mid = .go next) :
      FrontFrom bc ip next
  | left {mid left right : Nat} (h : FrontFrom bc ip mid)
      (hstep : startStep bc mid = .fork left right) : FrontFrom bc ip left
  | right {mid left right : Nat} (h : FrontFrom bc ip mid)
      (hstep : startStep bc mid = .fork left right) : FrontFrom bc ip right

/-- The front of the code: where control can be before a byte is consumed. -/
abbrev Front (bc : Bytes) : Nat → Prop := FrontFrom bc 0

/-- The first step of the walk. -/
theorem FrontFrom.cases_head {bc : Bytes} {ip target : Nat} (h : FrontFrom bc ip target) :
    target = ip ∨ (∃ next, startStep bc ip = .go next ∧ FrontFrom bc next target) ∨
      ∃ left right, startStep bc ip = .fork left right ∧
        (FrontFrom bc left target ∨ FrontFrom bc right target) := by
  induction h with
  | refl => exact .inl rfl
  | go _ hstep ih =>
    right
    obtain rfl | ⟨next, hgo, hnext⟩ | ⟨left, right, hfork, hbranch⟩ := ih
    · exact .inl ⟨_, hstep, .refl⟩
    · exact .inl ⟨next, hgo, hnext.go hstep⟩
    · exact .inr ⟨left, right, hfork, hbranch.imp (·.go hstep) (·.go hstep)⟩
  | left _ hstep ih =>
    right
    obtain rfl | ⟨next, hgo, hnext⟩ | ⟨left, right, hfork, hbranch⟩ := ih
    · exact .inr ⟨_, _, hstep, .inl .refl⟩
    · exact .inl ⟨next, hgo, hnext.left hstep⟩
    · exact .inr ⟨left, right, hfork, hbranch.imp (·.left hstep) (·.left hstep)⟩
  | right _ hstep ih =>
    right
    obtain rfl | ⟨next, hgo, hnext⟩ | ⟨left, right, hfork, hbranch⟩ := ih
    · exact .inr ⟨_, _, hstep, .inr .refl⟩
    · exact .inl ⟨next, hgo, hnext.right hstep⟩
    · exact .inr ⟨left, right, hfork, hbranch.imp (·.right hstep) (·.right hstep)⟩

theorem FrontFrom.trans {bc : Bytes} {ip mid target : Nat} (h : FrontFrom bc ip mid)
    (h' : FrontFrom bc mid target) : FrontFrom bc ip target := by
  induction h' with
  | refl => exact h
  | go _ hstep ih => exact ih.go hstep
  | left _ hstep ih => exact ih.left hstep
  | right _ hstep ih => exact ih.right hstep

/-- A byte that the walk leaves out is no start byte of an instruction it comes to. -/
theorem startWalk_covers {bc : Bytes} {fuel : Nat} {stack : List Nat} {ip : Nat}
    {bitmap : UInt8 → Bool} {b : UInt8} (hwalk : startWalk bc fuel stack ip bitmap b = false)
    (hcontained : ∀ start ∈ ip :: stack, ∀ mid next, FrontFrom bc start mid →
      startStep bc mid = .go next → next < bc.length) :
    bitmap b = false ∧ ∀ start ∈ ip :: stack, ∀ mid bytes, FrontFrom bc start mid →
      startStep bc mid = .stop bytes → bytes b = false := by
  induction fuel generalizing stack ip bitmap with
  | zero => cases hwalk
  | succ fuel ih =>
    rw [startWalk] at hwalk
    cases hstep : startStep bc ip with
    | stop bytes =>
      -- the branch ends here: only `ip` itself adds start bytes
      have hhere : ∀ mid bytes', FrontFrom bc ip mid → startStep bc mid = .stop bytes' →
          bytes b = false → bytes' b = false := by
        intro mid bytes' hmid hstop hfalse
        obtain rfl | ⟨next, hgo, -⟩ | ⟨left, right, hfork, -⟩ := hmid.cases_head
        · rw [hstep] at hstop
          cases hstop
          exact hfalse
        · rw [hstep] at hgo
          cases hgo
        · rw [hstep] at hfork
          cases hfork
      simp only [hstep] at hwalk
      cases stack with
      | nil =>
        simp only [Bool.or_eq_false_iff] at hwalk
        refine ⟨hwalk.1, ?_⟩
        intro start hstart mid bytes' hmid hstop
        obtain rfl : start = ip := by simpa using hstart
        exact hhere mid bytes' hmid hstop hwalk.2
      | cons next stack =>
        obtain ⟨hbitmap, hrest⟩ := ih hwalk fun start hstart =>
          hcontained start (List.mem_cons_of_mem _ hstart)
        simp only [Bool.or_eq_false_iff] at hbitmap
        refine ⟨hbitmap.1, ?_⟩
        intro start hstart mid bytes' hmid hstop
        obtain rfl | hstart := List.mem_cons.mp hstart
        · exact hhere mid bytes' hmid hstop hbitmap.2
        · exact hrest start hstart mid bytes' hmid hstop
    | go next =>
      have hlt : next < bc.length := hcontained ip List.mem_cons_self ip next .refl hstep
      simp only [hstep, if_pos hlt] at hwalk
      have hfront : ∀ mid, FrontFrom bc next mid → FrontFrom bc ip mid := fun mid hmid =>
        (FrontFrom.refl.go hstep).trans hmid
      obtain ⟨hbitmap, hrest⟩ := ih hwalk (by
        intro start hstart mid next' hmid hgo
        obtain rfl | hstart := List.mem_cons.mp hstart
        · exact hcontained ip List.mem_cons_self mid next' (hfront mid hmid) hgo
        · exact hcontained start (List.mem_cons_of_mem _ hstart) mid next' hmid hgo)
      refine ⟨hbitmap, ?_⟩
      intro start hstart mid bytes hmid hstop
      obtain rfl | hstart := List.mem_cons.mp hstart
      · obtain rfl | ⟨next', hgo, hnext⟩ | ⟨left, right, hfork, -⟩ := hmid.cases_head
        · rw [hstep] at hstop
          cases hstop
        · rw [hstep] at hgo
          cases hgo
          exact hrest next List.mem_cons_self mid bytes hnext hstop
        · rw [hstep] at hfork
          cases hfork
      · exact hrest start (List.mem_cons_of_mem _ hstart) mid bytes hmid hstop
    | fork left right =>
      have hdeep : stack.length < 2048 := by
        by_contra hfull
        simp only [hstep, if_neg hfull] at hwalk
        cases stack with
        | nil => simp at hwalk
        | cons next stack =>
          obtain ⟨hbitmap, -⟩ := ih hwalk fun start hstart =>
            hcontained start (List.mem_cons_of_mem _ hstart)
          simp at hbitmap
      simp only [hstep, if_pos hdeep] at hwalk
      have hleft : ∀ mid, FrontFrom bc left mid → FrontFrom bc ip mid := fun mid hmid =>
        (FrontFrom.refl.left hstep).trans hmid
      have hright : ∀ mid, FrontFrom bc right mid → FrontFrom bc ip mid := fun mid hmid =>
        (FrontFrom.refl.right hstep).trans hmid
      obtain ⟨hbitmap, hrest⟩ := ih hwalk (by
        intro start hstart mid next' hmid hgo
        obtain rfl | hstart := List.mem_cons.mp hstart
        · exact hcontained ip List.mem_cons_self mid next' (hright mid hmid) hgo
        obtain rfl | hstart := List.mem_cons.mp hstart
        · exact hcontained ip List.mem_cons_self mid next' (hleft mid hmid) hgo
        · exact hcontained start (List.mem_cons_of_mem _ hstart) mid next' hmid hgo)
      refine ⟨hbitmap, ?_⟩
      intro start hstart mid bytes hmid hstop
      obtain rfl | hstart := List.mem_cons.mp hstart
      · obtain rfl | ⟨next', hgo, -⟩ | ⟨left', right', hfork, hbranch⟩ := hmid.cases_head
        · rw [hstep] at hstop
          cases hstop
        · rw [hstep] at hgo
          cases hgo
        · rw [hstep] at hfork
          cases hfork
          obtain hbranch | hbranch := hbranch
          · exact hrest left (by simp) mid bytes hbranch hstop
          · exact hrest right (by simp) mid bytes hbranch hstop
      · exact hrest start (by simp [hstart]) mid bytes hmid hstop

/-! ## Runs before the first byte -/

/-- On classes within ASCII the map is complete. -/
theorem asciiMap_eq {ranges : List CpRange} {bitmap : UInt8 → Bool}
    (h : rangesToBitmap 127 ranges = some bitmap) : asciiMap ranges = bitmap := by
  unfold rangesToBitmap at h
  split at h
  · rename_i hall
    cases h
    funext b
    rw [asciiMap, List.takeWhile_eq_self_iff.mpr (by simpa using hall)]
  · cases h

/-- No byte has been consumed: the cursor and every choice point stand at the start of
the window, in the front of the code. -/
structure AtFront (bc : Bytes) (vm : Vm W) : Prop where
  pos : vm.pos = 0
  front : Front bc vm.ip
  choices : ∀ c ∈ vm.choices, c.pos = 0 ∧ Front bc c.ip

/-- The run stays in the front, or fails. -/
inductive Stays (bc : Bytes) : StepResult W → Prop where
  | running {vm : Vm W} (h : AtFront bc vm) : Stays bc (.running vm)
  | failed (vm : Vm W) : Stays bc (.halted false vm)

section

variable {env : VmEnv W} {vm : Vm W}

theorem AtFront.backtrack {bc : Bytes} (h : ∀ c ∈ vm.choices, c.pos = 0 ∧ Front bc c.ip) :
    Stays bc vm.backtrack := by
  unfold Vm.backtrack
  split
  · exact .failed vm
  · rename_i c rest hchoices
    rw [hchoices] at h
    obtain ⟨hpos, hfront⟩ := h c List.mem_cons_self
    exact .running ⟨hpos, hfront, fun c' hc' => h c' (List.mem_cons_of_mem _ hc')⟩

theorem AtFront.leave {bc : Bytes} : Stays bc vm.leave := by
  unfold Vm.leave
  split <;> exact .failed _

/-- A plain instruction that does not move the cursor, and leads on in the front. -/
theorem AtFront.prim (h : AtFront env.bc vm) {q : Prim} {next : Nat}
    (hfetch : fetch env.bc vm.ip = some (.prim q, next))
    (hexec : ∀ pos regs undo g, q.exec env 0 vm.regs vm.globals = .next pos regs undo g →
      pos = 0 ∧ Front env.bc next) : Stays env.bc (vmStep env vm) := by
  have hstep : vmStep env vm =
      Vm.apply env { vm with ip := next } (q.exec env 0 vm.regs vm.globals) := by
    simp only [vmStep, hfetch, h.pos]
  rw [hstep]
  cases hresult : q.exec env 0 vm.regs vm.globals with
  | next pos regs undo g =>
    obtain ⟨hpos, hfront⟩ := hexec pos regs undo g hresult
    exact .running ⟨hpos, hfront, h.choices⟩
  | fail g => exact AtFront.backtrack h.choices
  | leave g => exact AtFront.leave

theorem moveTo_next {regs regs' : Regs} {g g' : Globals W} {target : Option Nat} {pos : Nat}
    {undo : List UndoRecord} (h : moveTo regs g target = .next pos regs' undo g') :
    target = some pos := by
  cases target with
  | none => cases h
  | some n =>
    cases h
    rfl

end

/-- The front of the code only looks at the start of the window: it does not run off the
end of the code and does not reach the end of the pattern, no `OP_TAB` or `OP_RTAB` moves
the cursor, and the classes of `OP_ANY` and `OP_SPAN` lie within ASCII.  The classes of
`OP_NOTANY` are in order, as compiled ones are. -/
structure FrontOk (env : VmEnv W) : Prop where
  contained : ∀ ip next, Front env.bc ip → startStep env.bc ip = .go next → next < env.bc.length
  consumes : ∀ ip, Front env.bc ip → env.bc[ip]?.bind OpCode.ofByte ≠ some .accept ∧
    env.bc[ip]?.bind OpCode.ofByte ≠ some .succeed
  stays : ∀ ip op n next, Front env.bc ip → fetch env.bc ip = some (.prim (.count op n), next) →
    op = .tab ∨ op = .rtab → ∀ target ∈ matchCount env.s 0 op n, target = 0
  ascii : ∀ ip op id next, Front env.bc ip → fetch env.bc ip = some (.prim (.set op id), next) →
    op = .any ∨ op = .span → ∀ ranges ∈ env.ranges id, (rangesToBitmap 127 ranges).isSome
  ordered : ∀ ip id next, Front env.bc ip → fetch env.bc ip = some (.prim (.set .notany id), next) →
    ∀ ranges ∈ env.ranges id, OrderedRanges ranges

section

variable {env : VmEnv W} {vm : Vm W} {b byte : UInt8}

/-- An instruction that the walk steps over. -/
theorem AtFront.over (h : AtFront env.bc vm) (hget : env.bc[vm.ip]? = some byte) (q : Prim)
    {size : Nat} (hgo : startStep env.bc vm.ip = .go (vm.ip + size))
    (hoperands : operands env.bc byte (vm.ip + 1) = (.prim q, vm.ip + size))
    (hexec : ∀ pos regs undo g,
      q.exec env 0 vm.regs vm.globals = .next pos regs undo g → pos = 0) :
    Stays env.bc (vmStep env vm) := by
  have hfetch : fetch env.bc vm.ip = some (.prim q, vm.ip + size) := by
    rw [fetch, hget, Option.map_some, hoperands]
  exact h.prim hfetch fun pos regs undo g hresult =>
    ⟨hexec pos regs undo g hresult, h.front.go hgo⟩

/-- An instruction that cannot match before the byte `b`. -/
theorem AtFront.stuck (h : AtFront env.bc vm) (hget : env.bc[vm.ip]? = some byte) {q : Prim}
    (hoperands : (operands env.bc byte (vm.ip + 1)).1 = .prim q)
    (hexec : ∀ pos regs undo g, q.exec env 0 vm.regs vm.globals ≠ .next pos regs undo g) :
    Stays env.bc (vmStep env vm) := by
  have hfetch : fetch env.bc vm.ip = some (.prim q, (operands env.bc byte (vm.ip + 1)).2) := by
    rw [fetch, hget, Option.map_some, ← hoperands]
  exact h.prim hfetch fun pos regs undo g hresult => absurd hresult (hexec pos regs undo g)

/-- A literal starts with its first byte. -/
theorem matchLit_start {s : Bytes} {bc : Bytes} {off len pos : Nat} (hb : s[0]? = some b)
    (hlen : len ≠ 0) (h : matchLit s ((bc.drop off).take len) len 0 = some pos) :
    bc[off]? = some b := by
  unfold matchLit at h
  split at h
  · rename_i hmatch
    have hhead := congrArg (·[0]?) hmatch.2
    simp only [List.drop_zero, List.getElem?_take, Nat.pos_of_ne_zero hlen, if_true,
      List.getElem?_drop, Nat.add_zero] at hhead
    rw [← hhead, hb]
  · cases h

/-- `OP_ANY` and `OP_SPAN` start with a byte of a class within ASCII. -/
theorem matchSet_start {s : Bytes} {ranges : List CpRange} {op : SetOp} {pos : Nat}
    (hb : s[0]? = some b) (hop : op = .any ∨ op = .span)
    (hascii : (rangesToBitmap 127 ranges).isSome)
    (h : matchSet s (some ranges) 0 op = some pos) : asciiMap ranges b = true := by
  obtain ⟨bitmap, hbitmap⟩ := Option.isSome_iff_exists.mp hascii
  rw [asciiMap_eq hbitmap]
  obtain rfl | rfl := hop
  · simp only [matchSet, matchAny, hbitmap, hb, Option.any_some] at h
    split at h
    · assumption
    · cases h
  · simp only [matchSet, matchSpan, spanTarget, hbitmap, spanBytes, List.drop_zero] at h
    cases s with
    | nil => cases hb
    | cons c rest =>
      obtain rfl : c = b := by simpa using hb
      by_contra hnot
      rw [List.takeWhile_cons_of_neg hnot] at h
      simp at h

/-- An ASCII byte is a codepoint. -/
theorem peekCp_ascii {s : Bytes} {pos : Nat} (hb : s[pos]? = some b) (hlt : b.toNat < 128) :
    peekCp s pos = some (b.toNat, 1) := by
  have hdrop : s.drop pos = b :: s.drop (pos + 1) := by
    obtain ⟨hpos, rfl⟩ := List.getElem?_eq_some_iff.mp hb
    exact List.drop_eq_getElem_cons hpos
  have hsmall : b < 0x80 := UInt8.lt_iff_toNat_lt.mpr hlt
  simp [peekCp, utf8PeekNext, hdrop, hsmall]

/-- `OP_NOTANY` starts with a byte outside the ASCII part of its class. -/
theorem matchNotany_start {s : Bytes} {ranges : List CpRange} {pos : Nat} (hb : s[0]? = some b)
    (hordered : OrderedRanges ranges)
    (h : matchSet s (some ranges) 0 .notany = some pos) : asciiMap ranges b = false := by
  cases hbitmap : rangesToBitmap 127 ranges with
  | some bitmap =>
    rw [asciiMap_eq hbitmap]
    simp only [matchSet, matchNotany, Option.bind_some, hbitmap, hb, Option.any_some] at h
    split at h
    · rename_i hnot
      simpa using hnot
    · cases h
  | none =>
    -- an ASCII byte is its own codepoint
    by_contra hmap
    rw [Bool.not_eq_false, asciiMap, List.any_eq_true] at hmap
    obtain ⟨r, hr, hholds⟩ := hmap
    have hmem : r ∈ ranges := List.takeWhile_subset _ hr
    have hascii : r.start ≤ 127 ∧ r.stop ≤ 127 := by
      simpa using List.mem_takeWhile_imp hr
    have hlt : b.toNat < 128 := by
      simp only [CpRange.holds, decide_eq_true_eq] at hholds
      omega
    have hpeek : peekCp s 0 = some (b.toNat, 1) := peekCp_ascii hb hlt
    simp only [matchSet, matchNotany, Option.bind_some, hbitmap, hpeek, Option.any_some,
      rangeContains_of_holds hordered hmem hholds, if_true] at h
    cases h

/-- A character class at the start: the class is known, and its bytes are start bytes. -/
theorem AtFront.set (h : AtFront env.bc vm) (hget : env.bc[vm.ip]? = some byte) (op : SetOp)
    (bytes : List CpRange → UInt8 → Bool)
    (hstep : startStep env.bc vm.ip =
      if env.bc.length < vm.ip + 3 then .stop fun _ => true
      else (parseRanges env.bc (readU16 env.bc (vm.ip + 1)).1).elim (.stop fun _ => true)
        fun c => .stop (bytes c.ranges))
    (hoperands : (operands env.bc byte (vm.ip + 1)).1 =
      .prim (.set op (readU16 env.bc (vm.ip + 1)).1))
    (hstops : ∀ set, startStep env.bc vm.ip = .stop set → set b = false)
    (hmatch : ∀ ranges pos, env.ranges (readU16 env.bc (vm.ip + 1)).1 = some ranges →
      matchSet env.s (some ranges) 0 op = some pos → bytes ranges b = true) :
    Stays env.bc (vmStep env vm) := by
  by_cases hsize : env.bc.length < vm.ip + 3
  · rw [if_pos hsize] at hstep
    cases hstops _ hstep
  rw [if_neg hsize] at hstep
  cases hparse : parseRanges env.bc (readU16 env.bc (vm.ip + 1)).1 with
  | none =>
    rw [hparse] at hstep
    cases hstops _ hstep
  | some c =>
    rw [hparse] at hstep
    have hfalse := hstops _ hstep
    have hranges : env.ranges (readU16 env.bc (vm.ip + 1)).1 = some c.ranges := by
      rw [VmEnv.ranges, getRangesPtr_eq env.rangeMeta_eq, hparse, Option.map_some]
    refine h.stuck hget hoperands ?_
    intro pos regs undo g hresult
    simp only [Prim.exec, hranges] at hresult
    rw [hmatch c.ranges pos hranges (moveTo_next hresult)] at hfalse
    cases hfalse

/-- A positional instruction: it does not move the cursor. -/
theorem AtFront.count (h : AtFront env.bc vm) (hget : env.bc[vm.ip]? = some byte) (op : CountOp)
    (hstep : startStep env.bc vm.ip =
      if env.bc.length < vm.ip + 5 then .stop fun _ => true else .go (vm.ip + 5))
    (hoperands : operands env.bc byte (vm.ip + 1) =
      (.prim (.count op (readU32 env.bc (vm.ip + 1)).1), (readU32 env.bc (vm.ip + 1)).2))
    (hstops : ∀ set, startStep env.bc vm.ip = .stop set → set b = false)
    (hmatch : ∀ pos ∈ matchCount env.s 0 op (readU32 env.bc (vm.ip + 1)).1, pos = 0) :
    Stays env.bc (vmStep env vm) := by
  by_cases hsize : env.bc.length < vm.ip + 5
  · rw [if_pos hsize] at hstep
    cases hstops _ hstep
  rw [if_neg hsize] at hstep
  rw [readU32_next (by omega)] at hoperands
  refine h.over hget _ hstep hoperands ?_
  intro pos regs undo g hresult
  exact hmatch pos (moveTo_next hresult)

end

/-- One turn in the front, where the byte at the start of the window is no start byte. -/
theorem AtFront.step {env : VmEnv W} {vm : Vm W} {b : UInt8} (h : AtFront env.bc vm)
    (hok : FrontOk env) (hb : env.s[0]? = some b)
    (hstops : ∀ ip bytes, Front env.bc ip → startStep env.bc ip = .stop bytes →
      bytes b = false) : Stays env.bc (vmStep env vm) := by
  obtain ⟨hpos, hfront, hchoices⟩ := id h
  cases hget : env.bc[vm.ip]? with
  | none =>
    have hstep : vmStep env vm = vm.backtrack := by simp [vmStep, fetch, hget]
    rw [hstep]
    exact AtFront.backtrack hchoices
  | some byte =>
  have hfetch : fetch env.bc vm.ip = some (operands env.bc byte (vm.ip + 1)) := by
    simp [fetch, hget]
  -- a walk that gives up allows every byte, and `b` is not allowed
  have hnotAll : startStep env.bc vm.ip ≠ .stop fun _ => true := by
    intro hall
    cases hstops vm.ip _ hfront hall
  cases hop : OpCode.ofByte byte with
  | none => exact absurd (by simp [startStep, hget, hop]) hnotAll
  | some op =>
  have hop' : env.bc[vm.ip]?.bind OpCode.ofByte = some op := by simp [hget, hop]
  have hstops' := fun set => hstops vm.ip set hfront
  cases op with
  | lit =>
    simp only [startStep, hop'] at hnotAll
    by_cases hsize : env.bc.length < vm.ip + 9
    · exact absurd (if_pos hsize) hnotAll
    rw [if_neg hsize] at hnotAll
    split at hnotAll
    · exact absurd rfl hnotAll
    rename_i hcond
    have hstop : startStep env.bc vm.ip =
        .stop fun b => env.bc[(readU32 env.bc (vm.ip + 1)).1]? == some b := by
      simp only [startStep, hop', if_neg hsize, if_neg hcond]
    have hfalse := hstops vm.ip _ hfront hstop
    have hoff : (readU32 env.bc (vm.ip + 1)).2 = vm.ip + 5 := readU32_next (by omega)
    -- an empty literal made the walk give up, so the literal starts with a byte
    refine h.stuck hget (q := .lit (readU32 env.bc (vm.ip + 1)).1 (readU32 env.bc (vm.ip + 5)).1)
      (by simp only [operands, hop, hoff]) ?_
    intro pos regs undo g hresult
    have hmatch := matchLit_start hb (fun hzero => hcond (.inr (.inr hzero))) (moveTo_next hresult)
    rw [hmatch] at hfalse
    simp at hfalse
  | any =>
    refine h.set hget .any asciiMap (by simp only [startStep, hop'])
      (by simp only [operands, hop]) hstops' ?_
    intro ranges pos hranges hmatch
    exact matchSet_start hb (.inl rfl)
      (hok.ascii vm.ip .any _ _ hfront (by simp only [hfetch, operands, hop]; rfl) (.inl rfl)
        ranges hranges) hmatch
  | span =>
    refine h.set hget .span asciiMap (by simp only [startStep, hop'])
      (by simp only [operands, hop]) hstops' ?_
    intro ranges pos hranges hmatch
    exact matchSet_start hb (.inr rfl)
      (hok.ascii vm.ip .span _ _ hfront (by simp only [hfetch, operands, hop]; rfl) (.inr rfl)
        ranges hranges) hmatch
  | notany =>
    refine h.set hget .notany (fun ranges b => !asciiMap ranges b) (by simp only [startStep, hop'])
      (by simp only [operands, hop]) hstops' ?_
    intro ranges pos hranges hmatch
    rw [matchNotany_start hb
      (hok.ordered vm.ip _ _ hfront (by simp only [hfetch, operands, hop]; rfl) ranges hranges) hmatch]
    rfl
  | split =>
    simp only [startStep, hop'] at hnotAll
    by_cases hsize : env.bc.length < vm.ip + 9
    · exact absurd (if_pos hsize) hnotAll
    rw [if_neg hsize] at hnotAll
    split at hnotAll
    · exact absurd rfl hnotAll
    rename_i hcond
    have hfork : startStep env.bc vm.ip =
        .fork (readU32 env.bc (vm.ip + 1)).1 (readU32 env.bc (vm.ip + 5)).1 := by
      simp only [startStep, hop', if_neg hsize, if_neg hcond]
    have hoff : (readU32 env.bc (vm.ip + 1)).2 = vm.ip + 5 := readU32_next (by omega)
    simp only [vmStep, hfetch, operands, hop, hoff]
    refine .running ⟨hpos, hfront.left hfork, ?_⟩
    intro c hc
    -- the choice that is saved stands at the other branch, in the front too
    obtain rfl | hc := List.mem_cons.mp hc
    · exact ⟨hpos, hfront.right hfork⟩
    · exact hchoices c hc
  | jmp =>
    simp only [startStep, hop'] at hnotAll
    by_cases hsize : env.bc.length < vm.ip + 5
    · exact absurd (if_pos hsize) hnotAll
    rw [if_neg hsize] at hnotAll
    split at hnotAll
    · exact absurd rfl hnotAll
    rename_i hcond
    have hgo : startStep env.bc vm.ip = .go (readU32 env.bc (vm.ip + 1)).1 := by
      simp only [startStep, hop', if_neg hsize, if_neg hcond]
    simp only [vmStep, hfetch, operands, hop]
    exact .running ⟨hpos, hfront.go hgo, hchoices⟩
  | capStart =>
    have hgo : startStep env.bc vm.ip = .go (vm.ip + 2) := by simp only [startStep, hop']
    have hnext : (readU8 env.bc (vm.ip + 1)).2 = vm.ip + 2 :=
      readU8_next (hok.contained vm.ip _ hfront hgo).le
    refine h.over hget (.capStart (readU8 env.bc (vm.ip + 1)).1) hgo
      (by simp only [operands, hop, hnext]) ?_
    intro pos regs undo g hresult
    cases hresult
    rfl
  | capEnd =>
    have hgo : startStep env.bc vm.ip = .go (vm.ip + 2) := by simp only [startStep, hop']
    have hnext : (readU8 env.bc (vm.ip + 1)).2 = vm.ip + 2 :=
      readU8_next (hok.contained vm.ip _ hfront hgo).le
    refine h.over hget (.capEnd (readU8 env.bc (vm.ip + 1)).1) hgo
      (by simp only [operands, hop, hnext]) ?_
    intro pos regs undo g hresult
    cases hresult
    rfl
  | anchor =>
    have hgo : startStep env.bc vm.ip = .go (vm.ip + 2) := by simp only [startStep, hop']
    have hnext : (readU8 env.bc (vm.ip + 1)).2 = vm.ip + 2 :=
      readU8_next (hok.contained vm.ip _ hfront hgo).le
    refine h.over hget (.anchor (readU8 env.bc (vm.ip + 1)).1) hgo
      (by simp only [operands, hop, hnext]) ?_
    intro pos regs undo g hresult
    have hanchor := moveTo_next hresult
    unfold matchAnchor at hanchor
    grind
  | fence =>
    have hgo : startStep env.bc vm.ip = .go (vm.ip + 1) := by simp only [startStep, hop']
    simp only [vmStep, hfetch, operands, hop]
    exact .running ⟨hpos, hfront.go hgo, by simp⟩
  | nop =>
    have hgo : startStep env.bc vm.ip = .go (vm.ip + 1) := by simp only [startStep, hop']
    refine h.over hget .nop hgo (by simp only [operands, hop]) ?_
    intro pos regs undo g hresult
    cases hresult
    rfl
  | assign =>
    simp only [startStep, hop'] at hnotAll
    by_cases hsize : env.bc.length < vm.ip + 4
    · exact absurd (if_pos hsize) hnotAll
    have hgo : startStep env.bc vm.ip = .go (vm.ip + 4) := by
      simp only [startStep, hop', if_neg hsize]
    have hvar : (readU16 env.bc (vm.ip + 1)).2 = vm.ip + 3 := readU16_next (by omega)
    have hreg : (readU8 env.bc (vm.ip + 3)).2 = vm.ip + 4 := readU8_next (by omega)
    refine h.over hget (.assign (readU16 env.bc (vm.ip + 1)).1 (readU8 env.bc (vm.ip + 3)).1) hgo
      (by simp only [operands, hop, hvar, hreg]) ?_
    intro pos regs undo g hresult
    cases hresult
    rfl
  | pos =>
    refine h.count hget .pos (by simp only [startStep, hop'])
      (by simp only [operands, hop]) hstops' ?_
    intro pos hmatch
    simp only [matchCount, Option.mem_def] at hmatch
    grind
  | rpos =>
    refine h.count hget .rpos (by simp only [startStep, hop'])
      (by simp only [operands, hop]) hstops' ?_
    intro pos hmatch
    simp only [matchCount, Option.mem_def] at hmatch
    grind
  | tab =>
    exact h.count hget .tab (by simp only [startStep, hop'])
      (by simp only [operands, hop]) hstops'
      (hok.stays vm.ip .tab _ _ hfront (by simp only [hfetch, operands, hop]; rfl) (.inl rfl))
  | rtab =>
    exact h.count hget .rtab (by simp only [startStep, hop'])
      (by simp only [operands, hop]) hstops'
      (hok.stays vm.ip .rtab _ _ hfront (by simp only [hfetch, operands, hop]; rfl) (.inr rfl))
  | accept => exact absurd hop' (hok.consumes vm.ip hfront).1
  | succeed => exact absurd hop' (hok.consumes vm.ip hfront).2
  | fail =>
    simp only [vmStep, hfetch, operands, hop]
    exact AtFront.backtrack hchoices
  | abort =>
    simp only [vmStep, hfetch, operands, hop]
    exact .failed _
  | _ => exact absurd (by simp only [startStep, hop']) hnotAll

/-- Code that starts with an instruction at which the walk stops. -/
theorem FrontFrom.eq_of_stop {bc : Bytes} {ip target : Nat} {bytes : UInt8 → Bool}
    (hstop : startStep bc ip = .stop bytes) (h : FrontFrom bc ip target) : target = ip := by
  obtain heq | ⟨next, hgo, -⟩ | ⟨left, right, hfork, -⟩ := h.cases_head
  · exact heq
  · rw [hstop] at hgo
    cases hgo
  · rw [hstop] at hfork
    cases hfork

/-- Where the front of the code only looks at the start of the window, every window on
which `vm_exec` succeeds starts with a byte of the bitmap. -/
theorem startBitmap_of_vmExec (env : VmEnv W) (offset : Nat) (vm final : Vm W) (b : UInt8)
    (mayMatchEmpty : Bool) (hb : env.s[offset]? = some b)
    (hok : mayMatchEmpty = true ∨ FrontOk (env.window offset))
    (hexec : VmExec (env.window offset) vm true final) :
    startBitmap mayMatchEmpty env.bc b = true := by
  obtain rfl | hok := hok
  · rfl
  have hb' : (env.window offset).s[0]? = some b := by
    rw [VmEnv.window, List.getElem?_drop, Nat.add_zero, hb]
  by_contra hnot
  obtain ⟨rfl, hwalk⟩ : mayMatchEmpty = false ∧ computeStartBitmap env.bc b = false := by
    unfold startBitmap at hnot
    split at hnot
    · exact absurd rfl hnot
    · rename_i hempty
      exact ⟨by simpa using hempty, by simpa using hnot⟩
  obtain ⟨u, hu, hlast⟩ := hexec.last
  have hcontained := hok.contained
  have hstops : ∀ ip bytes, Front env.bc ip → startStep env.bc ip = .stop bytes →
      bytes b = false := by
    unfold computeStartBitmap at hwalk
    split at hwalk
    · -- no run of the empty code ends with success
      rename_i hempty
      have hnil : env.bc = [] := List.eq_nil_of_length_eq_zero hempty
      have hfetch : fetch (env.window offset).bc u.ip = none := by simp [VmEnv.window, fetch, hnil]
      simp only [vmStep, hfetch, Vm.backtrack] at hlast
      split at hlast <;> cases hlast
    · intro ip bytes hip hstop
      refine (startWalk_covers hwalk ?_).2 0 List.mem_cons_self ip bytes hip hstop
      intro start hstart mid next hmid hgo
      obtain rfl : start = 0 := by simpa using hstart
      exact hcontained mid next hmid hgo
  have hfront : ∀ u, VmReach (env.window offset) (vmExecStart vm) u → AtFront (env.window offset).bc u := by
    intro u hu
    induction hu with
    | start =>
      have hstart : (vmRunStart (vmExecStart vm)).choices = [] := rfl
      exact ⟨rfl, .refl, by simp [hstart]⟩
    | step _ hstep ih =>
      have hstays := ih.step hok hb' hstops
      rw [hstep] at hstays
      cases hstays with
      | running h => exact h
  have hstays := (hfront u hu).step hok hb' hstops
  rw [hlast] at hstays
  cases hstays

/-- The code of `'a'`. -/
def letterCode : Bytes :=
  [4, 0, 0, 0, 9, 0, 0, 0, 1, 97, 0, 0, 0, 0, 0, 0, 0, 0, 0, 83, 78, 66, 76]

/-- The window of "xa" at offset 1 starts with a byte of the bitmap. -/
theorem startBitmap_of_vmExec_letter : startBitmap false letterCode 0x61 = true := by
  have hop : letterCode[0]?.bind OpCode.ofByte = some .lit := by decide
  have hoff : (readU32 letterCode (0 + 1)).1 = 9 := by decide
  have hlen : (readU32 letterCode (0 + 5)).1 = 1 := by decide
  have hsize : letterCode.length = 23 := by decide
  have hstop : startStep letterCode 0 = .stop fun b => letterCode[9]? == some b := by
    simp only [startStep, hop, hoff, hlen, hsize]
    simp
  have hfetch : fetch letterCode 0 = some (.prim (.lit 9 1), 10) := by decide +kernel
  have hrun : (vmSteps ((VmEnv.ofCode letterCode [0x78, 0x61] .bare).window 1) 2
      (vmRunStart (vmExecStart (.zero ⟨[], ()⟩)))).isAccepted = true := by decide +kernel
  refine startBitmap_of_vmExec (VmEnv.ofCode letterCode [0x78, 0x61] .bare) 1 (.zero ⟨[], ()⟩) _
    0x61 false rfl (.inr ?_) ⟨2, StepResult.eq_halted hrun⟩
  constructor
  · intro ip next hip hgo
    obtain rfl := hip.eq_of_stop hstop
    cases hstop.symm.trans hgo
  · intro ip hip
    obtain rfl := hip.eq_of_stop hstop
    decide
  · intro ip op n next hip hcount
    obtain rfl := hip.eq_of_stop hstop
    cases hfetch.symm.trans hcount
  · intro ip op id next hip hset
    obtain rfl := hip.eq_of_stop hstop
    cases hfetch.symm.trans hset
  · intro ip id next hip hset
    obtain rfl := hip.eq_of_stop hstop
    cases hfetch.symm.trans hset

/-- The code of `ANY('é') REM`. -/
def anyAccented : Bytes :=
  [5, 0, 1, 34, 0, 0, 1, 0, 0, 0, 0, 0, 233, 0, 0, 0, 233, 0, 0, 0, 5, 0, 0, 0, 1, 0, 0, 0, 0, 83,
    78, 66, 76]

/-- `ANY('é') REM` matches "é", and no byte is in its bitmap. -/
theorem startBitmap_misses_any :
    compileAstToBytecodeC .caseSensitive (.concat [.any [0xC3, 0xA9], .rem]) = some anyAccented ∧
      (∃ final, VmExec ((VmEnv.ofCode anyAccented [0xC3, 0xA9] .bare).window 0) (.zero ⟨[], ()⟩)
        true final) ∧
      ∀ b, startBitmap false anyAccented b = false := by
  refine ⟨by decide +kernel, ?_, ?_⟩
  · have hrun : (vmSteps ((VmEnv.ofCode anyAccented [0xC3, 0xA9] .bare).window 0) 3
        (vmRunStart (vmExecStart (.zero ⟨[], ()⟩)))).isAccepted = true := by decide +kernel
    exact ⟨_, 3, StepResult.eq_halted hrun⟩
  · intro b
    have hop : anyAccented[0]?.bind OpCode.ofByte = some .any := by decide
    have hparse : parseRanges anyAccented (readU16 anyAccented (0 + 1)).1 =
        some ⟨[⟨233, 233⟩], 0⟩ := by decide
    have hsize : anyAccented.length = 33 := by decide
    have hstop : startStep anyAccented 0 = .stop (asciiMap [⟨233, 233⟩]) := by
      simp only [startStep, hop, hparse, hsize]
      simp
    have hfuel : anyAccented.length * 8 + 256 = 519 + 1 := by rw [hsize]
    rw [startBitmap, if_neg Bool.false_ne_true, computeStartBitmap, if_neg (by rw [hsize]; decide),
      hfuel, startWalk, hstop]
    simp [asciiMap]

end Snobol4
