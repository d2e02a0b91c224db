import Snobol4.ClassFold
import Snobol4.LiteralPrefix
import Snobol4.Positional
import Snobol4.VmBoundary

/-!
# Breakx — `BREAK` and `BREAKX` (`vm_exec.c`)

Both handlers scan for a character of a set, in one of three ways.  `OP_BREAKX` also saves a
choice that runs it again behind the character it stops at, so that backtracking goes through
every place where `BREAK` could have been applied again.
-/

namespace Snobol4

open Utf8 Horspool

variable {W : Type}

/-! ## The three ways of the scan -/

/-- `bitmap_single_ascii_byte` -/
def bitmapSingleAsciiByte (bitmap : UInt8 → Bool) : Option UInt8 :=
  match ((List.range 128).map UInt8.ofNat).filter bitmap with
  | [b] => some b
  | _ => none

/-- The scan of `OP_BREAK` and `OP_BREAKX`: `memchr` for one byte, the bitmap for an ASCII
class, and the ranges for any other. -/
def breakScan (s : Bytes) (ranges : Option (List CpRange)) (pos : Nat) : Nat :=
  match ranges.bind (rangesToBitmap 127) with
  | some bitmap =>
      match bitmapSingleAsciiByte bitmap with
      | some b =>
          if pos < s.length then (memchr s b pos).getD s.length
          else spanBytes s (fun b => !bitmap b) pos
      | none => spanBytes s (fun b => !bitmap b) pos
  | none => spanCps s (fun cp => !ranges.any (rangeContains · cp)) s.length pos

/-- `memchr` stops where the run of other bytes ends. -/
theorem memchr_getD (s : Bytes) (b : UInt8) {pos : Nat} (h : pos ≤ s.length) :
    (memchr s b pos).getD s.length = spanBytes s (fun b' => !(b' == b)) pos := by
  unfold memchr
  generalize hn : s.length - pos = n
  induction n generalizing pos with
  | zero => rw [spanBytes_end _ (by omega), firstFrom, Option.getD_none]; omega
  | succ n ih =>
    have hlt : pos < s.length := by omega
    have hget : s[pos]? = some s[pos] := List.getElem?_eq_getElem hlt
    rw [firstFrom, hget]
    by_cases heq : s[pos] = b
    · rw [if_pos (by simp [heq]), spanBytes_here hget (by simp [heq]), Option.getD_some]
    · rw [if_neg (by simp [heq]), ih (by omega) (by omega), ← spanBytes_more hget (by simp [heq])]

/-- The bitmap of a single byte tells that byte from all others. -/
theorem bitmap_eq_single {bitmap : UInt8 → Bool} {b : UInt8}
    (hascii : ∀ x, bitmap x = true → x < 0x80) (h : bitmapSingleAsciiByte bitmap = some b)
    (x : UInt8) : bitmap x = (x == b) := by
  unfold bitmapSingleAsciiByte at h
  split at h
  · rename_i b' hfilter
    obtain rfl : b' = b := Option.some.inj h
    have hmem : ∀ y, y ∈ ((List.range 128).map UInt8.ofNat).filter bitmap ↔ y = b' := by
      intro y
      rw [hfilter, List.mem_singleton]
    have hb : bitmap b' = true := (List.mem_filter.mp ((hmem b').mpr rfl)).2
    by_cases heq : x = b'
    · rw [heq, hb, beq_self_eq_true]
    · rw [beq_false_of_ne heq]
      by_contra hx
      rw [Bool.not_eq_false] at hx
      have hlow := UInt8.lt_iff_toNat_lt.mp (hascii x hx)
      refine heq ((hmem x).mp (List.mem_filter.mpr ⟨List.mem_map.mpr ⟨x.toNat, ?_, ?_⟩, hx⟩))
      · exact List.mem_range.mpr hlow
      · exact UInt8.ofNat_toNat
  · cases h

/-- The three ways find one position. -/
theorem breakScan_eq (s : Bytes) (ranges : Option (List CpRange)) (pos : Nat) :
    breakScan s ranges pos = breakTarget s ranges pos := by
  unfold breakScan breakTarget
  cases hbitmap : ranges.bind (rangesToBitmap 127) with
  | none => rfl
  | some bitmap =>
    simp only
    cases hsingle : bitmapSingleAsciiByte bitmap with
    | none => rfl
    | some b =>
      simp only
      split
      · rename_i hlt
        obtain ⟨ranges', -, hranges⟩ := Option.bind_eq_some_iff.mp hbitmap
        have hbyte := bitmap_eq_single (ascii_of_bitmap hranges) hsingle
        rw [memchr_getD s b (Nat.le_of_lt hlt)]
        exact congrArg (spanBytes s · pos) (funext fun x => by rw [hbyte])
      · rfl

/-- The handler with the scan as the source writes it. -/
theorem opBreakx_scan (env : VmEnv W) (setId here : Nat) (vm : Vm W) :
    opBreakx env setId here vm =
      (let stop := breakScan env.s (env.ranges setId) vm.pos
       let vm := { vm with pos := stop }
       if stop < env.s.length then
         vm.pushChoice env here (stop + (peekCp env.s stop).elim 1 (·.2))
       else vm) := by
  rw [breakScan_eq]
  rfl

/-! ## On characters -/

/-- A character of the set. -/
def inSet (ranges : Option (List CpRange)) (c : Char) : Bool :=
  ranges.any fun rs => rs.any (·.holds c.toNat)

/-- Where `BREAK` stops: at the first character that passes the test, or at the end; with the
characters from there on. -/
def breakAt (p : Char → Bool) : Nat → List Char → Nat × List Char
  | pos, [] => (pos, [])
  | pos, c :: rest => if p c then (pos, c :: rest) else breakAt p (pos + c.utf8Size) rest

theorem Sees.breakAt {s : Bytes} {pos : Nat} {rest : List Char} (h : Sees s pos rest)
    (p : Char → Bool) : Sees s (Snobol4.breakAt p pos rest).1 (Snobol4.breakAt p pos rest).2 := by
  induction rest generalizing pos with
  | nil => exact h
  | cons c rest ih =>
    rw [Snobol4.breakAt]
    split
    · exact h
    · exact ih h.tail

theorem length_breakAt (p : Char → Bool) (pos : Nat) (rest : List Char) :
    (breakAt p pos rest).2.length ≤ rest.length := by
  induction rest generalizing pos with
  | nil => exact Nat.le_refl _
  | cons c rest ih =>
    rw [breakAt]
    split
    · exact Nat.le_refl _
    · exact Nat.le_succ_of_le (ih _)

/-- On ordered ranges the binary search decides membership. -/
theorem rangeContains_eq_any {ranges : List CpRange} (h : OrderedRanges ranges) (cp : Nat) :
    rangeContains ranges cp = ranges.any (·.holds cp) := by
  rw [Bool.eq_iff_iff, List.any_eq_true]
  constructor
  · intro hcontains
    obtain ⟨r, hr, hstart, hstop⟩ := rangeSearch_sound hcontains
    exact ⟨r, hr, by simp [CpRange.holds, hstart, hstop]⟩
  · rintro ⟨r, hr, hholds⟩
    exact rangeContains_of_holds h hr hholds

/-- The ranges of a compiled set are in order, with case and without. -/
theorem orderedRanges_charclassOf (cs : List Char) :
    OrderedRanges (charclassOf .caseSensitive (encode cs)).ranges ∧
      ∀ T, OrderedRanges (charclassOf (.ignoringCase T) (encode cs)).ranges := by
  have hordered : ∀ {ranges : List CpRange}, (∀ r ∈ ranges, r.start ≤ r.stop) →
      OrderedRanges (normalizeRanges ranges) := by
    intro ranges hvalid
    obtain ⟨hnormal, -⟩ := normalizeRanges_spec hvalid
    exact ⟨hnormal.apart.imp fun hlt => Nat.lt_of_succ_lt hlt, hnormal.valid⟩
  constructor
  · rw [charclassOf_text]
    exact hordered (textItems_valid cs)
  · intro T
    rw [charclassOf, setRanges_ignoringCase]
    exact hordered (itemRanges_valid T cs)

/-- The bytes of a character at a position. -/
theorem Sees.getElem? {s : Bytes} {pos : Nat} {c : Char} {rest : List Char}
    (h : Sees s pos (c :: rest)) {i : Nat} (hi : i < c.utf8Size) :
    ∃ b ∈ String.utf8EncodeChar c, s[pos + i]? = some b := by
  have hlt : i < (String.utf8EncodeChar c).length := by rwa [String.length_utf8EncodeChar]
  refine ⟨(String.utf8EncodeChar c)[i], List.getElem_mem hlt, ?_⟩
  rw [← List.getElem?_drop, h.bytes, encode_cons, List.getElem?_append_left hlt,
    List.getElem?_eq_getElem hlt]

/-- `BREAK` over an ASCII class. -/
theorem spanBytes_breakAt {s : Bytes} {ranges : List CpRange} {bitmap : UInt8 → Bool}
    (hbitmap : rangesToBitmap 127 ranges = some bitmap) {pos : Nat} {rest : List Char}
    (h : Sees s pos rest) :
    spanBytes s (fun b => !bitmap b) pos = (breakAt (inSet (some ranges)) pos rest).1 := by
  have hbyte : ∀ b, bitmap b = ranges.any (·.holds b.toNat) := by
    intro b
    unfold rangesToBitmap at hbitmap
    split at hbitmap
    · cases hbitmap
      rfl
    · cases hbitmap
  induction rest generalizing pos with
  | nil =>
    have hend := h.eq_end
    exact spanBytes_end _ (by omega)
  | cons c rest ih =>
    rw [breakAt]
    by_cases hascii : c.val < 0x80
    · obtain ⟨henc, hlow⟩ := utf8EncodeChar_ascii hascii
      have hsize : c.utf8Size = 1 := by
        rw [← String.length_utf8EncodeChar, henc]
        rfl
      obtain ⟨b, hb, hget⟩ := h.getElem? (i := 0) (by omega)
      rw [henc, List.mem_singleton] at hb
      rw [Nat.add_zero] at hget
      have hsame : bitmap b = inSet (some ranges) c := by
        rw [hbyte, hb]
        have hval : c.val.toUInt8.toNat = c.toNat := by
          rw [UInt32.toNat_toUInt8]
          have hlt : c.val.toNat < 0x80 := UInt32.lt_iff_toNat_lt.mp hascii
          exact Nat.mod_eq_of_lt (by omega)
        rw [hval]
        rfl
      cases hin : inSet (some ranges) c with
      | true =>
        rw [if_pos rfl]
        exact spanBytes_here hget (by rw [hsame, hin]; rfl)
      | false =>
        rw [if_neg (by decide), spanBytes_more hget (by rw [hsame, hin]; rfl), hsize]
        exact ih (hsize ▸ h.tail)
    · -- no byte of another character is in the class, and neither is the character
      have hout : inSet (some ranges) c = false := by
        by_contra hin
        rw [Bool.not_eq_false] at hin
        obtain ⟨r, hr, hholds⟩ := List.any_eq_true.mp hin
        unfold rangesToBitmap at hbitmap
        split at hbitmap
        · rename_i hall
          have hbound := List.all_eq_true.mp hall r hr
          simp only [CpRange.holds, Bool.and_eq_true, decide_eq_true_eq] at hbound hholds
          apply hascii
          rw [UInt32.lt_iff_toNat_lt]
          exact Nat.lt_of_le_of_lt (hholds.2.trans hbound.2) (by decide)
        · cases hbitmap
      rw [hout, if_neg (by decide), spanBytes_skip (k := c.utf8Size), ih h.tail]
      intro i hi
      obtain ⟨b, hb, hget⟩ := h.getElem? hi
      rw [hget, Option.any_some]
      have hhigh := (utf8EncodeChar_other hascii).1 b hb
      cases hin : bitmap b with
      | false => rfl
      | true => exact absurd (ascii_of_bitmap hbitmap b hin) hhigh

/-- `BREAK` over codepoints. -/
theorem spanCps_breakAt {s : Bytes} {p : Nat → Bool} {fuel pos : Nat} {rest : List Char}
    (h : Sees s pos rest) (hfuel : rest.length ≤ fuel) :
    spanCps s (fun cp => !p cp) fuel pos = (breakAt (fun c => p c.toNat) pos rest).1 := by
  induction rest generalizing fuel pos with
  | nil =>
    cases fuel with
    | zero => rfl
    | succ fuel =>
      rw [spanCps, h.peekCp_nil]
      rfl
  | cons c rest ih =>
    obtain ⟨fuel, rfl⟩ : ∃ k, fuel = k + 1 := ⟨fuel - 1, by rw [List.length_cons] at hfuel; omega⟩
    rw [spanCps, h.peekCp, breakAt]
    simp only
    cases hin : p c.toNat with
    | true => rfl
    | false => exact ih h.tail (Nat.le_of_succ_le_succ hfuel)

/-- The scan stops where `BREAK` does. -/
theorem breakTarget_eq {s : Bytes} {ranges : Option (List CpRange)}
    (hordered : ∀ rs ∈ ranges, OrderedRanges rs) {pos : Nat} {rest : List Char}
    (h : Sees s pos rest) : breakTarget s ranges pos = (breakAt (inSet ranges) pos rest).1 := by
  have hfuel := h.length_le
  unfold breakTarget
  cases hbitmap : ranges.bind (rangesToBitmap 127) with
  | some bitmap =>
    obtain ⟨rs, rfl, hrs⟩ := Option.bind_eq_some_iff.mp hbitmap
    exact spanBytes_breakAt hrs h
  | none =>
    have hin : inSet ranges = fun c => ranges.any (rangeContains · c.toNat) := by
      funext c
      cases ranges with
      | none => rfl
      | some rs => exact (rangeContains_eq_any (hordered rs rfl) _).symm
    rw [hin]
    exact @spanCps_breakAt s (fun cp => ranges.any (rangeContains · cp)) _ _ _ h hfuel

/-! ## What backtracking goes through -/

/-- The positions of `BREAK`, and of `BREAK` again behind each character it stopped at. -/
inductive BreakSeq (p : Char → Bool) : Nat → List Char → List Nat → Prop where
  | last {pos stop : Nat} {rest : List Char} (h : breakAt p pos rest = (stop, [])) :
      BreakSeq p pos rest [stop]
  | more {pos stop : Nat} {rest tail : List Char} {c : Char} {stops : List Nat}
      (h : breakAt p pos rest = (stop, c :: tail))
      (hmore : BreakSeq p (stop + c.utf8Size) tail stops) : BreakSeq p pos rest (stop :: stops)

namespace BreakSeq

variable {p : Char → Bool} {pos stop q : Nat} {rest tail : List Char} {c : Char} {stops : List Nat}

/-- With no break character left there is one position. -/
theorem last_iff (h : breakAt p pos rest = (stop, [])) :
    BreakSeq p pos rest (q :: stops) ↔ q = stop ∧ stops = [] := by
  constructor
  · intro hseq
    cases hseq with
    | last h' =>
      rw [h] at h'
      cases h'
      exact ⟨rfl, rfl⟩
    | more h' hmore =>
      rw [h] at h'
      cases h'
  · rintro ⟨rfl, rfl⟩
    exact .last h

/-- In front of a break character the sequence goes on behind it. -/
theorem more_iff (h : breakAt p pos rest = (stop, c :: tail)) :
    BreakSeq p pos rest (q :: stops) ↔
      q = stop ∧ BreakSeq p (stop + c.utf8Size) tail stops := by
  constructor
  · intro hseq
    cases hseq with
    | last h' =>
      rw [h] at h'
      cases h'
    | more h' hmore =>
      rw [h] at h'
      cases h'
      exact ⟨rfl, hmore⟩
  · rintro ⟨rfl, hmore⟩
    exact .more h hmore

theorem ne_nil (h : BreakSeq p pos rest stops) : stops ≠ [] := by
  rintro rfl
  cases h

end BreakSeq

/-- The sequence ends, since every turn takes a character. -/
theorem exists_breakSeq (p : Char → Bool) (pos : Nat) (rest : List Char) :
    ∃ stops, BreakSeq p pos rest stops := by
  induction hlen : rest.length using Nat.strong_induction_on generalizing pos rest with
  | _ len ih =>
    subst hlen
    have hle := length_breakAt p pos rest
    obtain ⟨⟨stop, tail⟩, hbreak⟩ : ∃ r, breakAt p pos rest = r := ⟨_, rfl⟩
    cases tail with
    | nil => exact ⟨_, .last hbreak⟩
    | cons c tail =>
      rw [hbreak, List.length_cons] at hle
      obtain ⟨stops, hstops⟩ := ih tail.length (by omega) (stop + c.utf8Size) tail rfl
      exact ⟨_, .more hbreak hstops⟩

/-- The instruction at `vm` offers the positions to the code at `next`, one after the other as
that code fails back to it. -/
def Offers (env : VmEnv W) (next : Nat) : List Nat → Vm W → Prop
  | [], _ => False
  | p :: ps, vm =>
      ∃ vm', vmStep env vm = .running vm' ∧ vm'.ip = next ∧ vm'.pos = p ∧
        if ps = [] then vm'.choices = vm.choices
        else
          (∃ c, vm'.choices = c :: vm.choices) ∧
            ∀ failed : Vm W, failed.choices = vm'.choices →
              ∃ again, failed.backtrack = .running again ∧ again.choices = vm.choices ∧
                Offers env next ps again

section

variable {env : VmEnv W} {next q : Nat} {ps : List Nat} {vm vm' : Vm W}

/-- A turn that saves nothing offers one position. -/
theorem offers_last_iff (hstep : vmStep env vm = .running vm') (hip : vm'.ip = next)
    (hchoices : vm'.choices = vm.choices) :
    Offers env next (q :: ps) vm ↔ q = vm'.pos ∧ ps = [] := by
  constructor
  · rintro ⟨vm'', hstep', -, rfl, hrest⟩
    rw [hstep] at hstep'
    cases hstep'
    split at hrest
    · rename_i hnil
      exact ⟨rfl, hnil⟩
    · obtain ⟨⟨c, hc⟩, -⟩ := hrest
      rw [hchoices] at hc
      exact absurd (congrArg List.length hc) (by simp)
  · rintro ⟨rfl, rfl⟩
    exact ⟨vm', hstep, hip, rfl, by rwa [if_pos rfl]⟩

/-- A turn that saves a choice offers its own position, and then what is offered where the choice
is resumed. -/
theorem offers_more_iff (hstep : vmStep env vm = .running vm') (hip : vm'.ip = next)
    {choice : Choice} (hchoices : vm'.choices = choice :: vm.choices) :
    Offers env next (q :: ps) vm ↔
      q = vm'.pos ∧ ps ≠ [] ∧ ∀ failed : Vm W, failed.choices = vm'.choices →
        Offers env next ps (failed.restore choice vm.choices) := by
  have hback : ∀ failed : Vm W, failed.choices = vm'.choices →
      failed.backtrack = .running (failed.restore choice vm.choices) := by
    intro failed hfailed
    rw [hchoices] at hfailed
    simp only [Vm.backtrack, hfailed]
  constructor
  · rintro ⟨vm'', hstep', -, rfl, hrest⟩
    rw [hstep] at hstep'
    cases hstep'
    split at hrest
    · rw [hchoices] at hrest
      exact absurd (congrArg List.length hrest) (by simp)
    · rename_i hne
      refine ⟨rfl, hne, ?_⟩
      intro failed hfailed
      obtain ⟨again, hrun, -, hoffers⟩ := hrest.2 failed hfailed
      rw [hback failed hfailed] at hrun
      cases hrun
      exact hoffers
  · rintro ⟨rfl, hne, hoffers⟩
    refine ⟨vm', hstep, hip, rfl, ?_⟩
    rw [if_neg hne]
    refine ⟨⟨choice, hchoices⟩, ?_⟩
    intro failed hfailed
    exact ⟨_, hback failed hfailed, rfl, hoffers failed hfailed⟩

end

/-- A turn at `OP_BREAKX`: the cursor stops where `BREAK` does, and in front of a character the
choice behind it is saved. -/
theorem vmStep_breakx {env : VmEnv W} {vm : Vm W} {setId next : Nat} {rest : List Char}
    (hordered : ∀ rs ∈ env.ranges setId, OrderedRanges rs)
    (hfetch : fetch env.bc vm.ip = some (.breakx setId, next)) (h : Sees env.s vm.pos rest) :
    ∃ vm', vmStep env vm = .running vm' ∧ vm'.ip = next ∧
      vm'.pos = (breakAt (inSet (env.ranges setId)) vm.pos rest).1 ∧
      match (breakAt (inSet (env.ranges setId)) vm.pos rest).2 with
      | [] => vm'.choices = vm.choices
      | c :: _ => ∃ choice : Choice, vm'.choices = choice :: vm.choices ∧ choice.ip = vm.ip ∧
          choice.pos = vm'.pos + c.utf8Size := by
  have hstop := h.breakAt (inSet (env.ranges setId))
  rw [vmStep, hfetch]
  simp only [opBreakx]
  rw [breakTarget_eq hordered h]
  obtain ⟨⟨stop, tail⟩, hbreak⟩ :
      ∃ r, breakAt (inSet (env.ranges setId)) vm.pos rest = r := ⟨_, rfl⟩
  rw [hbreak] at hstop ⊢
  simp only at hstop ⊢
  cases tail with
  | nil =>
    rw [if_neg hstop.not_lt]
    exact ⟨_, rfl, rfl, rfl, rfl⟩
  | cons c tail =>
    rw [if_pos hstop.lt, hstop.peekCp]
    exact ⟨_, rfl, rfl, rfl, _, rfl, rfl, rfl⟩

/-- `BREAKX` offers exactly the positions of `BREAK` applied again and again, which are
finitely many. -/
theorem breakx_offers_iff {env : VmEnv W} {vm : Vm W} {setId next : Nat} {rest : List Char}
    (hordered : ∀ rs ∈ env.ranges setId, OrderedRanges rs)
    (hfetch : fetch env.bc vm.ip = some (.breakx setId, next)) (h : Sees env.s vm.pos rest) :
    (∃ stops, BreakSeq (inSet (env.ranges setId)) vm.pos rest stops) ∧
      ∀ stops, Offers env next stops vm ↔
        BreakSeq (inSet (env.ranges setId)) vm.pos rest stops := by
  refine ⟨exists_breakSeq _ _ _, ?_⟩
  intro stops
  induction stops generalizing vm rest with
  | nil =>
    refine iff_of_false id ?_
    intro hseq
    cases hseq
  | cons p ps ih =>
    obtain ⟨vm', hstep, hip, hpos, hchoices⟩ := vmStep_breakx hordered hfetch h
    have hstop := h.breakAt (inSet (env.ranges setId))
    obtain ⟨⟨stop, tail⟩, hbreak⟩ :
      ∃ r, breakAt (inSet (env.ranges setId)) vm.pos rest = r := ⟨_, rfl⟩
    rw [hbreak] at hpos hchoices hstop
    simp only at hpos hchoices hstop
    cases tail with
    | nil =>
      -- no character of the set is left: the cursor is at the end and nothing is saved
      rw [offers_last_iff hstep hip hchoices, BreakSeq.last_iff hbreak, hpos]
    | cons c tail =>
      -- the choice that is saved comes back to the instruction, behind the character
      obtain ⟨choice, hsaved, hcip, hcpos⟩ := hchoices
      rw [hpos] at hcpos
      have hnext : ∀ failed : Vm W, Offers env next ps (failed.restore choice vm.choices) ↔
          BreakSeq (inSet (env.ranges setId)) (stop + c.utf8Size) tail ps := by
        intro failed
        have hip' : (failed.restore choice vm.choices).ip = vm.ip := hcip
        have hpos' : (failed.restore choice vm.choices).pos = stop + c.utf8Size := hcpos
        have hagain := @ih (failed.restore choice vm.choices) tail (hip' ▸ hfetch)
          (hpos' ▸ hstop.tail)
        rwa [hpos'] at hagain
      rw [offers_more_iff hstep hip hsaved, BreakSeq.more_iff hbreak, hpos]
      apply and_congr_right
      intro _
      constructor
      · rintro ⟨-, hoffers⟩
        exact (hnext vm').mp (hoffers vm' rfl)
      · intro hmore
        exact ⟨hmore.ne_nil, fun failed _ => (hnext failed).mpr hmore⟩

/-- The code of `BREAKX('b')`. -/
def breakxB : Bytes :=
  [31, 0, 1, 0, 0, 1, 0, 0, 0, 0, 0, 98, 0, 0, 0, 98, 0, 0, 0, 4, 0, 0, 0, 1, 0, 0, 0, 0, 83, 78,
    66, 76]

/-- On `abcb` the positions are 1, 3 and the end. -/
theorem breakx_offers_breakxB :
    Offers (VmEnv.ofCode breakxB (encode ['a', 'b', 'c', 'b']) .bare) 3 [1, 3, 4]
      (.zero ⟨[], ()⟩) := by
  have hfetch : fetch breakxB 0 = some (.breakx 1, 3) := by decide
  have hranges : (VmEnv.ofCode breakxB (encode ['a', 'b', 'c', 'b']) .bare).ranges 1 =
      some [⟨98, 98⟩] := by decide +kernel
  have hordered : ∀ rs ∈ (VmEnv.ofCode breakxB (encode ['a', 'b', 'c', 'b']) .bare).ranges 1,
      OrderedRanges rs := by
    intro rs hrs
    rw [hranges] at hrs
    obtain rfl : [⟨98, 98⟩] = rs := Option.some.inj hrs
    exact ⟨List.pairwise_singleton _ _, by simp⟩
  refine ((@breakx_offers_iff _ _ (.zero ⟨[], ()⟩) _ _ _ hordered hfetch (.start _)).2 _).mpr ?_
  rw [hranges]
  exact .more rfl (.more rfl (.last rfl))

end Snobol4
