import Snobol4.Decoding
import Snobol4.SearchVm
import Snobol4.Trailer

/-!
# SearchVmSafety — eligible code stays within the dispatch table (`search_meta.c`)

`check_search_vm_eligible` walks the body once, with instruction lengths of its own, and
rejects the opcodes that `search_vm_exec` has no entry for; where the body ends is read back
from the trailer.  On compiled code the walk goes through the emitted instructions, so a run
meets no others.
-/

namespace Snobol4

variable {W : Type}

/-! ## Eligibility -/

/-- The bytes of operands that the walk steps over; nothing for the opcodes it rejects.  It
takes the operand of `OP_ANCHOR` for an instruction. -/
def OpCode.searchVmOperands : OpCode → Option Nat
  | .accept | .fail | .abort | .succeed => some 0
  | .jmp => some 4
  | .split => some 8
  | .lit => some 8
  | .any | .notany | .span | .break | .breakx => some 2
  | .len | .rpos | .rtab | .pos | .tab => some 4
  | .anchor | .fence | .nop => some 0
  | .repeatInit => some 13
  | .repeatStep => some 5
  | .capStart | .capEnd => some 1
  | .assign => some 3
  | _ => none

/-- The opcodes that end a sub-pattern. -/
def OpCode.terminal : OpCode → Bool
  | .accept | .fail | .abort | .succeed => true
  | _ => false

/-- Where the walk goes on behind the instruction at `ip`. -/
def eligibleNext (bc : Bytes) (limit ip : Nat) : Option Nat := do
  let op ← bc[ip]?.bind OpCode.ofByte
  let size ← op.searchVmOperands
  if limit < ip + 1 + size then none
  else some (ip + 1 + size + if op = .lit then (readU32 bc (ip + 5)).1 else 0)

/-- The walk of `check_search_vm_eligible`; without a bound it ends at the first terminal. -/
def eligibleWalk (bc : Bytes) (limit : Nat) (bounded : Bool) : Nat → Nat → Bool
  | 0, _ => true
  | fuel + 1, ip =>
      if ip < limit then
        if !bounded && (bc[ip]?.bind OpCode.ofByte).any OpCode.terminal then true
        else
          match eligibleNext bc limit ip with
          | some next => eligibleWalk bc limit bounded fuel next
          | none => false
      else true

/-- `snobol_bc_body_len` -/
def snobolBcBodyLen (bc : Bytes) : Nat :=
  let n := bc.length
  if n < 12 then 0
  else if (readU32 bc (n - 4)).1 ≠ labelTableMagic then 0
  else
    let skip := 8 + (readU32 bc (n - 8)).1 * 4
    if n < skip + 4 then 0
    else
      let tail := n - skip
      let classCount := (readU32 bc (tail - 4)).1
      if tail < 4 + classCount * 4 then 0
      else if classCount = 0 then tail - 4
      else
        let offsetsAt := tail - 4 - classCount * 4
        let earliest := (List.range classCount).foldl
          (fun earliest i => min earliest (readU32 bc (offsetsAt + i * 4)).1) (2 ^ 64 - 1)
        if earliest = 0 ∨ offsetsAt < earliest then 0 else earliest

/-- `check_search_vm_eligible` -/
def checkSearchVmEligible (bc : Bytes) : Bool :=
  let bodyLen := snobolBcBodyLen bc
  decide (2 ≤ bc.length) &&
    eligibleWalk bc (if 0 < bodyLen then bodyLen else bc.length) (decide (0 < bodyLen)) bc.length 0

/-! ## The walk over structured code -/

/-- The bounded walk from an address on rejects nothing. -/
def Passes (bc : Bytes) (limit ip : Nat) : Prop :=
  ∃ fuel, limit ≤ fuel + ip ∧ eligibleWalk bc limit true fuel ip = true

/-- The walk only takes the operands of `OP_ANCHOR` for opcodes that end a sub-pattern. -/
def Leaf.AnchorFits {C : Type} : Leaf C → Prop
  | anchor type => type ≤ 1
  | _ => True

namespace Passes

variable {bc xs : Bytes} {limit ip size : Nat} {op : OpCode}

/-- One step of the walk. -/
theorem next (h : Passes bc limit ip) (hlt : ip < limit) :
    ∃ next, eligibleNext bc limit ip = some next ∧ Passes bc limit next := by
  obtain ⟨fuel, hfuel, hwalk⟩ := h
  cases fuel with
  | zero => omega
  | succ fuel =>
    rw [eligibleWalk, if_pos hlt] at hwalk
    simp only [Bool.not_true, Bool.false_and, Bool.false_eq_true, if_false] at hwalk
    cases hnext : eligibleNext bc limit ip with
    | none =>
      rw [hnext] at hwalk
      cases hwalk
    | some next =>
      rw [hnext] at hwalk
      refine ⟨next, rfl, fuel, ?_, hwalk⟩
      have hgrows : ip + 1 ≤ next := by
        simp only [eligibleNext, Option.bind_eq_bind, Option.bind_eq_some_iff] at hnext
        obtain ⟨op, -, size, -, hnext⟩ := hnext
        split at hnext
        · cases hnext
        · have heq := Option.some.inj hnext
          omega
      omega

theorem ofByte_of_initial (h : [op.code] ++ xs <+: bc.drop ip) :
    bc[ip]?.bind OpCode.ofByte = some op := by
  obtain ⟨rest, h⟩ := h
  have hget : bc[ip]? = some op.code := by
    rw [← List.head?_drop, ← h]
    rfl
  rw [hget, Option.bind_some, OpCode.ofByte_code]

/-- The walk over an instruction. -/
theorem step (h : Passes bc limit ip) (hlt : ip < limit) (hop : [op.code] ++ xs <+: bc.drop ip)
    (hsize : op.searchVmOperands = some size) :
    Passes bc limit (ip + 1 + size + if op = .lit then (readU32 bc (ip + 5)).1 else 0) := by
  obtain ⟨next, hnext, hpasses⟩ := h.next hlt
  simp only [eligibleNext, ofByte_of_initial hop, Option.bind_eq_bind, Option.bind_some,
    hsize] at hnext
  split at hnext
  · cases hnext
  · cases hnext
    exact hpasses

/-- The walk over an instruction that is no literal. -/
theorem past (h : Passes bc limit ip) (hlt : ip < limit) (hop : [op.code] ++ xs <+: bc.drop ip)
    (hsize : op.searchVmOperands = some size) (hlit : op ≠ .lit) : Passes bc limit (ip + (1 + size)) := by
  have hstep := h.step hlt hop hsize
  rw [if_neg hlit, Nat.add_zero, Nat.add_assoc] at hstep
  exact hstep

/-- The walk accepts no instruction it does not know. -/
theorem rejects (h : Passes bc limit ip) (hlt : ip < limit) (hop : [op.code] ++ xs <+: bc.drop ip)
    (hsize : op.searchVmOperands = none) : False := by
  obtain ⟨next, hnext, -⟩ := h.next hlt
  simp only [eligibleNext, ofByte_of_initial hop, Option.bind_eq_bind, Option.bind_some, hsize,
    Option.bind_none] at hnext
  cases hnext

/-- The walk over a leaf of structured code. -/
theorem leaf {l : Leaf Nat} {a : Nat} (h : Passes bc limit a) (hcode : Blk.Code bc (.leaf l) a)
    (hlimit : a + l.size ≤ limit) (hanchor : l.AnchorFits) :
    (l.instr a).searchable = true ∧ Passes bc limit (a + l.size) := by
  have hbytes : l.encode a <+: bc.drop a := hcode.bytes
  have hlt : a < limit := by
    have hpos := l.size_pos
    omega
  cases l with
  | lit text =>
    rw [Leaf.encode_lit] at hbytes
    have hlen := readU32_of_initial (v := text.length)
      (prefix_left (prefix_right (prefix_right hbytes (n := a + 1) (by simp)) (n := a + 5) (by simp)))
      (by
        have hshort := hcode.short
        simp only [Blk.size, Leaf.size] at hshort
        omega)
    have hstep := h.step hlt hbytes rfl
    rw [if_pos rfl, hlen] at hstep
    refine ⟨rfl, ?_⟩
    simp only [Leaf.size]
    rw [show a + (9 + text.length) = a + 1 + 8 + text.length by omega]
    exact hstep
  | anchor type =>
    -- the operand is taken for an instruction of one byte
    have hstep := h.past hlt hbytes rfl (by decide)
    have hoperand := prefix_right hbytes (n := a + 1) rfl
    simp only [Leaf.size] at hlimit
    refine ⟨rfl, ?_⟩
    have htype : type = 0 ∨ type = 1 := by
      have hle : type ≤ 1 := hanchor
      omega
    obtain rfl | rfl := htype
    · exact @Passes.past bc [] limit (a + 1) 0 .accept hstep (by omega) hoperand rfl (by decide)
    · exact @Passes.past bc [] limit (a + 1) 0 .fail hstep (by omega) hoperand rfl (by decide)
  | set op id =>
    cases op with
    | _ => exact ⟨rfl, h.past hlt hbytes rfl (by decide)⟩
  | count op n =>
    cases op with
    | _ => exact ⟨rfl, h.past hlt hbytes rfl (by decide)⟩
  | assign var reg =>
    rw [Leaf.encode, List.append_assoc] at hbytes
    exact ⟨rfl, h.past hlt hbytes rfl (by decide)⟩
  | capStart reg | capEnd reg | breakx id => exact ⟨rfl, h.past hlt hbytes rfl (by decide)⟩
  | nop | accept | fail | fence | abort | succeed =>
    rw [← List.append_nil (Leaf.encode a _)] at hbytes
    exact ⟨rfl, h.past hlt hbytes rfl (by decide)⟩
  | eval fn reg | bal openCp closeCp =>
    rw [Leaf.encode, List.append_assoc] at hbytes
    exact (h.rejects hlt hbytes rfl).elim
  | emitCapture reg | label id | goto id => exact (h.rejects hlt hbytes rfl).elim
  | emitLiteral text =>
    rw [Leaf.encode, List.append_assoc, List.append_assoc] at hbytes
    exact (h.rejects hlt hbytes rfl).elim
  | tableGet key reg name | tableSet key reg name =>
    simp only [Leaf.encode, List.append_assoc] at hbytes
    exact (h.rejects hlt hbytes rfl).elim
  | rem =>
    have hop : [OpCode.rem.code] ++ [] <+: bc.drop a := hbytes
    exact (h.rejects hlt hop rfl).elim

end Passes

/-- The walk over structured code vets every instruction of it. -/
theorem Passes.code {bc : Bytes} {b : Blk} {limit a : Nat} (h : Passes bc limit a)
    (hcode : Blk.Code bc b a) (hlimit : a + b.size ≤ limit) (hanchors : b.All Leaf.AnchorFits) :
    (∀ c instr, (c, instr) ∈ b.listing a → instr.searchable = true) ∧ Passes bc limit (a + b.size) := by
  induction b generalizing a with
  | skip =>
    refine ⟨?_, h⟩
    intro c instr hmem
    cases hmem
  | leaf l =>
    obtain ⟨hsearchable, hpasses⟩ := h.leaf hcode hlimit hanchors
    refine ⟨?_, hpasses⟩
    intro c instr hmem
    obtain rfl : instr = l.instr a := congrArg Prod.snd (List.mem_singleton.mp hmem)
    exact hsearchable
  | seq p q ihp ihq =>
    obtain ⟨hp, hq⟩ := hcode.seq
    simp only [Blk.size, ← Nat.add_assoc] at hlimit ⊢
    obtain ⟨hleft, hmid⟩ := ihp h hp (by omega) hanchors.1
    obtain ⟨hright, hend⟩ := ihq hmid hq hlimit hanchors.2
    refine ⟨?_, hend⟩
    intro c instr hmem
    obtain hmem | hmem := List.mem_append.mp hmem
    · exact hleft c instr hmem
    · exact hright c instr hmem
  | alt p q ihp ihq =>
    obtain ⟨-, hp, -, hq⟩ := hcode.alt
    obtain ⟨⟨xs, hsplit⟩, -, ⟨ys, hjmp⟩, -⟩ := Blk.encode_alt_parts hcode.bytes
    have hsize : a + Blk.size (.alt p q) = a + 14 + Blk.size p + Blk.size q := by
      simp only [Blk.size]
      omega
    rw [hsize] at hlimit ⊢
    -- the walk follows no target: it goes over the split, the arm and the jump in turn
    obtain ⟨hleft, hmid⟩ := ihp (h.past (by omega) hsplit rfl (by decide)) hp (by omega) hanchors.1
    have harm := hmid.past (by omega) hjmp rfl (by decide)
    rw [show a + 9 + Blk.size p + (1 + 4) = a + 14 + Blk.size p by omega] at harm
    obtain ⟨hright, hend⟩ := ihq harm hq hlimit hanchors.2
    refine ⟨?_, hend⟩
    intro c instr hmem
    simp only [Blk.listing, List.mem_cons, List.mem_append, Prod.mk.injEq] at hmem
    obtain ⟨-, rfl⟩ | hmem | ⟨-, rfl⟩ | hmem := hmem
    · rfl
    · exact hleft c instr hmem
    · rfl
    · exact hright c instr hmem
  | loop k body ih =>
    obtain ⟨-, hbody, -⟩ := hcode.loop
    obtain ⟨⟨xs, hinit⟩, -, ⟨ys, hstep⟩⟩ := Blk.encode_loop_parts hcode.bytes
    have hsize : a + Blk.size (.loop k body) = a + 20 + Blk.size body := by
      simp only [Blk.size]
      omega
    rw [hsize] at hlimit ⊢
    obtain ⟨hinner, hmid⟩ := ih (h.past (by omega) hinit rfl (by decide)) hbody (by omega) hanchors
    have hend := hmid.past (by omega) hstep rfl (by decide)
    rw [show a + 14 + Blk.size body + (1 + 5) = a + 20 + Blk.size body by omega] at hend
    refine ⟨?_, hend⟩
    intro c instr hmem
    simp only [Blk.listing, List.mem_cons, List.mem_append, Prod.mk.injEq, List.not_mem_nil,
      or_false] at hmem
    obtain ⟨-, rfl⟩ | hmem | ⟨-, rfl⟩ := hmem
    · rfl
    · exact hinner c instr hmem
    · rfl

/-! ## The end of the body -/

/-- The minimum of a list of numbers. -/
theorem foldl_min_eq {f : Nat → Nat} {is : List Nat} {init m : Nat} (hinit : m ≤ init)
    (hle : ∀ i ∈ is, m ≤ f i) (hmem : init = m ∨ ∃ i ∈ is, f i = m) :
    is.foldl (fun least i => min least (f i)) init = m := by
  induction is generalizing init with
  | nil =>
    obtain h | ⟨i, hi, -⟩ := hmem
    · exact h
    · cases hi
  | cons i is ih =>
    have hi := hle i List.mem_cons_self
    refine ih (show m ≤ min init (f i) by omega) (fun j hj => hle j (List.mem_cons_of_mem _ hj)) ?_
    obtain h | ⟨j, hj, hfj⟩ := hmem
    · left
      show min init (f i) = m
      omega
    · obtain rfl | hj := List.mem_cons.mp hj
      · left
        show min init (f j) = m
        omega
      · exact .inr ⟨j, hj, hfj⟩

/-- The body length, computed from the offsets. -/
theorem Sections.bodyLen_eq {bc body : Bytes} {classes : List CcEntry} {labels : List LabelEntry}
    (h : Sections bc body classes labels) (hmany : classes.length < 2 ^ 32) :
    snobolBcBodyLen bc =
      if classes.length = 0 then Sections.tableStart body classes
      else
        let earliest := (List.range classes.length).foldl (fun earliest i =>
          min earliest (readU32 bc (Sections.tableStart body classes + i * 4)).1) (2 ^ 64 - 1)
        if earliest = 0 ∨ Sections.tableStart body classes < earliest then 0 else earliest := by
  have hlen := h.length
  have htail : bc.length - (8 + labels.length * 4) =
      Sections.tableStart body classes + classes.length * 4 + 4 := by omega
  unfold snobolBcBodyLen
  simp only [h.readMagic, h.readLabelCount, htail, Nat.add_sub_cancel, h.readCount,
    Nat.mod_eq_of_lt hmany]
  rw [if_neg (by omega), if_neg (fun hne => hne rfl), if_neg (by omega), if_neg (by omega)]
  split
  · omega
  · rfl

/-- The earliest blob starts where the instructions end. -/
theorem Sections.bodyLen {bc body : Bytes} {classes : List CcEntry} {labels : List LabelEntry}
    (h : Sections bc body classes labels) (hbody : body ≠ []) (hmany : classes.length < 2 ^ 32)
    (hshort : ∀ off ∈ classOffsets body.length classes, off < 2 ^ 32) :
    snobolBcBodyLen bc = body.length := by
  have hpos := List.length_pos_of_ne_nil hbody
  rw [h.bodyLen_eq hmany]
  split
  · rename_i hnone
    rw [Sections.tableStart, List.eq_nil_of_length_eq_zero hnone]
    rfl
  rename_i hsome
  have hfirst : body.length ∈ classOffsets body.length classes := by
    rw [mem_classOffsets]
    cases hclasses : classes.reverse with
    | nil => exact absurd (by simpa using congrArg List.length hclasses) hsome
    | cons e es => exact List.mem_cons_self
  have hentry : ∀ i off, (classOffsets body.length classes)[i]? = some off →
      (readU32 bc (Sections.tableStart body classes + i * 4)).1 = off := by
    intro i off hget
    rw [h.readOffset hget, Nat.mod_eq_of_lt (hshort off (List.mem_of_getElem? hget))]
  have hearliest : (List.range classes.length).foldl (fun earliest i =>
      min earliest (readU32 bc (Sections.tableStart body classes + i * 4)).1) (2 ^ 64 - 1) =
      body.length := by
    have hlt := hshort _ hfirst
    refine foldl_min_eq (by omega) ?_ (.inr ?_)
    · intro i hi
      rw [List.mem_range, ← length_classOffsets body.length] at hi
      have hget := List.getElem?_eq_getElem hi
      rw [hentry i _ hget]
      exact (mem_blobOffsets (mem_classOffsets.mp (List.mem_of_getElem? hget))).1
    · obtain ⟨i, hi⟩ := List.getElem?_of_mem hfirst
      have hlt := (List.getElem?_eq_some_iff.mp hi).1
      rw [length_classOffsets] at hlt
      exact ⟨i, List.mem_range.mpr hlt, hentry i _ hi⟩
  dsimp only
  rw [hearliest, if_neg]
  unfold Sections.tableStart
  omega

/-- The trailer tells where the body ends. -/
theorem snobolBcBodyLen_trailer (body : Bytes) (classes : List CcEntry) (labels : List LabelEntry)
    (hbody : body ≠ [])
    (hshort : (body ++ trailer body.length classes labels).length < 2 ^ 32) :
    snobolBcBodyLen (body ++ trailer body.length classes labels) = body.length := by
  have hlabels : labels.length < 2 ^ 32 := by
    have hlen := length_flatMap_emitU32 (labels.map fun l => if l.defined then l.offset else 0)
    rw [List.flatMap_map, List.length_map] at hlen
    simp only [trailer, labelTable, List.length_append] at hshort
    omega
  have h : Sections (body ++ trailer body.length classes labels) body classes labels :=
    ⟨rfl, hlabels⟩
  rw [h.length] at hshort
  refine h.bodyLen hbody (by omega) fun off hoff => ?_
  have hle := (mem_blobOffsets (mem_classOffsets.mp hoff)).2
  unfold Sections.tableStart at hshort
  omega

/-! ## The anchors of a pattern -/

theorem litPat_anchors (cfg : CompilerConfig) (text : Bytes) (fuel pos : Nat) :
    (litPat cfg text fuel pos).All Leaf.AnchorFits := by
  induction fuel generalizing pos with
  | zero => trivial
  | succ fuel ih =>
    unfold litPat
    split
    · trivial
    · cases utf8PeekNext text pos with
      | none => exact ⟨trivial, ih _⟩
      | some cp => exact ⟨trivial, ih _⟩

theorem tableKeyPat_anchors (key : AstNode) {p : SrcPat} (h : p.All Leaf.AnchorFits) :
    (tableKeyPat key p).All Leaf.AnchorFits := by
  cases key with
  | regRef reg => trivial
  | _ => exact ⟨trivial, h, trivial⟩

mutual

/-- The anchors that the emitters write are of type 0 or 1. -/
theorem AstNode.pat_anchors (cfg : CompilerConfig) :
    ∀ ast : AstNode, (ast.pat cfg).All Leaf.AnchorFits
  | .literal text => by
    unfold AstNode.pat
    split
    · exact litPat_anchors cfg text _ _
    · trivial
  | .concat parts => AstNode.patParts_anchors cfg parts
  | .alt left right => ⟨AstNode.pat_anchors cfg left, AstNode.pat_anchors cfg right⟩
  | .repetition sub min max => by
    have hsub := AstNode.pat_anchors cfg sub
    unfold AstNode.pat
    split
    · exact AstNode.patRepeatStar_anchors cfg hsub sub
    · exact hsub
  | .span _ | .break _ | .any _ | .notany _ | .assign _ _ | .len _ | .eval _ _ | .breakx _
  | .bal _ _ | .fence | .rem | .rpos _ | .rtab _ | .pos _ | .tab _ | .abort | .fail | .succeed
  | .goto _ | .regRef _ => trivial
  | .arbno sub => AstNode.patArbno_anchors cfg (AstNode.pat_anchors cfg sub) sub
  | .cap _ sub => ⟨trivial, AstNode.pat_anchors cfg sub, trivial⟩
  | .dynamicEval expr => AstNode.pat_anchors cfg expr
  | .anchor .anchorStart => Nat.zero_le 1
  | .anchor .anchorEnd => Nat.le_refl 1
  | .emit (some _) _ => trivial
  | .emit none reg => by
    unfold AstNode.pat
    split <;> trivial
  | .label _ target => ⟨trivial, AstNode.pat_anchors cfg target⟩
  | .tableAccess _ key => ⟨tableKeyPat_anchors key (AstNode.pat_anchors cfg key), trivial⟩
  | .tableUpdate _ key value =>
    ⟨tableKeyPat_anchors key (AstNode.pat_anchors cfg key),
      ⟨trivial, AstNode.pat_anchors cfg value, trivial⟩, trivial⟩

theorem AstNode.patParts_anchors (cfg : CompilerConfig) :
    ∀ parts : List AstNode, (AstNode.patParts cfg parts).All Leaf.AnchorFits
  | [] => trivial
  | part :: parts => ⟨AstNode.pat_anchors cfg part, AstNode.patParts_anchors cfg parts⟩

theorem AstNode.patArbno_anchors (cfg : CompilerConfig) {p : SrcPat} (h : p.All Leaf.AnchorFits)
    (sub : AstNode) : (AstNode.patArbno cfg sub p).All Leaf.AnchorFits := by
  cases sub with
  | arbno sub => exact AstNode.patArbno_anchors cfg (AstNode.pat_anchors cfg sub) sub
  | repetition sub min max =>
    simp only [AstNode.patArbno]
    split
    · exact AstNode.patStar_anchors cfg (AstNode.pat_anchors cfg sub) sub
    · exact h
  | _ => exact h

theorem AstNode.patStar_anchors (cfg : CompilerConfig) {p : SrcPat} (h : p.All Leaf.AnchorFits)
    (sub : AstNode) : (AstNode.patStar cfg sub p).All Leaf.AnchorFits := by
  cases sub with
  | repetition sub min max =>
    simp only [AstNode.patStar]
    split
    · exact AstNode.patStar_anchors cfg (AstNode.pat_anchors cfg sub) sub
    · exact h
  | _ => exact h

theorem AstNode.patRepeatStar_anchors (cfg : CompilerConfig) {p : SrcPat}
    (h : p.All Leaf.AnchorFits) (sub : AstNode) :
    (AstNode.patRepeatStar cfg sub p).All Leaf.AnchorFits := by
  cases sub with
  | arbno sub => exact AstNode.patArbno_anchors cfg (AstNode.pat_anchors cfg sub) sub
  | repetition sub min max =>
    simp only [AstNode.patRepeatStar]
    split
    · exact AstNode.patRepeatStar_anchors cfg (AstNode.pat_anchors cfg sub) sub
    · exact h
  | _ => exact h

end

/-- The anchors of the compiled code. -/
theorem CompiledAs.anchors {cfg : CompilerConfig} {ast : AstNode} {st : CompilerState} {bc : Bytes}
    {b b' : Blk} (h : CompiledAs cfg ast st bc b b') : b'.All Leaf.AnchorFits := by
  refine h.fused.all _ trivial (fun _ => trivial) ?_
  have hpat := AstNode.pat_anchors cfg ast
  rw [← h.pat, Pat.all_map] at hpat
  refine hpat.mono fun l hl => ?_
  cases l with
  | anchor type => exact hl
  | _ => trivial

/-! ## Runs -/

/-- Behind an instruction that is decoded stands the next one, or the end. -/
theorem Decodes.next_of_mem {bc : Bytes} {a stop c : Nat} {instr : Instr} {l : List (Nat × Instr)}
    (h : Decodes bc a l stop) (hmem : (c, instr) ∈ l) :
    ∃ next, fetch bc c = some (instr, next) ∧ (next ∈ l.map Prod.fst ∨ next = stop) := by
  induction h with
  | nil a => cases hmem
  | @cons a next stop first rest hfetch hrest ih =>
    obtain heq | hmem := List.mem_cons.mp hmem
    · cases heq
      refine ⟨next, hfetch, ?_⟩
      cases hrest with
      | nil => exact .inr rfl
      | cons => exact .inl (List.mem_cons_of_mem _ List.mem_cons_self)
    · obtain ⟨next', hfetch', hnext⟩ := ih hmem
      exact ⟨next', hfetch', hnext.imp_left (List.mem_cons_of_mem _)⟩

/-- The bytecode starts with the program `b`, and the dispatch table has entries for all of
its instructions. -/
structure Vetted (bc : Bytes) (b : Blk) : Prop where
  next : ∀ c instr, (c, instr) ∈ b.program → ∃ next, fetch bc c = some (instr, next) ∧
    (next ∈ b.program.map Prod.fst ∨ instr = .accept)
  searchable : ∀ c instr, (c, instr) ∈ b.program → instr.searchable = true

/-- Compiled code that is eligible is vetted. -/
theorem CompiledAs.vetted {cfg : CompilerConfig} {ast : AstNode} {st : CompilerState} {bc : Bytes}
    {b b' : Blk} (h : CompiledAs cfg ast st bc b b') (hshort : bc.length < 2 ^ 32)
    (heligible : checkSearchVmEligible bc = true) :
    snobolBcBodyLen bc = b'.size + 1 ∧ Vetted bc b' := by
  have hbodyLen : snobolBcBodyLen bc = b'.size + 1 ∧ b'.size + 1 ≤ bc.length := by
    obtain ⟨classes, hbody⟩ := h.body
    have hlen : (b'.encode 0 ++ [OpCode.accept.code]).length = b'.size + 1 := by
      rw [List.length_append, Blk.length_encode]
      rfl
    rw [← List.append_assoc] at hbody
    have hread := snobolBcBodyLen_trailer (b'.encode 0 ++ [OpCode.accept.code]) classes st.labels
      (by simp) (by rw [hlen, ← hbody]; exact hshort)
    rw [hlen, ← hbody] at hread
    have htotal := congrArg List.length hbody
    rw [List.length_append, hlen] at htotal
    exact ⟨hread, by omega⟩
  obtain ⟨hread, hle⟩ := hbodyLen
  have hpasses : Passes bc (b'.size + 1) 0 := by
    simp only [checkSearchVmEligible, hread, Nat.succ_pos, if_true, decide_true, Bool.and_eq_true]
      at heligible
    exact ⟨bc.length, by omega, heligible.2⟩
  have hcode := h.code.decodes
  rw [Nat.zero_add] at hcode
  obtain ⟨hsearchable, -⟩ := hpasses.code h.code (by omega) h.anchors
  have haccept : b'.size ∈ b'.program.map Prod.fst :=
    List.mem_map_of_mem (f := Prod.fst) (List.mem_append_right _ (List.mem_singleton_self _))
  refine ⟨hread, ?_, ?_⟩
  · intro c instr hmem
    obtain hmem | hmem := List.mem_append.mp hmem
    · obtain ⟨next, hfetch, hnext⟩ := hcode.next_of_mem hmem
      refine ⟨next, hfetch, .inl ?_⟩
      obtain hnext | rfl := hnext
      · rw [Blk.program, List.map_append]
        exact List.mem_append_left _ hnext
      · exact haccept
    · cases List.mem_singleton.mp hmem
      exact ⟨_, h.fetch_accept, .inr rfl⟩
  · intro c instr hmem
    obtain hmem | hmem := List.mem_append.mp hmem
    · exact hsearchable c instr hmem
    · cases List.mem_singleton.mp hmem
      rfl

/-- The cursor and every choice point are at instructions of the program. -/
structure SearchVm.Within (b : Blk) (vm : SearchVm) : Prop where
  ip : vm.ip ∈ b.program.map Prod.fst
  choices : ∀ c ∈ vm.choices, c.ip ∈ b.program.map Prod.fst

/-- A turn of the loop ends within the program or ends the run. -/
inductive SearchStep.Within (b : Blk) : SearchStep → Prop where
  | running {vm : SearchVm} (h : vm.Within b) : Within b (.running vm)
  | matched (vm : SearchVm) : Within b (.matched vm)
  | failed (vm : SearchVm) : Within b (.failed vm)
  | aborted (vm : SearchVm) : Within b (.aborted vm)

namespace SearchVm.Within

variable {env : VmEnv W} {b : Blk} {vm : SearchVm} {next : Nat}

theorem goto (h : vm.Within b) (hnext : next ∈ b.program.map Prod.fst) :
    Within b { vm with ip := next } :=
  ⟨hnext, h.choices⟩

/-- One more choice point. -/
theorem push (h : vm.Within b) {vm' : SearchVm} {c : SearchChoice}
    (hip : vm'.ip ∈ b.program.map Prod.fst) (hchoices : vm'.choices = c :: vm.choices)
    (hc : c.ip ∈ b.program.map Prod.fst) : vm'.Within b := by
  refine ⟨hip, ?_⟩
  intro c' hc'
  rw [hchoices] at hc'
  obtain rfl | hc' := List.mem_cons.mp hc'
  · exact hc
  · exact h.choices c' hc'

theorem backtrack (h : vm.Within b) : vm.backtrack.Within b := by
  unfold SearchVm.backtrack
  split
  · exact .failed vm
  · rename_i c rest hchoices
    refine .running ⟨h.choices c (by rw [hchoices]; exact List.mem_cons_self), ?_⟩
    intro c' hc'
    exact h.choices c' (by rw [hchoices]; exact List.mem_cons_of_mem _ hc')

theorem goOn (h : vm.Within b) (hnext : next ∈ b.program.map Prod.fst) (target : Option Nat) :
    (vm.goOn next target).Within b := by
  cases target with
  | none => exact h.backtrack
  | some pos => exact .running ⟨hnext, h.choices⟩

theorem repeatInit (h : vm.Within b) {skip : Nat} (hskip : skip ∈ b.program.map Prod.fst)
    (loop min max : Nat) : (vm.repeatInit loop min max skip).Within b := by
  unfold SearchVm.repeatInit
  split
  · simp only
    split
    · exact h.push h.ip rfl hskip
    · exact ⟨h.ip, h.choices⟩
  · exact h

theorem repeatStep (h : vm.Within b) {target : Nat} (htarget : target ∈ b.program.map Prod.fst)
    (loop : Nat) : (vm.repeatStep loop target).Within b := by
  unfold SearchVm.repeatStep
  simp only
  by_cases hloop : loop < maxLoops
  · rw [if_pos hloop]
    split
    · exact ⟨htarget, h.choices⟩
    · split
      · split
        · exact ⟨h.ip, h.choices⟩
        · -- another iteration, with the way out saved
          exact h.push htarget rfl h.ip
      · exact ⟨h.ip, h.choices⟩
  · rw [if_neg hloop]
    exact h

theorem breakx (h : vm.Within b) {here : Nat} (hhere : here ∈ b.program.map Prod.fst)
    (env : VmEnv W) (setId : Nat) : (vm.breakx env setId here).Within b := by
  unfold SearchVm.breakx
  simp only
  split
  · exact h.push h.ip rfl hhere
  · exact ⟨h.ip, h.choices⟩

theorem prim (h : vm.Within b) (hnext : next ∈ b.program.map Prod.fst) {p : Prim}
    (hsearchable : (Instr.prim p).searchable = true) : (vm.prim env next p).Within b := by
  cases p with
  | nop | capStart | capEnd | assign => exact .running ⟨hnext, h.choices⟩
  | lit | set | count | anchor => exact h.goOn hnext _
  | _ => cases hsearchable

/-- A turn of the loop at a row whose opcode has an entry. -/
theorem turn (h : vm.Within b) {instr : Instr} (hmem : (vm.ip, instr) ∈ b.program)
    (hfetch : fetch env.bc vm.ip = some (instr, next))
    (hnext : next ∈ b.program.map Prod.fst ∨ instr = .accept)
    (hsearchable : instr.searchable = true) : (vm.step env).Within b := by
  have hbranch : ∀ t ∈ instr.branches, t ∈ b.program.map Prod.fst := fun t ht =>
    Blk.branch_mem_program hmem ht
  rw [SearchVm.step, hfetch]
  cases instr with
  | accept => exact .matched vm
  | prim p => exact h.prim (hnext.resolve_right (by simp)) hsearchable
  | fail => exact h.backtrack
  | jmp target => exact .running (h.goto (hbranch target List.mem_cons_self))
  | split left right =>
    have hright := hbranch right (List.mem_cons_of_mem _ List.mem_cons_self)
    exact .running (h.push (hbranch left List.mem_cons_self) rfl hright)
  | repeatInit loop min max skip =>
    have hgo := h.goto (hnext.resolve_right (by simp))
    exact .running (hgo.repeatInit (hbranch skip List.mem_cons_self) loop min max)
  | repeatStep loop target =>
    have hgo := h.goto (hnext.resolve_right (by simp))
    exact .running (hgo.repeatStep (hbranch target List.mem_cons_self) loop)
  | breakx setId =>
    have hgo := h.goto (hnext.resolve_right (by simp))
    exact .running (hgo.breakx h.ip env setId)
  | fence =>
    refine .running ⟨hnext.resolve_right (by simp), ?_⟩
    intro c hc
    cases hc
  | abort => exact .aborted vm
  | succeed => exact .matched vm
  | goto | unknown => cases hsearchable

/-- A turn of the loop on vetted code. -/
theorem step (h : vm.Within b) (hvetted : Vetted env.bc b) : (vm.step env).Within b := by
  obtain ⟨⟨c, instr⟩, hmem, hc⟩ := List.mem_map.mp h.ip
  obtain rfl : c = vm.ip := hc
  obtain ⟨next, hfetch, hnext⟩ := hvetted.next vm.ip instr hmem
  exact h.turn hmem hfetch hnext (hvetted.searchable vm.ip instr hmem)

end SearchVm.Within

/-- Every state of a run on vetted code is within the program. -/
theorem SearchVm.Reach.within {env : VmEnv W} {b : Blk} {vm : SearchVm} (h : Reach env vm)
    (hvetted : Vetted env.bc b) : vm.Within b := by
  induction h with
  | start hip hchoices =>
    refine ⟨?_, ?_⟩
    · rw [hip]
      have hstart := Blk.start_mem_boundaries b 0
      rw [Blk.boundaries, Nat.zero_add] at hstart
      rw [Blk.program, List.map_append]
      exact hstart
    · intro c hc
      rw [hchoices] at hc
      cases hc
  | step _ hstep ih =>
    have hwithin := ih.step hvetted
    rw [hstep] at hwithin
    cases hwithin with
    | running h => exact h

/-- Every fetch of a search is of an instruction of the program `b`, the dispatch table has an
entry for it, and the turn does not end at an unknown opcode. -/
structure SearchesWithin (env : VmEnv W) (b : Blk) : Prop where
  fetched : ∀ vm, SearchVm.Reach env vm → ∃ instr next, (vm.ip, instr) ∈ b.program ∧
    fetch env.bc vm.ip = some (instr, next) ∧ instr.searchable = true
  known : ∀ vm, SearchVm.Reach env vm → vm.step env ≠ .unknown

/-- A search of vetted code. -/
theorem Vetted.searchesWithin {env : VmEnv W} {b : Blk} (h : Vetted env.bc b) :
    SearchesWithin env b := by
  constructor
  · intro vm hreach
    obtain ⟨⟨c, instr⟩, hmem, hc⟩ := List.mem_map.mp (hreach.within h).ip
    obtain rfl : c = vm.ip := hc
    obtain ⟨next, hfetch, -⟩ := h.next vm.ip instr hmem
    exact ⟨instr, next, hmem, hfetch, h.searchable vm.ip instr hmem⟩
  · intro vm hreach hunknown
    have hstep := (hreach.within h).step h
    rw [hunknown] at hstep
    cases hstep

/-- The search VM stays on the instructions of an eligible pattern and meets no opcode that its
dispatch table has no entry for, where the sizes of the code are within the widths of their
fields and the fusion pass rewrites emitted `OP_SPLIT`s only. -/
theorem searchVm_within (env : VmEnv W) (cfg : CompilerConfig) (ast : AstNode) (st : CompilerState)
    (hcode : WellEncoded cfg ast st) (hcompile : compileAstToBytecodeC cfg ast = some env.bc)
    (hshort : env.bc.length < 2 ^ 32) (heligible : checkSearchVmEligible env.bc = true) :
    ∃ b : Blk, Decodes env.bc 0 b.program (snobolBcBodyLen env.bc) ∧ SearchesWithin env b := by
  obtain ⟨b, b', h⟩ := hcode.compiledAs hcompile
  obtain ⟨hlen, hvetted⟩ := h.vetted hshort heligible
  refine ⟨b', ?_, hvetted.searchesWithin⟩
  rw [hlen]
  exact h.code.decodes_program h.fetch_accept

/-- A choice: `'a' | FENCE`. -/
def letterOrFence : AstNode := .alt (.literal [0x61]) .fence

/-- What the emitters make of it. -/
def letterOrFenceState : CompilerState where
  buf := [3, 0, 0, 0, 9, 0, 0, 0, 24, 4, 0, 0, 0, 18, 0, 0, 0, 1, 97, 2, 0, 0, 0, 25, 33, 0]
  classes := []
  nextLoopId := 0
  labels := []
  splits := [0]

theorem searchVm_within_letterOrFence :
    ∃ bc, compileAstToBytecodeC .caseSensitive letterOrFence = some bc ∧
      ∃ b : Blk, Decodes bc 0 b.program (snobolBcBodyLen bc) ∧
        SearchesWithin (VmEnv.ofCode bc [0x62, 0x61] .bare) b := by
  have hchecked : (compileAstToBytecodeC .caseSensitive letterOrFence).any (fun bc =>
      checkSearchVmEligible bc && decide (bc.length < 2 ^ 32)) = true := by decide +kernel
  obtain ⟨bc, hcompile, hchecks⟩ := Option.any_eq_true _ _ |>.mp hchecked
  rw [Bool.and_eq_true, decide_eq_true_eq] at hchecks
  have hencoded : WellEncoded .caseSensitive letterOrFence letterOrFenceState := by
    constructor
    · decide +kernel
    · decide
    · decide
    · exact ⟨trivial, trivial⟩
    · decide +kernel
  exact ⟨bc, hcompile, searchVm_within (VmEnv.ofCode bc [0x62, 0x61] .bare) .caseSensitive
    letterOrFence letterOrFenceState hencoded hcompile hchecks.2 hchecks.1⟩

/-- Two literals whose bytes the fusion pass takes for a choice between two characters: it
writes `OP_ANY`, `OP_NOP`s and a jump back into the first literal over them. -/
def disguisedJump : AstNode :=
  .concat
    [.literal [0xFF, 3, 0, 0, 0, 19, 0, 0, 0, 36, 5, 0, 0, 2, 0, 0, 0, 39],
      .literal [5, 0, 0, 2, 0, 0, 0, 9]]

/-- What it matches before the jump. -/
def disguisedSubject : Bytes := [0xFF, 5, 0, 1] ++ List.replicate 14 OpCode.nop.code

/-- An eligible pattern whose search fetches a byte that is no opcode. -/
theorem disguisedJump_unknown :
    ∃ bc vm, compileAstToBytecodeC .caseSensitive disguisedJump = some bc ∧
      checkSearchVmEligible bc = true ∧
      SearchVm.Reach (VmEnv.ofCode bc disguisedSubject .bare) vm ∧
      vm.step (VmEnv.ofCode bc disguisedSubject .bare) = .unknown := by
  have hchecked : (compileAstToBytecodeC .caseSensitive disguisedJump).any (fun bc =>
      checkSearchVmEligible bc &&
        (SearchVm.steps (VmEnv.ofCode bc disguisedSubject .bare) 16 SearchVm.zero).isUnknown) =
      true := by decide +kernel
  obtain ⟨bc, hcompile, hchecks⟩ := Option.any_eq_true _ _ |>.mp hchecked
  rw [Bool.and_eq_true] at hchecks
  obtain ⟨vm, hreach, hunknown⟩ := (SearchVm.Reach.start rfl rfl).unknown_of_steps
    (SearchStep.eq_unknown hchecks.2)
  exact ⟨bc, vm, hcompile, hchecks.1, hreach, hunknown⟩

end Snobol4
