import Snobol4.Fusion

/-!
# Decoding — the instructions of a compiled pattern (`compiler_codegen.c`, `vm_exec.c`)

Decoding from the start of the body, every instruction with the length that `vm_run` gives
it, goes through the instructions that the emitters wrote, one after the other.  A table name
behind `OP_TABLE_GET` or `OP_TABLE_SET` has one byte for its length, so a longer name is
decoded as instructions.
-/

namespace Snobol4

/-! ## Listings -/

/-- The addresses that an instruction branches to. -/
def Instr.branches : Instr → List Nat
  | .jmp target => [target]
  | .split a b => [a, b]
  | .repeatInit _ _ _ skip => [skip]
  | .repeatStep _ target => [target]
  | _ => []

/-- The instructions of structured code at an address, as the emitters write them. -/
def Blk.listing : Blk → Nat → List (Nat × Instr)
  | .skip, _ => []
  | .leaf l, a => [(a, l.instr a)]
  | .seq p q, a => listing p a ++ listing q (a + size p)
  | .alt p q, a =>
      (a, .split (a + 9) (a + 14 + size p)) :: (listing p (a + 9) ++
        (a + 9 + size p, .jmp (a + 14 + size p + size q)) :: listing q (a + 14 + size p))
  | .loop k body, a =>
      (a, .repeatInit k.id k.min k.max (a + 20 + size body)) :: (listing body (a + 14) ++
        [(a + 14 + size body, .repeatStep k.id (a + 14))])

namespace Blk

variable (p q body : Blk) (k : LoopSpec) (a : Nat)

theorem listing_of_seq : listing (.seq p q) a = listing p a ++ listing q (a + size p) := rfl

theorem listing_of_alt : listing (.alt p q) a =
    (a, .split (a + 9) (a + 14 + size p)) :: (listing p (a + 9) ++
      (a + 9 + size p, .jmp (a + 14 + size p + size q)) :: listing q (a + 14 + size p)) := rfl

theorem listing_of_loop : listing (.loop k body) a =
    (a, .repeatInit k.id k.min k.max (a + 20 + size body)) :: (listing body (a + 14) ++
      [(a + 14 + size body, .repeatStep k.id (a + 14))]) := rfl

end Blk

/-- The listing of a program: its code and `OP_ACCEPT`. -/
def Blk.program (b : Blk) : List (Nat × Instr) := listing b 0 ++ [(size b, .accept)]

/-- Decoding from an address on yields the instructions, the last of which ends at `stop`. -/
inductive Decodes (bc : Bytes) : Nat → List (Nat × Instr) → Nat → Prop where
  | nil (a : Nat) : Decodes bc a [] a
  | cons {a next stop : Nat} {instr : Instr} {rest : List (Nat × Instr)}
      (hfetch : fetch bc a = some (instr, next)) (h : Decodes bc next rest stop) :
      Decodes bc a ((a, instr) :: rest) stop

namespace Decodes

variable {bc : Bytes} {a mid stop : Nat} {l l' : List (Nat × Instr)}

theorem append (h : Decodes bc a l mid) (h' : Decodes bc mid l' stop) :
    Decodes bc a (l ++ l') stop := by
  induction h with
  | nil a => exact h'
  | cons hfetch _ ih => exact .cons hfetch (ih h')

/-- The first instruction stands where decoding starts. -/
theorem head {c : Nat} {instr : Instr} (h : Decodes bc a ((c, instr) :: l) stop) : a = c := by
  cases h with
  | cons hfetch h => rfl

/-- The run of the decoder goes on behind an instruction. -/
theorem tail {instr : Instr} (h : Decodes bc a ((a, instr) :: l) stop) :
    ∃ next, fetch bc a = some (instr, next) ∧ Decodes bc next l stop := by
  cases h with
  | cons hfetch h => exact ⟨_, hfetch, h⟩

end Decodes

/-- Structured code decodes to its listing. -/
theorem Blk.Code.decodes {bc : Bytes} {b : Blk} {a : Nat} (h : Blk.Code bc b a) :
    Decodes bc a (b.listing a) (a + b.size) := by
  induction b generalizing a with
  | skip => exact .nil a
  | leaf l => exact .cons h.leaf (.nil _)
  | seq p q ihp ihq =>
    obtain ⟨hp, hq⟩ := h.seq
    rw [Blk.listing_of_seq, Blk.size, ← Nat.add_assoc]
    exact (ihp hp).append (ihq hq)
  | alt p q ihp ihq =>
    obtain ⟨hsplit, hp, hjmp, hq⟩ := h.alt
    have hend : a + Blk.size (.alt p q) = a + 14 + Blk.size p + Blk.size q := by
      simp only [Blk.size]
      omega
    rw [Blk.listing, hend]
    exact .cons hsplit ((ihp hp).append (.cons hjmp (ihq hq)))
  | loop k body ih =>
    obtain ⟨hinit, hbody, hstep⟩ := h.loop
    have hend : a + Blk.size (.loop k body) = a + 20 + Blk.size body := by
      simp only [Blk.size]
      omega
    rw [Blk.listing, hend]
    exact .cons hinit ((ih hbody).append (.cons hstep (.nil _)))

/-! ## Branches -/

namespace Blk

/-- The addresses of the instructions, and the end. -/
def boundaries (b : Blk) (a : Nat) : List Nat := (listing b a).map Prod.fst ++ [a + size b]

theorem end_mem_boundaries (b : Blk) (a : Nat) : a + size b ∈ boundaries b a :=
  List.mem_append_right _ (List.mem_singleton_self _)

theorem mem_boundaries {b : Blk} {a t : Nat} :
    t ∈ boundaries b a ↔ t ∈ (listing b a).map Prod.fst ∨ t = a + size b := by
  rw [boundaries, List.mem_append, List.mem_singleton]

section

variable {p q body : Blk} {k : LoopSpec} {a t : Nat}

theorem boundaries_right (h : t ∈ boundaries q (a + size p)) : t ∈ boundaries (.seq p q) a := by
  rw [mem_boundaries] at h ⊢
  rw [listing_of_seq, List.map_append, List.mem_append, size, ← Nat.add_assoc]
  exact h.imp .inr id

/-- The start of structured code is an instruction, or its end. -/
theorem start_mem_boundaries (b : Blk) (a : Nat) : a ∈ boundaries b a := by
  induction b generalizing a with
  | skip => exact end_mem_boundaries .skip a
  | leaf l => exact List.mem_cons_self
  | seq p q ihp ihq =>
    obtain hmem | hend := mem_boundaries.mp (ihp a)
    · rw [mem_boundaries, listing_of_seq, List.map_append]
      exact .inl (List.mem_append_left _ hmem)
    · have hq := boundaries_right (ihq (a + size p))
      rw [← hend] at hq
      exact hq
  | alt p q | loop k body => exact List.mem_cons_self

theorem boundaries_left (h : t ∈ boundaries p a) : t ∈ boundaries (.seq p q) a := by
  obtain hmem | rfl := mem_boundaries.mp h
  · rw [mem_boundaries, listing_of_seq, List.map_append]
    exact .inl (List.mem_append_left _ hmem)
  · exact boundaries_right (start_mem_boundaries q _)

theorem boundaries_leftArm (h : t ∈ boundaries p (a + 9)) : t ∈ boundaries (.alt p q) a := by
  rw [mem_boundaries] at h ⊢
  left
  simp only [listing_of_alt, List.map_cons, List.map_append, List.mem_cons, List.mem_append]
  obtain hmem | hend := h
  · exact .inr (.inl hmem)
  · exact .inr (.inr (.inl hend))

theorem boundaries_rightArm (h : t ∈ boundaries q (a + 14 + size p)) :
    t ∈ boundaries (.alt p q) a := by
  rw [mem_boundaries] at h ⊢
  simp only [listing_of_alt, List.map_cons, List.map_append, List.mem_cons, List.mem_append, size]
  obtain hmem | hend := h
  · exact .inl (.inr (.inr (.inr hmem)))
  · right
    omega

theorem boundaries_body (h : t ∈ boundaries body (a + 14)) : t ∈ boundaries (.loop k body) a := by
  rw [mem_boundaries] at h ⊢
  left
  simp only [listing_of_loop, List.map_cons, List.map_append, List.mem_cons, List.mem_append]
  obtain hmem | hend := h
  · exact .inr (.inl hmem)
  · exact .inr (.inr (.inl hend))

end

/-- Every branch of structured code leads to one of its instructions, or to its end. -/
theorem branch_mem_boundaries {b : Blk} {a c t : Nat} {instr : Instr}
    (hmem : (c, instr) ∈ listing b a) (ht : t ∈ instr.branches) : t ∈ boundaries b a := by
  induction b generalizing a with
  | skip => cases hmem
  | leaf l =>
    obtain rfl : instr = l.instr a := congrArg Prod.snd (List.mem_singleton.mp hmem)
    cases l with
    | _ => cases ht
  | seq p q ihp ihq =>
    obtain hp | hq := List.mem_append.mp hmem
    · exact boundaries_left (ihp hp)
    · exact boundaries_right (ihq hq)
  | alt p q ihp ihq =>
    simp only [listing_of_alt, List.mem_cons, List.mem_append, Prod.mk.injEq] at hmem
    obtain ⟨-, rfl⟩ | hp | ⟨-, rfl⟩ | hq := hmem
    · -- `OP_SPLIT` leads to the two arms
      simp only [Instr.branches, List.mem_cons, List.not_mem_nil, or_false] at ht
      obtain rfl | rfl := ht
      · exact boundaries_leftArm (start_mem_boundaries p _)
      · exact boundaries_rightArm (start_mem_boundaries q _)
    · exact boundaries_leftArm (ihp hp)
    · obtain rfl := List.mem_singleton.mp ht
      exact boundaries_rightArm (end_mem_boundaries q _)
    · exact boundaries_rightArm (ihq hq)
  | loop k body ih =>
    simp only [listing_of_loop, List.mem_cons, List.mem_append, Prod.mk.injEq, List.not_mem_nil,
      or_false] at hmem
    obtain ⟨-, rfl⟩ | hbody | ⟨-, rfl⟩ := hmem
    · -- `OP_REPEAT_INIT` leads behind the loop
      obtain rfl := List.mem_singleton.mp ht
      rw [show a + 20 + size body = a + size (.loop k body) by simp only [size]; omega]
      exact end_mem_boundaries _ a
    · exact boundaries_body (ih hbody)
    · obtain rfl := List.mem_singleton.mp ht
      exact boundaries_body (start_mem_boundaries body _)

/-- Every branch of a program leads to one of its instructions. -/
theorem branch_mem_program {b : Blk} {c t : Nat} {instr : Instr} (hmem : (c, instr) ∈ b.program)
    (ht : t ∈ instr.branches) : t ∈ b.program.map Prod.fst := by
  have hboundaries : b.program.map Prod.fst = boundaries b 0 := by
    rw [program, List.map_append, boundaries, Nat.zero_add]
    rfl
  rw [hboundaries]
  obtain hcode | hend := List.mem_append.mp hmem
  · exact branch_mem_boundaries hcode ht
  · obtain rfl : instr = .accept := congrArg Prod.snd (List.mem_singleton.mp hend)
    cases ht

end Blk

/-! ## Table names -/

/-- Where decoding goes on behind a table operation. -/
theorem fetch_table_next {bc name : Bytes} {a key reg next : Nat} {o : OpCode} {instr : Instr}
    {mk : Nat → Nat → Nat → Prim}
    (h : [o.code] ++ (emitU16 Leaf.unboundTable ++ (emitU8 key ++ (emitU8 reg ++
      (emitU8 name.length ++ name)))) <+: bc.drop a)
    (hop : ∀ ip, operands bc o.code ip =
      (let (table, ip) := readU16 bc ip
       let (key, ip) := readU8 bc ip
       let (reg, ip) := readU8 bc ip
       let (nameLen, ip) := readU8 bc ip
       (.prim (mk table key reg), ip + nameLen)))
    (hnext : fetch bc a = some (instr, next)) : next = a + (6 + name.length % 2 ^ 8) := by
  have hlt : ∀ v : Nat, v % 2 ^ 8 < 2 ^ 8 := fun v => Nat.mod_lt v (by decide)
  rw [← emitU8_mod key, ← emitU8_mod reg, ← emitU8_mod name.length] at h
  obtain ⟨hfetch, hops⟩ := fetch_of_initial h
  have htable := readU16_of_initial (prefix_left hops) (by decide)
  have hops := prefix_right hops (n := a + 3) (by simp)
  have hkey := readU8_of_initial (prefix_left hops) (hlt key)
  have hops := prefix_right hops (n := a + 4) (by simp)
  have hreg := readU8_of_initial (prefix_left hops) (hlt reg)
  have hops := prefix_right hops (n := a + 5) (by simp)
  have hname := readU8_of_initial (prefix_left hops) (hlt name.length)
  simp only [hfetch, hop, htable, show a + 1 + 2 = a + 3 by omega, hkey,
    show a + 3 + 1 = a + 4 by omega, hreg, show a + 4 + 1 = a + 5 by omega, hname,
    Option.some.injEq, Prod.mk.injEq] at hnext
  omega

/-- A name that is decoded as it was emitted fits its length byte. -/
theorem Leaf.nameFits_of_fetch {bc : Bytes} {l : Leaf Nat} {a : Nat} {instr : Instr}
    (h : l.encode a <+: bc.drop a) (hfetch : fetch bc a = some (instr, a + l.size)) :
    l.NameFits := by
  cases l with
  | tableGet key reg name =>
    have hnext := fetch_table_next (by simpa [encode] using h) (fun ip => rfl) hfetch
    simp only [size] at hnext
    show name.length < 2 ^ 8
    omega
  | tableSet key reg name =>
    have hnext := fetch_table_next (by simpa [encode] using h) (fun ip => rfl) hfetch
    simp only [size] at hnext
    show name.length < 2 ^ 8
    omega
  | _ => trivial

namespace Blk

/-- A listing in front of its end starts at its address. -/
theorem listing_head (b : Blk) (a : Nat) (instr : Instr) (rest : List (Nat × Instr)) :
    ∃ instr' rest', listing b a ++ (a + size b, instr) :: rest = (a, instr') :: rest' := by
  induction b generalizing a instr rest with
  | skip => exact ⟨instr, rest, rfl⟩
  | leaf l => exact ⟨_, _, rfl⟩
  | seq p q ihp ihq =>
    obtain ⟨instr', rest', hq⟩ := ihq (a + size p) instr rest
    obtain ⟨instr'', rest'', hp⟩ := ihp a instr' rest'
    refine ⟨instr'', rest'', ?_⟩
    rw [listing_of_seq, size, ← Nat.add_assoc, List.append_assoc, hq, hp]
  | alt p q | loop k body => exact ⟨_, _, rfl⟩

/-- The opcodes and the arms of an alternative. -/
theorem encode_alt_parts {bc : Bytes} {p q : Blk} {a : Nat}
    (h : encode (.alt p q) a <+: bc.drop a) :
    (∃ xs, [OpCode.split.code] ++ xs <+: bc.drop a) ∧
      encode p (a + 9) <+: bc.drop (a + 9) ∧
      (∃ xs, [OpCode.jmp.code] ++ xs <+: bc.drop (a + 9 + size p)) ∧
      encode q (a + 14 + size p) <+: bc.drop (a + 14 + size p) := by
  simp only [encode, List.append_assoc] at h
  have hleft := prefix_right h (n := a + 1) (by simp)
  have hright := prefix_right hleft (n := a + 5) (by simp)
  have hp := prefix_right hright (n := a + 9) (by simp)
  have hjmp := prefix_right hp (n := a + 9 + size p) (by simp)
  have htarget := prefix_right hjmp (n := a + 10 + size p) (by simp; omega)
  have hq := prefix_right htarget (n := a + 14 + size p) (by simp; omega)
  exact ⟨⟨_, h⟩, prefix_left hp, ⟨_, hjmp⟩, by simpa using hq⟩

/-- The opcodes and the body of a loop. -/
theorem encode_loop_parts {bc : Bytes} {k : LoopSpec} {body : Blk} {a : Nat}
    (h : encode (.loop k body) a <+: bc.drop a) :
    (∃ xs, [OpCode.repeatInit.code] ++ xs <+: bc.drop a) ∧
      encode body (a + 14) <+: bc.drop (a + 14) ∧
      ∃ xs, [OpCode.repeatStep.code] ++ xs <+: bc.drop (a + 14 + size body) := by
  simp only [encode, List.append_assoc] at h
  have hid := prefix_right h (n := a + 1) (by simp)
  have hmin := prefix_right hid (n := a + 2) (by simp)
  have hmax := prefix_right hmin (n := a + 6) (by simp)
  have hskip := prefix_right hmax (n := a + 10) (by simp)
  have hbody := prefix_right hskip (n := a + 14) (by simp)
  exact ⟨⟨_, h⟩, prefix_left hbody, ⟨_, prefix_right hbody (n := a + 14 + size body) (by simp)⟩⟩

/-- Structured code that decodes to its listing has names that fit. -/
theorem names_of_decodes {bc : Bytes} {b : Blk} {a stop : Nat} {instr : Instr}
    {rest : List (Nat × Instr)} (hbytes : encode b a <+: bc.drop a)
    (h : Decodes bc a (listing b a ++ (a + size b, instr) :: rest) stop) :
    b.All Leaf.NameFits ∧ Decodes bc (a + size b) ((a + size b, instr) :: rest) stop := by
  induction b generalizing a instr rest with
  | skip => exact ⟨trivial, h⟩
  | leaf l =>
    obtain ⟨next, hfetch, hrest⟩ := h.tail
    obtain rfl : next = a + l.size := hrest.head
    exact ⟨Leaf.nameFits_of_fetch hbytes hfetch, hrest⟩
  | seq p q ihp ihq =>
    rw [listing_of_seq, size, ← Nat.add_assoc, List.append_assoc] at h
    obtain ⟨instr', rest', hq⟩ := listing_head q (a + size p) instr rest
    rw [hq] at h
    obtain ⟨hnames, hrest⟩ := ihp (prefix_left hbytes) h
    rw [← hq] at hrest
    obtain ⟨hnames', hend⟩ := ihq (prefix_right hbytes (by simp)) hrest
    rw [size, ← Nat.add_assoc]
    exact ⟨⟨hnames, hnames'⟩, hend⟩
  | alt p q ihp ihq =>
    obtain ⟨-, hp, -, hq⟩ := encode_alt_parts hbytes
    have hend : a + size (.alt p q) = a + 14 + size p + size q := by
      simp only [size]
      omega
    rw [hend] at h ⊢
    -- the split, the first arm, the jump and the second arm, one behind the other
    rw [listing_of_alt, List.cons_append, List.append_assoc, List.cons_append] at h
    obtain ⟨next, -, hrest⟩ := h.tail
    obtain ⟨instr', rest', hleft⟩ := listing_head p (a + 9) _ _
    rw [hleft] at hrest
    obtain rfl : next = a + 9 := hrest.head
    rw [← hleft] at hrest
    obtain ⟨hnames, hjmp⟩ := ihp hp hrest
    obtain ⟨next, -, hrest⟩ := hjmp.tail
    obtain ⟨instr', rest', hright⟩ := listing_head q (a + 14 + size p) instr rest
    rw [hright] at hrest
    obtain rfl : next = a + 14 + size p := hrest.head
    rw [← hright] at hrest
    obtain ⟨hnames', hlast⟩ := ihq hq hrest
    exact ⟨⟨hnames, hnames'⟩, hlast⟩
  | loop k body ih =>
    obtain ⟨-, hbody, -⟩ := encode_loop_parts hbytes
    have hend : a + size (.loop k body) = a + 20 + size body := by
      simp only [size]
      omega
    rw [hend] at h ⊢
    rw [listing_of_loop, List.cons_append, List.append_assoc, List.singleton_append] at h
    obtain ⟨next, -, hrest⟩ := h.tail
    obtain ⟨instr', rest', hfirst⟩ := listing_head body (a + 14) _ _
    rw [hfirst] at hrest
    obtain rfl : next = a + 14 := hrest.head
    rw [← hfirst] at hrest
    obtain ⟨hnames, hstep⟩ := ih hbody hrest
    obtain ⟨next, -, hlast⟩ := hstep.tail
    obtain rfl : next = a + 20 + size body := hlast.head
    exact ⟨hnames, hlast⟩

end Blk

/-- Table names keep their length when class ids are looked up. -/
theorem Leaf.nameFits_resolve (classes : List CcEntry) (l : Leaf Nat) :
    (l.resolve classes).NameFits ↔ l.NameFits := by
  cases l with
  | _ => rfl

/-! ## The emitters and the decoder -/

/-- The pattern was emitted as the code `b` and compiled to the code `b'`, and both are what
decoding from the start of the body yields. -/
structure DecodesAs (cfg : CompilerConfig) (ast : AstNode) (st : CompilerState) (bc : Bytes)
    (b b' : Blk) : Prop where
  buf : st.buf = b.encode 0 ++ [OpCode.accept.code]
  pat : b.map (Leaf.resolve st.classes) LoopSpec.bounds = ast.pat cfg
  fused : Blk.Fused b b'
  body : ∃ tail, bc = b'.encode 0 ++ ([OpCode.accept.code] ++ tail)
  emitted : Decodes st.buf 0 b.program st.buf.length
  compiled : Decodes bc 0 b'.program st.buf.length
  branches : ∀ c instr, (c, instr) ∈ b'.program → ∀ t ∈ instr.branches, t ∈ b'.program.map Prod.fst

/-- The body of the compiled pattern decodes to the instructions that were emitted. -/
def DecodesAsEmitted (cfg : CompilerConfig) (ast : AstNode) (st : CompilerState) (bc : Bytes) :
    Prop :=
  ∃ b b' : Blk, DecodesAs cfg ast st bc b b'

/-- A program that stands at the start of the bytecode decodes to its listing. -/
theorem Blk.Code.decodes_program {bc : Bytes} {b : Blk} (h : Blk.Code bc b 0)
    (haccept : fetch bc b.size = some (.accept, b.size + 1)) :
    Decodes bc 0 b.program (b.size + 1) := by
  have hcode := h.decodes
  rw [Nat.zero_add] at hcode
  exact hcode.append (.cons haccept (.nil _))

/-- Where the sizes stay within the widths of their fields, the body decodes as emitted. -/
theorem WellEncoded.decodesAsEmitted {cfg : CompilerConfig} {ast : AstNode} {st : CompilerState}
    {bc : Bytes} (h : WellEncoded cfg ast st) (hcompile : compileAstToBytecodeC cfg ast = some bc) :
    DecodesAsEmitted cfg ast st bc := by
  obtain ⟨b, b', hb⟩ := h.compiledAs hcompile
  have hlen : st.buf.length = b.size + 1 := by
    rw [hb.buf, List.length_append, Blk.length_encode]
    rfl
  obtain ⟨classes, hbody⟩ := hb.body
  refine ⟨b, b', hb.buf, hb.pat, hb.fused, ⟨_, hbody⟩, ?_, ?_, ?_⟩
  · -- the code before the pass stands in the buffer as it was emitted
    have hcode : Blk.Code st.buf b 0 := by
      refine ⟨?_, ?_, hb.fits⟩
      · rw [List.drop_zero, hb.buf]
        exact List.prefix_append _ _
      · rw [Nat.zero_add]
        exact hb.short
    have hdrop : (b.encode 0 ++ [OpCode.accept.code]).drop (b.encode 0).length =
        [OpCode.accept.code] := List.drop_left
    rw [Blk.length_encode, ← hb.buf] at hdrop
    have haccept : fetch st.buf b.size = some (.accept, b.size + 1) := by
      rw [(fetch_of_drop hdrop).1]
      simp [operands]
    rw [hlen]
    exact hcode.decodes_program haccept
  · rw [hlen, ← hb.fused.size]
    exact hb.code.decodes_program hb.fetch_accept
  · intro c instr hmem t ht
    exact Blk.branch_mem_program hmem ht

/-- A body that decodes as emitted has table names that fit their length bytes. -/
theorem DecodesAsEmitted.names {cfg : CompilerConfig} {ast : AstNode} {st : CompilerState}
    {bc : Bytes} (h : DecodesAsEmitted cfg ast st bc) : (ast.pat cfg).All Leaf.NameFits := by
  obtain ⟨b, b', hb⟩ := h
  have hbytes : b.encode 0 <+: st.buf.drop 0 := by
    rw [List.drop_zero, hb.buf]
    exact List.prefix_append _ _
  have hdecodes := hb.emitted
  rw [Blk.program, ← Nat.zero_add b.size] at hdecodes
  obtain ⟨hnames, -⟩ := Blk.names_of_decodes hbytes hdecodes
  rw [← hb.pat, Pat.all_map]
  exact hnames.mono fun l hl => (Leaf.nameFits_resolve st.classes l).mpr hl

/-- The body of a compiled pattern decodes exactly to the instructions that were emitted, and
every branch leads to one of them, where its table names, its classes and its size are within
the widths of their fields and the fusion pass rewrites emitted `OP_SPLIT`s only; with a longer
table name it never does. -/
theorem decodesAsEmitted_of_wellEncoded (cfg : CompilerConfig) (ast : AstNode) (st : CompilerState)
    (bc : Bytes) (hcompile : compileAstToBytecodeC cfg ast = some bc) :
    (WellEncoded cfg ast st → DecodesAsEmitted cfg ast st bc) ∧
      (DecodesAsEmitted cfg ast st bc → (ast.pat cfg).All Leaf.NameFits) := by
  constructor
  · intro h
    exact h.decodesAsEmitted hcompile
  · intro h
    exact h.names

/-- A table lookup beside a class: `T['k'] | ANY('a')`. -/
def lookupOrAny : AstNode := .alt (.tableAccess [0x74] (.literal [0x6B])) (.any [0x61])

/-- What the emitters make of it. -/
def lookupOrAnyState : CompilerState where
  buf :=
    [3, 0, 0, 0, 9, 0, 0, 0, 35, 9, 0, 4, 0, 0, 0, 20, 0, 0, 0, 1, 107, 10, 0, 25, 255, 255, 0, 0,
      1, 116, 2, 0, 0, 0, 38, 5, 0, 1, 0]
  classes := [⟨[⟨97, 97⟩], false⟩]
  nextLoopId := 0
  labels := []
  splits := [0]

theorem wellEncoded_lookupOrAny :
    WellEncoded .caseSensitive lookupOrAny lookupOrAnyState := by
  constructor
  · decide +kernel
  · decide
  · decide
  · exact ⟨⟨⟨trivial, trivial, trivial⟩, show 1 < 2 ^ 8 by decide⟩, trivial⟩
  · decide +kernel

theorem decodesAsEmitted_of_wellEncoded_lookupOrAny :
    ∃ bc, compileAstToBytecodeC .caseSensitive lookupOrAny = some bc ∧
      DecodesAsEmitted .caseSensitive lookupOrAny lookupOrAnyState bc := by
  have hsome : (compileAstToBytecodeC .caseSensitive lookupOrAny).isSome = true := by
    decide +kernel
  obtain ⟨bc, hcompile⟩ := Option.isSome_iff_exists.mp hsome
  exact ⟨bc, hcompile, (decodesAsEmitted_of_wellEncoded .caseSensitive lookupOrAny lookupOrAnyState
    bc hcompile).1 wellEncoded_lookupOrAny⟩

/-- A table name of 256 letters. -/
def longName : Bytes := List.replicate 256 0x61

/-- A lookup in a table whose name has 256 letters is compiled, and does not decode as it was
emitted: its length byte is 0. -/
theorem longName_desynchronises :
    ∃ st bc, emitProgram .caseSensitive (.tableAccess longName (.literal [0x6B])) = some st ∧
      compileAstToBytecodeC .caseSensitive (.tableAccess longName (.literal [0x6B])) = some bc ∧
      ¬DecodesAsEmitted .caseSensitive (.tableAccess longName (.literal [0x6B])) st bc := by
  have hemit : (emitProgram .caseSensitive (.tableAccess longName (.literal [0x6B]))).isSome =
      true := by decide +kernel
  have hcompile : (compileAstToBytecodeC .caseSensitive
      (.tableAccess longName (.literal [0x6B]))).isSome = true := by decide +kernel
  obtain ⟨st, hst⟩ := Option.isSome_iff_exists.mp hemit
  obtain ⟨bc, hbc⟩ := Option.isSome_iff_exists.mp hcompile
  refine ⟨st, bc, hst, hbc, ?_⟩
  intro h
  have hname : longName.length < 2 ^ 8 := h.names.2
  rw [longName, List.length_replicate] at hname
  omega

end Snobol4
