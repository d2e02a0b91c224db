import Snobol4.AltTrie
import Snobol4.ExecutedTier
import Snobol4.Meaning

/-!
# AltTier — the search for an alternation of literals (`search_tiers.c`)

`search_alt_literals_try` builds the trie from the `OP_SPLIT`/`OP_LIT` tree of the code, with
an explicit work stack, and scans the subject with it.  On code that `check_alt_literals`
accepts the scan reports what the reference search reports, unless the tree is nested deeper
than the stack in its first arms; then no match is reported at all.
-/

namespace Snobol4

variable {W : Type}

/-! ## Building the trie -/

/-- How the loop that builds the trie gives up. -/
inductive TrieFault where
  /-- Code that is no tree of literals, or a full work stack. -/
  | structural
  | poolOverflow
  deriving Repr, DecidableEq

/-- The loop of `snobol_build_alt_trie` over its work stack, within the given number of
turns. -/
def buildWalk (bc : Bytes) : Nat → List Nat → Nat → AutoTrie → Except TrieFault AutoTrie
  | 0, _, _, _ => .error .structural
  | _ + 1, [], _, t => .ok t
  | turns + 1, ip :: stack, order, t =>
      if bc.length < ip + 2 then .error .structural
      else
        match bc[ip]?.bind OpCode.ofByte with
        | some .lit =>
            let off := (readU32 bc (ip + 1)).1
            let len := (readU32 bc (ip + 5)).1
            if bc.length < ip + 10 ∨ bc.length ≤ off ∨ bc.length < (off + len) % 2 ^ 32 then
              .error .structural
            else
              match t.trieInsert (litText bc ip) order with
              | none => .error .poolOverflow
              | some t => buildWalk bc turns stack ((order + 1) % 2 ^ 16) t
        | some .split =>
            let a := (readU32 bc (ip + 1)).1
            let b := (readU32 bc (ip + 5)).1
            if bc.length < ip + 9 ∨ bc.length ≤ a ∨ bc.length ≤ b ∨ 64 < stack.length + 2 then
              .error .structural
            else buildWalk bc turns (a :: b :: stack) order t
        | _ => .error .structural

/-- `snobol_build_alt_trie` -/
def snobolBuildAltTrie (turns : Nat) (bc : Bytes) : Except TrieFault AutoTrie :=
  if bc.length < 2 then .error .structural else buildWalk bc turns [0] 0 .empty

/-! ## The scan -/

/-- The loop of `search_alt_literals_try`.  The bitmap is asked for the byte `behind` the
subject too. -/
def altScan (t : AutoTrie) (info : SearchMeta) (s : Bytes) (behind : UInt8) (start : Nat)
    (anchored : Bool) : Nat → Nat → Option (Nat × Nat)
  | 0, _ => none
  | fuel + 1, offset =>
      if s.length < offset + info.minlength ∨ (anchored = true ∧ offset ≠ start) then none
      else if info.startBitmap.any fun bitmap => !bitmap (s.getD offset behind) then
        altScan t info s behind start anchored fuel (offset + 1)
      else
        match t.trieMatch s offset with
        | some len => some (offset, offset + len)
        | none => altScan t info s behind start anchored fuel (info.advance s offset)

/-- `search_alt_literals_try`, with the trie that is cached and with what
`tier_general_fallback` reports. -/
def searchAltLiteralsTry (turns : Nat) (bc : Bytes) (cached : Option AutoTrie)
    (fallback : Option (Nat × Nat)) (info : SearchMeta) (s : Bytes) (behind : UInt8) (start : Nat)
    (anchored : Bool) : Option (Nat × Nat) :=
  match cached.elim (buildWalk bc turns [0] 0 .empty) .ok with
  | .error .structural => none
  | .error .poolOverflow => fallback
  | .ok t => altScan t info s behind start anchored (s.length + 1 - start) start

/-! ## The tree of literals -/

/-- The code at an address is a tree of the literals, nested to the given depth in its first
arms. -/
inductive AltTree (bc : Bytes) (limit : Nat) : Nat → Nat → List Bytes → Prop where
  | lit {ip stop : Nat} (hop : bc[ip]?.bind OpCode.ofByte = some .lit)
      (hoff : (readU32 bc (ip + 1)).1 = ip + 9)
      (hroom : ip + 9 + (readU32 bc (ip + 5)).1 < bc.length)
      (hjumps : followJumps bc limit limit (ip + 9 + (readU32 bc (ip + 5)).1) = some stop)
      (haccept : bc[stop]? = some OpCode.accept.code) : AltTree bc limit ip 0 [litText bc ip]
  | split {ip depth depth' : Nat} {lits lits' : List Bytes}
      (hop : bc[ip]?.bind OpCode.ofByte = some .split) (hroom : ip + 9 ≤ bc.length)
      (ha : (readU32 bc (ip + 1)).1 < bc.length) (hb : (readU32 bc (ip + 5)).1 < bc.length)
      (hleft : AltTree bc limit (readU32 bc (ip + 1)).1 depth lits)
      (hright : AltTree bc limit (readU32 bc (ip + 5)).1 depth' lits') :
      AltTree bc limit ip (max (depth + 1) depth') (lits ++ lits')

/-- How deep the code at an address is nested in its first arms, within the given number of
levels. -/
def altDepth (bc : Bytes) : Nat → Nat → Nat
  | 0, _ => 0
  | levels + 1, ip =>
      if bc[ip]?.bind OpCode.ofByte = some .split then
        max (altDepth bc levels (readU32 bc (ip + 1)).1 + 1)
          (altDepth bc levels (readU32 bc (ip + 5)).1)
      else 0

/-- The literals of the code at an address, in the order of the branches. -/
def altLits (bc : Bytes) : Nat → Nat → List Bytes
  | 0, _ => []
  | levels + 1, ip =>
      if bc[ip]?.bind OpCode.ofByte = some .split then
        altLits bc levels (readU32 bc (ip + 1)).1 ++ altLits bc levels (readU32 bc (ip + 5)).1
      else [litText bc ip]

theorem AltTree.lits_pos {bc : Bytes} {limit ip depth : Nat} {lits : List Bytes}
    (h : AltTree bc limit ip depth lits) : 0 < lits.length := by
  induction h with
  | lit => exact Nat.one_pos
  | split _ _ _ _ _ _ ihleft ihright =>
    rw [List.length_append]
    exact Nat.add_pos_left ihleft _

theorem fetch_lit_next {bc : Bytes} {ip : Nat} (h : bc[ip]?.bind OpCode.ofByte = some .lit)
    (hroom : ip + 9 ≤ bc.length) :
    fetch bc ip = some (.prim (.lit (readU32 bc (ip + 1)).1 (readU32 bc (ip + 5)).1),
      if (readU32 bc (ip + 1)).1 = ip + 9 then ip + 9 + (readU32 bc (ip + 5)).1 else ip + 9) := by
  obtain ⟨b, hb, hfetch⟩ := fetch_of_op h
  have hoff : (readU32 bc (ip + 1)).2 = ip + 5 := readU32_next (by omega)
  have hlen : (readU32 bc (ip + 5)).2 = ip + 9 := readU32_next (by omega)
  simp only [hfetch, operands, hb, hoff, hlen]

theorem fetch_split_next {bc : Bytes} {ip : Nat} (h : bc[ip]?.bind OpCode.ofByte = some .split)
    (hroom : ip + 9 ≤ bc.length) :
    fetch bc ip = some (.split (readU32 bc (ip + 1)).1 (readU32 bc (ip + 5)).1, ip + 9) := by
  obtain ⟨b, hb, hfetch⟩ := fetch_of_op h
  have hoff : (readU32 bc (ip + 1)).2 = ip + 5 := readU32_next (by omega)
  have hlen : (readU32 bc (ip + 5)).2 = ip + 9 := readU32_next (by omega)
  simp only [hfetch, operands, hb, hoff, hlen]

/-- A literal that the compiler emitted stands inline. -/
theorem HeadAt.lit_inline {bc : Bytes} {κ : List BlkItem} {ip : Nat} {off len next : Nat}
    (h : HeadAt bc κ ip) (hfetch : fetch bc ip = some (.prim (.lit off len), next)) :
    off = ip + 9 := by
  cases h with
  | accept h | jmp h =>
    rw [hfetch] at h
    cases h
  | @leaf l _ _ hcode hκ =>
    have hinstr := hcode.leaf
    rw [hfetch] at hinstr
    have hinstr := (Prod.mk.inj (Option.some.inj hinstr)).1
    cases l with
    | lit text =>
      simp only [Leaf.instr, Instr.prim.injEq, Prim.lit.injEq] at hinstr
      exact hinstr.1
    | _ => simp [Leaf.instr] at hinstr
  | alt hcode hκ =>
    have hinstr := hcode.alt.1
    rw [hfetch] at hinstr
    cases hinstr
  | loop hcode hκ =>
    have hinstr := hcode.loop.1
    rw [hfetch] at hinstr
    cases hinstr
  | iter hcode hκ =>
    have hinstr := hcode.loop.2.2
    rw [hfetch] at hinstr
    cases hinstr

/-- The arms of a split that the compiler emitted stand for items too. -/
theorem HeadAt.split_arms {bc : Bytes} {κ : List BlkItem} {ip : Nat} {a b next : Nat}
    (h : HeadAt bc κ ip) (hfetch : fetch bc ip = some (.split a b, next)) :
    (∃ κ', ItemsAt bc κ' a) ∧ ∃ κ', ItemsAt bc κ' b := by
  cases h with
  | accept h | jmp h =>
    rw [hfetch] at h
    cases h
  | @leaf l _ _ hcode hκ =>
    have hinstr := hcode.leaf
    rw [hfetch] at hinstr
    have hinstr := (Prod.mk.inj (Option.some.inj hinstr)).1
    cases l <;> simp [Leaf.instr] at hinstr
  | alt hcode hκ =>
    obtain ⟨hinstr, hp, hjmp, hq⟩ := hcode.alt
    rw [hfetch] at hinstr
    cases hinstr
    exact ⟨⟨_, .pat hp (.jmp hjmp hκ)⟩, _, .pat hq hκ⟩
  | loop hcode hκ =>
    have hinstr := hcode.loop.1
    rw [hfetch] at hinstr
    cases hinstr
  | iter hcode hκ =>
    have hinstr := hcode.loop.2.2
    rw [hfetch] at hinstr
    cases hinstr

/-- Jumps that end inside the code start inside. -/
theorem followJumps_lt {bc : Bytes} {limit guard cur stop : Nat}
    (h : followJumps bc limit guard cur = some stop) (hstop : stop < bc.length) :
    cur < bc.length := by
  cases guard with
  | zero =>
    rw [followJumps] at h
    split at h
    · cases h
    · exact Option.some.inj h ▸ hstop
  | succ guard =>
    rw [followJumps] at h
    split at h
    · rename_i hjmp
      exact (List.getElem?_eq_some_iff.mp hjmp.2).1
    · exact Option.some.inj h ▸ hstop

/-- `check_alt_literals` accepts trees of literals within the budget. -/
theorem altTree_of_check {bc : Bytes} {limit levels ip n m : Nat} {κ : List BlkItem}
    (hitems : ItemsAt bc κ ip) (hlimit : limit ≤ bc.length)
    (h : checkAltLiterals bc limit levels ip n = some m) :
    AltTree bc limit ip (altDepth bc levels ip) (altLits bc levels ip) ∧
      m = n + ((altLits bc levels ip).map List.length).sum ∧ m ≤ autoMaxLitBytes := by
  induction levels generalizing ip n m κ with
  | zero => cases h
  | succ levels ih =>
    obtain ⟨κ', -, hhead⟩ := hitems.head
    rw [checkAltLiterals] at h
    split at h
    · cases h
    cases hop : bc[ip]?.bind OpCode.ofByte with
    | none =>
      rw [hop] at h
      cases h
    | some op =>
      rw [hop] at h
      rw [altDepth, altLits, hop]
      cases op with
      | lit =>
        dsimp only at h
        split at h
        · cases h
        rename_i hbounds
        cases hjumps : followJumps bc limit limit (ip + 9 + (readU32 bc (ip + 5)).1) with
        | none =>
          rw [hjumps] at h
          cases h
        | some stop =>
          rw [hjumps] at h
          dsimp only at h
          split at h
          · rename_i haccept
            obtain rfl := Option.some.inj h
            have hoff := hhead.lit_inline (fetch_lit_next hop (by omega))
            have hlt := (List.getElem?_eq_some_iff.mp haccept.2).1
            have hroom := followJumps_lt hjumps hlt
            have htext : (litText bc ip).length = (readU32 bc (ip + 5)).1 := by
              rw [litText, hoff, List.length_take, List.length_drop]
              omega
            rw [if_neg (by simp), if_neg (by simp)]
            refine ⟨?_, by simp [htext], by omega⟩
            exact .lit hop hoff hroom hjumps haccept.2
          · cases h
      | split =>
        dsimp only at h
        split at h
        · cases h
        rename_i hbounds
        obtain ⟨mid, hmid, hm⟩ := Option.bind_eq_some_iff.mp h
        obtain ⟨⟨κa, ha⟩, κb, hb⟩ := hhead.split_arms (fetch_split_next hop (by omega))
        obtain ⟨hleft, hsum, -⟩ := ih ha hmid
        obtain ⟨hright, hsum', hbudget⟩ := ih hb hm
        rw [if_pos rfl, if_pos rfl]
        refine ⟨.split hop (by omega) (by omega) (by omega) hleft hright, ?_, hbudget⟩
        rw [List.map_append, List.sum_append]
        omega
      | _ => cases h

/-- The tree at an address has no more literals than there are bytes up to `stop`, and up to the
limit of the walk. -/
def FewLits (bc : Bytes) (limit stop ip : Nat) : Prop :=
  ∀ levels n m, checkAltLiterals bc limit levels ip n = some m →
    (altLits bc levels ip).length + ip ≤ min stop limit

/-- The opcode of a fetched instruction that is no split. -/
theorem ofByte_ne_split {bc : Bytes} {ip next : Nat} {instr : Instr}
    (h : fetch bc ip = some (instr, next)) (hsplit : ∀ a b, instr ≠ .split a b) :
    bc[ip]?.bind OpCode.ofByte ≠ some .split := by
  intro hop
  obtain ⟨b, hb, hfetch⟩ := fetch_of_op hop
  rw [h, Option.some.injEq] at hfetch
  have hinstr := congrArg Prod.fst hfetch
  simp only [operands, hb] at hinstr
  exact hsplit _ _ hinstr

/-- The walk does not pass `OP_JMP` and `OP_ACCEPT`. -/
theorem FewLits.of_fetch {bc : Bytes} {limit stop ip next : Nat} {instr : Instr}
    (h : fetch bc ip = some (instr, next)) (hlit : ∀ off len, instr ≠ .prim (.lit off len))
    (hsplit : ∀ a b, instr ≠ .split a b) : FewLits bc limit stop ip := by
  intro levels n m hcheck
  cases levels with
  | zero => cases hcheck
  | succ levels =>
    rw [checkAltLiterals] at hcheck
    split at hcheck
    · cases hcheck
    cases hop : bc[ip]?.bind OpCode.ofByte with
    | none =>
      rw [hop] at hcheck
      cases hcheck
    | some op =>
      rw [hop] at hcheck
      cases op with
      | lit =>
        obtain ⟨b, hb, hfetch⟩ := fetch_of_op hop
        rw [h, Option.some.injEq] at hfetch
        have hinstr := congrArg Prod.fst hfetch
        simp only [operands, hb] at hinstr
        exact absurd hinstr (hlit _ _)
      | split => exact absurd hop (ofByte_ne_split h hsplit)
      | _ => cases hcheck

/-- An instruction that is no split counts for one literal. -/
theorem FewLits.of_not_split {bc : Bytes} {limit stop ip : Nat}
    (hop : bc[ip]?.bind OpCode.ofByte ≠ some .split) (hstop : ip < stop) :
    FewLits bc limit stop ip := by
  intro levels n m hcheck
  cases levels with
  | zero => cases hcheck
  | succ levels =>
    rw [checkAltLiterals] at hcheck
    split at hcheck
    · cases hcheck
    rw [altLits, if_neg hop, List.length_singleton]
    omega

/-- Compiled code takes a literal at most for each of its bytes: the arms of a split lie one
behind the other. -/
theorem Blk.Code.fewLits {bc : Bytes} {limit : Nat} (p : Blk) :
    ∀ {ip stop : Nat}, Blk.Code bc p ip → ip + p.size ≤ stop →
      FewLits bc limit stop (ip + p.size) → FewLits bc limit stop ip := by
  induction p with
  | skip => exact fun _ _ hrest => hrest
  | leaf l =>
    intro ip stop h hstop _
    have hpos := l.size_pos
    rw [Blk.size] at hstop
    exact .of_not_split (ofByte_ne_split h.leaf (by cases l <;> simp [Leaf.instr])) (by omega)
  | seq p q ihp ihq =>
    intro ip stop h hstop hrest
    obtain ⟨hp, hq⟩ := h.seq
    rw [Blk.size] at hstop hrest
    rw [← Nat.add_assoc] at hrest
    exact ihp hp (by omega) (ihq hq (by omega) hrest)
  | alt p q ihp ihq =>
    intro ip stop h hstop hrest levels n m hcheck
    obtain ⟨hsplit, hp, hjmp, hq⟩ := h.alt
    rw [Blk.size] at hstop hrest
    have hleft : FewLits bc limit (ip + 9 + Blk.size p) (ip + 9) :=
      ihp hp (Nat.le_refl _) (.of_fetch hjmp (by simp) (by simp))
    have hright : FewLits bc limit stop (ip + 14 + Blk.size p) := by
      refine ihq hq (by omega) ?_
      rwa [show ip + 14 + Blk.size p + Blk.size q = ip + (14 + Blk.size p + Blk.size q) by omega]
    cases levels with
    | zero => cases hcheck
    | succ levels =>
      by_cases hop : bc[ip]?.bind OpCode.ofByte = some .split
      · obtain ⟨b, hget, -⟩ := Option.map_eq_some_iff.mp hjmp
        have hlt := (List.getElem?_eq_some_iff.mp hget).1
        have hfetch := hsplit.symm.trans (fetch_split_next hop (by omega))
        simp only [Option.some.injEq, Prod.mk.injEq, Instr.split.injEq, and_true] at hfetch
        obtain ⟨ha, hb⟩ := hfetch
        rw [checkAltLiterals, hop] at hcheck
        dsimp only at hcheck
        rw [← ha, ← hb] at hcheck
        split at hcheck
        · cases hcheck
        split at hcheck
        · cases hcheck
        obtain ⟨mid, hmid, hm⟩ := Option.bind_eq_some_iff.mp hcheck
        have hfirst := hleft levels n mid hmid
        have hsecond := hright levels mid m hm
        rw [altLits, if_pos hop, ← ha, ← hb, List.length_append]
        omega
      · exact FewLits.of_not_split hop (by omega) (levels + 1) n m hcheck
  | loop k body ih =>
    intro ip stop h hstop _
    rw [Blk.size] at hstop
    exact .of_not_split (ofByte_ne_split h.loop.1 (by simp)) (by omega)

/-! ## The trie of the tree -/

theorem insertAll_append {lits lits' : List Bytes} {order : Nat} (t : AutoTrie)
    (horder : order < 2 ^ 16) :
    AutoTrie.insertAll (lits ++ lits') order t =
      (AutoTrie.insertAll lits order t).bind
        (AutoTrie.insertAll lits' ((order + lits.length) % 2 ^ 16)) := by
  induction lits generalizing order t with
  | nil =>
    rw [List.length_nil, Nat.add_zero, Nat.mod_eq_of_lt horder]
    rfl
  | cons lit lits ih =>
    have hnext : ((order + 1) % 2 ^ 16 + lits.length) % 2 ^ 16 =
        (order + (lit :: lits).length) % 2 ^ 16 := by
      rw [List.length_cons]
      omega
    rw [List.cons_append, AutoTrie.insertAll, AutoTrie.insertAll]
    cases t.trieInsert lit order with
    | none => rfl
    | some t' =>
      have hrest := ih t' (Nat.mod_lt (order + 1) (by decide))
      rw [hnext] at hrest
      exact hrest

/-- The literals of a tree are inserted one after the other, as long as the work stack has
room. -/
theorem buildWalk_eq {bc : Bytes} {limit ip depth : Nat} {lits : List Bytes}
    (h : AltTree bc limit ip depth lits) (turns : Nat) {order : Nat} (stack : List Nat)
    {t : AutoTrie} (horder : order < 2 ^ 16) (hstack : stack.length < 64)
    (hcount : t.edges.length + 1 = t.nodes.length)
    (hroom : t.nodes.length + (lits.map List.length).sum ≤ autoMaxNodes) :
    ∃ t', AutoTrie.insertAll lits order t = some t' ∧ t'.edges.length + 1 = t'.nodes.length ∧
      t'.nodes.length ≤ t.nodes.length + (lits.map List.length).sum ∧
      buildWalk bc (turns + (2 * lits.length - 1)) (ip :: stack) order t =
        if stack.length + depth < 64 then
          buildWalk bc turns stack ((order + lits.length) % 2 ^ 16) t'
        else .error .structural := by
  induction h generalizing turns order stack t with
  | @lit ip stop hop hoff hbytes hjumps haccept =>
    rw [List.map_singleton, List.sum_singleton] at hroom ⊢
    obtain ⟨t', hins, hcount', hlen⟩ := AutoTrie.insertFrom_room order 0 hcount hroom
    have hins : t.trieInsert (litText bc ip) order = some t' := hins
    have hall : AutoTrie.insertAll [litText bc ip] order t = some t' := by
      rw [AutoTrie.insertAll, hins]
      rfl
    have hmod := Nat.mod_le (ip + 9 + (readU32 bc (ip + 5)).1) (2 ^ 32)
    refine ⟨t', hall, hcount', hlen, ?_⟩
    rw [if_pos (by omega), List.length_singleton, show 2 * 1 - 1 = 1 from rfl, buildWalk,
      if_neg (by omega), hop]
    dsimp only
    rw [if_neg (by omega), hins]
  | @split ip depth depth' lits lits' hop hbytes ha hb hleft hright ihleft ihright =>
    have hpos := hleft.lits_pos
    have hpos' := hright.lits_pos
    rw [List.map_append, List.sum_append] at hroom ⊢
    have hturns : turns + (2 * (lits ++ lits').length - 1) =
        turns + (2 * lits'.length - 1) + (2 * lits.length - 1) + 1 := by
      rw [List.length_append]
      omega
    obtain ⟨t₁, hins₁, hcount₁, hlen₁, hwalk₁⟩ :=
      ihleft (turns + (2 * lits'.length - 1)) [] horder (by decide) hcount (by omega)
    obtain ⟨t₂, hins₂, hcount₂, hlen₂, hwalk₂⟩ :=
      ihright turns stack (Nat.mod_lt (order + lits.length) (show 0 < 2 ^ 16 by decide)) hstack
        hcount₁ (by omega)
    refine ⟨t₂, ?_, hcount₂, by omega, ?_⟩
    · rw [insertAll_append t horder, hins₁, Option.bind_some, hins₂]
    rw [hturns, buildWalk, if_neg (by omega), hop]
    dsimp only
    by_cases hfull : 64 < stack.length + 2
    · rw [if_pos (by omega), if_neg (by omega)]
    · rw [if_neg (by omega)]
      obtain ⟨t₁', hins₁', -, -, hwalk₁'⟩ :=
        ihleft (turns + (2 * lits'.length - 1)) ((readU32 bc (ip + 5)).1 :: stack) horder
          (by rw [List.length_cons]; omega) hcount (by omega)
      obtain rfl : t₁ = t₁' := Option.some.inj (hins₁.symm.trans hins₁')
      rw [hwalk₁', List.length_cons, hwalk₂]
      have hnext : ((order + lits.length) % 2 ^ 16 + lits'.length) % 2 ^ 16 =
          (order + (lits ++ lits').length) % 2 ^ 16 := by
        rw [List.length_append]
        omega
      rw [hnext]
      by_cases hdeep : stack.length + 1 + depth < 64
      · rw [if_pos hdeep]
        by_cases hdeep' : stack.length + depth' < 64
        · rw [if_pos hdeep', if_pos (by omega)]
        · rw [if_neg hdeep', if_neg (by omega)]
      · rw [if_neg hdeep, if_neg (by omega)]

/-! ## Runs over the tree -/

/-- The first of the literals that stands at a position of the subject. -/
def firstLit (lits : List Bytes) (s : Bytes) (offset : Nat) : Option Bytes :=
  lits.find? (·.isPrefixOf (s.drop offset))

section

variable {env : VmEnv W} {limit : Nat}

/-- The VM follows the jumps behind a literal and accepts. -/
theorem ends_followJumps {guard cur stop : Nat} {vm : Vm W}
    (h : followJumps env.bc limit guard cur = some stop) (hip : vm.ip = cur)
    (haccept : env.bc[stop]? = some OpCode.accept.code) : Ends env vm (.found vm.pos) := by
  have hstop : ∀ vm : Vm W, vm.ip = stop → Ends env vm (.found vm.pos) := by
    intro vm hip
    refine ⟨1, { vm with ip := stop + 1 }, ?_, rfl⟩
    have hfetch : fetch env.bc vm.ip = some (.accept, stop + 1) := by
      rw [hip, fetch, haccept, Option.map_some]
      simp [operands]
    rw [vmSteps, vmStep, hfetch]
  induction guard generalizing cur vm with
  | zero =>
    rw [followJumps] at h
    split at h
    · cases h
    · exact hstop vm (hip.trans (Option.some.inj h))
  | succ guard ih =>
    rw [followJumps] at h
    split at h
    · rename_i hjmp
      have hfetch : fetch env.bc vm.ip =
          some (.jmp (readU32 env.bc (cur + 1)).1, (readU32 env.bc (cur + 1)).2) := by
        rw [hip, fetch, hjmp.2, Option.map_some]
        simp [operands]
      have hstep : vmStep env vm = .running { vm with ip := (readU32 env.bc (cur + 1)).1 } := by
        rw [vmStep, hfetch]
      exact Ends.step hstep (ih h rfl)
    · exact hstop vm (hip.trans (Option.some.inj h))

/-- The run from a tree of literals ends at the first one that stands at the cursor; if there
is none, it goes back to the choices saved before. -/
theorem AltTree.ends {ip depth : Nat} {lits : List Bytes} (h : AltTree env.bc limit ip depth lits)
    {vm : Vm W} (hip : vm.ip = ip) {attempt : Attempt}
    (hfound : ∀ lit, firstLit lits env.s vm.pos = some lit → attempt = .found (vm.pos + lit.length))
    (hmissed : firstLit lits env.s vm.pos = none → ∀ vm₀ vm' : Vm W, vm'.choices = vm.choices →
      vm'.abortFlag = vm.abortFlag → vmStep env vm₀ = vm'.backtrack → Ends env vm₀ attempt) :
    Ends env vm attempt := by
  induction h generalizing vm with
  | @lit ip stop hop hoff hroom hjumps haccept =>
    have hlen : (litText env.bc ip).length = (readU32 env.bc (ip + 5)).1 := by
      rw [litText, hoff, List.length_take, List.length_drop]
      omega
    have hfetch := fetch_lit_next hop (by omega)
    rw [hoff, if_pos rfl] at hfetch
    have hexec : vmStep env vm = { vm with ip := ip + 9 + (readU32 env.bc (ip + 5)).1 }.apply env
        (moveTo vm.regs vm.globals
          (matchLit env.s (litText env.bc ip) (litText env.bc ip).length vm.pos)) := by
      rw [vmStep, hip, hfetch, hlen, litText, hoff]
      rfl
    by_cases hat : litText env.bc ip <+: env.s.drop vm.pos
    · have hfirst : firstLit [litText env.bc ip] env.s vm.pos = some (litText env.bc ip) :=
        List.find?_cons_of_pos (List.isPrefixOf_iff_prefix.mpr hat)
      have hle := hat.length_le
      rw [List.length_drop] at hle
      rw [matchLit, if_pos ⟨hle, (List.prefix_iff_eq_take.mp hat).symm⟩] at hexec
      rw [hfound _ hfirst]
      exact Ends.step hexec (ends_followJumps hjumps rfl haccept)
    · have hfirst : firstLit [litText env.bc ip] env.s vm.pos = none :=
        List.find?_cons_of_neg fun hpre => hat (List.isPrefixOf_iff_prefix.mp hpre)
      rw [matchLit, if_neg] at hexec
      · exact hmissed hfirst vm { vm with ip := ip + 9 + (readU32 env.bc (ip + 5)).1 } rfl rfl hexec
      · rintro ⟨-, htake⟩
        exact hat (htake ▸ List.take_prefix _ _)
  | @split ip depth depth' lits lits' hop hroom ha hb hleft hright ihleft ihright =>
    have hfetch := fetch_split_next hop hroom
    have hstep : vmStep env vm = .running
        { ({ vm with ip := ip + 9 }.pushChoice env (readU32 env.bc (ip + 5)).1 vm.pos) with
          ip := (readU32 env.bc (ip + 1)).1 } := by
      rw [vmStep, hip, hfetch]
    have hfirst : firstLit (lits ++ lits') env.s vm.pos =
        (firstLit lits env.s vm.pos).or (firstLit lits' env.s vm.pos) := List.find?_append
    refine Ends.step hstep (ihleft rfl ?_ ?_)
    · intro lit hlit
      refine hfound lit ?_
      have hlit : firstLit lits env.s vm.pos = some lit := hlit
      rw [hfirst, hlit, Option.some_or]
    · intro hnone vm₀ vm' hchoices habort hback
      have hnone : firstLit lits env.s vm.pos = none := hnone
      rw [hnone, Option.none_or] at hfirst
      -- the second arm starts from the choice that was saved
      rw [Vm.backtrack, hchoices] at hback
      refine Ends.step hback (ihright rfl ?_ ?_)
      · intro lit hlit
        exact hfound lit (hfirst.trans hlit)
      · intro hnone' vm₁ vm'' hchoices' habort' hback'
        exact hmissed (hfirst.trans hnone') vm₁ vm'' hchoices' (habort'.trans habort) hback'

end

/-- The attempts on a tree of literals. -/
def altAttempt (lits : List Bytes) (s : Bytes) (offset : Nat) : Attempt :=
  match firstLit lits s offset with
  | some lit => .found (offset + lit.length)
  | none => .failed

theorem AltTree.vmAttempts {env : VmEnv W} {limit depth : Nat} {lits : List Bytes}
    (h : AltTree env.bc limit 0 depth lits) : VmAttempts env (altAttempt lits env.s) := by
  have hends : ∀ offset (vm : Vm W),
      Ends (env.window offset) (vmRunStart (vmExecStart (searchResetVm vm)))
        (altAttempt lits (env.s.drop offset) 0) := by
    intro offset vm
    have htree : AltTree (env.window offset).bc limit 0 depth lits := h
    refine htree.ends rfl ?_ ?_
    · intro lit hlit
      have hlit : firstLit lits (env.s.drop offset) 0 = some lit := hlit
      rw [altAttempt, hlit]
      rfl
    · intro hnone vm₀ vm' hchoices habort hback
      have hnone : firstLit lits (env.s.drop offset) 0 = none := hnone
      rw [altAttempt, hnone]
      refine ⟨1, vm', ?_, habort⟩
      rw [vmSteps, hback, Vm.backtrack, hchoices]
      rfl
  have hshift : (fun offset => (altAttempt lits (env.s.drop offset) 0).shift offset) =
      altAttempt lits env.s := by
    funext offset
    rw [altAttempt, altAttempt, firstLit, firstLit, List.drop_zero]
    cases lits.find? (·.isPrefixOf (env.s.drop offset)) with
    | none => rfl
    | some lit =>
      show Attempt.found (offset + (0 + lit.length)) = _
      rw [Nat.zero_add]
  rw [← hshift]
  exact VmAttempts.of_ends hends

/-! ## The scan and the attempts -/

/-- The metadata rules out no place at which one of the literals stands. -/
structure SearchMeta.Admits (info : SearchMeta) (lits : List Bytes) : Prop where
  minlength : ∀ lit ∈ lits, info.minlength ≤ lit.length
  empty : ∀ bitmap, info.startBitmap = some bitmap → [] ∈ lits → ∀ b, bitmap b = true
  first : ∀ bitmap, info.startBitmap = some bitmap → ∀ b rest, b :: rest ∈ lits → bitmap b = true
  skip : ∀ len table, info.bmhSkip = some (len, table) →
    ∃ w : Bytes, w.length = len ∧ table = Horspool.shift w ∧ ∀ lit ∈ lits, w <+: lit

theorem firstLit_eq_some {lits : List Bytes} {s lit : Bytes} {offset : Nat}
    (h : firstLit lits s offset = some lit) : lit ∈ lits ∧ lit <+: s.drop offset :=
  ⟨List.mem_of_find?_eq_some h, by
    have hat := List.find?_some h
    rwa [List.isPrefixOf_iff_prefix] at hat⟩

theorem altAttempt_failed {lits : List Bytes} {s : Bytes} {offset : Nat}
    (h : ∀ lit ∈ lits, ¬lit <+: s.drop offset) : altAttempt lits s offset = .failed := by
  rw [altAttempt]
  cases hfirst : firstLit lits s offset with
  | none => rfl
  | some lit =>
    obtain ⟨hmem, hat⟩ := firstLit_eq_some hfirst
    exact absurd hat (h lit hmem)

namespace SearchMeta.Admits

variable {info : SearchMeta} {lits : List Bytes} {s : Bytes} {offset : Nat}

/-- Too little is left. -/
theorem failed_of_short (h : info.Admits lits) {o : Nat} (hle : offset ≤ o) (ho : o ≤ s.length)
    (hshort : s.length < offset + info.minlength) : altAttempt lits s o = .failed := by
  refine altAttempt_failed fun lit hmem hat => ?_
  have hmin := h.minlength lit hmem
  have hlen := hat.length_le
  rw [List.length_drop] at hlen
  omega

/-- The bitmap rules the place out. -/
theorem failed_of_skip (h : info.Admits lits) {behind : UInt8}
    (hskip : info.startBitmap.any (fun bitmap => !bitmap (s.getD offset behind)) = true) :
    altAttempt lits s offset = .failed := by
  refine altAttempt_failed fun lit hmem hat => ?_
  cases hbitmap : info.startBitmap with
  | none =>
    rw [hbitmap] at hskip
    cases hskip
  | some bitmap =>
    have hout : bitmap (s.getD offset behind) = false := by simpa [hbitmap] using hskip
    cases lit with
    | nil =>
      rw [h.empty bitmap hbitmap hmem] at hout
      cases hout
    | cons b rest =>
      have hget : s[offset]? = some b := by
        have hfirst := List.prefix_iff_getElem?.mp hat 0 (Nat.succ_pos _)
        rw [List.getElem?_drop] at hfirst
        exact hfirst
      rw [List.getD_eq_getElem?_getD, hget, Option.getD_some,
        h.first bitmap hbitmap b rest hmem] at hout
      cases hout

/-- The places that a skip steps over. -/
theorem failed_of_advance (h : info.Admits lits) {o : Nat} (hlt : offset < o)
    (hnext : o < info.advance s offset) : altAttempt lits s o = .failed := by
  refine altAttempt_failed fun lit hmem hat => ?_
  unfold SearchMeta.advance at hnext
  cases hskip : info.bmhSkip with
  | none =>
    rw [hskip] at hnext
    dsimp only at hnext
    omega
  | some table =>
    obtain ⟨len, table⟩ := table
    obtain ⟨w, rfl, rfl, hshared⟩ := h.skip len table hskip
    rw [hskip] at hnext
    dsimp only at hnext
    split at hnext
    · cases hlast : s[offset + w.length - 1]? with
      | none =>
        rw [hlast, Option.elim_none] at hnext
        omega
      | some a =>
        rw [hlast, Option.elim_some] at hnext
        exact Horspool.not_stands_of_lt_shift hlast hlt (by omega) ((hshared lit hmem).trans hat)
    · omega

end SearchMeta.Admits

theorem SearchMeta.lt_advance (info : SearchMeta) (s : Bytes) (offset : Nat) :
    offset < info.advance s offset := by
  unfold SearchMeta.advance
  split
  · split <;> omega
  · omega

section

variable {t : AutoTrie} {info : SearchMeta} {lits : List Bytes} {s : Bytes} {behind : UInt8}

/-- The trie at a place where the attempt fails, and at one where it does not. -/
theorem altAttempt_eq (htrie : ∀ o, t.trieMatch s o = (firstLit lits s o).map List.length)
    (o : Nat) : altAttempt lits s o = Attempt.ofStop ((t.trieMatch s o).map (o + ·)) := by
  rw [htrie, altAttempt]
  cases firstLit lits s o <;> rfl

theorem altScan_unanchored (htrie : ∀ o, t.trieMatch s o = (firstLit lits s o).map List.length)
    (h : info.Admits lits) (start : Nat) {fuel offset : Nat}
    (hfuel : s.length + 1 - offset ≤ fuel) :
    altScan t info s behind start false fuel offset =
      firstFound (altAttempt lits s) (s.length + 1 - offset) offset := by
  induction fuel generalizing offset with
  | zero =>
    rw [Nat.le_zero.mp hfuel]
    rfl
  | succ fuel ih =>
    rw [altScan]
    by_cases hshort : s.length < offset + info.minlength
    · rw [if_pos (.inl hshort), firstFound_none]
      exact fun o hle hlt => h.failed_of_short hle (by omega) hshort
    · rw [if_neg (by simpa using hshort)]
      have hturns : s.length + 1 - offset = s.length + 1 - (offset + 1) + 1 := by omega
      split
      · rename_i hskip
        rw [hturns, firstFound, h.failed_of_skip hskip]
        exact ih (by omega)
      · cases hmatch : t.trieMatch s offset with
        | some len =>
          rw [hturns, firstFound, altAttempt_eq htrie, hmatch]
          rfl
        | none =>
          have hlt := info.lt_advance s offset
          have hfailed : ∀ o, offset ≤ o → o < info.advance s offset →
              altAttempt lits s o = .failed := by
            intro o hle hnext
            obtain rfl | hlt := Nat.eq_or_lt_of_le hle
            · rw [altAttempt_eq htrie, hmatch]
              rfl
            · exact h.failed_of_advance hlt hnext
          dsimp only
          rw [ih (by omega)]
          by_cases hend : info.advance s offset ≤ s.length
          · obtain ⟨n, hn⟩ := Nat.exists_eq_add_of_lt hlt
            have hsplit : firstFound (altAttempt lits s)
                (n + 1 + (s.length + 1 - info.advance s offset)) offset =
                  firstFound (altAttempt lits s) (s.length + 1 - info.advance s offset)
                    (offset + (n + 1)) :=
              firstFound_failed fun o hle hlt' => hfailed o hle (by omega)
            rw [show offset + (n + 1) = info.advance s offset by omega,
              show n + 1 + (s.length + 1 - info.advance s offset) = s.length + 1 - offset by omega]
              at hsplit
            exact hsplit.symm
          · have hnone : firstFound (altAttempt lits s) (s.length + 1 - offset) offset = none :=
              firstFound_none fun o hle hlt' => hfailed o hle (by omega)
            rw [show s.length + 1 - info.advance s offset = 0 by omega, hnone]
            rfl

/-- The anchored scan tries one place. -/
theorem altScan_anchored (htrie : ∀ o, t.trieMatch s o = (firstLit lits s o).map List.length)
    (h : info.Admits lits) {start : Nat} (hstart : start ≤ s.length) (fuel : Nat) :
    altScan t info s behind start true (fuel + 1) start =
      firstFound (altAttempt lits s) 1 start := by
  have hover : ∀ (n offset : Nat), offset ≠ start →
      altScan t info s behind start true n offset = none := by
    intro n offset hne
    cases n with
    | zero => rfl
    | succ n => rw [altScan, if_pos (.inr ⟨rfl, hne⟩)]
  rw [altScan]
  by_cases hshort : s.length < start + info.minlength
  · rw [if_pos (.inl hshort), firstFound, h.failed_of_short (Nat.le_refl _) hstart hshort]
    rfl
  · rw [if_neg (by simpa using hshort), firstFound]
    split
    · rename_i hskip
      rw [h.failed_of_skip hskip, hover fuel (start + 1) (by omega)]
      rfl
    · cases hmatch : t.trieMatch s start with
      | some len =>
        rw [altAttempt_eq htrie, hmatch]
        rfl
      | none =>
        have hlt := info.lt_advance s start
        rw [altAttempt_eq htrie, hmatch]
        exact hover fuel _ (by omega)

/-- The scan is the search by attempts. -/
theorem altScan_eq (htrie : ∀ o, t.trieMatch s o = (firstLit lits s o).map List.length)
    (h : info.Admits lits) {start : Nat} (hstart : start ≤ s.length) (anchored : Bool) :
    altScan t info s behind start anchored (s.length + 1 - start) start =
      searchFrom (altAttempt lits s) s.length start anchored := by
  cases anchored with
  | false => exact altScan_unanchored htrie h start (Nat.le_refl _)
  | true =>
    rw [show s.length + 1 - start = s.length - start + 1 by omega]
    exact altScan_anchored htrie h hstart _

end

/-- The trie that is built for a tree of literals, and when it is built. -/
theorem buildWalk_tree {bc : Bytes} {limit depth turns : Nat} {lits : List Bytes}
    (h : AltTree bc limit 0 depth lits) (hturns : 2 * lits.length ≤ turns)
    (hbudget : (lits.map List.length).sum ≤ autoMaxLitBytes) :
    ∃ t, AutoTrie.insertAll lits 0 .empty = some t ∧
      buildWalk bc turns [0] 0 .empty = if depth < 64 then .ok t else .error .structural := by
  have hpos := h.lits_pos
  have hroom : AutoTrie.empty.nodes.length + (lits.map List.length).sum ≤ autoMaxNodes := by
    show 1 + (lits.map List.length).sum ≤ 256
    unfold autoMaxLitBytes at hbudget
    omega
  obtain ⟨t, hins, -, -, hwalk⟩ := buildWalk_eq h (turns - (2 * lits.length - 1)) []
    (show 0 < 2 ^ 16 by decide) (by decide) rfl hroom
  refine ⟨t, hins, ?_⟩
  rw [Nat.sub_add_cancel (by omega), List.length_nil, Nat.zero_add] at hwalk
  rw [hwalk]
  obtain ⟨n, hn⟩ : ∃ n, turns - (2 * lits.length - 1) = n + 1 :=
    ⟨turns - (2 * lits.length - 1) - 1, by omega⟩
  rw [hn]
  rfl

/-- On compiled code that `check_alt_literals` accepts, the trie tier reports what the reference
search reports, if the alternatives are nested less than 64 deep in their first arms; otherwise
it never reports a match. -/
theorem searchAltLiterals_reports (cfg : CompilerConfig) (ast : AstNode) (st : CompilerState)
    (tail : Bytes) (env : VmEnv W) (levels turns : Nat) (cached : Option AutoTrie)
    (fallback : Option (Nat × Nat)) (info : SearchMeta) (behind : UInt8) (start : Nat)
    (anchored : Bool) (vm₀ : Vm W) (result : Option (Nat × Nat))
    (hemit : emitProgram cfg ast = some st) (hshort : st.buf.length ≤ 2 ^ 32)
    (hclasses : st.classes.length < 2 ^ 16) (hnames : (ast.pat cfg).All Leaf.NameFits)
    (hbc : env.bc = st.buf ++ tail)
    (hcheck : (checkAltLiterals env.bc (min env.bc.length 2048) levels 0 0).isSome = true)
    (hturns : 2 * (altLits env.bc levels 0).length ≤ turns)
    (hcached : ∀ t ∈ cached, snobolBuildAltTrie turns env.bc = .ok t)
    (hinfo : info.Admits (altLits env.bc levels 0)) (hstart : start ≤ env.s.length) :
    if altDepth env.bc levels 0 < 64 then
      (SearchReports env .empty anchored start vm₀ result ↔
        result =
          searchAltLiteralsTry turns env.bc cached fallback info env.s behind start anchored)
    else
      searchAltLiteralsTry turns env.bc cached fallback info env.s behind start anchored =
        none := by
  obtain ⟨b, -, hcode, haccept, -⟩ := emitProgram_code hemit hshort hclasses hnames tail
  rw [← hbc] at hcode haccept
  have hitems : ItemsAt env.bc [.pat b] 0 := .pat hcode (.accept (by rwa [Nat.zero_add]))
  obtain ⟨m, hm⟩ := Option.isSome_iff_exists.mp hcheck
  obtain ⟨htree, hsum, hbudget⟩ := altTree_of_check hitems (Nat.min_le_left _ _) hm
  have hfew : (altLits env.bc levels 0).length < 2 ^ 16 := by
    have hstop : FewLits env.bc (min env.bc.length 2048) b.size (0 + b.size) := by
      rw [Nat.zero_add]
      exact .of_fetch haccept (by simp) (by simp)
    have hcount := hcode.fewLits b (by rw [Nat.zero_add]) hstop levels 0 m hm
    omega
  obtain ⟨t, hins, hbuild⟩ := buildWalk_tree htree hturns (by omega)
  have htrie : cached.elim (buildWalk env.bc turns [0] 0 .empty) .ok =
      if altDepth env.bc levels 0 < 64 then .ok t else .error .structural := by
    cases cached with
    | none => exact hbuild
    | some t' =>
      have hcode := hcached t' rfl
      unfold snobolBuildAltTrie at hcode
      split at hcode
      · cases hcode
      · exact hcode.symm.trans hbuild
  rw [searchAltLiteralsTry, htrie]
  split
  · have hmatch : ∀ o, t.trieMatch env.s o =
        (firstLit (altLits env.bc levels 0) env.s o).map List.length := by
      obtain ⟨kids, hchained, horder⟩ := AutoTrie.insertAll_ranks hins hfew
      exact AutoTrie.trieMatch_eq hchained horder hfew env.s
    rw [htree.vmAttempts.reports_iff hstart vm₀]
    dsimp only
    rw [altScan_eq hmatch hinfo hstart anchored]
  · rfl

/-- `'ab' | 'ac'` -/
def abOrAc : AstNode := .alt (.literal [0x61, 0x62]) (.literal [0x61, 0x63])

def abOrAcState : CompilerState where
  buf :=
    [3, 0, 0, 0, 9, 0, 0, 0, 25, 4, 0, 0, 0, 18, 0, 0, 0, 2, 97, 98, 2, 0, 0, 0, 36, 4, 0, 0, 0,
      34, 0, 0, 0, 2, 97, 99, 0]
  classes := []
  nextLoopId := 0
  labels := []
  splits := [0]

def abOrAcCode : Bytes := abOrAcState.buf ++ trailer abOrAcState.buf.length [] []

/-- The metadata of `'ab' | 'ac'`. -/
def abOrAcMeta : SearchMeta := ⟨some (· == 0x61), 2, some (1, Horspool.shift [0x61])⟩

theorem abOrAcMeta_admits : abOrAcMeta.Admits [[0x61, 0x62], [0x61, 0x63]] where
  minlength := by decide
  empty := by simp
  first bitmap hbitmap b rest hmem := by
    cases hbitmap
    simp only [List.mem_cons, List.cons.injEq, List.not_mem_nil, or_false] at hmem
    obtain ⟨rfl, -⟩ | ⟨rfl, -⟩ := hmem <;> rfl
  skip len table hskip := by
    cases hskip
    exact ⟨[0x61], rfl, rfl, by decide⟩

/-- On "xac" the second alternative is found behind the first byte. -/
theorem searchAltLiterals_reports_abOrAc :
    SearchReports (VmEnv.ofCode abOrAcCode [0x78, 0x61, 0x63] .bare) .empty false 0
      (.zero ⟨[], ()⟩) (some (1, 3)) := by
  have h := searchAltLiterals_reports .caseSensitive abOrAc abOrAcState
    (trailer abOrAcState.buf.length [] []) (VmEnv.ofCode abOrAcCode [0x78, 0x61, 0x63] .bare) 2 4
    none none abOrAcMeta 0 0 false (.zero ⟨[], ()⟩) (some (1, 3)) (by decide +kernel) (by decide)
    (by decide) ⟨trivial, trivial⟩ rfl (by decide +kernel) (by decide +kernel)
    nofun abOrAcMeta_admits (by decide)
  rw [if_pos (by decide +kernel)] at h
  exact h.mpr (by decide +kernel)

end Snobol4
