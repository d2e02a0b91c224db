import Snobol4.LiteralOnly
import Snobol4.StartBitmap

/-!
# Automaton — the subset construction (`search_tiers.c`)

`build_dfa` takes the addresses of the bytecode for the states of a nondeterministic automaton
and makes it deterministic, `search_automaton_exec` runs the result over the subject.  For a
single literal the states of the result are a chain.
-/

namespace Snobol4

open Horspool

variable {W : Type}

/-! ## Sets of addresses -/

/-- `SNOBOL_DFA_DEAD` -/
def dfaDead : Nat := 2 ^ 16 - 1

/-- `DFA_NFA_MAX` -/
def dfaNfaMax : Nat := 512

/-- `SNOBOL_DFA_MAX_STATES` -/
def dfaMaxStates : Nat := 4096

/-- `nfa_set_add`: the sets are sorted. -/
def nfaSetAdd (s : List Nat) (v : Nat) : List Nat :=
  if v ∈ s ∨ dfaNfaMax ≤ s.length then s
  else s.takeWhile (· < v) ++ v :: s.dropWhile (· < v)

/-- The epsilon transitions of the instruction at `off`, in 16 bits. -/
def epsilonSteps (bc : Bytes) (off : Nat) : List Nat :=
  let within (size : Nat) (targets : List Nat) : List Nat :=
    if off + size ≤ bc.length then targets else []
  let inside (target : Nat) : List Nat := if target < bc.length then [target % 2 ^ 16] else []
  let skip (size : Nat) : List Nat := [(off + size) % 2 ^ 16]
  match bc[off]?.bind OpCode.ofByte with
  | some .jmp => within 5 (inside (readU32 bc (off + 1)).1)
  | some .split => within 9 (inside (readU32 bc (off + 1)).1 ++ inside (readU32 bc (off + 5)).1)
  | some .nop | some .fence => skip 1
  | some .lit => within 9 (if (readU32 bc (off + 5)).1 = 0 then skip 9 else [])
  | some .anchor => within 2 (skip 2)
  | some .pos | some .rpos | some .tab | some .rtab => within 5 (skip 5)
  | some .repeatInit => within 14 (inside (readU32 bc (off + 9)).1 ++ skip 14)
  | some .break => within 3 (skip 3)
  | some .repeatStep => within 6 (inside (readU32 bc (off + 1)).1)
  | _ => []

/-- One pass of `epsilon_closure` over the set, which may grow under it. -/
def closurePass (bc : Bytes) : Nat → Nat → List Nat → List Nat
  | 0, _, s => s
  | fuel + 1, i, s =>
      match s[i]? with
      | none => s
      | some off => closurePass bc fuel (i + 1) ((epsilonSteps bc off).foldl nfaSetAdd s)

/-- The passes of `epsilon_closure` until nothing changes. -/
def closePasses (bc : Bytes) : Nat → List Nat → List Nat
  | 0, s => s
  | fuel + 1, s =>
      let s' := closurePass bc (dfaNfaMax + 1) 0 s
      if s' = s then s else closePasses bc fuel s'

/-- `epsilon_closure` -/
def epsilonClosure (bc : Bytes) (start : Nat) : List Nat := closePasses bc (dfaNfaMax + 1) [start]

/-- The closures that `build_dfa` keeps. -/
def epsClosures (bc : Bytes) (off : Nat) : List Nat :=
  match bc[off]?.bind OpCode.ofByte with
  | some .accept | some .abort | some .succeed => [off]
  | _ => epsilonClosure bc off

/-! ## Literal data -/

/-- Where the scan over the literals goes on behind the instruction at `ip`. -/
def litNextSize (bc : Bytes) (ip : Nat) : Nat :=
  match bc[ip]?.bind OpCode.ofByte with
  | some .lit => if ip + 9 ≤ bc.length then ip + 9 + (readU32 bc (ip + 5)).1 else ip + 1
  | some .len => if ip + 5 ≤ bc.length ∧ 1 < (readU32 bc (ip + 1)).1 then ip + 5 else ip + 1
  | some .jmp => if ip + 5 ≤ bc.length then (readU32 bc (ip + 1)).1 else ip + 1
  | some .anchor | some .capStart | some .capEnd => ip + 2
  | some .pos | some .rpos | some .tab | some .rtab => ip + 5
  | some .any | some .notany | some .span | some .break => ip + 3
  | some .repeatInit => ip + 14
  | some .repeatStep => ip + 6
  | _ => ip + 1

/-- The continuations of the bytes of the literal at `ip`, in 16 bits. -/
def litNextAt (bc : Bytes) (ip : Nat) (f : Nat → Nat) : Nat → Nat :=
  let lo := (readU32 bc (ip + 1)).1
  let ll := (readU32 bc (ip + 5)).1
  if bc[ip]? = some OpCode.lit.code ∧ ip + 9 ≤ bc.length ∧ 1 < ll ∧ lo < bc.length ∧
      (lo + ll) % 2 ^ 32 ≤ bc.length then
    fun pos =>
      if lo ≤ pos ∧ pos < lo + ll then
        if pos = lo + ll - 1 then (ip + 9 + ll) % 2 ^ 16 else pos + 1
      else f pos
  else f

/-- `lit_next`: the scan of `build_dfa` over the literals of more than one byte. -/
def litNextScan (bc : Bytes) : Nat → Nat → (Nat → Nat) → Nat → Nat
  | 0, _, f => f
  | fuel + 1, ip, f =>
      if bc.length ≤ ip then f
      else litNextScan bc fuel (max (ip + 1) (litNextSize bc ip)) (litNextAt bc ip f)

def litNext (bc : Bytes) : Nat → Nat := litNextScan bc bc.length 0 fun _ => dfaDead

/-! ## Transitions -/

/-- `get_op_bytes` for the class instruction at `off`: it looks in the table of the VM only, and
an entry without ranges has every byte. -/
def opBytes (env : VmEnv W) (off : Nat) (bytes : List CpRange → UInt8 → Bool) :
    Option (UInt8 → Bool) :=
  let setId := (readU16 env.bc (off + 1)).1
  if env.bc.length < off + 3 ∨ setId = 0 then none
  else
    (env.rangeMeta.bind fun table => table[setId - 1]?).map fun entry =>
      match entry with
      | some entry => if entry.ranges = [] then fun _ => true else bytes entry.ranges
      | none => fun _ => true

/-- The successors of the address `off` on the byte `b`, added to `next`. -/
def dfaStep (env : VmEnv W) (b : UInt8) (next : List Nat) (off : Nat) : List Nat :=
  let bc := env.bc
  let merge (next : List Nat) (target : Nat) : List Nat :=
    (epsClosures bc (target % 2 ^ 16)).foldl nfaSetAdd next
  let set (bytes : List CpRange → UInt8 → Bool) (go : List Nat) : List Nat :=
    if (opBytes env off bytes).any (· b) then go else next
  if bc.length ≤ off then next
  else if litNext bc off ≠ dfaDead then
    if bc[off]? = some b then
      let cont := litNext bc off
      if cont < bc.length ∧ cont ≠ off ∧ litNext bc cont ≠ dfaDead then nfaSetAdd next cont
      else merge next cont
    else next
  else
    match bc[off]?.bind OpCode.ofByte with
    | some .lit =>
        let litOff := (readU32 bc (off + 1)).1
        let litLen := (readU32 bc (off + 5)).1
        if bc.length < off + 9 ∨ bc.length ≤ litOff ∨ litLen = 0 ∨ bc[litOff]? ≠ some b then next
        else if litLen = 1 then merge next (off + 10)
        else
          let second := (litOff + 1) % 2 ^ 16
          if second < bc.length ∧ litNext bc second ≠ dfaDead then nfaSetAdd next second else next
    | some .span => set asciiMap (merge (merge next off) (off + 3))
    | some .any => set asciiMap (merge next (off + 3))
    | some .notany => set (fun ranges b => !asciiMap ranges b) (merge next (off + 3))
    | some .break => set (fun ranges b => !asciiMap ranges b) (merge next off)
    | some .len =>
        if bc.length < off + 5 then next
        else if (readU32 bc (off + 1)).1 ≤ 1 then merge next (off + 5)
        else nfaSetAdd next off
    | _ => next

/-- The set behind the byte `b`. -/
def dfaMove (env : VmEnv W) (set : List Nat) (b : UInt8) : List Nat :=
  set.foldl (dfaStep env b) []

/-- `nfa_is_accept` -/
def nfaIsAccept (bc : Bytes) (off : Nat) : Bool :=
  bc[off]? == some OpCode.accept.code && litNext bc off == dfaDead

/-! ## The construction -/

/-- `snobol_dfa_t`; the states are numbered in the order in which they are found. -/
structure Dfa where
  /-- A row for each state, with an entry for each byte. -/
  trans : List (List Nat)
  accepting : List Bool

/-- `dfa_hash_find_or_insert`: the number of a set, and the sets with their numbers. -/
def findOrInsert (known : List (List Nat)) (set : List Nat) : Nat × List (List Nat) :=
  if set = [] then (dfaDead, known)
  else if set ∈ known then (known.idxOf set, known)
  else (known.length, known ++ [set])

/-- The bytes in the order of the loop. -/
def allBytes : List UInt8 := (List.range 256).map UInt8.ofNat

/-- The transitions of one state. -/
def dfaRow (env : VmEnv W) (set : List Nat) (known : List (List Nat)) :
    List Nat × List (List Nat) :=
  allBytes.foldl
    (fun acc b =>
      let (id, known) := findOrInsert acc.2 (dfaMove env set b)
      (acc.1 ++ [id], known))
    ([], known)

/-- The loop over the queue, which holds the states in the order of their numbers. -/
def dfaLoop (env : VmEnv W) : Nat → List (List Nat) → List (List Nat) →
    List (List Nat) × List (List Nat)
  | 0, rows, known => (rows, known)
  | fuel + 1, rows, known =>
      match known[rows.length]? with
      | none => (rows, known)
      | some set =>
          if dfaMaxStates ≤ known.length then (rows, known)
          else
            let (row, known) := dfaRow env set known
            dfaLoop env fuel (rows ++ [row]) known

/-- `build_dfa` -/
def buildDfa (env : VmEnv W) : Option Dfa :=
  if env.bc.length = 0 ∨ dfaDead < env.bc.length then none
  else
    let (rows, known) := dfaLoop env dfaMaxStates [] [epsilonClosure env.bc 0]
    if dfaMaxStates ≤ known.length then none
    else some ⟨rows, known.map fun set => set.any (nfaIsAccept env.bc)⟩

/-! ## The run -/

namespace Dfa

/-- `trans[state * 256 + byte]` -/
def next (dfa : Dfa) (state : Nat) (b : UInt8) : Nat :=
  ((dfa.trans[state]?).bind (·[b.toNat]?)).getD dfaDead

def accepts (dfa : Dfa) (state : Nat) : Bool := (dfa.accepting[state]?).getD false

end Dfa

/-- How a walk of the automaton ends: at the end of a match, without a transition, or at the
end of the subject. -/
inductive WalkEnd where
  | accepted (stop : Nat)
  | dead
  | ended
  deriving Repr, DecidableEq

/-- The inner loop of `search_automaton_exec` over the bytes from `pos` on. -/
def dfaWalk (dfa : Dfa) : Bytes → Nat → Nat → WalkEnd
  | [], _, _ => .ended
  | b :: rest, state, pos =>
      let next := dfa.next state b
      if next = dfaDead then .dead
      else if dfa.accepts next then .accepted (pos + 1)
      else dfaWalk dfa rest next (pos + 1)

/-- The outer loop of `search_automaton_exec`. -/
def automatonFrom (dfa : Dfa) (s : Bytes) : Nat → Nat → Option (Nat × Nat)
  | 0, _ => none
  | fuel + 1, pos =>
      if dfa.accepts 0 then some (pos, pos)
      else
        match dfaWalk dfa (s.drop pos) 0 pos with
        | .accepted stop => some (pos, stop)
        | .dead => automatonFrom dfa s fuel (pos + 1)
        | .ended => none

/-- `search_automaton_exec` -/
def searchAutomatonExec (dfa : Dfa) (s : Bytes) (offset : Nat) : Option (Nat × Nat) :=
  automatonFrom dfa s (s.length + 1 - offset) offset

/-! ## The code of a literal -/

/-- What the automaton sees of the code of a single literal. -/
structure LiteralCode (bc lit : Bytes) : Prop where
  op : bc[0]? = some OpCode.lit.code
  off : (readU32 bc 1).1 = 9
  len : (readU32 bc 5).1 = lit.length
  text : ∀ k < lit.length, bc[9 + k]? = lit[k]?
  accept : bc[9 + lit.length]? = some OpCode.accept.code
  noLit : ∀ i, 9 + lit.length ≤ i → bc[i]? ≠ some OpCode.lit.code
  pos : 0 < lit.length

theorem litNextScan_noLit {bc : Bytes} {fuel ip : Nat} {f : Nat → Nat}
    (h : ∀ i, ip ≤ i → bc[i]? ≠ some OpCode.lit.code) : litNextScan bc fuel ip f = f := by
  induction fuel generalizing ip with
  | zero => rfl
  | succ fuel ih =>
    rw [litNextScan]
    split
    · rfl
    have hat : litNextAt bc ip f = f := by
      unfold litNextAt
      rw [if_neg]
      exact fun hlit => h ip le_rfl hlit.1
    rw [hat]
    exact ih fun i hi => h i (by omega)

theorem nfaSetAdd_nil (v : Nat) : nfaSetAdd [] v = [v] := by
  unfold nfaSetAdd
  rw [if_neg (by simp [dfaNfaMax])]
  rfl

/-- A set whose states have no epsilon transitions is closed. -/
theorem epsilonClosure_eq {bc : Bytes} {off : Nat} (h : epsilonSteps bc off = []) :
    epsilonClosure bc off = [off] := by
  have hpass : closurePass bc (dfaNfaMax + 1) 0 [off] = [off] := by
    show closurePass bc 513 0 [off] = [off]
    rw [closurePass]
    simp only [List.getElem?_cons_zero, h, List.foldl_nil]
    rw [closurePass]
    rfl
  show closePasses bc 513 [off] = [off]
  rw [closePasses]
  simp only [hpass, if_true]

namespace LiteralCode

variable {bc lit : Bytes}

theorem room (h : LiteralCode bc lit) : 9 + lit.length < bc.length :=
  (List.getElem?_eq_some_iff.mp h.accept).1

/-- The continuations of the literal data. -/
theorem litNext_eq (h : LiteralCode bc lit) (hfits : bc.length < dfaDead) (pos : Nat) :
    litNext bc pos =
      if 1 < lit.length ∧ 9 ≤ pos ∧ pos < 9 + lit.length then pos + 1 else dfaDead := by
  have hroom := h.room
  unfold dfaDead at hfits
  obtain ⟨n, hn⟩ : ∃ n, bc.length = n + 1 := ⟨bc.length - 1, by omega⟩
  have hsize : litNextSize bc 0 = 9 + lit.length := by
    unfold litNextSize
    rw [h.op, Option.bind_some, OpCode.ofByte_code]
    simp only [Nat.zero_add, h.len]
    rw [if_pos (by omega)]
  have hat : litNextAt bc 0 (fun _ => dfaDead) pos =
      if 1 < lit.length ∧ 9 ≤ pos ∧ pos < 9 + lit.length then pos + 1 else dfaDead := by
    unfold litNextAt
    simp only [Nat.zero_add, h.op, h.off, h.len, true_and]
    rw [Nat.mod_eq_of_lt (by omega)]
    by_cases hlong : 1 < lit.length
    · rw [if_pos ⟨by omega, hlong, by omega, by omega⟩]
      simp only [hlong, true_and]
      split
      · split
        · rename_i hlast
          omega
        · rfl
      · rfl
    · rw [if_neg (fun hall => hlong hall.2.1), if_neg (fun hall => hlong hall.1)]
  unfold litNext
  rw [hn, litNextScan, if_neg (by omega), hsize, Nat.max_eq_right (by omega),
    litNextScan_noLit h.noLit]
  exact hat

/-- The state behind `k` bytes of the literal. -/
def state (k : Nat) : List Nat := if k = 0 then [0] else [9 + k]

theorem state_injective {j k : Nat} (h : state j = state k) : j = k := by
  unfold state at h
  split at h
  · split at h
    · omega
    · have heq : 0 = 9 + k := List.head_eq_of_cons_eq h
      omega
  · split at h
    · have heq : 9 + j = 0 := List.head_eq_of_cons_eq h
      omega
    · have heq : 9 + j = 9 + k := List.head_eq_of_cons_eq h
      omega

theorem epsClosures_end (h : LiteralCode bc lit) :
    epsClosures bc (9 + lit.length) = [9 + lit.length] := by
  unfold epsClosures
  rw [h.accept, Option.bind_some, OpCode.ofByte_code]

theorem closure_start (h : LiteralCode bc lit) : epsilonClosure bc 0 = state 0 := by
  have hne : lit.length ≠ 0 := Nat.ne_of_gt h.pos
  refine epsilonClosure_eq ?_
  unfold epsilonSteps
  rw [h.op, Option.bind_some, OpCode.ofByte_code]
  simp only [Nat.zero_add, h.len, if_neg hne, ite_self]

variable {env : VmEnv W}

/-- A byte leads to the next state of the chain, or nowhere. -/
theorem move_state (h : LiteralCode env.bc lit) (hfits : env.bc.length < dfaDead) {k : Nat}
    (hk : k < lit.length) (b : UInt8) :
    dfaMove env (state k) b = if lit[k]? = some b then state (k + 1) else [] := by
  have hroom := h.room
  have hlt : env.bc.length < 2 ^ 16 - 1 := hfits
  have hmerge : (epsClosures env.bc ((9 + lit.length) % 2 ^ 16)).foldl nfaSetAdd [] =
      [9 + lit.length] := by
    rw [Nat.mod_eq_of_lt (by omega), h.epsClosures_end, List.foldl_cons, List.foldl_nil,
      nfaSetAdd_nil]
  unfold dfaMove
  cases k with
  | zero =>
    -- the first state stands at the instruction, the others inside its text
    have hdead : litNext env.bc 0 = dfaDead := by
      rw [h.litNext_eq hfits, if_neg (by omega)]
    have htext : env.bc[9]? = lit[0]? := h.text 0 hk
    rw [state, if_pos rfl, List.foldl_cons, List.foldl_nil]
    unfold dfaStep
    simp only [hdead, h.op, Option.bind_some, OpCode.ofByte_code, Nat.zero_add, h.off, h.len, htext]
    rw [if_neg (by omega), if_neg (fun hne => hne rfl)]
    by_cases hb : lit[0]? = some b
    · rw [if_neg (by rintro (hc | hc | hc | hc) <;> [omega; omega; omega; exact hc hb]), if_pos hb]
      by_cases hone : lit.length = 1
      · rw [if_pos hone]
        rw [hone] at hmerge
        exact hmerge
      · rw [if_neg hone, if_pos, nfaSetAdd_nil]
        · rfl
        · refine ⟨by omega, ?_⟩
          rw [h.litNext_eq hfits, if_pos ⟨by omega, by decide, by omega⟩]
          unfold dfaDead
          decide
    · rw [if_pos (.inr (.inr (.inr hb))), if_neg hb]
  | succ k =>
    have hlong : 1 < lit.length := by omega
    have hnext : litNext env.bc (9 + (k + 1)) = 9 + (k + 1) + 1 := by
      rw [h.litNext_eq hfits, if_pos ⟨hlong, by omega, by omega⟩]
    have hnextLt : litNext env.bc (9 + (k + 1)) ≠ dfaDead := by
      rw [hnext]
      unfold dfaDead
      omega
    rw [state, if_neg (Nat.succ_ne_zero k), List.foldl_cons, List.foldl_nil]
    unfold dfaStep
    dsimp only
    rw [if_neg (by omega), if_pos hnextLt, h.text (k + 1) hk, hnext]
    by_cases hb : lit[k + 1]? = some b
    · rw [if_pos hb, if_pos hb]
      by_cases hlast : k + 2 = lit.length
      · have hend : 9 + (k + 1) + 1 = 9 + lit.length := by omega
        have hdead : litNext env.bc (9 + lit.length) = dfaDead := by
          rw [h.litNext_eq hfits, if_neg (by omega)]
        rw [hend, hdead, if_neg (fun hc => hc.2.2 rfl), hmerge, state,
          if_neg (Nat.succ_ne_zero _), hlast]
      · rw [if_pos, nfaSetAdd_nil]
        · rfl
        · refine ⟨by omega, by omega, ?_⟩
          rw [h.litNext_eq hfits, if_pos ⟨hlong, by omega, by omega⟩]
          unfold dfaDead
          omega
    · rw [if_neg hb, if_neg hb]

/-- The state behind the literal has no transitions. -/
theorem move_end (h : LiteralCode env.bc lit) (hfits : env.bc.length < dfaDead) (b : UInt8) :
    dfaMove env (state lit.length) b = [] := by
  have hpos := h.pos
  have hroom := h.room
  have hdead : litNext env.bc (9 + lit.length) = dfaDead := by
    rw [h.litNext_eq hfits, if_neg (by omega)]
  unfold dfaMove
  rw [state, if_neg (by omega), List.foldl_cons, List.foldl_nil]
  unfold dfaStep
  dsimp only
  rw [if_neg (by omega), if_neg (fun hne => hne hdead), h.accept, Option.bind_some,
    OpCode.ofByte_code]

theorem accepts_state (h : LiteralCode env.bc lit) (hfits : env.bc.length < dfaDead) {k : Nat}
    (hk : k ≤ lit.length) :
    (state k).any (nfaIsAccept env.bc) = decide (k = lit.length) := by
  have hpos := h.pos
  cases k with
  | zero =>
    have hnot : nfaIsAccept env.bc 0 = false := by
      unfold nfaIsAccept
      rw [h.op]
      rfl
    rw [state, if_pos rfl, List.any_cons, hnot, List.any_nil, decide_eq_false (by omega)]
    rfl
  | succ k =>
    rw [state, if_neg (Nat.succ_ne_zero k), List.any_cons, List.any_nil, Bool.or_false]
    unfold nfaIsAccept
    by_cases hend : k + 1 = lit.length
    · have hdead : litNext env.bc (9 + lit.length) = dfaDead := by
        rw [h.litNext_eq hfits, if_neg (by omega)]
      rw [hend, h.accept, hdead, decide_eq_true rfl]
      rfl
    · have hnext : litNext env.bc (9 + (k + 1)) = 9 + (k + 1) + 1 := by
        rw [h.litNext_eq hfits, if_pos ⟨by omega, by omega, by omega⟩]
      have hroom := h.room
      have hlt : env.bc.length < 2 ^ 16 - 1 := hfits
      rw [hnext, decide_eq_false hend, Bool.and_eq_false_iff]
      right
      unfold dfaDead
      rw [beq_eq_false_iff_ne]
      omega

/-! ## The chain of states -/

/-- The first `n` states of the chain. -/
def chain (n : Nat) : List (List Nat) := (List.range n).map state

theorem length_chain (n : Nat) : (chain n).length = n := by
  rw [chain, List.length_map, List.length_range]

theorem chain_get {n k : Nat} (h : k < n) : (chain n)[k]? = some (state k) := by
  rw [chain, List.getElem?_map, List.getElem?_range h]
  rfl

theorem state_not_mem_chain (n : Nat) : state n ∉ chain n := by
  intro hmem
  obtain ⟨k, hk, heq⟩ := List.mem_map.mp hmem
  rw [state_injective heq] at hk
  exact absurd (List.mem_range.mp hk) (Nat.lt_irrefl n)

theorem state_ne_nil (k : Nat) : state k ≠ [] := by
  unfold state
  split <;> simp

theorem chain_succ (n : Nat) : chain (n + 1) = chain n ++ [state n] := by
  rw [chain, List.range_succ, List.map_append]
  rfl

/-- Bytes that lead nowhere. -/
theorem fold_dead {set : List Nat} {bytes : List UInt8} (row : List Nat) (known : List (List Nat))
    (h : ∀ b ∈ bytes, dfaMove env set b = []) :
    bytes.foldl
        (fun acc b =>
          let (id, known) := findOrInsert acc.2 (dfaMove env set b)
          (acc.1 ++ [id], known))
        (row, known) = (row ++ bytes.map fun _ => dfaDead, known) := by
  induction bytes generalizing row with
  | nil => rw [List.map_nil, List.append_nil]; rfl
  | cons b bytes ih =>
    have hfind : findOrInsert known (dfaMove env set b) = (dfaDead, known) := by
      rw [h b List.mem_cons_self, findOrInsert, if_pos rfl]
    simp only [List.foldl_cons, hfind]
    have hrest := ih (row ++ [dfaDead]) fun b' hb' => h b' (List.mem_cons_of_mem b hb')
    simp only at hrest
    rw [hrest, List.map_cons, List.append_assoc]
    rfl

/-- One byte leads to a new state. -/
theorem fold_next {set target : List Nat} {c : UInt8} {bytes : List UInt8} (row : List Nat)
    (known : List (List Nat)) (htarget : target ≠ []) (hnew : target ∉ known)
    (hnodup : bytes.Nodup) (hc : c ∈ bytes)
    (h : ∀ b, dfaMove env set b = if c = b then target else []) :
    bytes.foldl
        (fun acc b =>
          let (id, known) := findOrInsert acc.2 (dfaMove env set b)
          (acc.1 ++ [id], known))
        (row, known) =
      (row ++ bytes.map fun b => if c = b then known.length else dfaDead, known ++ [target]) := by
  induction bytes generalizing row with
  | nil => cases hc
  | cons b bytes ih =>
    obtain ⟨hb, hnodup⟩ := List.nodup_cons.mp hnodup
    by_cases heq : c = b
    · subst heq
      have hfind : findOrInsert known (dfaMove env set c) = (known.length, known ++ [target]) := by
        rw [h c, if_pos rfl, findOrInsert, if_neg htarget, if_neg hnew]
      have hdead : ∀ b' ∈ bytes, dfaMove env set b' = [] := by
        intro b' hb'
        rw [h b', if_neg]
        rintro rfl
        exact hb hb'
      have hmap : bytes.map (fun b => if c = b then known.length else dfaDead) =
          bytes.map fun _ => dfaDead := by
        refine List.map_congr_left fun b' hb' => if_neg ?_
        rintro rfl
        exact hb hb'
      have hrest := fold_dead (row ++ [known.length]) (known ++ [target]) hdead
      simp only [List.foldl_cons, hfind]
      simp only at hrest
      rw [hrest, List.map_cons, if_pos rfl, hmap, List.append_assoc]
      rfl
    · have hmem : c ∈ bytes := by
        obtain hhead | htail := List.mem_cons.mp hc
        · exact absurd hhead heq
        · exact htail
      have hfind : findOrInsert known (dfaMove env set b) = (dfaDead, known) := by
        rw [h b, if_neg heq, findOrInsert, if_pos rfl]
      have hrest := ih (row ++ [dfaDead]) hnodup hmem
      simp only [List.foldl_cons, hfind]
      simp only at hrest
      rw [hrest, List.map_cons, if_neg heq, List.append_assoc]
      rfl

theorem mem_allBytes (b : UInt8) : b ∈ allBytes :=
  List.mem_map.mpr ⟨b.toNat, List.mem_range.mpr b.toNat_lt, UInt8.ofNat_toNat⟩

theorem nodup_allBytes : allBytes.Nodup := by
  refine List.Nodup.map_on ?_ List.nodup_range
  intro i hi j hj heq
  have hval := congrArg UInt8.toNat heq
  rw [UInt8.toNat_ofNat', UInt8.toNat_ofNat', Nat.mod_eq_of_lt (List.mem_range.mp hi),
    Nat.mod_eq_of_lt (List.mem_range.mp hj)] at hval
  exact hval

/-- The row of the state behind `k` bytes. -/
def chainRow (lit : Bytes) (k : Nat) : List Nat :=
  allBytes.map fun b => if lit[k]? = some b then k + 1 else dfaDead

theorem dfaRow_state (h : LiteralCode env.bc lit) (hfits : env.bc.length < dfaDead) {k : Nat}
    (hk : k < lit.length) :
    dfaRow env (state k) (chain (k + 1)) = (chainRow lit k, chain (k + 2)) := by
  have hget : lit[k]? = some lit[k] := List.getElem?_eq_getElem hk
  have hmove : ∀ b, dfaMove env (state k) b = if lit[k] = b then state (k + 1) else [] := by
    intro b
    rw [h.move_state hfits hk, hget]
    simp only [Option.some.injEq]
  unfold dfaRow chainRow
  rw [fold_next [] (chain (k + 1)) (state_ne_nil (k + 1)) (state_not_mem_chain (k + 1))
    nodup_allBytes (mem_allBytes lit[k]) hmove, length_chain, ← chain_succ, hget]
  simp only [List.nil_append, Option.some.injEq]

theorem dfaRow_end (h : LiteralCode env.bc lit) (hfits : env.bc.length < dfaDead)
    (known : List (List Nat)) :
    dfaRow env (state lit.length) known = (chainRow lit lit.length, known) := by
  have hnone : lit[lit.length]? = none := List.getElem?_eq_none le_rfl
  unfold dfaRow chainRow
  rw [fold_dead [] known fun b _ => h.move_end hfits b, hnone]
  simp

/-- The rows of the first `k` states. -/
def chainRows (lit : Bytes) (k : Nat) : List (List Nat) := (List.range k).map (chainRow lit)

theorem chainRows_succ (lit : Bytes) (k : Nat) :
    chainRows lit (k + 1) = chainRows lit k ++ [chainRow lit k] := by
  rw [chainRows, List.range_succ, List.map_append]
  rfl

/-- The queue goes along the chain. -/
theorem dfaLoop_chain (h : LiteralCode env.bc lit) (hfits : env.bc.length < dfaDead)
    (hstates : lit.length + 1 < dfaMaxStates) {fuel k : Nat} (hk : k ≤ lit.length)
    (hfuel : lit.length + 2 ≤ fuel + k) :
    dfaLoop env fuel (chainRows lit k) (chain (k + 1)) =
      (chainRows lit (lit.length + 1), chain (lit.length + 1)) := by
  have hlength : ∀ n, (chainRows lit n).length = n := by
    intro n
    rw [chainRows, List.length_map, List.length_range]
  induction fuel generalizing k with
  | zero => omega
  | succ fuel ih =>
    rw [dfaLoop, hlength, chain_get (Nat.lt_succ_self k)]
    dsimp only
    rw [if_neg (by rw [length_chain]; omega)]
    by_cases hend : k = lit.length
    · subst hend
      obtain ⟨fuel, rfl⟩ : ∃ n, fuel = n + 1 := ⟨fuel - 1, by omega⟩
      have hpast : (chain (lit.length + 1))[lit.length + 1]? = none :=
        List.getElem?_eq_none (length_chain _).le
      rw [h.dfaRow_end hfits]
      dsimp only
      rw [← chainRows_succ, dfaLoop, hlength, hpast]
    · rw [h.dfaRow_state hfits (by omega)]
      dsimp only
      rw [← chainRows_succ]
      exact ih (by omega) (by omega)

/-- The automaton of a literal. -/
def dfaOf (lit : Bytes) : Dfa where
  trans := chainRows lit (lit.length + 1)
  accepting := (List.range (lit.length + 1)).map fun k => decide (k = lit.length)

theorem buildDfa_eq (h : LiteralCode env.bc lit) (hfits : env.bc.length < dfaDead)
    (hstates : lit.length + 1 < dfaMaxStates) : buildDfa env = some (dfaOf lit) := by
  have hroom := h.room
  have hloop : dfaLoop env dfaMaxStates [] (chain 1) =
      (chainRows lit (lit.length + 1), chain (lit.length + 1)) :=
    h.dfaLoop_chain hfits hstates (Nat.zero_le _) (by omega)
  have hstart : [epsilonClosure env.bc 0] = chain 1 := by
    rw [h.closure_start]
    rfl
  have haccepting : (chain (lit.length + 1)).map (fun set => set.any (nfaIsAccept env.bc)) =
      (List.range (lit.length + 1)).map fun k => decide (k = lit.length) := by
    rw [chain, List.map_map]
    refine List.map_congr_left fun k hk => ?_
    exact h.accepts_state hfits (Nat.le_of_lt_succ (List.mem_range.mp hk))
  unfold buildDfa
  rw [if_neg (by omega), hstart, hloop]
  dsimp only
  rw [if_neg (by rw [length_chain]; omega), haccepting]
  rfl

/-! ## The run over the subject -/

theorem allBytes_get (b : UInt8) : allBytes[b.toNat]? = some b := by
  rw [allBytes, List.getElem?_map, List.getElem?_range b.toNat_lt, Option.map_some,
    UInt8.ofNat_toNat]

theorem next_dfaOf {k : Nat} (hk : k ≤ lit.length) (b : UInt8) :
    (dfaOf lit).next k b = if lit[k]? = some b then k + 1 else dfaDead := by
  have hrow : (chainRows lit (lit.length + 1))[k]? = some (chainRow lit k) := by
    rw [chainRows, List.getElem?_map, List.getElem?_range (Nat.lt_succ_of_le hk)]
    rfl
  unfold Dfa.next dfaOf
  rw [hrow, Option.bind_some, chainRow, List.getElem?_map, allBytes_get]
  rfl

theorem accepts_dfaOf {k : Nat} (hk : k ≤ lit.length) :
    (dfaOf lit).accepts k = decide (k = lit.length) := by
  unfold Dfa.accepts dfaOf
  rw [List.getElem?_map, List.getElem?_range (Nat.lt_succ_of_le hk)]
  rfl

/-- The walk from the state behind `k` bytes. -/
theorem dfaWalk_dfaOf (hstates : lit.length < dfaDead) {k : Nat} (hk : k < lit.length)
    (t : Bytes) (pos : Nat) :
    (lit.drop k <+: t → dfaWalk (dfaOf lit) t k pos = .accepted (pos + (lit.length - k))) ∧
    (¬lit.drop k <+: t → dfaWalk (dfaOf lit) t k pos = .dead ∨
      dfaWalk (dfaOf lit) t k pos = .ended ∧ t.length < lit.length - k) := by
  induction t generalizing k pos with
  | nil =>
    constructor
    · intro hprefix
      have hlen := hprefix.length_le
      rw [List.length_drop, List.length_nil] at hlen
      omega
    · intro _
      exact .inr ⟨rfl, by rw [List.length_nil]; omega⟩
  | cons b t ih =>
    have hdrop : lit.drop k = lit[k] :: lit.drop (k + 1) := List.drop_eq_getElem_cons hk
    have hget : lit[k]? = some lit[k] := List.getElem?_eq_getElem hk
    rw [dfaWalk, next_dfaOf hk.le, hget, hdrop, List.cons_prefix_cons]
    by_cases hb : lit[k] = b
    · have hnext : (if some lit[k] = some b then k + 1 else dfaDead) = k + 1 :=
        if_pos (congrArg some hb)
      simp only [hnext]
      rw [if_neg (by omega), accepts_dfaOf hk]
      by_cases hlast : k + 1 = lit.length
      · have hrest : lit.drop (k + 1) = [] := by rw [hlast, List.drop_length]
        rw [if_pos (decide_eq_true hlast), hrest]
        constructor
        · intro _
          rw [show lit.length - k = 1 by omega]
        · intro hnot
          exact absurd ⟨hb, List.nil_prefix⟩ hnot
      · rw [if_neg (by simp [hlast])]
        obtain ⟨hfound, hmissed⟩ := ih (show k + 1 < lit.length by omega) (pos + 1)
        constructor
        · rintro ⟨-, hprefix⟩
          rw [hfound hprefix,
            show pos + 1 + (lit.length - (k + 1)) = pos + (lit.length - k) by omega]
        · intro hnot
          obtain hdead | ⟨hended, hshort⟩ := hmissed fun hprefix => hnot ⟨hb, hprefix⟩
          · exact .inl hdead
          · exact .inr ⟨hended, by rw [List.length_cons]; omega⟩
    · have hnext : (if some lit[k] = some b then k + 1 else dfaDead) = dfaDead :=
        if_neg fun heq => hb (Option.some.inj heq)
      simp only [hnext, if_true]
      exact ⟨fun hprefix => absurd hprefix.1 hb, fun _ => .inl trivial⟩

/-- The automaton of a literal finds the first place where it stands. -/
theorem searchAutomatonExec_dfaOf (hne : lit ≠ []) (hstates : lit.length < dfaDead) (s : Bytes)
    {offset : Nat} (hle : offset ≤ s.length) :
    searchAutomatonExec (dfaOf lit) s offset =
      (memmem s lit offset).map fun cand => (cand, cand + lit.length) := by
  have hpos : 0 < lit.length := List.length_pos_of_ne_nil hne
  have hstart : (dfaOf lit).accepts 0 = false := by
    rw [accepts_dfaOf (Nat.zero_le _), decide_eq_false (by omega)]
  obtain ⟨n, hn⟩ := Nat.le.dest hle
  unfold searchAutomatonExec memmem
  rw [show s.length + 1 - offset = n + 1 by omega, show s.length - offset = n by omega]
  induction n generalizing offset with
  | zero =>
    rw [automatonFrom, hstart, if_neg Bool.false_ne_true, List.drop_eq_nil_of_le (by omega)]
    rfl
  | succ n ih =>
    obtain ⟨hfound, hmissed⟩ := dfaWalk_dfaOf hstates hpos (s.drop offset) offset
    rw [List.drop_zero, Nat.sub_zero] at hfound hmissed
    rw [automatonFrom, hstart, if_neg Bool.false_ne_true, firstFrom]
    by_cases hat : lit <+: s.drop offset
    · rw [hfound hat, if_pos (List.isPrefixOf_iff_prefix.mpr hat)]
      rfl
    · rw [if_neg fun htest => hat (List.isPrefixOf_iff_prefix.mp htest)]
      obtain hdead | ⟨hended, hshort⟩ := hmissed hat
      · rw [hdead]
        exact ih (by omega) (by omega)
      · -- the rest of the subject is too short for the literal
        rw [List.length_drop] at hshort
        have hnone := memmem_short hne (show s.length < offset + 1 + lit.length by omega)
        rw [memmem, show s.length - (offset + 1) = n by omega] at hnone
        rw [hended, hnone]
        rfl

end LiteralCode

end Snobol4
