import Mathlib.Algebra.Ring.Nat
import Mathlib.Data.List.GetD
import Mathlib.Data.List.Nodup
import Mathlib.Data.List.Perm.Subperm
import Snobol4.Bytes
import Snobol4.Support.Tries

/-!
# AltTrie — the trie of an alternation of literals (`search_tiers.c`)

`trie_insert` adds the literals of an alternation in the order of its branches to a pool of
nodes and edges, `trie_match` walks along the subject and keeps the terminal of the lowest
order.  The result is that of the ordered alternation: the first literal that stands at the
position.
-/

namespace Snobol4

/-! ## The pool -/

/-- `SNOBOL_AUTO_NULL` -/
def autoNull : Nat := 2 ^ 16 - 1

/-- `SNOBOL_AUTO_MAX_NODES` -/
def autoMaxNodes : Nat := 256

/-- `SNOBOL_AUTO_MAX_EDGES` -/
def autoMaxEdges : Nat := 1024

/-- `snobol_auto_edge_t` -/
structure AutoEdge where
  byte : UInt8
  next : Nat
  sibling : Nat
  deriving Repr, DecidableEq

/-- `snobol_auto_node_t` -/
structure AutoNode where
  firstEdge : Nat
  isEnd : Bool
  endOrder : Nat
  deriving Repr, DecidableEq

/-- `snobol_auto_trie_t`, up to `node_count` and `edge_count`. -/
structure AutoTrie where
  nodes : List AutoNode
  edges : List AutoEdge
  deriving Repr, DecidableEq

/-- A node as `trie_insert` creates it. -/
def AutoNode.blank : AutoNode := ⟨autoNull, false, 0⟩

namespace AutoTrie

/-- The trie with the root alone. -/
def empty : AutoTrie := ⟨[.blank], []⟩

def node (t : AutoTrie) (n : Nat) : AutoNode := t.nodes.getD n .blank

def edge (t : AutoTrie) (e : Nat) : AutoEdge := t.edges.getD e ⟨0, autoNull, autoNull⟩

/-- The loop over the edges of a node: the edge for the byte, or `SNOBOL_AUTO_NULL`, and the
edge before it. -/
def findEdge (t : AutoTrie) (b : UInt8) : Nat → Nat → Nat → Nat × Nat
  | 0, e, prev => (e, prev)
  | fuel + 1, e, prev =>
      if e = autoNull then (e, prev)
      else if (t.edge e).byte = b then (e, prev)
      else findEdge t b fuel (t.edge e).sibling e

/-- The edge for the byte at a node; no chain is longer than the pool. -/
def edgeAt (t : AutoTrie) (n : Nat) (b : UInt8) : Nat × Nat :=
  t.findEdge b (t.edges.length + 1) (t.node n).firstEdge autoNull

/-- A new edge at the end of a chain, to a new node. -/
def addEdge (t : AutoTrie) (n prev : Nat) (b : UInt8) : AutoTrie where
  nodes :=
    (if prev = autoNull then t.nodes.set n { t.node n with firstEdge := t.edges.length }
      else t.nodes) ++ [.blank]
  edges :=
    (if prev = autoNull then t.edges
      else t.edges.set prev { t.edge prev with sibling := t.edges.length }) ++
      [⟨b, t.nodes.length, autoNull⟩]

/-- Mark the terminal. -/
def markEnd (t : AutoTrie) (n order : Nat) : AutoTrie :=
  if (t.node n).isEnd = false ∨ order < (t.node n).endOrder then
    { t with nodes := t.nodes.set n { t.node n with isEnd := true, endOrder := order } }
  else t

/-- `trie_insert` from the node `n` on. -/
def insertFrom (order : Nat) : Bytes → Nat → AutoTrie → Option AutoTrie
  | [], n, t => some (t.markEnd n order)
  | b :: rest, n, t =>
      let (e, prev) := t.edgeAt n b
      if e ≠ autoNull then insertFrom order rest (t.edge e).next t
      else if autoMaxEdges ≤ t.edges.length ∨ autoMaxNodes ≤ t.nodes.length then none
      else insertFrom order rest t.nodes.length (t.addEdge n prev b)

/-- `trie_insert` -/
def trieInsert (t : AutoTrie) (s : Bytes) (order : Nat) : Option AutoTrie :=
  insertFrom order s 0 t

/-- The loop of `trie_match`: the best order and its length. -/
def matchLoop (t : AutoTrie) : Bytes → Nat → Nat → Nat × Nat → Nat × Nat
  | [], _, _, best => best
  | b :: rest, n, len, best =>
      let e := (t.edgeAt n b).1
      if e = autoNull then best
      else
        let m := (t.edge e).next
        let best :=
          if (t.node m).isEnd ∧ (t.node m).endOrder < best.1 then ((t.node m).endOrder, len + 1)
          else best
        matchLoop t rest m (len + 1) best

/-- `trie_match` -/
def trieMatch (t : AutoTrie) (subject : Bytes) (offset : Nat) : Option Nat :=
  let start := if (t.node 0).isEnd then ((t.node 0).endOrder, 0) else (2 ^ 16 - 1, 0)
  let best := t.matchLoop (subject.drop offset) 0 0 start
  if best.1 ≠ 2 ^ 16 - 1 then some best.2 else none

/-- The loop over the literals of `snobol_build_alt_trie`; the order has 16 bits. -/
def insertAll : List Bytes → Nat → AutoTrie → Option AutoTrie
  | [], _, t => some t
  | lit :: lits, order, t => do
      let t ← t.trieInsert lit order
      insertAll lits ((order + 1) % 2 ^ 16) t

end AutoTrie

/-! ## Chains of edges -/

/-- The edges from `e` on are `ks`. -/
def Chain (t : AutoTrie) : Nat → List Nat → Prop
  | e, [] => e = autoNull
  | e, k :: ks => e = k ∧ k < t.edges.length ∧ Chain t (t.edge k).sibling ks

namespace AutoTrie

variable {t : AutoTrie}

theorem findEdge_chain (b : UInt8) (prev : Nat) {ks : List Nat} {e fuel : Nat} (h : Chain t e ks)
    (hsmall : t.edges.length ≤ autoNull) (hfuel : ks.length < fuel) :
    (∃ k, ks.find? (fun k => (t.edge k).byte == b) = some k ∧ (t.findEdge b fuel e prev).1 = k) ∨
    (ks.find? (fun k => (t.edge k).byte == b) = none ∧
      t.findEdge b fuel e prev = (autoNull, ks.getLast?.getD prev)) := by
  induction ks generalizing e fuel prev with
  | nil =>
    obtain ⟨fuel, rfl⟩ : ∃ n, fuel = n + 1 := ⟨fuel - 1, by omega⟩
    have he : e = autoNull := h
    subst he
    refine .inr ⟨rfl, ?_⟩
    rw [findEdge, if_pos rfl]
    rfl
  | cons k ks ih =>
    obtain ⟨fuel, rfl⟩ : ∃ n, fuel = n + 1 := ⟨fuel - 1, by omega⟩
    obtain ⟨rfl, hk, hrest⟩ := h
    rw [findEdge, if_neg (by omega)]
    by_cases hb : (t.edge e).byte = b
    · rw [if_pos hb]
      refine .inl ⟨e, ?_, rfl⟩
      rw [List.find?_cons_of_pos (by simpa using hb)]
    · rw [if_neg hb, List.find?_cons_of_neg (by simpa using hb)]
      have hfuel' : ks.length < fuel := by
        simp only [List.length_cons] at hfuel
        omega
      obtain hfound | ⟨hnone, hend⟩ := ih e hrest hfuel'
      · exact .inl hfound
      · refine .inr ⟨hnone, hend.trans ?_⟩
        cases ks with
        | nil => rfl
        | cons k' ks =>
          obtain ⟨last, hlast⟩ : ∃ last, (k' :: ks).getLast? = some last :=
            ⟨_, List.getLast?_eq_some_getLast (by simp)⟩
          rw [List.getLast?_cons_cons, hlast]
          rfl

/-- The chains of the nodes, one for each node. -/
structure Chained (t : AutoTrie) (kids : Nat → List Nat) : Prop where
  chain : ∀ n < t.nodes.length, Chain t (t.node n).firstEdge (kids n)
  blank : ∀ n, t.nodes.length ≤ n → kids n = []
  nodup : ∀ n, (kids n).Nodup
  disjoint : ∀ n n' k, k ∈ kids n → k ∈ kids n' → n = n'
  range : ∀ n k, k ∈ kids n → k < t.edges.length
  target : ∀ n k, k ∈ kids n → 0 < (t.edge k).next ∧ (t.edge k).next < t.nodes.length
  next : ∀ n n' k k', k ∈ kids n → k' ∈ kids n' → (t.edge k).next = (t.edge k').next → k = k'
  bytes : ∀ n k k', k ∈ kids n → k' ∈ kids n → (t.edge k).byte = (t.edge k').byte → k = k'
  count : t.edges.length + 1 = t.nodes.length
  small : t.nodes.length ≤ autoMaxNodes

/-- The child of a node for a byte. -/
def child (t : AutoTrie) (kids : Nat → List Nat) (n : Nat) (b : UInt8) : Option Nat :=
  ((kids n).find? fun k => (t.edge k).byte == b).map fun k => (t.edge k).next

variable {kids : Nat → List Nat}

theorem child_eq_some (h : Chained t kids) {n m : Nat} {b : UInt8} :
    t.child kids n b = some m ↔ ∃ k ∈ kids n, (t.edge k).byte = b ∧ (t.edge k).next = m := by
  unfold child
  rw [Option.map_eq_some_iff]
  constructor
  · rintro ⟨k, hk, rfl⟩
    exact ⟨k, List.mem_of_find?_eq_some hk, by simpa using List.find?_some hk, rfl⟩
  · rintro ⟨k, hk, hb, rfl⟩
    cases hfind : (kids n).find? fun k => (t.edge k).byte == b with
    | none =>
      have := List.find?_eq_none.mp hfind k hk
      simp [hb] at this
    | some k' =>
      have hb' : (t.edge k').byte = b := by simpa using List.find?_some hfind
      have heq := h.bytes n k k' hk (List.mem_of_find?_eq_some hfind) (hb.trans hb'.symm)
      exact ⟨k', rfl, by rw [heq]⟩

theorem Chained.isTree (h : Chained t kids) : Tries.IsTree (t.child kids) 0 where
  noRoot n b hroot := by
    obtain ⟨k, hk, -, hnext⟩ := (child_eq_some h).mp hroot
    have := (h.target n k hk).1
    omega
  unique n n' b b' m hm hm' := by
    obtain ⟨k, hk, rfl, hnext⟩ := (child_eq_some h).mp hm
    obtain ⟨k', hk', rfl, hnext'⟩ := (child_eq_some h).mp hm'
    obtain rfl := h.next n n' k k' hk hk' (hnext.trans hnext'.symm)
    exact ⟨h.disjoint n n' k hk hk', rfl⟩

theorem Chained.kids_length (h : Chained t kids) (n : Nat) : (kids n).length ≤ t.edges.length := by
  have hsub : kids n ⊆ List.range t.edges.length :=
    fun k hk => List.mem_range.mpr (h.range n k hk)
  have hlen := (List.subperm_of_subset (h.nodup n) hsub).length_le
  rwa [List.length_range] at hlen

/-- The edge for a byte is that of the child. -/
theorem Chained.edgeAt (h : Chained t kids) {n : Nat} (hn : n < t.nodes.length) (b : UInt8) :
    (∃ m, t.child kids n b = some m ∧ (t.edgeAt n b).1 ≠ autoNull ∧
      (t.edge (t.edgeAt n b).1).next = m) ∨
    (t.child kids n b = none ∧ t.edgeAt n b = (autoNull, (kids n).getLast?.getD autoNull)) := by
  have hcount := h.count
  have hsmall := h.small
  have hlt : t.edges.length < autoNull := by
    unfold autoMaxNodes at hsmall
    unfold autoNull
    omega
  have hlen := h.kids_length n
  obtain ⟨k, hfind, hedge⟩ | ⟨hnone, hend⟩ :=
    findEdge_chain b autoNull (h.chain n hn) (Nat.le_of_lt hlt)
      (show (kids n).length < t.edges.length + 1 by omega)
  · refine .inl ⟨(t.edge k).next, by rw [child, hfind]; rfl, ?_, ?_⟩
    · have := h.range n k (List.mem_of_find?_eq_some hfind)
      rw [AutoTrie.edgeAt, hedge]
      omega
    · rw [AutoTrie.edgeAt, hedge]
  · exact .inr ⟨by rw [child, hnone]; rfl, hend⟩

/-! ## Growing -/

section AddEdge

variable {n : Nat} {b : UInt8}

theorem length_addEdge (t : AutoTrie) (n prev : Nat) (b : UInt8) :
    (t.addEdge n prev b).nodes.length = t.nodes.length + 1 ∧
      (t.addEdge n prev b).edges.length = t.edges.length + 1 := by
  unfold addEdge
  constructor <;> split <;> simp

/-- The nodes that are there change only where the chain starts. -/
theorem node_addEdge {prev m : Nat} (hm : m < t.nodes.length) :
    (t.addEdge n prev b).node m =
      if prev = autoNull ∧ m = n then { t.node n with firstEdge := t.edges.length }
      else t.node m := by
  unfold node addEdge
  by_cases hprev : prev = autoNull
  · simp only [hprev, if_true, true_and, List.getD_eq_getElem?_getD]
    rw [List.getElem?_append_left (by rw [List.length_set]; exact hm)]
    by_cases hmn : m = n
    · subst hmn
      rw [if_pos rfl, List.getElem?_set_self hm]
      rfl
    · rw [if_neg hmn, List.getElem?_set_ne (Ne.symm hmn)]
  · simp only [hprev, if_false, false_and, List.getD_eq_getElem?_getD]
    rw [List.getElem?_append_left hm]

theorem node_addEdge_new (t : AutoTrie) (n prev : Nat) (b : UInt8) :
    (t.addEdge n prev b).node t.nodes.length = .blank := by
  unfold node addEdge
  split <;> simp

/-- The edges that are there change only at the end of the chain. -/
theorem edge_addEdge {prev k : Nat} (hk : k < t.edges.length) :
    (t.addEdge n prev b).edge k =
      if prev ≠ autoNull ∧ k = prev then { t.edge prev with sibling := t.edges.length }
      else t.edge k := by
  unfold edge addEdge
  by_cases hprev : prev = autoNull
  · simp only [hprev, if_true, ne_eq, not_true_eq_false, false_and, if_false,
      List.getD_eq_getElem?_getD]
    rw [List.getElem?_append_left hk]
  · simp only [hprev, if_false, ne_eq, not_false_eq_true, true_and, List.getD_eq_getElem?_getD]
    rw [List.getElem?_append_left (by rw [List.length_set]; exact hk)]
    by_cases hkp : k = prev
    · subst hkp
      rw [if_pos rfl, List.getElem?_set_self hk]
      rfl
    · rw [if_neg hkp, List.getElem?_set_ne (Ne.symm hkp)]

theorem edge_addEdge_new (t : AutoTrie) (n prev : Nat) (b : UInt8) :
    (t.addEdge n prev b).edge t.edges.length = ⟨b, t.nodes.length, autoNull⟩ := by
  unfold edge addEdge
  split <;> simp

/-- Byte and target of an edge stay. -/
theorem edge_addEdge_kept (n prev : Nat) (b : UInt8) {k : Nat} (hk : k < t.edges.length) :
    ((t.addEdge n prev b).edge k).byte = (t.edge k).byte ∧
      ((t.addEdge n prev b).edge k).next = (t.edge k).next := by
  rw [edge_addEdge hk]
  split
  · rename_i hat
    rw [hat.2]
    exact ⟨rfl, rfl⟩
  · exact ⟨rfl, rfl⟩

/-- A chain that the new edge is not put behind. -/
theorem chain_addEdge_other {prev : Nat} {ks : List Nat} {e : Nat} (h : Chain t e ks)
    (hprev : prev ≠ autoNull → prev ∉ ks) : Chain (t.addEdge n prev b) e ks := by
  induction ks generalizing e with
  | nil => exact h
  | cons k ks ih =>
    obtain ⟨rfl, hk, hrest⟩ := h
    refine ⟨rfl, ?_, ?_⟩
    · rw [(length_addEdge t n prev b).2]
      exact Nat.lt_succ_of_lt hk
    · rw [edge_addEdge hk, if_neg]
      · exact ih hrest fun hne hmem => hprev hne (List.mem_cons_of_mem _ hmem)
      · rintro ⟨hne, rfl⟩
        exact hprev hne List.mem_cons_self

/-- The chain that the new edge is put behind. -/
theorem chain_addEdge_self {ks : List Nat} {e : Nat} (h : Chain t e ks) (hne : ks ≠ [])
    (hnodup : ks.Nodup) (hsmall : t.edges.length < autoNull) :
    Chain (t.addEdge n (ks.getLast?.getD autoNull) b) e (ks ++ [t.edges.length]) := by
  induction ks generalizing e with
  | nil => exact absurd rfl hne
  | cons k ks ih =>
    obtain ⟨rfl, hk, hrest⟩ := h
    obtain ⟨hnot, hnodup⟩ := List.nodup_cons.mp hnodup
    have hlen := (length_addEdge t n ((e :: ks).getLast?.getD autoNull) b).2
    refine ⟨rfl, by omega, ?_⟩
    cases ks with
    | nil =>
      have hprev : ([e] : List Nat).getLast?.getD autoNull = e := rfl
      rw [hprev] at hlen ⊢
      rw [edge_addEdge hk, if_pos ⟨by omega, rfl⟩]
      refine ⟨rfl, by omega, ?_⟩
      rw [edge_addEdge_new]
      rfl
    | cons k' ks =>
      rw [List.getLast?_cons_cons] at hlen ⊢
      have hlast : (k' :: ks).getLast?.getD autoNull ∈ k' :: ks := by
        rw [List.getLast?_eq_some_getLast (by simp)]
        exact List.getLast_mem _
      rw [edge_addEdge hk, if_neg]
      · exact ih hrest (by simp) hnodup
      · rintro ⟨-, rfl⟩
        exact hnot hlast

/-- The chains behind the insertion of an edge. -/
def addKid (kids : Nat → List Nat) (n e : Nat) : Nat → List Nat :=
  Function.update kids n (kids n ++ [e])

theorem Chained.addEdge (h : Chained t kids) (hn : n < t.nodes.length)
    (hnew : t.child kids n b = none) (hroom : t.nodes.length < autoMaxNodes) :
    Chained (t.addEdge n ((kids n).getLast?.getD autoNull) b) (addKid kids n t.edges.length) := by
  have hcount := h.count
  have hnull : autoNull = 65535 := rfl
  have hmax : autoMaxNodes = 256 := rfl
  obtain ⟨hnodes, hedges⟩ := length_addEdge t n ((kids n).getLast?.getD autoNull) b
  have hlast : ∀ ks : List Nat, (∀ k ∈ ks, k < t.edges.length) →
      ks.getLast?.getD autoNull ≠ autoNull → ks.getLast?.getD autoNull ∈ ks := by
    intro ks _ hne
    cases hks : ks.getLast? with
    | none =>
      rw [hks] at hne
      exact absurd rfl hne
    | some k => exact List.mem_of_getLast? hks
  have hmem : ∀ m k, k ∈ addKid kids n t.edges.length m →
      k ∈ kids m ∧ k < t.edges.length ∨ m = n ∧ k = t.edges.length := by
    intro m k hk
    unfold addKid at hk
    by_cases hm : m = n
    · subst hm
      rw [Function.update_self] at hk
      obtain hk | hk := List.mem_append.mp hk
      · exact .inl ⟨hk, h.range m k hk⟩
      · exact .inr ⟨rfl, List.mem_singleton.mp hk⟩
    · rw [Function.update_of_ne hm] at hk
      exact .inl ⟨hk, h.range m k hk⟩
  have hfresh : ∀ k ∈ kids n, (t.edge k).byte ≠ b := by
    intro k hk hb
    have := (child_eq_some h).mpr ⟨k, hk, hb, rfl⟩
    rw [hnew] at this
    cases this
  have hold : ∀ k, k < t.edges.length →
      ((t.addEdge n ((kids n).getLast?.getD autoNull) b).edge k).byte = (t.edge k).byte ∧
      ((t.addEdge n ((kids n).getLast?.getD autoNull) b).edge k).next = (t.edge k).next :=
    fun k hk => edge_addEdge_kept _ _ _ hk
  have hadded := edge_addEdge_new t n ((kids n).getLast?.getD autoNull) b
  constructor
  · intro m hm
    rw [hnodes] at hm
    obtain hlt | rfl := Nat.lt_or_eq_of_le (Nat.le_of_lt_succ hm)
    · rw [node_addEdge hlt]
      by_cases hmn : m = n
      · subst hmn
        rw [addKid, Function.update_self]
        by_cases hnil : kids m = []
        · -- the first edge of the node
          rw [hnil]
          rw [if_pos ⟨rfl, rfl⟩]
          rw [hnil] at hadded hedges
          refine ⟨rfl, by rw [List.getLast?_nil, Option.getD_none] at *; omega, ?_⟩
          have hsib := congrArg AutoEdge.sibling hadded
          exact hsib
        · have hne : (kids m).getLast?.getD autoNull ≠ autoNull := by
            rw [List.getLast?_eq_some_getLast hnil, Option.getD_some]
            have := h.range m _ (List.getLast_mem hnil)
            omega
          rw [if_neg fun hat => hne hat.1]
          exact chain_addEdge_self (h.chain m hlt) hnil (h.nodup m) (by omega)
      · rw [if_neg fun hat => hmn hat.2, addKid, Function.update_of_ne hmn]
        refine chain_addEdge_other (h.chain m hlt) fun hne hmem' => hmn ?_
        exact h.disjoint m n _ hmem' (hlast _ (h.range n) hne)
    · rw [node_addEdge_new, addKid, Function.update_of_ne (by omega), h.blank _ (Nat.le_refl _)]
      rfl
  · intro m hm
    rw [hnodes] at hm
    rw [addKid, Function.update_of_ne (by omega)]
    exact h.blank m (by omega)
  · intro m
    unfold addKid
    by_cases hm : m = n
    · subst hm
      rw [Function.update_self]
      refine List.nodup_append.mpr ⟨h.nodup m, List.nodup_singleton _, ?_⟩
      intro k hk k' hk' heq
      have := h.range m k hk
      rw [List.mem_singleton] at hk'
      omega
    · rw [Function.update_of_ne hm]
      exact h.nodup m
  · intro m m' k hk hk'
    obtain ⟨hk, hlt⟩ | ⟨rfl, rfl⟩ := hmem m k hk
    · obtain ⟨hk', -⟩ | ⟨rfl, rfl⟩ := hmem m' k hk'
      · exact h.disjoint m m' k hk hk'
      · omega
    · obtain ⟨-, hlt⟩ | ⟨rfl, -⟩ := hmem m' _ hk'
      · omega
      · rfl
  · intro m k hk
    rw [hedges]
    obtain ⟨-, hlt⟩ | ⟨-, rfl⟩ := hmem m k hk
    · exact Nat.lt_succ_of_lt hlt
    · exact Nat.lt_succ_self _
  · intro m k hk
    obtain ⟨hk, hlt⟩ | ⟨-, rfl⟩ := hmem m k hk
    · rw [(hold k hlt).2, hnodes]
      have := h.target m k hk
      omega
    · rw [hadded, hnodes]
      exact ⟨Nat.lt_of_le_of_lt (Nat.zero_le n) hn, Nat.lt_succ_self _⟩
  · intro m m' k k' hk hk' heq
    obtain ⟨hk, hlt⟩ | ⟨-, rfl⟩ := hmem m k hk
    · obtain ⟨hk', hlt'⟩ | ⟨-, rfl⟩ := hmem m' k' hk'
      · rw [(hold k hlt).2, (hold k' hlt').2] at heq
        exact h.next m m' k k' hk hk' heq
      · rw [(hold k hlt).2, hadded] at heq
        have := (h.target m k hk).2
        simp only at heq
        omega
    · obtain ⟨hk', hlt'⟩ | ⟨-, rfl⟩ := hmem m' k' hk'
      · rw [(hold k' hlt').2, hadded] at heq
        have := (h.target m' k' hk').2
        simp only at heq
        omega
      · rfl
  · intro m k k' hk hk' heq
    obtain ⟨hkm, hlt⟩ | ⟨hm, hke⟩ := hmem m k hk
    · obtain ⟨hkm', hlt'⟩ | ⟨hm', hke'⟩ := hmem m k' hk'
      · rw [(hold k hlt).1, (hold k' hlt').1] at heq
        exact h.bytes m k k' hkm hkm' heq
      · rw [(hold k hlt).1, hke', hadded] at heq
        exact absurd heq (hfresh k (hm' ▸ hkm))
    · obtain ⟨hkm', hlt'⟩ | ⟨-, hke'⟩ := hmem m k' hk'
      · rw [(hold k' hlt').1, hke, hadded] at heq
        exact absurd heq.symm (hfresh k' (hm ▸ hkm'))
      · exact hke.trans hke'.symm
  · omega
  · omega

/-- The children behind the insertion of an edge. -/
theorem Chained.child_addEdge (h : Chained t kids) (hn : n < t.nodes.length)
    (hnew : t.child kids n b = none) (hroom : t.nodes.length < autoMaxNodes) :
    (t.addEdge n ((kids n).getLast?.getD autoNull) b).child (addKid kids n t.edges.length) =
      Tries.grow (t.child kids) n b t.nodes.length := by
  have hadd := h.addEdge hn hnew hroom
  have hadded := edge_addEdge_new t n ((kids n).getLast?.getD autoNull) b
  funext m a
  refine Option.ext fun x => ?_
  rw [child_eq_some hadd, Tries.grow]
  constructor
  · rintro ⟨k, hk, rfl, rfl⟩
    unfold addKid at hk
    by_cases hm : m = n
    · subst hm
      rw [Function.update_self] at hk
      obtain hk | hk := List.mem_append.mp hk
      · obtain ⟨hb, hnext⟩ := edge_addEdge_kept m ((kids m).getLast?.getD autoNull) b
          (h.range m k hk)
        have hc := (child_eq_some h).mpr ⟨k, hk, rfl, rfl⟩
        rw [if_neg, hb, hnext, hc]
        rintro ⟨-, heq⟩
        rw [hb] at heq
        rw [heq, hnew] at hc
        cases hc
      · obtain rfl := List.mem_singleton.mp hk
        rw [hadded, if_pos ⟨rfl, rfl⟩]
    · rw [Function.update_of_ne hm] at hk
      obtain ⟨hb, hnext⟩ := edge_addEdge_kept n ((kids n).getLast?.getD autoNull) b
        (h.range m k hk)
      rw [if_neg fun hat => hm hat.1, hb, hnext]
      exact (child_eq_some h).mpr ⟨k, hk, rfl, rfl⟩
  · intro hx
    split at hx
    · rename_i hat
      obtain ⟨rfl, rfl⟩ := hat
      obtain rfl := Option.some.inj hx
      refine ⟨t.edges.length, ?_, by rw [hadded], by rw [hadded]⟩
      rw [addKid, Function.update_self]
      exact List.mem_append_right _ List.mem_cons_self
    · obtain ⟨k, hk, rfl, rfl⟩ := (child_eq_some h).mp hx
      obtain ⟨hb, hnext⟩ := edge_addEdge_kept n ((kids n).getLast?.getD autoNull) b
        (h.range m k hk)
      refine ⟨k, ?_, hb, hnext⟩
      unfold addKid
      by_cases hm : m = n
      · subst hm
        rw [Function.update_self]
        exact List.mem_append_left _ hk
      · rwa [Function.update_of_ne hm]

end AddEdge

/-! ## Orders of texts -/

/-- The order of the literal that ends at a node. -/
def mark (t : AutoTrie) (n : Nat) : Option Nat :=
  if (t.node n).isEnd then some (t.node n).endOrder else none

/-- The order of a text. -/
def orderOf (t : AutoTrie) (kids : Nat → List Nat) (w : Bytes) : Option Nat :=
  Tries.markOf (t.child kids) 0 t.mark w

theorem node_of_le {n : Nat} (hn : t.nodes.length ≤ n) : t.node n = .blank :=
  List.getD_eq_default _ _ hn

theorem Chained.walk_lt (h : Chained t kids) {w : Bytes} {m : Nat}
    (hw : Tries.walk (t.child kids) 0 w = some m) : m < t.nodes.length := by
  obtain rfl | ⟨w, b, rfl⟩ := List.eq_nil_or_concat' w
  · cases hw
    have := h.count
    omega
  · rw [Tries.walk_concat, Option.bind_eq_some_iff] at hw
    obtain ⟨n, -, hn⟩ := hw
    obtain ⟨k, hk, -, rfl⟩ := (child_eq_some h).mp hn
    exact (h.target n k hk).2

theorem Chained.child_new (h : Chained t kids) (b : UInt8) :
    t.child kids t.nodes.length b = none := by
  rw [child, h.blank _ (Nat.le_refl _)]
  rfl

/-- A new edge marks nothing. -/
theorem mark_addEdge (t : AutoTrie) (n prev : Nat) (b : UInt8) :
    (t.addEdge n prev b).mark = t.mark := by
  have hnodes := (length_addEdge t n prev b).1
  funext m
  unfold mark
  obtain hlt | rfl | hgt := Nat.lt_trichotomy m t.nodes.length
  · rw [node_addEdge hlt]
    split
    · rename_i hat
      rw [hat.2]
    · rfl
  · rw [node_addEdge_new, node_of_le (Nat.le_refl _)]
  · rw [node_of_le (by omega), node_of_le (by omega)]

theorem chain_of_edges {t' : AutoTrie} (hedges : t'.edges = t.edges) {ks : List Nat} {e : Nat}
    (h : Chain t e ks) : Chain t' e ks := by
  induction ks generalizing e with
  | nil => exact h
  | cons k ks ih =>
    obtain ⟨hek, hk, hrest⟩ := h
    refine ⟨hek, hedges ▸ hk, ?_⟩
    have hedge : t'.edge k = t.edge k := by rw [edge, edge, hedges]
    rw [hedge]
    exact ih hrest

/-- The chains are those of the edges and of the nodes' first edges. -/
theorem Chained.of_edges {t' : AutoTrie} (h : Chained t kids) (hedges : t'.edges = t.edges)
    (hlen : t'.nodes.length = t.nodes.length)
    (hfirst : ∀ n, (t'.node n).firstEdge = (t.node n).firstEdge) : Chained t' kids := by
  have hedge : t'.edge = t.edge := by
    funext k
    rw [edge, edge, hedges]
  constructor
  · intro n hn
    rw [hfirst]
    exact chain_of_edges hedges (h.chain n (hlen ▸ hn))
  · rw [hlen]
    exact h.blank
  · exact h.nodup
  · exact h.disjoint
  · rw [hedges]
    exact h.range
  · rw [hedge, hlen]
    exact h.target
  · rw [hedge]
    exact h.next
  · rw [hedge]
    exact h.bytes
  · rw [hedges, hlen]
    exact h.count
  · rw [hlen]
    exact h.small

/-- The order that stays when a text is marked once more. -/
def lower (old : Option Nat) (order : Nat) : Nat := old.elim order (min order)

theorem edges_markEnd (t : AutoTrie) (n order : Nat) : (t.markEnd n order).edges = t.edges := by
  unfold markEnd
  split <;> rfl

theorem length_markEnd (t : AutoTrie) (n order : Nat) :
    (t.markEnd n order).nodes.length = t.nodes.length := by
  unfold markEnd
  split
  · exact List.length_set
  · rfl

theorem node_markEnd {n : Nat} (order : Nat) (hn : n < t.nodes.length) (m : Nat) :
    (t.markEnd n order).node m =
      if m = n then { t.node n with isEnd := true, endOrder := lower (t.mark n) order }
      else t.node m := by
  have hmark : (t.node n).isEnd = true →
      lower (t.mark n) order = min order (t.node n).endOrder := by
    intro hend
    rw [mark, if_pos hend]
    rfl
  unfold markEnd
  by_cases hm : m = n
  · subst hm
    rw [if_pos rfl]
    split
    · rename_i hset
      rw [node, List.getD_eq_getElem?_getD, List.getElem?_set_self hn, Option.getD_some]
      cases hend : (t.node m).isEnd with
      | false =>
        rw [mark, hend]
        rfl
      | true =>
        have hlt : order < (t.node m).endOrder := by simpa [hend] using hset
        rw [hmark hend, Nat.min_eq_left (Nat.le_of_lt hlt)]
    · rename_i hset
      simp only [not_or, Nat.not_lt, Bool.not_eq_false] at hset
      rw [hmark hset.1, Nat.min_eq_right hset.2, ← hset.1]
  · rw [if_neg hm]
    split
    · rw [node, List.getD_eq_getElem?_getD, List.getElem?_set_ne (Ne.symm hm), node,
        List.getD_eq_getElem?_getD]
    · rfl

theorem Chained.markEnd (h : Chained t kids) {n : Nat} (hn : n < t.nodes.length) (order : Nat) :
    Chained (t.markEnd n order) kids := by
  refine h.of_edges (edges_markEnd t n order) (length_markEnd t n order) fun m => ?_
  rw [node_markEnd order hn]
  split
  · rename_i hm
    rw [hm]
  · rfl

theorem child_markEnd (t : AutoTrie) (kids : Nat → List Nat) (n order : Nat) :
    (t.markEnd n order).child kids = t.child kids := by
  funext m b
  unfold child edge
  rw [edges_markEnd]

theorem mark_markEnd {n : Nat} (order : Nat) (hn : n < t.nodes.length) :
    (t.markEnd n order).mark = Function.update t.mark n (some (lower (t.mark n) order)) := by
  funext m
  by_cases hm : m = n
  · subst hm
    rw [Function.update_self, mark, node_markEnd order hn, if_pos rfl]
    rfl
  · rw [Function.update_of_ne hm, mark, node_markEnd order hn, if_neg hm]
    rfl

/-! ## Insertion -/

/-- The insertion of a text changes the order of this text only. -/
theorem insertFrom_spec {order : Nat} {s p : Bytes} {n : Nat} {t t' : AutoTrie}
    {kids : Nat → List Nat} (h : Chained t kids) (hp : Tries.walk (t.child kids) 0 p = some n)
    (hins : insertFrom order s n t = some t') :
    ∃ kids', Chained t' kids' ∧ ∀ w, t'.orderOf kids' w =
      if w = p ++ s then some (lower (t.orderOf kids w) order) else t.orderOf kids w := by
  induction s generalizing p n t kids with
  | nil =>
    obtain rfl : t.markEnd n order = t' := Option.some.inj hins
    have hn := h.walk_lt hp
    refine ⟨kids, h.markEnd hn order, fun w => ?_⟩
    rw [orderOf, child_markEnd, mark_markEnd order hn, Tries.markOf_update h.isTree hp,
      List.append_nil]
    split
    · rename_i hw
      rw [hw, orderOf, Tries.markOf, hp, Option.bind_some]
    · rfl
  | cons b s ih =>
    have hn := h.walk_lt hp
    have hpath : p ++ b :: s = (p ++ [b]) ++ s := by simp
    have hedge := h.edgeAt hn b
    rw [hpath]
    rw [insertFrom] at hins
    generalize t.edgeAt n b = found at hedge hins
    obtain ⟨e, prev⟩ := found
    dsimp only at hedge hins
    obtain ⟨m, hchild, hne, hnext⟩ | ⟨hnone, hend⟩ := hedge
    · rw [if_pos hne, hnext] at hins
      refine ih h ?_ hins
      rw [Tries.walk_concat, hp, Option.bind_some, hchild]
    · obtain ⟨rfl, rfl⟩ := Prod.mk.inj hend
      rw [if_neg (by simp)] at hins
      split at hins
      · cases hins
      · rename_i hroom
        have hroom : t.nodes.length < autoMaxNodes := by omega
        have hadd := h.addEdge hn hnone hroom
        have hchild := h.child_addEdge hn hnone hroom
        have hmn : t.nodes.length ≠ n := by omega
        obtain ⟨kids', hchained, horder⟩ := ih (p := p ++ [b]) hadd (by
          rw [hchild, Tries.walk_grow hnone h.child_new hmn h.isTree hp, if_pos rfl]) hins
        refine ⟨kids', hchained, fun w => ?_⟩
        have hkept : (t.addEdge n ((kids n).getLast?.getD autoNull) b).orderOf
            (addKid kids n t.edges.length) w = t.orderOf kids w := by
          rw [orderOf, hchild, mark_addEdge]
          refine Tries.markOf_grow hnone h.child_new hmn h.isTree hp ?_ w
          rw [mark, node_of_le (Nat.le_refl _)]
          rfl
        rw [horder, hkept]

theorem chained_empty : Chained .empty fun _ => [] where
  chain n hn := by
    obtain rfl : n = 0 := by simpa [empty] using hn
    rfl
  blank _ _ := rfl
  nodup _ := List.nodup_nil
  disjoint _ _ _ h := by cases h
  range _ _ h := by cases h
  target _ _ h := by cases h
  next _ _ _ _ h := by cases h
  bytes _ _ _ h := by cases h
  count := rfl
  small := by decide

theorem orderOf_empty (w : Bytes) : empty.orderOf (fun _ => []) w = none := by
  cases w <;> rfl

/-- Behind the insertion of the literals a text has the order of its first occurrence. -/
theorem insertAll_spec {lits : List Bytes} {order : Nat} {t t' : AutoTrie} {kids : Nat → List Nat}
    (h : Chained t kids) (hins : insertAll lits order t = some t')
    (hroom : order + lits.length < 2 ^ 16) (hlow : ∀ w o, t.orderOf kids w = some o → o < order) :
    ∃ kids', Chained t' kids' ∧ ∀ w, t'.orderOf kids' w =
      (t.orderOf kids w).or ((lits.idxOf? w).map (order + ·)) := by
  induction lits generalizing order t kids with
  | nil =>
    cases hins
    exact ⟨kids, h, fun w => by simp⟩
  | cons lit lits ih =>
    rw [insertAll] at hins
    obtain ⟨t₁, hlit, hins⟩ := Option.bind_eq_some_iff.mp hins
    obtain ⟨kids₁, h₁, horder₁⟩ := insertFrom_spec h (p := []) rfl hlit
    rw [List.length_cons] at hroom
    rw [Nat.mod_eq_of_lt (by omega)] at hins
    have hlow₁ : ∀ w o, t₁.orderOf kids₁ w = some o → o < order + 1 := by
      intro w o ho
      rw [horder₁] at ho
      split at ho
      · obtain rfl := Option.some.inj ho
        cases hold : t.orderOf kids w with
        | none => exact Nat.lt_succ_self _
        | some o => exact Nat.lt_succ_of_le (Nat.min_le_left _ _)
      · exact Nat.lt_succ_of_lt (hlow w o ho)
    obtain ⟨kids', h', horder⟩ := ih h₁ hins (by omega) hlow₁
    refine ⟨kids', h', fun w => ?_⟩
    rw [horder, horder₁, List.nil_append, List.idxOf?_cons]
    by_cases hw : w = lit
    · subst hw
      rw [if_pos rfl, Option.some_or, if_pos (by simp)]
      cases hold : t.orderOf kids w with
      | none => rfl
      | some o =>
        have := hlow w o hold
        show some (min order o) = some o
        rw [Nat.min_eq_right (Nat.le_of_lt this)]
    · rw [if_neg hw, if_neg (by simpa using Ne.symm hw), Option.map_map]
      congr 2
      funext k
      exact Nat.add_right_comm order 1 k ▸ (Nat.add_assoc order k 1)

/-! ## The pool -/

/-- An insertion adds at most a node for each byte, and fails only if the pool is too small. -/
theorem insertFrom_room (order : Nat) {s : Bytes} (n : Nat) {t : AutoTrie}
    (hcount : t.edges.length + 1 = t.nodes.length)
    (hroom : t.nodes.length + s.length ≤ autoMaxNodes) :
    ∃ t', insertFrom order s n t = some t' ∧ t'.edges.length + 1 = t'.nodes.length ∧
      t'.nodes.length ≤ t.nodes.length + s.length := by
  induction s generalizing n t with
  | nil =>
    refine ⟨_, rfl, ?_, ?_⟩
    · rw [edges_markEnd, length_markEnd, hcount]
    · rw [length_markEnd]
      exact Nat.le_refl _
  | cons b s ih =>
    rw [List.length_cons] at hroom
    rw [insertFrom]
    generalize t.edgeAt n b = found
    obtain ⟨e, prev⟩ := found
    dsimp only
    split
    · obtain ⟨t', hins, hcount', hlen⟩ := ih (t.edge e).next hcount (by omega)
      refine ⟨t', hins, hcount', ?_⟩
      rw [List.length_cons]
      omega
    · have hedges : autoMaxNodes < autoMaxEdges := by decide
      obtain ⟨hnodes, hadded⟩ := length_addEdge t n prev b
      rw [if_neg (by omega)]
      obtain ⟨t', hins, hcount', hlen⟩ :=
        ih t.nodes.length (t := t.addEdge n prev b) (by omega) (by omega)
      refine ⟨t', hins, hcount', ?_⟩
      rw [List.length_cons]
      omega

/-! ## Matching -/

/-- The lowest order among the prefixes of a text up to a length, with the length of its
prefix. -/
structure Best (f : Bytes → Option Nat) (r : Bytes) (k : Nat) (best : Nat × Nat) : Prop where
  found : best.1 ≠ 2 ^ 16 - 1 → best.2 ≤ r.length ∧ f (r.take best.2) = some best.1
  least : ∀ j ≤ k, ∀ o, f (r.take j) = some o → best.1 ≤ o

/-- The turn of the loop at a node. -/
theorem Best.turn {f : Bytes → Option Nat} {r : Bytes} {k n : Nat} {best : Nat × Nat}
    (h : Best f r k best) (hk : k + 1 ≤ r.length) (hmark : f (r.take (k + 1)) = t.mark n) :
    Best f r (k + 1)
      (if (t.node n).isEnd ∧ (t.node n).endOrder < best.1 then ((t.node n).endOrder, k + 1)
        else best) := by
  rw [mark] at hmark
  have hsucc : ∀ j ≤ k + 1, j ≤ k ∨ j = k + 1 := by omega
  split
  · rename_i hset
    rw [if_pos hset.1] at hmark
    refine ⟨fun _ => ⟨hk, hmark⟩, fun j hj o ho => ?_⟩
    obtain hj | rfl := hsucc j hj
    · exact Nat.le_trans (Nat.le_of_lt hset.2) (h.least j hj o ho)
    · rw [hmark] at ho
      exact Nat.le_of_eq (Option.some.inj ho)
  · rename_i hkeep
    refine ⟨h.found, fun j hj o ho => ?_⟩
    obtain hj | rfl := hsucc j hj
    · exact h.least j hj o ho
    · rw [hmark] at ho
      split at ho
      · rename_i hend
        obtain rfl := Option.some.inj ho
        exact Nat.le_of_not_lt fun hlt => hkeep ⟨hend, hlt⟩
      · cases ho

theorem matchLoop_spec (h : Chained t kids) {rest p : Bytes} {n : Nat} {best : Nat × Nat}
    (hp : Tries.walk (t.child kids) 0 p = some n)
    (hbest : Best (t.orderOf kids) (p ++ rest) p.length best) :
    Best (t.orderOf kids) (p ++ rest) (p ++ rest).length (t.matchLoop rest n p.length best) := by
  induction rest generalizing p n best with
  | nil =>
    rw [List.append_nil] at hbest ⊢
    exact hbest
  | cons b rest ih =>
    have hpath : p ++ b :: rest = (p ++ [b]) ++ rest := by simp
    have hlen : (p ++ [b]).length = p.length + 1 := by simp
    rw [matchLoop]
    obtain ⟨m, hchild, hne, hnext⟩ | ⟨hnone, hend⟩ := h.edgeAt (h.walk_lt hp) b
    · dsimp only
      rw [if_neg hne, hnext]
      have hwalk : Tries.walk (t.child kids) 0 (p ++ [b]) = some m := by
        rw [Tries.walk_concat, hp, Option.bind_some, hchild]
      have htake : (p ++ b :: rest).take (p.length + 1) = p ++ [b] := by
        rw [hpath, ← hlen, List.take_left]
      have hmark : t.orderOf kids ((p ++ b :: rest).take (p.length + 1)) = t.mark m := by
        rw [htake, orderOf, Tries.markOf, hwalk, Option.bind_some]
      have hturn := hbest.turn (by simp) hmark
      rw [hpath, ← hlen] at hturn
      have hrest := ih hwalk hturn
      rwa [← hpath, hlen] at hrest
    · -- no literal goes on with this byte
      rw [hend]
      dsimp only
      rw [if_pos rfl]
      refine ⟨hbest.found, fun j _ o ho => ?_⟩
      by_cases hj : j ≤ p.length
      · exact hbest.least j hj o ho
      · have htake : (p ++ b :: rest).take j = (p ++ [b]) ++ rest.take (j - (p ++ [b]).length) := by
          rw [hpath, List.take_append, List.take_of_length_le (by omega)]
        have hdead : Tries.walk (t.child kids) 0 (p ++ [b]) = none := by
          rw [Tries.walk_concat, hp, Option.bind_some, hnone]
        rw [htake, orderOf, Tries.markOf_append_none hdead] at ho
        cases ho

/-- The match is the first literal that stands at the position. -/
theorem trieMatch_eq {lits : List Bytes} (h : Chained t kids)
    (horder : ∀ w, t.orderOf kids w = lits.idxOf? w) (hroom : lits.length < 2 ^ 16)
    (subject : Bytes) (offset : Nat) :
    t.trieMatch subject offset =
      (lits.find? (·.isPrefixOf (subject.drop offset))).map List.length := by
  unfold trieMatch
  generalize subject.drop offset = r
  have hstart : Best (t.orderOf kids) r 0
      (if (t.node 0).isEnd then ((t.node 0).endOrder, 0) else (2 ^ 16 - 1, 0)) := by
    have hmark : t.orderOf kids (r.take 0) = t.mark 0 := by
      rw [List.take_zero]
      rfl
    rw [mark] at hmark
    split
    · rename_i hend
      rw [if_pos hend] at hmark
      refine ⟨fun _ => ⟨Nat.zero_le _, hmark⟩, fun j hj o ho => ?_⟩
      obtain rfl := Nat.le_zero.mp hj
      rw [hmark] at ho
      exact Nat.le_of_eq (Option.some.inj ho)
    · rename_i hend
      rw [if_neg hend] at hmark
      refine ⟨fun hne => absurd rfl hne, fun j hj o ho => ?_⟩
      obtain rfl := Nat.le_zero.mp hj
      rw [hmark] at ho
      cases ho
  have hbest := matchLoop_spec h (p := []) rfl hstart
  rw [List.nil_append] at hbest
  dsimp only
  generalize t.matchLoop r 0 0 _ = best at hbest
  have hrank : ∀ lit ∈ lits, lit <+: r → ∃ o, lits.idxOf? lit = some o ∧ best.1 ≤ o := by
    intro lit hmem hprefix
    obtain ⟨o, ho⟩ := Option.isSome_iff_exists.mp (List.isSome_idxOf?.mpr hmem)
    refine ⟨o, ho, hbest.least lit.length hprefix.length_le o ?_⟩
    rw [horder, ← List.prefix_iff_eq_take.mp hprefix, ho]
  split
  · rename_i hne
    obtain ⟨hle, hfound⟩ := hbest.found hne
    rw [horder, List.idxOf?_eq_some_iff] at hfound
    obtain ⟨hi, hget, hfirst⟩ := hfound
    have hfind : lits.find? (·.isPrefixOf r) = some (r.take best.2) := by
      rw [List.find?_eq_some_iff_getElem]
      refine ⟨by simpa using List.take_prefix _ _, best.1, hi, hget, fun j hj => ?_⟩
      rw [Bool.not_eq_true', ← Bool.not_eq_true, List.isPrefixOf_iff_prefix]
      intro hprefix
      obtain ⟨o, ho, hbo⟩ := hrank _ (List.getElem_mem _) hprefix
      obtain ⟨_, -, hbefore⟩ := List.idxOf?_eq_some_iff.mp ho
      exact hbefore j (show j < o by omega) rfl
    rw [hfind, Option.map_some, List.length_take, Nat.min_eq_left hle]
  · rename_i heq
    have hfind : lits.find? (·.isPrefixOf r) = none := by
      rw [List.find?_eq_none]
      intro lit hmem hprefix
      obtain ⟨o, ho, hbo⟩ := hrank lit hmem (List.isPrefixOf_iff_prefix.mp hprefix)
      obtain ⟨hlt, -⟩ := List.idxOf?_eq_some_iff.mp ho
      omega
    rw [hfind, Option.map_none]

/-- In the trie of a list of literals a text has the order of its first occurrence. -/
theorem insertAll_ranks {lits : List Bytes} (h : insertAll lits 0 .empty = some t)
    (hroom : lits.length < 2 ^ 16) :
    ∃ kids, Chained t kids ∧ ∀ w, t.orderOf kids w = lits.idxOf? w := by
  obtain ⟨kids, hchained, horder⟩ := insertAll_spec chained_empty h (by omega)
    fun w o ho => by rw [orderOf_empty] at ho; cases ho
  refine ⟨kids, hchained, fun w => ?_⟩
  rw [horder, orderOf_empty, Option.none_or]
  cases lits.idxOf? w with
  | none => rfl
  | some o => exact congrArg some (Nat.zero_add o)

end AutoTrie

/-- The trie of a list of literals matches as their ordered alternation does. -/
theorem trieMatch_insertAll (lits : List Bytes) (t : AutoTrie) (subject : Bytes) (offset : Nat)
    (h : AutoTrie.insertAll lits 0 .empty = some t) (hroom : lits.length < 2 ^ 16) :
    t.trieMatch subject offset =
      (lits.find? (·.isPrefixOf (subject.drop offset))).map List.length := by
  obtain ⟨kids, hchained, horder⟩ := AutoTrie.insertAll_ranks h hroom
  exact AutoTrie.trieMatch_eq hchained horder hroom subject offset

/-- 'ab' | 'a' | 'ac' -/
def overlapTrie : AutoTrie where
  nodes := [⟨0, false, 0⟩, ⟨1, true, 1⟩, ⟨autoNull, true, 0⟩, ⟨autoNull, true, 2⟩]
  edges := [⟨0x61, 1, autoNull⟩, ⟨0x62, 2, 2⟩, ⟨0x63, 3, autoNull⟩]

/-- On "xac" the second literal goes before the longer third one. -/
theorem trieMatch_insertAll_overlap :
    overlapTrie.trieMatch [0x78, 0x61, 0x63] 1 =
      (([[0x61, 0x62], [0x61], [0x61, 0x63]] : List Bytes).find?
        (·.isPrefixOf (([0x78, 0x61, 0x63] : Bytes).drop 1))).map List.length :=
  trieMatch_insertAll [[0x61, 0x62], [0x61], [0x61, 0x63]] overlapTrie [0x78, 0x61, 0x63] 1
    (by decide) (by decide)

end Snobol4
