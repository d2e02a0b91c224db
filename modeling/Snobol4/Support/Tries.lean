import Mathlib.Data.List.Induction
import Mathlib.Data.Option.Basic
import Mathlib.Tactic.Common

/-!
# Tries — texts as paths of a tree

A trie is a graph in which every node but the root has one parent and one letter; a text
is the path from the root that it spells.  Growing the graph by one node makes one new path
and leaves the others alone, and marking a node marks one text.
-/

namespace Tries

variable {N α : Type}

/-- The node behind a text, from `n` on. -/
def walk (child : N → α → Option N) : N → List α → Option N
  | n, [] => some n
  | n, a :: w => (child n a).bind fun m => walk child m w

theorem walk_append (child : N → α → Option N) (n : N) (w w' : List α) :
    walk child n (w ++ w') = (walk child n w).bind fun m => walk child m w' := by
  induction w generalizing n with
  | nil => rfl
  | cons a w ih =>
    rw [List.cons_append, walk, walk]
    cases child n a with
    | none => rfl
    | some m => exact ih m

theorem walk_concat (child : N → α → Option N) (n : N) (w : List α) (a : α) :
    walk child n (w ++ [a]) = (walk child n w).bind fun m => child m a := by
  rw [walk_append]
  refine congrArg _ (funext fun m => ?_)
  simp only [walk]
  cases child m a <;> rfl

/-- Every node but the root has one parent and one letter. -/
structure IsTree (child : N → α → Option N) (root : N) : Prop where
  noRoot : ∀ n a, child n a ≠ some root
  unique : ∀ n n' a a' m, child n a = some m → child n' a' = some m → n = n' ∧ a = a'

/-- Two texts do not share a node. -/
theorem IsTree.walk_injective {child : N → α → Option N} {root : N} (h : IsTree child root) :
    ∀ {w w' : List α} {m : N}, walk child root w = some m →
      walk child root w' = some m → w = w' := by
  intro w
  induction w using List.reverseRecOn with
  | nil =>
    intro w' m hw hw'
    cases hw
    induction w' using List.reverseRecOn with
    | nil => rfl
    | append_singleton w' a _ =>
      rw [walk_concat, Option.bind_eq_some_iff] at hw'
      obtain ⟨n, -, hn⟩ := hw'
      exact absurd hn (h.noRoot n a)
  | append_singleton w a ih =>
    intro w' m hw hw'
    rw [walk_concat, Option.bind_eq_some_iff] at hw
    obtain ⟨n, hn, hm⟩ := hw
    induction w' using List.reverseRecOn with
    | nil =>
      cases hw'
      exact absurd hm (h.noRoot n a)
    | append_singleton w' a' _ =>
      rw [walk_concat, Option.bind_eq_some_iff] at hw'
      obtain ⟨n', hn', hm'⟩ := hw'
      obtain ⟨rfl, rfl⟩ := h.unique n n' a a' m hm hm'
      rw [ih hn hn']

section Grow

variable [DecidableEq N] [DecidableEq α]

/-- The graph with one new child. -/
def grow (child : N → α → Option N) (n : N) (a : α) (m : N) (n' : N) (a' : α) : Option N :=
  if n' = n ∧ a' = a then some m else child n' a'

variable {child : N → α → Option N} {n m root : N} {a : α}

/-- Paths that were there stay, and the only new one ends in the new node. -/
theorem walk_grow (hnew : child n a = none) (hleaf : ∀ a', child m a' = none) (hmn : m ≠ n)
    {p : List α} (htree : IsTree child root) (hp : walk child root p = some n) (w : List α) :
    walk (Tries.grow child n a m) root w =
      if w = p ++ [a] then some m else walk child root w := by
  induction w using List.reverseRecOn with
  | nil => simp [walk]
  | append_singleton w b ih =>
    rw [walk_concat, ih]
    have hwalk : walk child root (w ++ [b]) = (walk child root w).bind fun k => child k b :=
      walk_concat ..
    by_cases hwp : w = p ++ [a]
    · -- behind the new node there is nothing
      rw [if_pos hwp, Option.bind_some]
      have hgrow : Tries.grow child n a m m b = none := by
        rw [Tries.grow, if_neg fun hat => hmn hat.1, hleaf]
      have hold : walk child root w = none := by
        rw [hwp, walk_concat, hp, Option.bind_some, hnew]
      rw [hgrow, if_neg, hwalk, hold, Option.bind_none]
      intro heq
      have hlen := congrArg List.length heq
      rw [hwp] at hlen
      simp at hlen
    · rw [if_neg hwp, hwalk]
      cases hk : walk child root w with
      | none =>
        rw [Option.bind_none, Option.bind_none, if_neg]
        intro heq
        obtain ⟨rfl, -⟩ := List.append_inj' heq rfl
        rw [hp] at hk
        cases hk
      | some k =>
        rw [Option.bind_some, Option.bind_some, Tries.grow]
        by_cases hat : k = n ∧ b = a
        · obtain ⟨rfl, rfl⟩ := hat
          rw [if_pos ⟨rfl, rfl⟩, if_pos]
          rw [htree.walk_injective hk hp]
        · rw [if_neg hat, if_neg]
          intro heq
          obtain ⟨rfl, hb⟩ := List.append_inj' heq rfl
          rw [hp] at hk
          exact hat ⟨(Option.some.inj hk).symm, List.head_eq_of_cons_eq hb⟩

end Grow

/-! ## Marked texts -/

/-- The mark of a text. -/
def markOf {M : Type} (child : N → α → Option N) (root : N) (mark : N → Option M) (w : List α) :
    Option M :=
  (walk child root w).bind mark

/-- A new node without a mark leaves the marks of the texts alone. -/
theorem markOf_grow [DecidableEq N] [DecidableEq α] {M : Type} {child : N → α → Option N}
    {n m root : N} {a : α} {mark : N → Option M} (hnew : child n a = none)
    (hleaf : ∀ a', child m a' = none) (hmn : m ≠ n) {p : List α} (htree : IsTree child root)
    (hp : walk child root p = some n) (hmark : mark m = none) (w : List α) :
    markOf (grow child n a m) root mark w = markOf child root mark w := by
  unfold markOf
  rw [walk_grow hnew hleaf hmn htree hp]
  split
  · rename_i heq
    have hold : walk child root w = none := by
      rw [heq, walk_concat, hp, Option.bind_some, hnew]
    rw [hold, Option.bind_none, Option.bind_some, hmark]
  · rfl

/-- Marking the node of a text marks this text only. -/
theorem markOf_update [DecidableEq N] [DecidableEq α] {M : Type} {child : N → α → Option N}
    {root n : N} {mark : N → Option M} (htree : IsTree child root) {p : List α}
    (hp : walk child root p = some n) (x : Option M) (w : List α) :
    markOf child root (Function.update mark n x) w =
      if w = p then x else markOf child root mark w := by
  unfold markOf
  cases hw : walk child root w with
  | none =>
    rw [if_neg]
    · rfl
    · rintro rfl
      rw [hp] at hw
      cases hw
  | some k =>
    rw [Option.bind_some, Option.bind_some]
    by_cases hk : k = n
    · subst hk
      rw [if_pos (htree.walk_injective hw hp), Function.update_self]
    · rw [Function.update_of_ne hk, if_neg]
      rintro rfl
      rw [hp] at hw
      exact hk (Option.some.inj hw).symm

/-- Behind a text without a node there are no marks. -/
theorem markOf_append_none {M : Type} {child : N → α → Option N} {root : N} {mark : N → Option M}
    {w : List α} (h : walk child root w = none) (w' : List α) :
    markOf child root mark (w ++ w') = none := by
  rw [markOf, walk_append, h]
  rfl

end Tries
