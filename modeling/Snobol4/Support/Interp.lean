import Mathlib.Data.Option.Basic
import Snobol4.Support.Search

/-!
# Interp — searches that can be run

Rules that are functions make the search a deterministic machine.  It can be run, and
two rules that agree wherever a search asks them perform the same search.
-/

namespace Pat

open Backtrack

variable {L K σ γ : Type}

/-- The meaning of leaves and loops as functions. -/
structure Interp (L K σ γ : Type) where
  leaf : L → σ → γ → LeafMove σ γ
  enter : K → σ → LoopMove σ
  step : K → Nat → Nat → σ → LoopMove σ

namespace Interp

/-- The functions as rules. -/
def rules (F : Interp L K σ γ) : Rules L K σ γ where
  leaf l s g m := m = F.leaf l s g
  enter k _ s m := m = F.enter k s
  step k _ count mark s m := m = F.step k count mark s

/-- The move of a thread. -/
def move (F : Interp L K σ γ) (t : Thread L K σ) (g : γ) : Move (Thread L K σ) σ γ :=
  match t with
  | ⟨[], s⟩ => .done (.success s g)
  | ⟨.pat .skip :: κ, s⟩ => .go ⟨κ, s⟩ g []
  | ⟨.pat (.seq p q) :: κ, s⟩ => .go ⟨.pat p :: .pat q :: κ, s⟩ g []
  | ⟨.pat (.alt p q) :: κ, s⟩ => .go ⟨.pat p :: .join :: κ, s⟩ g [⟨.pat q :: κ, s⟩]
  | ⟨.join :: κ, s⟩ => .go ⟨κ, s⟩ g []
  | ⟨.pat (.leaf l) :: κ, s⟩ => (F.leaf l s g).move l κ s
  | ⟨.pat (.loop k body) :: κ, s⟩ => (F.enter k s).move k body κ s g
  | ⟨.iter k body count mark :: κ, s⟩ => (F.step k count mark s).move k body κ s g

theorem moves_iff {F : Interp L K σ γ} {t : Thread L K σ} {g : γ} {m : Move (Thread L K σ) σ γ} :
    Moves F.rules t g m ↔ m = F.move t g := by
  constructor
  · intro h
    cases h with
    | finish | skip | seq | alt | join => rfl
    | leaf κ h | enter κ g h | step κ g h =>
      cases h
      rfl
  · rintro rfl
    obtain ⟨κ, s⟩ := t
    cases κ with
    | nil => exact .finish s g
    | cons item κ =>
      cases item with
      | join => exact .join κ s g
      | iter k body count mark => exact .step κ g rfl
      | pat p =>
        cases p with
        | skip => exact .skip κ s g
        | seq p q => exact .seq p q κ s g
        | alt p q => exact .alt p q κ s g
        | leaf l => exact .leaf κ rfl
        | loop k body => exact .enter κ g rfl

/-- Run the search for `n` steps. -/
def run (F : Interp L K σ γ) : Nat → Config (Thread L K σ) σ γ → Option (Verdict σ γ)
  | _, .done v => some v
  | 0, .run .. => none
  | n + 1, .run t g saved => F.run n ((F.move t g).apply saved)

/-- The search for `p` from `s` ends with `v`. -/
def Finds (F : Interp L K σ γ) (p : Pat L K) (s : σ) (g : γ) (v : Verdict σ γ) : Prop :=
  Relation.ReflTransGen (Search F.rules) (.run ⟨[.pat p], s⟩ g []) (.done v)

/-- A step of the search is taken by `run`. -/
theorem run_of_search {F : Interp L K σ γ} {c c' : Config (Thread L K σ) σ γ}
    (h : Search F.rules c c') (n : Nat) : F.run (n + 1) c = F.run n c' := by
  obtain ⟨saved, hm⟩ := h
  rw [run, ← moves_iff.mp hm]

theorem search_of_run {F : Interp L K σ γ} {n : Nat} {c : Config (Thread L K σ) σ γ}
    {v : Verdict σ γ} (h : F.run n c = some v) :
    Relation.ReflTransGen (Search F.rules) c (.done v) := by
  induction n generalizing c with
  | zero =>
    cases c with
    | done v' =>
      cases h
      exact .refl
    | run t g saved => cases h
  | succ n ih =>
    cases c with
    | done v' =>
      cases h
      exact .refl
    | run t g saved => exact .head (.intro saved (moves_iff.mpr rfl)) (ih h)

theorem run_of_searches {F : Interp L K σ γ} {c : Config (Thread L K σ) σ γ} {v : Verdict σ γ}
    (h : Relation.ReflTransGen (Search F.rules) c (.done v)) : ∃ n, F.run n c = some v := by
  induction h using Relation.ReflTransGen.head_induction_on with
  | refl => exact ⟨0, rfl⟩
  | head hstep _ ih =>
    obtain ⟨n, hn⟩ := ih
    exact ⟨n + 1, (run_of_search hstep n).trans hn⟩

/-- More steps do not change the result. -/
theorem run_mono {F : Interp L K σ γ} {n m : Nat} (hnm : n ≤ m) {c : Config (Thread L K σ) σ γ}
    {v : Verdict σ γ} (h : F.run n c = some v) : F.run m c = some v := by
  induction n generalizing m c with
  | zero =>
    cases c with
    | done v' =>
      cases h
      cases m <;> rfl
    | run t g saved => cases h
  | succ n ih =>
    cases c with
    | done v' =>
      cases h
      cases m <;> rfl
    | run t g saved =>
      obtain ⟨m, rfl⟩ := Nat.exists_eq_add_of_le' (show 1 ≤ m by omega)
      rw [run] at h ⊢
      exact ih (by omega) h

/-- The search is deterministic. -/
theorem Finds.unique {F : Interp L K σ γ} {p : Pat L K} {s : σ} {g : γ} {v v' : Verdict σ γ}
    (h : F.Finds p s g v) (h' : F.Finds p s g v') : v = v' := by
  obtain ⟨n, hn⟩ := run_of_searches h
  obtain ⟨m, hm⟩ := run_of_searches h'
  have hn' := run_mono (Nat.le_max_left n m) hn
  have hm' := run_mono (Nat.le_max_right n m) hm
  rw [hn'] at hm'
  exact Option.some.inj hm'

end Interp

end Pat
