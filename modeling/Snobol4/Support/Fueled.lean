import Mathlib.Order.Defs.Unbundled

/-!
# Fueled — state-passing computations that may fail or use up their fuel

A recursive-descent program whose termination is not known in advance is written
as a function of a fuel counter.  A computation returns a value, fails, or
exhausts its fuel, and the state is kept in all three cases, so a statement can
speak about the states a run that never ends passes through.

Two rules carry every proof about such a program: `wp` steps through a
computation forwards, and `Extends` says that a run with more fuel continues the
run with less.
-/

/-- What a fuelled computation ends in. -/
inductive Outcome (α : Type) where
  | ret (a : α)
  | fail
  | outOfFuel
  deriving Repr, DecidableEq

/-- A computation over the state `σ` that may fail or run out of fuel. -/
def Fueled (σ α : Type) : Type := σ → Outcome α × σ

namespace Fueled

variable {σ α β : Type}

protected def pure (a : α) : Fueled σ α := fun s => (.ret a, s)

protected def bind (m : Fueled σ α) (f : α → Fueled σ β) : Fueled σ β := fun s =>
  match m s with
  | (.ret a, s') => f a s'
  | (.fail, s') => (.fail, s')
  | (.outOfFuel, s') => (.outOfFuel, s')

instance : Monad (Fueled σ) where
  pure := Fueled.pure
  bind := Fueled.bind

/-- The computation that fails. -/
def failed : Fueled σ α := fun s => (.fail, s)

/-- The computation whose fuel is used up. -/
def exhausted : Fueled σ α := fun s => (.outOfFuel, s)

/-- Read the state. -/
def read : Fueled σ σ := fun s => (.ret s, s)

/-- Replace the state by its image, and return a value computed from it. -/
def update (f : σ → α × σ) : Fueled σ α := fun s => (.ret (f s).1, (f s).2)

/-- Replace the state by its image. -/
def modify (f : σ → σ) : Fueled σ Unit := update fun s => ((), f s)

/-- Catch a failure. -/
def attempt (m : Fueled σ α) : Fueled σ (Option α) := fun s =>
  match m s with
  | (.ret a, s') => (.ret (some a), s')
  | (.fail, s') => (.ret none, s')
  | (.outOfFuel, s') => (.outOfFuel, s')

/-! ## Stepping forwards -/

/-- From `s`, the computation returns values and states in `Q`, fails in states in
`N`, and where its fuel runs out the state is in `E`. -/
def wp (m : Fueled σ α) (Q : α → σ → Prop) (N E : σ → Prop) (s : σ) : Prop :=
  match m s with
  | (.ret a, s') => Q a s'
  | (.fail, s') => N s'
  | (.outOfFuel, s') => E s'

variable {Q : α → σ → Prop} {N E : σ → Prop} {s : σ}

@[simp] theorem wp_pure (a : α) : wp (pure a : Fueled σ α) Q N E s ↔ Q a s := Iff.rfl

@[simp] theorem wp_failed : wp (failed : Fueled σ α) Q N E s ↔ N s := Iff.rfl

@[simp] theorem wp_exhausted : wp (exhausted : Fueled σ α) Q N E s ↔ E s := Iff.rfl

@[simp] theorem wp_read {Q : σ → σ → Prop} : wp read Q N E s ↔ Q s s := Iff.rfl

@[simp] theorem wp_update (f : σ → α × σ) : wp (update f) Q N E s ↔ Q (f s).1 (f s).2 := Iff.rfl

@[simp] theorem wp_modify (f : σ → σ) {Q : Unit → σ → Prop} :
    wp (modify f) Q N E s ↔ Q () (f s) := Iff.rfl

theorem wp_attempt (m : Fueled σ α) {Q : Option α → σ → Prop} :
    wp (attempt m) Q N E s ↔ wp m (fun a => Q (some a)) (Q none) E s := by
  simp only [wp, attempt]
  rcases m s with ⟨_ | _ | _, s'⟩ <;> rfl

theorem bind_apply (m : Fueled σ α) (f : α → Fueled σ β) (s : σ) :
    (m >>= f) s = match m s with
      | (.ret a, s') => f a s'
      | (.fail, s') => (.fail, s')
      | (.outOfFuel, s') => (.outOfFuel, s') := rfl

/-- A sequence returns if both parts do. -/
theorem bind_eq_ret {m : Fueled σ α} {f : α → Fueled σ β} {b : β} {s s' : σ} :
    (m >>= f) s = (.ret b, s') ↔ ∃ a s₁, m s = (.ret a, s₁) ∧ f a s₁ = (.ret b, s') := by
  rw [bind_apply]
  constructor
  · intro h
    rcases hm : m s with ⟨a | _ | _, s₁⟩ <;> rw [hm] at h
    · exact ⟨a, s₁, rfl, h⟩
    · cases h
    · cases h
  · rintro ⟨a, s₁, hm, h⟩
    rw [hm]
    exact h

theorem wp_bind (m : Fueled σ α) (f : α → Fueled σ β) {Q : β → σ → Prop} :
    wp (m >>= f) Q N E s ↔ wp m (fun a s' => wp (f a) Q N E s') N E s := by
  simp only [wp, bind_apply]
  rcases m s with ⟨_ | _ | _, s'⟩ <;> rfl

@[simp] theorem wp_ite (c : Prop) [Decidable c] (m m' : Fueled σ α) :
    wp (if c then m else m') Q N E s ↔ (c → wp m Q N E s) ∧ (¬c → wp m' Q N E s) := by
  by_cases h : c <;> simp [h]

/-- The rule of consequence. -/
theorem wp.mono {m : Fueled σ α} {Q' : α → σ → Prop} {N' E' : σ → Prop} (h : wp m Q N E s)
    (hQ : ∀ a s', Q a s' → Q' a s') (hN : ∀ s', N s' → N' s') (hE : ∀ s', E s' → E' s') :
    wp m Q' N' E' s := by
  unfold wp at h ⊢
  rcases hm : m s with ⟨_ | _ | _, s'⟩ <;> rw [hm] at h
  · exact hQ _ _ h
  · exact hN _ h
  · exact hE _ h

/-- A computation followed by another: the first one's postcondition is what the
second starts from. -/
theorem wp.seq {m : Fueled σ α} {f : α → Fueled σ β} {R : β → σ → Prop} (h : wp m Q N E s)
    (hf : ∀ a s', Q a s' → wp (f a) R N E s') : wp (m >>= f) R N E s :=
  (wp_bind m f).2 (h.mono hf (fun _ hN => hN) fun _ hE => hE)

/-- What `wp` says of a run that returned. -/
theorem wp.of_ret {m : Fueled σ α} {a : α} {s' : σ} (h : wp m Q N E s)
    (hr : m s = (.ret a, s')) : Q a s' := by
  simpa [wp, hr] using h

/-- What `wp` says of a run that failed. -/
theorem wp.of_fail {m : Fueled σ α} {s' : σ} (h : wp m Q N E s)
    (hr : m s = (.fail, s')) : N s' := by
  simpa [wp, hr] using h

/-- What `wp` says of a run whose fuel ran out. -/
theorem wp.of_outOfFuel {m : Fueled σ α} {s' : σ} (h : wp m Q N E s)
    (hr : m s = (.outOfFuel, s')) : E s' := by
  simpa [wp, hr] using h

/-! ## More fuel -/

/-- `m'` continues `m`: where `m` ends, `m'` ends in the same way, and where `m`
runs out of fuel, `m'` ends in a state later (by `R`) than the one `m` was left
in.  `m'` itself only moves to later states. -/
structure Extends (R : σ → σ → Prop) (m m' : Fueled σ α) : Prop where
  later : ∀ s, R s (m' s).2
  same : ∀ s, (m s).1 ≠ .outOfFuel → m' s = m s
  beyond : ∀ s, (m s).1 = .outOfFuel → R (m s).2 (m' s).2

namespace Extends

variable {R : σ → σ → Prop} {m m' : Fueled σ α}

theorem exhausted (h : ∀ s, R s (m' s).2) : Extends R Fueled.exhausted m' where
  later := h
  same _ hr := absurd rfl hr
  beyond s _ := h s

theorem ite (c : Prop) [Decidable c] {n n' : Fueled σ α} (h : Extends R m m')
    (hn : Extends R n n') : Extends R (if c then m else n) (if c then m' else n') := by
  by_cases hc : c <;> simpa [hc]

theorem attempt (h : Extends R m m') : Extends R (Fueled.attempt m) (Fueled.attempt m') := by
  have hsnd : ∀ (n : Fueled σ α) s, (Fueled.attempt n s).2 = (n s).2 := by
    intro n s
    simp only [Fueled.attempt]
    rcases n s with ⟨_ | _ | _, s'⟩ <;> rfl
  have hfuel : ∀ s, (Fueled.attempt m s).1 = .outOfFuel ↔ (m s).1 = .outOfFuel := by
    intro s
    simp only [Fueled.attempt]
    rcases m s with ⟨_ | _ | _, s'⟩ <;> simp
  refine ⟨fun s => ?_, fun s hs => ?_, fun s hs => ?_⟩
  · rw [hsnd]
    exact h.later s
  · simp only [Fueled.attempt, h.same s fun hm => hs ((hfuel s).2 hm)]
  · rw [hsnd, hsnd]
    exact h.beyond s ((hfuel s).1 hs)

variable [IsPreorder σ R]

/-- A computation that only moves to later states continues itself. -/
theorem refl_of_later (h : ∀ s, R s (m s).2) : Extends R m m where
  later := h
  same _ _ := rfl
  beyond s _ := refl_of R (m s).2

theorem pure (a : α) : Extends R (Pure.pure a) (Pure.pure a) :=
  refl_of_later fun s => refl_of R s

theorem failed : Extends R (Fueled.failed (α := α)) Fueled.failed :=
  refl_of_later fun s => refl_of R s

theorem read : Extends R (Fueled.read (σ := σ)) Fueled.read :=
  refl_of_later fun s => refl_of R s

theorem bind {f f' : α → Fueled σ β} (h : Extends R m m') (hf : ∀ a, Extends R (f a) (f' a)) :
    Extends R (m >>= f) (m' >>= f') := by
  refine ⟨fun s => ?_, fun s hs => ?_, fun s hs => ?_⟩
  · have hl := h.later s
    rw [bind_apply]
    rcases hm' : m' s with ⟨a | _ | _, s₁⟩ <;> rw [hm'] at hl
    · exact trans_of R hl ((hf a).later s₁)
    · exact hl
    · exact hl
  · have hsame := h.same s
    rw [bind_apply] at hs
    rw [bind_apply, bind_apply]
    rcases hm : m s with ⟨a | _ | _, s₁⟩ <;> rw [hm] at hs hsame
    · rw [hsame (by simp)]
      exact (hf a).same s₁ hs
    · rw [hsame (by simp)]
    · exact absurd rfl hs
  · have hsame := h.same s
    have hbeyond := h.beyond s
    rw [bind_apply] at hs
    rw [bind_apply, bind_apply]
    rcases hm : m s with ⟨a | _ | _, s₁⟩ <;> rw [hm] at hs hsame hbeyond
    · rw [hsame (by simp)]
      exact (hf a).beyond s₁ hs
    · simp at hs
    · have hb := hbeyond rfl
      rcases hm' : m' s with ⟨a | _ | _, s₂⟩ <;> rw [hm'] at hb
      · exact trans_of R hb ((hf a).later s₂)
      · exact hb
      · exact hb

end Extends

end Fueled
