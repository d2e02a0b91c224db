import Mathlib.Logic.Relation
import Mathlib.Order.Nat
import Mathlib.Tactic.Common

/-!
# Search — backtracking machines and ordered patterns

A backtracking machine runs one thread and keeps a stack of saved ones; when the
running thread fails, the newest saved thread resumes.  Threads carry what
backtracking restores, the globals what it does not.

Patterns are built from leaves by sequence, ordered choice and repetition.  Their
search is a backtracking machine whose thread is a list of items still to be
matched together with a local state.  What a leaf does, and when a loop goes on, is
given by rules, so one development serves every interpreter of such patterns.

A machine terminates as soon as no thread has an infinite line of descent
(`Step.acc`); for patterns that follows from rules that never move the position
back and let a loop go on only if it made progress or its counter did
(`Progress.acc`).
-/

/-! ## Backtracking machines -/

namespace Backtrack

variable {τ σ γ : Type}

/-- The end of a search. -/
inductive Verdict (σ γ : Type) where
  | success (s : σ) (g : γ)
  | failure (g : γ)

/-- The state a search succeeds in. -/
def Verdict.state : Verdict σ γ → Option σ
  | .success s _ => some s
  | .failure _ => none

/-- What one step of a thread does: go on as another thread after saving some, go on
with every saved thread dropped, fail, or end the search. -/
inductive Move (τ σ γ : Type) where
  | go (t : τ) (g : γ) (saved : List τ)
  | cut (t : τ) (g : γ)
  | back (g : γ)
  | done (v : Verdict σ γ)

/-- The running thread with the saved ones, or the end. -/
inductive Config (τ σ γ : Type) where
  | run (t : τ) (g : γ) (saved : List τ)
  | done (v : Verdict σ γ)

/-- Resume the newest saved thread. -/
def resume (g : γ) : List τ → Config τ σ γ
  | [] => .done (.failure g)
  | t :: ts => .run t g ts

/-- A move on top of the saved threads. -/
def Move.apply (saved : List τ) : Move τ σ γ → Config τ σ γ
  | .go t g new => .run t g (new ++ saved)
  | .cut t g => .run t g []
  | .back g => resume g saved
  | .done v => .done v

/-- The threads a move leaves behind. -/
def Move.threads : Move τ σ γ → List τ
  | .go t _ new => t :: new
  | .cut t _ => [t]
  | .back _ => []
  | .done _ => []

/-- One step of the machine whose threads move by `moves`. -/
inductive Step (moves : τ → γ → Move τ σ γ → Prop) : Config τ σ γ → Config τ σ γ → Prop where
  | intro {t : τ} {g : γ} {m : Move τ σ γ} (saved : List τ) (h : moves t g m) :
      Step moves (.run t g saved) (m.apply saved)

/-- The thread `t'` descends from `t` in one step. -/
def Child (moves : τ → γ → Move τ σ γ → Prop) (t' t : τ) : Prop :=
  ∃ g m, moves t g m ∧ t' ∈ m.threads

variable {moves : τ → γ → Move τ σ γ → Prop}

theorem Step.acc_done (v : Verdict σ γ) :
    Acc (fun c' c => Step moves c c') (.done v) := by
  constructor
  intro c' h
  cases h

/-- A thread of finite descent above saved threads that terminate. -/
private theorem acc_run {t : τ} (ht : Acc (Child moves) t) :
    ∀ (g : γ) (saved : List τ),
      (∀ g', Acc (fun c' c => Step moves c c') (resume g' saved)) →
      Acc (fun c' c => Step moves c c') (.run t g saved) := by
  induction ht with
  | intro t _ ih =>
    intro g saved hsaved
    constructor
    intro c' h
    obtain @⟨_, _, m, _, hm⟩ := h
    -- the new saved threads terminate one above the other
    have hnew : ∀ new : List τ, (∀ u ∈ new, Child moves u t) →
        ∀ g', Acc (fun c' c => Step moves c c') (resume g' (new ++ saved)) := by
      intro new
      induction new with
      | nil => exact fun _ g' => hsaved g'
      | cons u us ihus =>
        intro hmem g'
        exact ih u (hmem u (by simp)) g' _ (ihus fun v hv => hmem v (by simp [hv]))
    have hchild : ∀ u ∈ m.threads, Child moves u t := fun u hu => ⟨g, m, hm, hu⟩
    cases m with
    | go t' g' new =>
      exact ih t' (hchild t' (by simp [Move.threads])) g' _
        (hnew new fun u hu => hchild u (by simp [Move.threads, hu]))
    | cut t' g' =>
      exact ih t' (hchild t' (by simp [Move.threads])) g' [] fun g'' => Step.acc_done _
    | back g' => exact hsaved g'
    | done v => exact Step.acc_done v

/-- The machine terminates from a thread of finite descent. -/
theorem Step.acc {t : τ} (ht : Acc (Child moves) t) (g : γ) :
    Acc (fun c' c => Step moves c c') (.run t g []) :=
  acc_run ht g [] fun _ => Step.acc_done _

end Backtrack

/-! ## Patterns -/

/-- Patterns over leaves `L` with loops described by `K`. -/
inductive Pat (L K : Type) where
  | skip
  | leaf (l : L)
  | seq (p q : Pat L K)
  | alt (p q : Pat L K)
  | loop (k : K) (body : Pat L K)
  deriving Repr, DecidableEq

namespace Pat

open Backtrack

variable {L K L' K' σ γ : Type}

/-- Replace the leaves and the loop descriptions. -/
def map (f : L → L') (h : K → K') : Pat L K → Pat L' K'
  | skip => skip
  | leaf l => leaf (f l)
  | seq p q => seq (p.map f h) (q.map f h)
  | alt p q => alt (p.map f h) (q.map f h)
  | loop k body => loop (h k) (body.map f h)

/-- Every leaf satisfies `P`. -/
def All (P : L → Prop) : Pat L K → Prop
  | skip => True
  | leaf l => P l
  | seq p q => p.All P ∧ q.All P
  | alt p q => p.All P ∧ q.All P
  | loop _ body => body.All P

theorem All.mono {P P' : L → Prop} {p : Pat L K} (h : p.All P) (hP : ∀ l, P l → P' l) :
    p.All P' := by
  induction p with
  | skip => trivial
  | leaf l => exact hP l h
  | seq p q ihp ihq | alt p q ihp ihq => exact ⟨ihp h.1, ihq h.2⟩
  | loop k body ih => exact ih h

theorem all_map {f : L → L'} {g : K → K'} {P : L' → Prop} (p : Pat L K) :
    (p.map f g).All P ↔ p.All fun l => P (f l) := by
  induction p with
  | skip | leaf => exact Iff.rfl
  | seq p q ihp ihq | alt p q ihp ihq => exact and_congr ihp ihq
  | loop k body ih => exact ih

/-- What is still to be matched: a pattern, the end of an alternative, or the end of
an iteration with the iterations before it and the mark of its start. -/
inductive Item (L K : Type) where
  | pat (p : Pat L K)
  | join
  | iter (k : K) (body : Pat L K) (count mark : Nat)

/-- A thread of the search. -/
structure Thread (L K σ : Type) where
  items : List (Item L K)
  state : σ

/-- What a leaf does: go on, go on with a saved retry of the leaf, go on with the
choices cut, fail, or end the search. -/
inductive LeafMove (σ γ : Type) where
  | next (s : σ) (g : γ)
  | choice (s : σ) (g : γ) (retry : σ)
  | cut (s : σ) (g : γ)
  | fail (g : γ)
  | stop (ok : Bool) (g : γ)

/-- What a loop does where an iteration may begin: match the body once more, with or
without saving the exit, or leave the loop, perhaps saving another exit. -/
inductive LoopMove (σ : Type) where
  | again (count mark : Nat) (saved : Bool)
  | exit (s : σ) (retry : Option σ)

/-- The meaning of leaves and loops. -/
structure Rules (L K σ γ : Type) where
  leaf : L → σ → γ → LeafMove σ γ → Prop
  enter : K → Pat L K → σ → LoopMove σ → Prop
  step : K → Pat L K → Nat → Nat → σ → LoopMove σ → Prop

/-- The move of a leaf in front of the items `κ`. -/
def LeafMove.move (l : L) (κ : List (Item L K)) (s : σ) :
    LeafMove σ γ → Move (Thread L K σ) σ γ
  | .next s' g => .go ⟨κ, s'⟩ g []
  | .choice s' g retry => .go ⟨κ, s'⟩ g [⟨.pat (.leaf l) :: κ, retry⟩]
  | .cut s' g => .cut ⟨κ, s'⟩ g
  | .fail g => .back g
  | .stop true g => .done (.success s g)
  | .stop false g => .done (.failure g)

/-- The move of a loop in front of the items `κ`. -/
def LoopMove.move (k : K) (body : Pat L K) (κ : List (Item L K)) (s : σ) (g : γ) :
    LoopMove σ → Move (Thread L K σ) σ γ
  | .again count mark saved =>
      .go ⟨.pat body :: .iter k body count mark :: κ, s⟩ g
        (if saved then [⟨.join :: κ, s⟩] else [])
  | .exit s' retry => .go ⟨κ, s'⟩ g (retry.toList.map fun r => ⟨.join :: κ, r⟩)

/-- One step of a thread. -/
inductive Moves (R : Rules L K σ γ) : Thread L K σ → γ → Move (Thread L K σ) σ γ → Prop where
  | finish (s : σ) (g : γ) : Moves R ⟨[], s⟩ g (.done (.success s g))
  | skip (κ : List (Item L K)) (s : σ) (g : γ) :
      Moves R ⟨.pat .skip :: κ, s⟩ g (.go ⟨κ, s⟩ g [])
  | seq (p q : Pat L K) (κ : List (Item L K)) (s : σ) (g : γ) :
      Moves R ⟨.pat (.seq p q) :: κ, s⟩ g (.go ⟨.pat p :: .pat q :: κ, s⟩ g [])
  | alt (p q : Pat L K) (κ : List (Item L K)) (s : σ) (g : γ) :
      Moves R ⟨.pat (.alt p q) :: κ, s⟩ g
        (.go ⟨.pat p :: .join :: κ, s⟩ g [⟨.pat q :: κ, s⟩])
  | join (κ : List (Item L K)) (s : σ) (g : γ) :
      Moves R ⟨.join :: κ, s⟩ g (.go ⟨κ, s⟩ g [])
  | leaf {l : L} {s : σ} {g : γ} {m : LeafMove σ γ} (κ : List (Item L K)) (h : R.leaf l s g m) :
      Moves R ⟨.pat (.leaf l) :: κ, s⟩ g (m.move l κ s)
  | enter {k : K} {body : Pat L K} {s : σ} {m : LoopMove σ} (κ : List (Item L K)) (g : γ)
      (h : R.enter k body s m) :
      Moves R ⟨.pat (.loop k body) :: κ, s⟩ g (m.move k body κ s g)
  | step {k : K} {body : Pat L K} {count mark : Nat} {s : σ} {m : LoopMove σ}
      (κ : List (Item L K)) (g : γ) (h : R.step k body count mark s m) :
      Moves R ⟨.iter k body count mark :: κ, s⟩ g (m.move k body κ s g)

/-- The search by the rules `R`. -/
abbrev Search (R : Rules L K σ γ) :
    Config (Thread L K σ) σ γ → Config (Thread L K σ) σ γ → Prop :=
  Step (Moves R)

/-! ## Termination -/

/-- Every match of the pattern passes a leaf that consumes. -/
def consumes (f : L → Bool) : Pat L K → Bool
  | skip => false
  | leaf l => f l
  | seq p q => p.consumes f || q.consumes f
  | alt _ _ => false
  | loop _ _ => false

/-- Rules under which every search ends: the position stays below the bound and
never moves back, a leaf that consumes moves it on, a retry of a leaf starts further
on, and a loop goes on only past its mark or with a smaller rank. -/
structure Progress (R : Rules L K σ γ) (pos : σ → Nat) (bound : Nat) (f : L → Bool)
    (rank : K → Nat → Nat) : Prop where
  next : ∀ {l s g s' g'}, pos s ≤ bound → R.leaf l s g (.next s' g') →
    pos s + (f l).toNat ≤ pos s' ∧ pos s' ≤ bound
  choice : ∀ {l s g s' g' r}, pos s ≤ bound → R.leaf l s g (.choice s' g' r) →
    (pos s + (f l).toNat ≤ pos s' ∧ pos s' ≤ bound) ∧ pos s < pos r ∧ pos r ≤ bound
  cut : ∀ {l s g s' g'}, pos s ≤ bound → R.leaf l s g (.cut s' g') →
    pos s + (f l).toNat ≤ pos s' ∧ pos s' ≤ bound
  enter_again : ∀ {k body s count mark saved}, R.enter k body s (.again count mark saved) →
    mark = pos s
  enter_exit : ∀ {k body s s' retry}, pos s ≤ bound → R.enter k body s (.exit s' retry) →
    (pos s ≤ pos s' ∧ pos s' ≤ bound) ∧ ∀ r ∈ retry, pos s ≤ pos r ∧ pos r ≤ bound
  step_again : ∀ {k body count mark s count' mark' saved}, mark ≤ pos s →
    R.step k body count mark s (.again count' mark' saved) →
    mark' = pos s ∧ (mark < pos s ∨ rank k count' < rank k count)
  step_exit : ∀ {k body count mark s s' retry}, pos s ≤ bound →
    R.step k body count mark s (.exit s' retry) →
    (pos s ≤ pos s' ∧ pos s' ≤ bound) ∧
      ∀ r ∈ retry, body.consumes f = true ∧ pos s ≤ pos r + 1 ∧ pos r ≤ bound

namespace Progress

variable {R : Rules L K σ γ} {pos : σ → Nat} {bound : Nat} {f : L → Bool} {rank : K → Nat → Nat}

/-- The items `κ` have finite descent from every state at or after position `n`. -/
def AccFrom (R : Rules L K σ γ) (pos : σ → Nat) (bound n : Nat) (κ : List (Item L K)) : Prop :=
  ∀ s, n ≤ pos s → pos s ≤ bound → Acc (Child (Moves R)) ⟨κ, s⟩

theorem AccFrom.mono {n n' : Nat} {κ : List (Item L K)} (h : AccFrom R pos bound n κ)
    (hn : n ≤ n') : AccFrom R pos bound n' κ := by
  intro s hs hb
  exact h s (by omega) hb

theorem AccFrom.join {n : Nat} {κ : List (Item L K)} (h : AccFrom R pos bound n κ) :
    AccFrom R pos bound n (.join :: κ) := by
  intro s hs hb
  constructor
  rintro t ⟨g, m, hm, ht⟩
  cases hm
  simp only [Move.threads, List.mem_singleton] at ht
  exact ht ▸ h s hs hb

/-- A leaf, by induction on the distance of its retries from the end. -/
theorem AccFrom.leaf (hR : Progress R pos bound f rank) (l : L) {κ : List (Item L K)} :
    ∀ (d n : Nat), bound - n ≤ d → AccFrom R pos bound (n + (f l).toNat) κ →
      AccFrom R pos bound n (.pat (.leaf l) :: κ) := by
  intro d
  induction d using Nat.strongRecOn with
  | _ d ih =>
    intro n hd h s hs hb
    constructor
    rintro t ⟨g, m, hm, ht⟩
    cases hm with
    | @leaf _ _ _ lm _ hl =>
    cases lm with
    | next s' g' =>
      obtain ⟨hle, hb'⟩ := hR.next hb hl
      simp only [LeafMove.move, Move.threads, List.mem_singleton] at ht
      exact ht ▸ h s' (by omega) hb'
    | choice s' g' r =>
      obtain ⟨⟨hle, hb'⟩, hlt, hbr⟩ := hR.choice hb hl
      simp only [LeafMove.move, Move.threads, List.mem_cons, List.not_mem_nil, or_false] at ht
      obtain rfl | rfl := ht
      · exact h s' (by omega) hb'
      · exact ih (bound - pos r) (by omega) (pos r) le_rfl (h.mono (by omega)) r le_rfl hbr
    | cut s' g' =>
      obtain ⟨hle, hb'⟩ := hR.cut hb hl
      simp only [LeafMove.move, Move.threads, List.mem_singleton] at ht
      exact ht ▸ h s' (by omega) hb'
    | fail g' => simp [LeafMove.move, Move.threads] at ht
    | stop ok g' => cases ok <;> simp [LeafMove.move, Move.threads] at ht

/-- The end of an iteration, by induction on the distance of the mark from the end
and then on the rank of the counter. -/
theorem AccFrom.iter (hR : Progress R pos bound f rank) {k : K} {body : Pat L K}
    {κ : List (Item L K)} {n : Nat} (hκ : AccFrom R pos bound n κ)
    (hbody : ∀ {m : Nat} {κ' : List (Item L K)},
      AccFrom R pos bound (m + (body.consumes f).toNat) κ' →
        AccFrom R pos bound m (.pat body :: κ')) :
    ∀ (d count mark : Nat), n ≤ mark → bound - mark ≤ d →
      AccFrom R pos bound (mark + (body.consumes f).toNat) (.iter k body count mark :: κ) := by
  intro d
  induction d using Nat.strongRecOn with
  | _ d ihd =>
    intro count
    induction hr : rank k count using Nat.strongRecOn generalizing count with
    | _ r ihr =>
      intro mark hn hd s hs hb
      constructor
      rintro t ⟨g, m, hm, ht⟩
      cases hm with
      | @step _ _ _ _ _ lm _ _ h =>
      cases lm with
      | again count' mark' saved =>
        obtain ⟨rfl, hdec⟩ := hR.step_again (by omega) h
        -- the body again, in front of an iteration with a later mark or a smaller rank
        have hnext : AccFrom R pos bound (pos s + (body.consumes f).toNat)
            (.iter k body count' (pos s) :: κ) := by
          by_cases hlt : mark < pos s
          · exact ihd (bound - pos s) (by omega) count' (pos s) (by omega) le_rfl
          · exact ihr _ (hr ▸ hdec.resolve_left hlt) count' rfl (pos s) (by omega) (by omega)
        simp only [LoopMove.move, Move.threads, List.mem_cons] at ht
        obtain rfl | ht := ht
        · exact hbody hnext s le_rfl hb
        · cases saved with
          | false => simp at ht
          | true =>
            simp only [if_true, List.mem_singleton] at ht
            exact ht ▸ (hκ.join) s (by omega) hb
      | exit s' retry =>
        obtain ⟨⟨hle, hb'⟩, hretry⟩ := hR.step_exit hb h
        simp only [LoopMove.move, Move.threads, List.mem_cons, List.mem_map,
          Option.mem_toList] at ht
        obtain rfl | ⟨r, hr', rfl⟩ := ht
        · exact hκ s' (by omega) hb'
        · obtain ⟨hcons, hle', hbr⟩ := hretry r hr'
          rw [hcons, Bool.toNat_true] at hs
          exact (hκ.join) r (by omega) hbr

/-- A pattern in front of items of finite descent. -/
theorem AccFrom.pat (hR : Progress R pos bound f rank) (p : Pat L K) :
    ∀ {n : Nat} {κ : List (Item L K)}, AccFrom R pos bound (n + (p.consumes f).toNat) κ →
      AccFrom R pos bound n (.pat p :: κ) := by
  induction p with
  | skip =>
    intro n κ h s hs hb
    constructor
    rintro t ⟨g, m, hm, ht⟩
    cases hm
    simp only [Move.threads, List.mem_singleton] at ht
    exact ht ▸ h s (by simpa [consumes] using hs) hb
  | leaf l =>
    intro n κ h
    exact AccFrom.leaf hR l (bound - n) n le_rfl h
  | seq p q ihp ihq =>
    intro n κ h s hs hb
    constructor
    rintro t ⟨g, m, hm, ht⟩
    cases hm
    simp only [Move.threads, List.mem_singleton] at ht
    subst ht
    refine ihp (ihq (h.mono ?_)) s hs hb
    simp only [consumes]
    cases p.consumes f <;> cases q.consumes f <;> simp
  | alt p q ihp ihq =>
    intro n κ h s hs hb
    have hκ : AccFrom R pos bound n κ := h.mono (by simp [consumes])
    constructor
    rintro t ⟨g, m, hm, ht⟩
    cases hm
    simp only [Move.threads, List.mem_cons, List.not_mem_nil, or_false] at ht
    obtain rfl | rfl := ht
    · exact ihp (hκ.mono (by omega)).join s hs hb
    · exact ihq (hκ.mono (by omega)) s hs hb
  | loop k body ih =>
    intro n κ h s hs hb
    have hκ : AccFrom R pos bound (pos s) κ := h.mono (by simpa [consumes] using hs)
    constructor
    rintro t ⟨g, m, hm, ht⟩
    cases hm with
    | @enter _ _ _ lm _ _ henter =>
    cases lm with
    | again count mark saved =>
      obtain rfl := hR.enter_again henter
      simp only [LoopMove.move, Move.threads, List.mem_cons] at ht
      obtain rfl | ht := ht
      · exact ih (AccFrom.iter hR hκ ih _ count (pos s) le_rfl le_rfl) s le_rfl hb
      · cases saved with
        | false => simp at ht
        | true =>
          simp only [if_true, List.mem_singleton] at ht
          exact ht ▸ hκ.join s le_rfl hb
    | exit s' retry =>
      obtain ⟨⟨hle, hb'⟩, hretry⟩ := hR.enter_exit hb henter
      simp only [LoopMove.move, Move.threads, List.mem_cons, List.mem_map,
        Option.mem_toList] at ht
      obtain rfl | ⟨r, hr, rfl⟩ := ht
      · exact hκ s' hle hb'
      · obtain ⟨hle', hbr⟩ := hretry r hr
        exact hκ.join r hle' hbr

/-- Every search for a pattern ends. -/
theorem acc (hR : Progress R pos bound f rank) (p : Pat L K) {s : σ} (hs : pos s ≤ bound) (g : γ) :
    Acc (fun c' c => Search R c c') (.run ⟨[.pat p], s⟩ g []) := by
  refine Step.acc ?_ g
  refine AccFrom.pat hR p (n := pos s) ?_ s le_rfl hs
  intro s' _ _
  constructor
  rintro t ⟨g, m, hm, ht⟩
  cases hm
  simp [Move.threads] at ht

end Progress

end Pat
