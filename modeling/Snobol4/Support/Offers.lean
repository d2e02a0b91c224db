import Snobol4.Support.Interp

/-!
# Offers — what a pattern offers, in order

A search that is told to go on after each success comes to a list of end states.  A
pattern offers this list at a state: one ordered meaning, in which a sequence binds, an
alternative appends and the plain search delivers the head.  It is defined where the
leaves neither cut the choices nor end the search nor touch the globals.
-/

namespace Pat

open Backtrack

variable {L K L' K' σ γ : Type}

/-! ## Accessibility of one thread -/

/-- A thread with one pattern left has finite descent. -/
theorem Progress.acc_thread {R : Rules L K σ γ} {pos : σ → Nat} {bound : Nat} {f : L → Bool}
    {rank : K → Nat → Nat} (hR : Progress R pos bound f rank) (p : Pat L K) {s : σ}
    (hs : pos s ≤ bound) : Acc (Child (Moves R)) ⟨[.pat p], s⟩ := by
  refine AccFrom.pat hR p (n := pos s) ?_ s le_rfl hs
  intro s' _ _
  constructor
  rintro t ⟨g, m, hm, ht⟩
  cases hm
  simp [Move.threads] at ht

/-- Every leaf of the item satisfies `P`. -/
def Item.All (P : L → Prop) : Item L K → Prop
  | .pat p => p.All P
  | .join => True
  | .iter _ body _ _ => body.All P

/-- Replace the leaves and the loop descriptions of an item. -/
def Item.map (f : L → L') (h : K → K') : Item L K → Item L' K'
  | .pat p => .pat (p.map f h)
  | .join => .join
  | .iter k body count mark => .iter (h k) (body.map f h) count mark

/-- Replace the leaves and the loop descriptions of a thread. -/
def Thread.map (f : L → L') (h : K → K') (t : Thread L K σ) : Thread L' K' σ :=
  ⟨t.items.map (Item.map f h), t.state⟩

namespace Interp

variable {F : Interp L K σ γ} {g : γ}

/-! ## The meaning -/

/-- The threads, tried one after the other, offer the end states `ends`. -/
inductive Offers (F : Interp L K σ γ) (g : γ) : List (Thread L K σ) → List σ → Prop where
  | empty : Offers F g [] []
  | finish {s : σ} {ts : List (Thread L K σ)} {ends : List σ} (rest : Offers F g ts ends) :
      Offers F g (⟨[], s⟩ :: ts) (s :: ends)
  | back {t : Thread L K σ} {ts : List (Thread L K σ)} {ends : List σ}
      (h : F.move t g = .back g) (rest : Offers F g ts ends) : Offers F g (t :: ts) ends
  | go {t t' : Thread L K σ} {saved ts : List (Thread L K σ)} {ends : List σ}
      (h : F.move t g = .go t' g saved) (rest : Offers F g (t' :: (saved ++ ts)) ends) :
      Offers F g (t :: ts) ends

/-- The verdict of a search that stops at the first of the end states. -/
def firstOf (g : γ) : List σ → Verdict σ γ
  | [] => .failure g
  | s :: _ => .success s g

/-- The search delivers the first end state. -/
theorem Offers.search {ts : List (Thread L K σ)} {ends : List σ} (h : Offers F g ts ends) :
    Relation.ReflTransGen (Search F.rules) (resume g ts) (.done (firstOf g ends)) := by
  induction h with
  | empty => exact .refl
  | finish _ _ => exact .single (.intro _ (Moves.finish _ g))
  | @back t ts ends hmove _ ih => exact .head (.intro ts (moves_iff.mpr hmove.symm)) ih
  | @go t t' saved ts ends hmove _ ih => exact .head (.intro ts (moves_iff.mpr hmove.symm)) ih

/-- A pattern's search finds the first end state that the pattern offers. -/
theorem Offers.finds {p : Pat L K} {s : σ} {ends : List σ} (h : Offers F g [⟨[.pat p], s⟩] ends) :
    F.Finds p s g (firstOf g ends) := h.search

/-! ## Composition -/

/-- Threads behind others offer what they offer, behind what the others offer. -/
theorem Offers.append {ts us : List (Thread L K σ)} {ends ends' : List σ} (h : Offers F g ts ends)
    (h' : Offers F g us ends') : Offers F g (ts ++ us) (ends ++ ends') := by
  induction h with
  | empty => exact h'
  | finish _ ih => exact .finish ih
  | back hmove _ ih => exact .back hmove ih
  | go hmove _ ih =>
    exact .go hmove (by simpa using ih)

/-- What threads offer splits where they do. -/
theorem Offers.split (ts : List (Thread L K σ)) {us : List (Thread L K σ)} {ends : List σ}
    (h : Offers F g (ts ++ us) ends) :
    ∃ e e', ends = e ++ e' ∧ Offers F g ts e ∧ Offers F g us e' := by
  generalize hstack : ts ++ us = stack at h
  induction h generalizing ts with
  | empty =>
    obtain ⟨rfl, rfl⟩ := List.append_eq_nil_iff.mp hstack
    exact ⟨[], [], rfl, .empty, .empty⟩
  | @finish s stack ends rest ih =>
    cases ts with
    | nil =>
      obtain rfl : us = _ := hstack
      exact ⟨[], _, rfl, .empty, .finish rest⟩
    | cons t ts =>
      obtain ⟨rfl, rfl⟩ := List.cons.inj hstack
      obtain ⟨e, e', rfl, he, he'⟩ := ih _ rfl
      exact ⟨s :: e, e', rfl, .finish he, he'⟩
  | back hmove rest ih =>
    cases ts with
    | nil =>
      obtain rfl : us = _ := hstack
      exact ⟨[], _, rfl, .empty, .back hmove rest⟩
    | cons t ts =>
      obtain ⟨rfl, rfl⟩ := List.cons.inj hstack
      obtain ⟨e, e', rfl, he, he'⟩ := ih _ rfl
      exact ⟨e, e', rfl, .back hmove he, he'⟩
  | @go t t' saved stack ends hmove rest ih =>
    cases ts with
    | nil =>
      obtain rfl : us = _ := hstack
      exact ⟨[], _, rfl, .empty, .go hmove rest⟩
    | cons u ts =>
      obtain ⟨rfl, rfl⟩ := List.cons.inj hstack
      obtain ⟨e, e', rfl, he, he'⟩ := @ih (t' :: (saved ++ ts)) (by simp)
      exact ⟨e, e', rfl, .go hmove he, he'⟩

/-! ## Existence -/

/-- A leaf that leaves choices, globals and the search alone. -/
inductive Quiet (F : Interp L K σ γ) (g : γ) (l : L) (s : σ) : Prop where
  | next (s' : σ) (h : F.leaf l s g = .next s' g)
  | choice (s' r : σ) (h : F.leaf l s g = .choice s' g r)
  | fail (h : F.leaf l s g = .fail g)

/-- Leaves that are always quiet. -/
def QuietLeaf (F : Interp L K σ γ) (g : γ) (l : L) : Prop := ∀ s, Quiet F g l s

/-- A thread that has items left goes on or fails if its leaves are quiet, and those of the
threads it leaves behind are quiet too. -/
theorem move_quiet {item : Item L K} {items : List (Item L K)} {s : σ} {P : L → Prop}
    (hquiet : ∀ l, P l → QuietLeaf F g l) (hall : ∀ i ∈ item :: items, i.All P) :
    F.move ⟨item :: items, s⟩ g = .back g ∨
      ∃ t saved, F.move ⟨item :: items, s⟩ g = .go t g saved ∧
        ∀ u ∈ t :: saved, ∀ i ∈ u.items, i.All P := by
  obtain ⟨hitem, hitems⟩ := List.forall_mem_cons.mp hall
  have hloop : ∀ (k : K) (body : Pat L K) (m : LoopMove σ), body.All P →
      ∃ t saved, m.move k body items s g = .go t g saved ∧
        ∀ u ∈ t :: saved, ∀ i ∈ u.items, i.All P := by
    intro k body m hbody
    cases m with
    | again count mark saved =>
      refine ⟨_, _, rfl, ?_⟩
      cases saved <;> simpa [Item.All, hbody] using hitems
    | exit s' retry =>
      refine ⟨_, _, rfl, ?_⟩
      cases retry <;> simpa [Item.All] using hitems
  cases item with
  | join => exact .inr ⟨_, _, rfl, by simpa using hitems⟩
  | iter k body count mark => exact .inr (hloop k body _ hitem)
  | pat p =>
    cases p with
    | skip => exact .inr ⟨_, _, rfl, by simpa using hitems⟩
    | seq p q =>
      refine .inr ⟨_, _, rfl, ?_⟩
      simpa [Item.All, hitem.1, hitem.2] using hitems
    | alt p q =>
      refine .inr ⟨_, _, rfl, ?_⟩
      simpa [Item.All, hitem.1, hitem.2] using hitems
    | loop k body => exact .inr (hloop k body _ hitem)
    | leaf l =>
      simp only [move]
      cases hquiet l hitem s with
      | next s' h =>
        rw [h]
        exact .inr ⟨_, _, rfl, by simpa using hitems⟩
      | choice s' r h =>
        rw [h]
        refine .inr ⟨_, _, rfl, ?_⟩
        have hl : P l := hitem
        simpa [Item.All, All, hl] using hitems
      | fail h =>
        rw [h]
        exact .inl rfl

/-- A thread of finite descent with quiet leaves offers something. -/
theorem exists_offers {P : L → Prop} (hquiet : ∀ l, P l → QuietLeaf F g l) {t : Thread L K σ}
    (hacc : Acc (Child (Moves F.rules)) t) (hall : ∀ i ∈ t.items, i.All P) :
    ∃ ends, Offers F g [t] ends := by
  induction hacc with
  | intro t _ ih =>
    obtain ⟨items, s⟩ := t
    cases items with
    | nil => exact ⟨[s], .finish .empty⟩
    | cons item items =>
      obtain hback | ⟨t', saved, hgo, hchildren⟩ := move_quiet hquiet hall (s := s)
      · exact ⟨[], .back hback .empty⟩
      · -- the threads left behind offer something, one after the other
        have hstack : ∀ us : List (Thread L K σ), (∀ u ∈ us, u ∈ t' :: saved) →
            ∃ ends, Offers F g us ends := by
          intro us
          induction us with
          | nil => exact fun _ => ⟨[], .empty⟩
          | cons u us ihus =>
            intro hmem
            have hu := hmem u List.mem_cons_self
            obtain ⟨e, he⟩ := ih u ⟨g, _, moves_iff.mpr hgo.symm, hu⟩ (hchildren u hu)
            obtain ⟨e', he'⟩ := ihus fun v hv => hmem v (List.mem_cons_of_mem u hv)
            exact ⟨e ++ e', he.append he'⟩
        obtain ⟨ends, hends⟩ := hstack (t' :: saved) fun u hu => hu
        exact ⟨ends, .go hgo (by simpa using hends)⟩

/-! ## Patterns with other leaves -/

/-- Rules that give the leaves of `F` the meaning of the leaves they are mapped to. -/
structure Agree (F : Interp L K σ γ) (F' : Interp L' K' σ γ) (f : L → L') (h : K → K')
    (P : L → Prop) : Prop where
  leaf : ∀ l s g, P l → F.leaf l s g = F'.leaf (f l) s g
  enter : ∀ k s, F.enter k s = F'.enter (h k) s
  step : ∀ k count mark s, F.step k count mark s = F'.step (h k) count mark s

variable {F' : Interp L' K' σ γ} {f : L → L'} {h : K → K'} {P : L → Prop}

/-- The move of a thread is that of its image. -/
theorem Agree.move (hagree : Agree F F' f h P) {t : Thread L K σ} (hall : ∀ i ∈ t.items, i.All P) :
    (F'.move (t.map f h) g = .back g → F.move t g = .back g) ∧
    ∀ u saved, F'.move (t.map f h) g = .go u g saved →
      ∃ u₀ saved₀, F.move t g = .go u₀ g saved₀ ∧ u = u₀.map f h ∧
        saved = saved₀.map (Thread.map f h) ∧
        ∀ v ∈ u₀ :: saved₀, ∀ i ∈ v.items, i.All P := by
  obtain ⟨items, s⟩ := t
  cases items with
  | nil => exact ⟨nofun, nofun⟩
  | cons item items =>
    obtain ⟨hitem, hitems⟩ := List.forall_mem_cons.mp hall
    have hloop : ∀ (k : K) (body : Pat L K) (m : LoopMove σ), body.All P →
        (m.move (h k) (body.map f h) (items.map (Item.map f h)) s g = .back g →
          m.move k body items s g = .back g) ∧
        ∀ u saved, m.move (h k) (body.map f h) (items.map (Item.map f h)) s g = .go u g saved →
          ∃ u₀ saved₀, m.move k body items s g = .go u₀ g saved₀ ∧ u = u₀.map f h ∧
            saved = saved₀.map (Thread.map f h) ∧
            ∀ v ∈ u₀ :: saved₀, ∀ i ∈ v.items, i.All P := by
      intro k body m hbody
      cases m with
      | again count mark saved =>
        refine ⟨nofun, ?_⟩
        rintro u saved' hu
        cases hu
        refine ⟨_, _, rfl, rfl, by cases saved <;> rfl, ?_⟩
        cases saved <;> simpa [Item.All, hbody] using hitems
      | exit s' retry =>
        refine ⟨nofun, ?_⟩
        rintro u saved' hu
        cases hu
        refine ⟨_, _, rfl, rfl, by cases retry <;> rfl, ?_⟩
        cases retry <;> simpa [Item.All] using hitems
    cases item with
    | join =>
      refine ⟨nofun, ?_⟩
      rintro u saved hu
      cases hu
      exact ⟨_, _, rfl, rfl, rfl, by simpa using hitems⟩
    | iter k body count mark =>
      rw [show F.move ⟨.iter k body count mark :: items, s⟩ g =
        (F.step k count mark s).move k body items s g from rfl, hagree.step]
      exact hloop k body _ hitem
    | pat p =>
      cases p with
      | loop k body =>
        rw [show F.move ⟨.pat (.loop k body) :: items, s⟩ g =
          (F.enter k s).move k body items s g from rfl, hagree.enter]
        exact hloop k body _ hitem
      | skip =>
        refine ⟨nofun, ?_⟩
        rintro u saved hu
        cases hu
        exact ⟨_, _, rfl, rfl, rfl, by simpa using hitems⟩
      | seq p q =>
        refine ⟨nofun, ?_⟩
        rintro u saved hu
        cases hu
        exact ⟨_, _, rfl, rfl, rfl, by simpa [Item.All, hitem.1, hitem.2] using hitems⟩
      | alt p q =>
        refine ⟨nofun, ?_⟩
        rintro u saved hu
        cases hu
        exact ⟨_, _, rfl, rfl, rfl, by simpa [Item.All, hitem.1, hitem.2] using hitems⟩
      | leaf l =>
        simp only [Interp.move, Thread.map, List.map_cons, Item.map, Pat.map]
        rw [hagree.leaf l s g hitem]
        have hl : P l := hitem
        cases F'.leaf (f l) s g with
        | fail g' =>
          refine ⟨fun hback => ?_, nofun⟩
          cases hback
          rfl
        | next s' g' =>
          refine ⟨nofun, ?_⟩
          rintro u saved hu
          cases hu
          exact ⟨_, _, rfl, rfl, rfl, by simpa using hitems⟩
        | choice s' g' r =>
          refine ⟨nofun, ?_⟩
          rintro u saved hu
          cases hu
          exact ⟨_, _, rfl, rfl, rfl, by simpa [Item.All, All, hl] using hitems⟩
        | cut s' g' => exact ⟨nofun, nofun⟩
        | stop ok g' => cases ok <;> exact ⟨nofun, nofun⟩

/-- Mapped threads offer what the threads offer. -/
theorem Offers.of_map (hagree : Agree F F' f h P) {ts : List (Thread L K σ)} {ends : List σ}
    (hall : ∀ t ∈ ts, ∀ i ∈ t.items, i.All P)
    (hoffers : Offers F' g (ts.map (Thread.map f h)) ends) : Offers F g ts ends := by
  generalize hstack : ts.map (Thread.map f h) = stack at hoffers
  induction hoffers generalizing ts with
  | empty =>
    obtain rfl := List.map_eq_nil_iff.mp hstack
    exact .empty
  | finish rest ih =>
    obtain ⟨t, ts, rfl, ht, rfl⟩ := List.map_eq_cons_iff.mp hstack
    obtain ⟨-, hts⟩ := List.forall_mem_cons.mp hall
    obtain ⟨items, s⟩ := t
    obtain ⟨hitems, rfl⟩ := Thread.mk.inj ht
    obtain rfl := List.map_eq_nil_iff.mp hitems
    exact .finish (ih hts rfl)
  | back hmove rest ih =>
    obtain ⟨t, ts, rfl, rfl, rfl⟩ := List.map_eq_cons_iff.mp hstack
    obtain ⟨ht, hts⟩ := List.forall_mem_cons.mp hall
    exact .back ((hagree.move ht).1 hmove) (ih hts rfl)
  | go hmove rest ih =>
    obtain ⟨t, ts, rfl, rfl, rfl⟩ := List.map_eq_cons_iff.mp hstack
    obtain ⟨ht, hts⟩ := List.forall_mem_cons.mp hall
    obtain ⟨u, saved, hgo, rfl, rfl, hchildren⟩ := (hagree.move ht).2 _ _ hmove
    refine .go hgo (ih ?_ (by simp))
    intro v hv
    rw [← List.cons_append, List.mem_append] at hv
    exact hv.elim (hchildren v) (hts v)

end Interp

end Pat
