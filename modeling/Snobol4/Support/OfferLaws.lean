import Snobol4.Support.Offers

/-!
# OfferLaws — the algebra of ordered patterns

Sequences and ends of alternatives only order what is still to be matched: threads whose
items flatten to the same list offer the same.  Sequence is therefore associative with the
empty pattern as its unit, alternatives append, and a sequence distributes over an
alternative in front of it, all in the order of the end states.
-/

namespace Pat

open Backtrack

variable {L K σ γ : Type}

/-! ## Flattening -/

/-- A pattern as the items that its sequences consist of. -/
def parts : Pat L K → List (Item L K)
  | skip => []
  | seq p q => p.parts ++ q.parts
  | leaf l => [.pat (.leaf l)]
  | alt p q => [.pat (.alt p q)]
  | loop k body => [.pat (.loop k body)]

/-- What an item leaves to be matched. -/
def Item.parts : Item L K → List (Item L K)
  | .pat p => p.parts
  | .join => []
  | .iter k body count mark => [.iter k body count mark]

/-- An item that a search does not merely unfold. -/
inductive Item.Solid : Item L K → Prop where
  | leaf (l : L) : Solid (.pat (.leaf l))
  | alt (p q : Pat L K) : Solid (.pat (.alt p q))
  | loop (k : K) (body : Pat L K) : Solid (.pat (.loop k body))
  | iter (k : K) (body : Pat L K) (count mark : Nat) : Solid (.iter k body count mark)

theorem Item.Solid.parts {i : Item L K} (h : i.Solid) : i.parts = [i] := by
  cases h <;> rfl

/-- The items of a thread, flattened, with its state. -/
def Thread.flat (t : Thread L K σ) : List (Item L K) × σ := (t.items.flatMap Item.parts, t.state)

namespace Interp

variable {F : Interp L K σ γ} {g : γ}

/-- A thread that goes on offers what the threads it leaves behind offer. -/
theorem Offers.go_iff {t t' : Thread L K σ} {saved ts : List (Thread L K σ)} {ends : List σ}
    (h : F.move t g = .go t' g saved) :
    Offers F g (t :: ts) ends ↔ Offers F g (t' :: (saved ++ ts)) ends := by
  constructor
  · intro hoffers
    cases hoffers with
    | finish => cases h
    | back hmove =>
      rw [h] at hmove
      cases hmove
    | go hmove rest =>
      rw [h] at hmove
      cases hmove
      exact rest
  · exact .go h

/-- A move that leaves nothing behind. -/
theorem Offers.silent_iff {t t' : Thread L K σ} {ts : List (Thread L K σ)} {ends : List σ}
    (h : F.move t g = .go t' g []) : Offers F g (t :: ts) ends ↔ Offers F g (t' :: ts) ends :=
  Offers.go_iff h

/-- Items unfold to their parts: to none, or to one that is solid. -/
theorem exists_solid (κ : List (Item L K)) :
    ∃ κ', κ'.flatMap Item.parts = κ.flatMap Item.parts ∧
      (∀ s ts ends, Offers F g (⟨κ, s⟩ :: ts) ends ↔ Offers F g (⟨κ', s⟩ :: ts) ends) ∧
      (κ' = [] ∨ ∃ i rest, κ' = i :: rest ∧ i.Solid) := by
  induction κ with
  | nil => exact ⟨[], rfl, fun _ _ _ => Iff.rfl, .inl rfl⟩
  | cons item κ ih =>
    obtain ⟨κ₀, hflat, hoffers, hsolid⟩ := ih
    have hpat : ∀ (p : Pat L K) (κ₁ : List (Item L K)),
        (∃ κ', κ'.flatMap Item.parts = κ₁.flatMap Item.parts ∧
          (∀ s ts ends, Offers F g (⟨κ₁, s⟩ :: ts) ends ↔ Offers F g (⟨κ', s⟩ :: ts) ends) ∧
          (κ' = [] ∨ ∃ i rest, κ' = i :: rest ∧ i.Solid)) →
        ∃ κ', κ'.flatMap Item.parts = (Item.pat p :: κ₁).flatMap Item.parts ∧
          (∀ s ts ends, Offers F g (⟨.pat p :: κ₁, s⟩ :: ts) ends ↔
            Offers F g (⟨κ', s⟩ :: ts) ends) ∧
          (κ' = [] ∨ ∃ i rest, κ' = i :: rest ∧ i.Solid) := by
      intro p
      induction p with
      | skip =>
        rintro κ₁ ⟨κ', hκ', hiff, hs⟩
        refine ⟨κ', hκ', fun s ts ends => ?_, hs⟩
        have hmove : F.move ⟨.pat .skip :: κ₁, s⟩ g = .go ⟨κ₁, s⟩ g [] := rfl
        exact (Offers.silent_iff hmove).trans (hiff s ts ends)
      | seq p q ihp ihq =>
        intro κ₁ hκ₁
        obtain ⟨κ', hκ', hiff, hs⟩ := ihp _ (ihq κ₁ hκ₁)
        refine ⟨κ', ?_, fun s ts ends => ?_, hs⟩
        · simpa [Item.parts, Pat.parts] using hκ'
        · have hmove : F.move ⟨.pat (.seq p q) :: κ₁, s⟩ g =
              .go ⟨.pat p :: .pat q :: κ₁, s⟩ g [] := rfl
          exact (Offers.silent_iff hmove).trans (hiff s ts ends)
      | leaf l =>
        intro κ₁ _
        exact ⟨_, rfl, fun _ _ _ => Iff.rfl, .inr ⟨_, _, rfl, .leaf l⟩⟩
      | alt p q =>
        intro κ₁ _
        exact ⟨_, rfl, fun _ _ _ => Iff.rfl, .inr ⟨_, _, rfl, .alt p q⟩⟩
      | loop k body =>
        intro κ₁ _
        exact ⟨_, rfl, fun _ _ _ => Iff.rfl, .inr ⟨_, _, rfl, .loop k body⟩⟩
    cases item with
    | pat p => exact hpat p κ ⟨κ₀, hflat, hoffers, hsolid⟩
    | join =>
      refine ⟨κ₀, hflat, fun s ts ends => ?_, hsolid⟩
      have hmove : F.move ⟨.join :: κ, s⟩ g = .go ⟨κ, s⟩ g [] := rfl
      exact (Offers.silent_iff hmove).trans (hoffers s ts ends)
    | iter k body count mark =>
      exact ⟨_, rfl, fun _ _ _ => Iff.rfl, .inr ⟨_, _, rfl, .iter k body count mark⟩⟩

/-- In front of items with the same parts a solid item makes the same move. -/
theorem move_flat {i : Item L K} (hi : i.Solid) {κ κ' : List (Item L K)}
    (hκ : κ'.flatMap Item.parts = κ.flatMap Item.parts) (s : σ) :
    (F.move ⟨i :: κ, s⟩ g = .back g → F.move ⟨i :: κ', s⟩ g = .back g) ∧
    ∀ t saved, F.move ⟨i :: κ, s⟩ g = .go t g saved →
      ∃ t' saved', F.move ⟨i :: κ', s⟩ g = .go t' g saved' ∧ t'.flat = t.flat ∧
        saved'.map Thread.flat = saved.map Thread.flat := by
  have hloop : ∀ (k : K) (body : Pat L K) (m : LoopMove σ),
      (m.move k body κ s g = .back g → m.move k body κ' s g = .back g) ∧
      ∀ t saved, m.move k body κ s g = .go t g saved →
        ∃ t' saved', m.move k body κ' s g = .go t' g saved' ∧ t'.flat = t.flat ∧
          saved'.map Thread.flat = saved.map Thread.flat := by
    intro k body m
    cases m with
    | again count mark saved =>
      refine ⟨(fun h => by cases h), ?_⟩
      rintro t saved' h
      cases h
      refine ⟨_, _, rfl, by simp [Thread.flat, hκ], ?_⟩
      cases saved <;> simp [Thread.flat, hκ, Item.parts]
    | exit s' retry =>
      refine ⟨(fun h => by cases h), ?_⟩
      rintro t saved' h
      cases h
      refine ⟨_, _, rfl, by simp [Thread.flat, hκ], ?_⟩
      cases retry <;> simp [Thread.flat, hκ, Item.parts]
  cases hi with
  | loop k body => exact hloop k body _
  | iter k body count mark => exact hloop k body _
  | alt p q =>
    refine ⟨(fun h => by cases h), ?_⟩
    rintro t saved h
    cases h
    exact ⟨_, _, rfl, by simp [Thread.flat, hκ], by simp [Thread.flat, hκ]⟩
  | leaf l =>
    simp only [move]
    cases F.leaf l s g with
    | fail g' => exact ⟨fun h => h, fun t saved h => by cases h⟩
    | next s' g' =>
      refine ⟨(fun h => by cases h), ?_⟩
      rintro t saved h
      cases h
      exact ⟨_, _, rfl, by simp [Thread.flat, hκ], rfl⟩
    | choice s' g' r =>
      refine ⟨(fun h => by cases h), ?_⟩
      rintro t saved h
      cases h
      exact ⟨_, _, rfl, by simp [Thread.flat, hκ], by simp [Thread.flat, hκ]⟩
    | cut s' g' => exact ⟨(fun h => by cases h), fun t saved h => by cases h⟩
    | stop ok g' => cases ok <;> exact ⟨(fun h => by cases h), fun t saved h => by cases h⟩

/-- The parts of items with a solid head. -/
theorem exists_head {i : Item L K} (hi : i.Solid) {κ μ : List (Item L K)}
    (h : μ.flatMap Item.parts = (i :: κ).flatMap Item.parts) :
    ∃ κ', κ'.flatMap Item.parts = κ.flatMap Item.parts ∧ ∀ s ts ends,
      Offers F g (⟨μ, s⟩ :: ts) ends ↔ Offers F g (⟨i :: κ', s⟩ :: ts) ends := by
  obtain ⟨μ', hflat, hoffers, rfl | ⟨j, κ', rfl, hj⟩⟩ := exists_solid (F := F) (g := g) μ
  · rw [← hflat, List.flatMap_cons, hi.parts] at h
    cases h
  · rw [← hflat, List.flatMap_cons, List.flatMap_cons, hi.parts, hj.parts] at h
    obtain ⟨rfl, hκ⟩ := List.cons.inj h
    exact ⟨κ', hκ, hoffers⟩

/-- Threads that flatten to the same offer the same. -/
theorem Offers.flat {ts us : List (Thread L K σ)} {ends : List σ} (h : Offers F g ts ends)
    (hus : us.map Thread.flat = ts.map Thread.flat) : Offers F g us ends := by
  induction h generalizing us with
  | empty =>
    obtain rfl := List.map_eq_nil_iff.mp hus
    exact .empty
  | @finish s ts ends rest ih =>
    obtain ⟨⟨μ, s'⟩, us, rfl, hu, hrest⟩ := List.map_eq_cons_iff.mp hus
    obtain ⟨hμ, rfl⟩ := Prod.mk.inj hu
    obtain ⟨μ', hflat, hoffers, rfl | ⟨j, κ', rfl, hj⟩⟩ := exists_solid (F := F) (g := g) μ
    · exact (hoffers _ _ _).mpr (.finish (ih hrest))
    · have hnil := hflat.trans hμ
      rw [List.flatMap_cons, hj.parts] at hnil
      cases hnil
  | @back t ts ends hmove rest ih =>
    obtain ⟨⟨μ, s'⟩, us, rfl, hu, hrest⟩ := List.map_eq_cons_iff.mp hus
    obtain ⟨κ, s⟩ := t
    obtain ⟨hμ, rfl⟩ := Prod.mk.inj hu
    cases κ with
    | nil => cases hmove
    | cons i κ =>
      have hi : i.Solid := by
        cases i with
        | join => cases hmove
        | iter => exact .iter ..
        | pat p =>
          cases p with
          | skip | seq => cases hmove
          | leaf => exact .leaf _
          | alt => exact .alt ..
          | loop => exact .loop ..
      obtain ⟨κ', hκ, hoffers⟩ := exists_head (F := F) (g := g) hi hμ
      exact (hoffers _ _ _).mpr (.back ((move_flat hi hκ s').1 hmove) (ih hrest))
  | @go t t' saved ts ends hmove rest ih =>
    obtain ⟨⟨μ, s'⟩, us, rfl, hu, hrest⟩ := List.map_eq_cons_iff.mp hus
    obtain ⟨κ, s⟩ := t
    obtain ⟨hμ, rfl⟩ := Prod.mk.inj hu
    -- a thread that only unfolds keeps its parts
    have hunfold : ∀ κ₁ : List (Item L K), κ₁.flatMap Item.parts = κ.flatMap Item.parts →
        F.move ⟨κ, s'⟩ g = .go ⟨κ₁, s'⟩ g [] → Offers F g (⟨μ, s'⟩ :: us) ends := by
      intro κ₁ hκ₁ hgo
      rw [hgo] at hmove
      cases hmove
      exact ih (by simp [Thread.flat, hrest, hκ₁, hμ])
    have hsolid : ∀ i κ₁, κ = i :: κ₁ → i.Solid → Offers F g (⟨μ, s'⟩ :: us) ends := by
      rintro i κ₁ rfl hi
      obtain ⟨κ', hκ, hoffers⟩ := exists_head (F := F) (g := g) hi hμ
      obtain ⟨u, saved', hgo, hu, hsaved⟩ := (move_flat hi hκ s').2 t' saved hmove
      refine (hoffers _ _ _).mpr (.go hgo (ih ?_))
      rw [List.map_cons, List.map_cons, List.map_append, List.map_append, hu, hsaved, hrest]
    cases κ with
    | nil => cases hmove
    | cons i κ =>
      cases i with
      | join => exact hunfold κ rfl rfl
      | iter => exact hsolid _ _ rfl (.iter ..)
      | pat p =>
        cases p with
        | skip => exact hunfold κ rfl rfl
        | seq p q =>
          exact hunfold (.pat p :: .pat q :: κ) (by simp [Item.parts, Pat.parts]) rfl
        | leaf => exact hsolid _ _ rfl (.leaf _)
        | alt => exact hsolid _ _ rfl (.alt ..)
        | loop => exact hsolid _ _ rfl (.loop ..)

/-! ## Laws -/

/-- Two patterns offer the same everywhere. -/
def Same (F : Interp L K σ γ) (g : γ) (p q : Pat L K) : Prop :=
  ∀ s ends, Offers F g [⟨[.pat p], s⟩] ends ↔ Offers F g [⟨[.pat q], s⟩] ends

/-- An alternative in front leaves its second part behind. -/
theorem Offers.alt_head_iff (p q : Pat L K) (κ : List (Item L K)) (s : σ) {ends : List σ} :
    Offers F g [⟨.pat (.alt p q) :: κ, s⟩] ends ↔
      Offers F g [⟨.pat p :: .join :: κ, s⟩, ⟨.pat q :: κ, s⟩] ends := by
  have hmove : F.move ⟨.pat (.alt p q) :: κ, s⟩ g =
      .go ⟨.pat p :: .join :: κ, s⟩ g [⟨.pat q :: κ, s⟩] := rfl
  exact Offers.go_iff hmove

/-- A sequence distributes over an alternative in front. -/
theorem Same.alt_seq (p q r : Pat L K) :
    Same F g (.seq (.alt p q) r) (.alt (.seq p r) (.seq q r)) := by
  intro s ends
  have hseq : F.move ⟨[.pat (.seq (.alt p q) r)], s⟩ g = .go ⟨[.pat (.alt p q), .pat r], s⟩ g [] :=
    rfl
  have hleft : Offers F g [⟨[.pat (.seq (.alt p q) r)], s⟩] ends ↔
      Offers F g [⟨[.pat p, .join, .pat r], s⟩, ⟨[.pat q, .pat r], s⟩] ends :=
    (Offers.silent_iff hseq).trans (Offers.alt_head_iff p q [.pat r] s)
  have hright : Offers F g [⟨[.pat (.alt (.seq p r) (.seq q r))], s⟩] ends ↔
      Offers F g [⟨[.pat (.seq p r), .join], s⟩, ⟨[.pat (.seq q r)], s⟩] ends :=
    Offers.alt_head_iff (.seq p r) (.seq q r) [] s
  rw [hleft, hright]
  constructor
  · exact fun h => h.flat (by simp [Thread.flat, Item.parts, Pat.parts])
  · exact fun h => h.flat (by simp [Thread.flat, Item.parts, Pat.parts])

end Interp

end Pat
