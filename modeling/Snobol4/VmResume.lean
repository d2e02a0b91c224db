import Snobol4.VmRules
import Snobol4.VmStore

/-!
# VmResume — saved threads survive what runs above them

A choice record stands for a thread of the search: once everything above it has
failed, the registers it brings back are the ones its open loops were left with.
This holds although `OP_REPEAT_INIT` writes its loop register without an undo record,
because a register is only initialised again after the loop was left, and leaving it
put a record on the trail.
-/

namespace Snobol4

abbrev BlkThread := Pat.Thread (Leaf Nat) LoopSpec Local

/-! ## Open loops -/

/-- The open loops of which the next `OP_REPEAT_STEP` reads the counter and the last
position. -/
def live : List BlkItem → List (Nat × Nat × Nat)
  | [] => []
  | .pat _ :: κ => live κ
  | .join :: κ => live κ
  | .iter k body count mark :: κ =>
      if isGreedy k body then live κ else (k.id, count, mark) :: live κ

/-- The ids of the open loops. -/
def liveIds (κ : List BlkItem) : List Nat := (live κ).map (·.1)

theorem liveIds_subset {κ : List BlkItem} {i : Nat} (h : i ∈ liveIds κ) : i ∈ (ctxOf κ).ids := by
  induction κ with
  | nil => simp [liveIds, live] at h
  | cons item κ ih =>
    cases item with
    | pat p => exact ih h
    | join => exact ih h
    | iter k body count mark =>
      simp only [liveIds, live] at h
      split at h
      · exact List.mem_cons_of_mem _ (ih h)
      · obtain rfl | h := List.mem_cons.mp h
        · exact List.mem_cons_self
        · exact List.mem_cons_of_mem _ (ih h)

/-- Open loops do not take the greedy shortcut. -/
theorem not_greedy_of_live {Γ : LoopTable} {κ : List BlkItem} {i : Nat} (hκ : ItemsPlaced Γ κ)
    (h : i ∈ liveIds κ) : (Γ i).greedy = false := by
  induction κ with
  | nil => simp [liveIds, live] at h
  | cons item κ ih =>
    cases item with
    | pat p => exact ih hκ.2 h
    | join => exact ih hκ h
    | iter k body count mark =>
      simp only [liveIds, live] at h
      split at h
      · exact ih hκ.2 h
      · rename_i hgreedy
        obtain rfl | h := List.mem_cons.mp h
        · rw [hκ.1.1.1]
          simpa using hgreedy
        · exact ih hκ.2 h

theorem Silent.live {κ κ' : List BlkItem} (h : Silent κ κ') : live κ' = live κ := by
  cases h <;> rfl

theorem Silents.live {κ κ' : List BlkItem} (h : Silents κ κ') : live κ' = live κ := by
  induction h with
  | refl => rfl
  | tail _ hstep ih => exact hstep.live.trans ih

/-- The loop registers hold what the open loops need. -/
def Store.Holds (st : Store) (κ : List BlkItem) : Prop :=
  ∀ r ∈ live κ, st.counters r.1 = r.2.1 ∧ st.loopLastPos r.1 = r.2.2 ∧ r.1 < st.maxCounterUsed

/-- A register that is not open may change. -/
theorem Store.Holds.setLoop {st : Store} {κ : List BlkItem} {i : Nat} (h : st.Holds κ)
    (hi : i ∉ liveIds κ) (n p : Nat) : (st.setLoop i n p).Holds κ := by
  intro r hr
  have hne : r.1 ≠ i := fun heq => hi (List.mem_map.mpr ⟨r, hr, heq⟩)
  simp only [Store.setLoop, Function.update_of_ne hne]
  exact h r hr

/-! ## Threads -/

/-- The position below which no thread descending from `t` starts a loop again. -/
def floorOf (t : BlkThread) : Int := t.state.pos - (ctxOf t.items).lag

section

variable {W : Type} (env : VmEnv W) (Γ : LoopTable) (known : Nat → Prop) (exact : Bool)

/-- The thread `t` stands at `ip` and `pos`: at its items, or at the `OP_REPEAT_STEP`
of a greedy loop that has run before and will only leave the loop. -/
inductive Standing (bound : Int) (st : Store) (ip pos : Nat) : BlkThread → Prop where
  | items {κ : List BlkItem} {s : Local} (h : ItemsAt env.bc κ ip) (hpos : s.pos = pos) :
      Standing bound st ip pos ⟨κ, s⟩
  | retry {k : LoopSpec} {body : Blk} {a : Nat} {κ : List BlkItem} {s : Local}
      (hcode : Blk.Code env.bc (.loop k body) a) (hip : ip = a + 14 + body.size)
      (hκ : ItemsAt env.bc κ (a + 20 + body.size)) (hgreedy : isGreedy k body = true)
      (hinfo : Γ k.id = ⟨k, true, (ctxOf κ).lag⟩) (hmax : k.id < maxLoops) (hknown : known k.id)
      (hpos : s.pos = (greedyRunEnd env (a + 14) pos).getD pos)
      (hdone : s.pos ≤ st.loopLastPos k.id) (hbound : floorOf ⟨.join :: κ, s⟩ ≤ bound) :
      Standing bound st ip pos ⟨.join :: κ, s⟩

/-- The store, the instruction pointer and the cursor stand for the thread `t`. -/
structure ThreadOk (bound : Int) (st : Store) (ip pos : Nat) (t : BlkThread) : Prop where
  standing : Standing env Γ known bound st ip pos t
  regs : exact = true → t.state.regs = st.regs
  placed : ItemsPlaced Γ t.items
  holds : st.Holds t.items
  known : ∀ i ∈ (ctxOf t.items).ids, known i
  le_length : t.state.pos ≤ env.s.length
  pos_le : pos ≤ env.s.length

/-- Writing loop register `i` is not noticed by the saved threads. -/
def Free (i : Nat) : List UndoRecord → List Choice → List BlkThread → Prop
  | trail, c :: cs, t :: ts =>
      Store.Covers c trail i ∨ i ∉ liveIds t.items ∧ Free i (Store.cutTrail c trail) cs ts
  | _, _, _ => True

/-- In compact mode the registers of open loops are recorded when they change, all
others are free. -/
def Shielded (κ : List BlkItem) (trail : List UndoRecord) (cs : List Choice)
    (ts : List BlkThread) : Prop :=
  ∀ i < maxLoops, env.compact = true ∧ i ∈ liveIds κ ∨ Free i trail cs ts

/-- The choice records stand for the saved threads `ts`. -/
def SavedOk : Int → Store → List Choice → List BlkThread → Prop
  | _, _, [], [] => True
  | bound, st, c :: cs, t :: ts =>
      Store.Fits env c st.trail ∧
      ThreadOk env Γ known exact bound (st.restore c) c.ip c.pos t ∧
      Shielded env t.items (Store.cutTrail c st.trail) cs ts ∧
      SavedOk (min bound (floorOf t)) (st.restore c) cs ts
  | _, _, _, _ => False

end

/-! ## Stores that agree -/

/-- The stores agree on what a thread reads. -/
structure Store.Agree (exact : Bool) (st st' : Store) : Prop where
  counters : st'.counters = st.counters
  loopLastPos : st'.loopLastPos = st.loopLastPos
  maxCounterUsed : st'.maxCounterUsed = st.maxCounterUsed
  trail : st'.trail = st.trail
  regs : exact = true → st'.regs = st.regs

namespace Store.Agree

variable {exact : Bool} {st st' : Store}

theorem of_eq (h : st' = st) : Agree exact st st' := by
  subst h
  exact ⟨rfl, rfl, rfl, rfl, fun _ => rfl⟩

theorem withScalars (h : Agree exact st st') (c : Choice) :
    Agree exact (st.withScalars c) (st'.withScalars c) where
  counters := h.counters
  loopLastPos := h.loopLastPos
  maxCounterUsed := rfl
  trail := h.trail
  regs hexact := by
    simp only [Store.withScalars, h.regs hexact]

theorem undo (h : Agree exact st st') (e : UndoRecord) : Agree exact (st.undo e) (st'.undo e) := by
  cases e with
  | counterDec loop count lastPos =>
    simp only [Store.undo]
    split
    · exact ⟨by simp only [setLoop, h.counters], by simp only [setLoop, h.loopLastPos],
        h.maxCounterUsed, h.trail, h.regs⟩
    · exact h
  | capWrite reg sub start stop =>
    simp only [Store.undo]
    split
    · split
      · exact ⟨h.counters, h.loopLastPos, h.maxCounterUsed, h.trail,
          fun hexact => by simp only [h.regs hexact]⟩
      split
      · exact ⟨h.counters, h.loopLastPos, h.maxCounterUsed, h.trail,
          fun hexact => by simp only [h.regs hexact]⟩
      · exact ⟨h.counters, h.loopLastPos, h.maxCounterUsed, h.trail,
          fun hexact => by simp only [h.regs hexact]⟩
    · exact h
  | varWrite var start stop =>
    simp only [Store.undo]
    split
    · exact ⟨h.counters, h.loopLastPos, h.maxCounterUsed, h.trail,
        fun hexact => by simp only [h.regs hexact]⟩
    · exact h

theorem replay (h : Agree exact st st') (base : Nat) (trail : List UndoRecord) :
    Agree exact (replay base trail st) (replay base trail st') := by
  induction trail generalizing st st' with
  | nil => exact ⟨h.counters, h.loopLastPos, h.maxCounterUsed, rfl, h.regs⟩
  | cons e trail ih =>
    rw [Store.replay, Store.replay]
    split
    · exact ih (h.undo e)
    · exact ⟨h.counters, h.loopLastPos, h.maxCounterUsed, rfl, h.regs⟩

/-- Stores that agree still do so after a pop. -/
theorem restore (h : Agree exact st st') (c : Choice) :
    Agree exact (st.restore c) (st'.restore c) := by
  cases hsaved : c.saved with
  | trailBase base =>
    rw [restore_trailBase hsaved, restore_trailBase hsaved, h.trail]
    exact (h.withScalars c).replay base st.trail
  | snapshot capStart capEnd counters loopLastPos =>
    simp only [Store.restore, hsaved]
    exact ⟨by simp only [h.counters], by simp only [h.loopLastPos], rfl, h.trail,
      fun hexact => by simp only [h.regs hexact]⟩

theorem holds (h : Agree exact st st') {κ : List BlkItem} (hκ : st.Holds κ) : st'.Holds κ := by
  intro r hr
  rw [h.counters, h.loopLastPos, h.maxCounterUsed]
  exact hκ r hr

end Store.Agree

section

variable {W : Type} {env : VmEnv W} {Γ : LoopTable} {known known' : Nat → Prop} {exact : Bool}
  {bound bound' : Int} {st st' : Store} {cs : List Choice} {t : BlkThread} {ts : List BlkThread}
  {ip pos i : Nat}

theorem Standing.congr (h : Standing env Γ known bound st ip pos t)
    (hknown : ∀ i, known i → known' i) (hbound : bound ≤ bound')
    (hlast : ∀ k, st.loopLastPos k ≤ st'.loopLastPos k) :
    Standing env Γ known' bound' st' ip pos t := by
  cases h with
  | items h hpos => exact .items h hpos
  | retry hcode hip hκ hgreedy hinfo hmax hknown' hpos hdone hle =>
    exact .retry hcode hip hκ hgreedy hinfo hmax (hknown _ hknown') hpos
      (hdone.trans (hlast _)) (hle.trans hbound)

namespace ThreadOk

theorem mono (h : ThreadOk env Γ known exact bound st ip pos t)
    (hknown : ∀ i, known i → known' i) (hbound : bound ≤ bound') :
    ThreadOk env Γ known' exact bound' st ip pos t :=
  { h with
    standing := h.standing.congr hknown hbound fun _ => le_rfl
    known := fun i hi => hknown i (h.known i hi) }

theorem congr (h : ThreadOk env Γ known exact bound st ip pos t) (hst : st.Agree exact st') :
    ThreadOk env Γ known exact bound st' ip pos t :=
  { h with
    standing := h.standing.congr (fun _ h => h) le_rfl fun k => by rw [hst.loopLastPos]
    regs := fun hexact => (h.regs hexact).trans (hst.regs hexact).symm
    holds := hst.holds h.holds }

/-- A write of a loop register that is not open; the last position of a greedy loop
does not go below the floor. -/
theorem setLoop (h : ThreadOk env Γ known exact bound st ip pos t) (hi : i ∉ liveIds t.items)
    {n p : Nat} (hgreedy : (Γ i).greedy = true → bound ≤ p - (Γ i).lag) :
    ThreadOk env Γ known exact bound (st.setLoop i n p) ip pos t := by
  obtain ⟨hstanding, hregs, hplaced, hholds, hknown, hlen, hpos'⟩ := h
  refine ⟨?_, hregs, hplaced, hholds.setLoop hi n p, hknown, hlen, hpos'⟩
  cases hstanding with
  | items h hpos => exact .items h hpos
  | @retry k body a κ s hcode hip hκ hgr hinfo hmax hkn hpos hdone hle =>
    refine .retry hcode hip hκ hgr hinfo hmax hkn hpos ?_ hle
    by_cases hk : k.id = i
    · subst hk
      have hp := hgreedy (by rw [hinfo])
      simp only [hinfo] at hp
      simp only [floorOf, ctxOf] at hle
      simp only [Store.setLoop, Function.update_self]
      omega
    · simp only [Store.setLoop, Function.update_of_ne hk]
      exact hdone

end ThreadOk

/-! ## Free registers -/

namespace Free

/-- Records do not make a register less free. -/
theorem append {trail : List UndoRecord} (hcompact : env.compact = true)
    (hfits : ∀ c ∈ cs.head?, Store.Fits env c trail) (h : Free i trail cs ts)
    (undone : List UndoRecord) : Free i (undone ++ trail) cs ts := by
  cases cs with
  | nil => trivial
  | cons c cs =>
    cases ts with
    | nil => trivial
    | cons t ts =>
      have hc := hfits c rfl
      simp only [Free] at h ⊢
      rw [Store.cutTrail_append hcompact hc]
      exact h.imp_left fun h => h.append hc undone

/-- A register with a record on top of the trail is free. -/
theorem of_record {trail : List UndoRecord} {e : UndoRecord} (hcompact : env.compact = true)
    (hfits : ∀ c ∈ cs.head?, Store.Fits env c trail) (he : Store.Undoes i e) :
    Free i (e :: trail) cs ts := by
  cases cs with
  | nil => trivial
  | cons c cs =>
    cases ts with
    | nil => trivial
    | cons t ts => exact .inl (Store.covers_cons hcompact (hfits c rfl) he)

/-- A record pushed for a thread in which the register is not open. -/
theorem push (h : Free i st.trail cs ts) (hfits : st.TrailFits env) (hi : i ∉ liveIds t.items)
    (ip pos : Nat) : Free i st.trail (st.choice env ip pos :: cs) (t :: ts) := by
  refine .inr ⟨hi, ?_⟩
  rw [Store.cutTrail_choice hfits]
  exact h

end Free

/-! ## Saved threads -/

namespace SavedOk

theorem fits (h : SavedOk env Γ known exact bound st cs ts) :
    ∀ c ∈ cs.head?, Store.Fits env c st.trail := by
  intro c hc
  cases cs with
  | nil => simp at hc
  | cons c' cs =>
    cases ts with
    | nil => exact absurd h not_false
    | cons t ts =>
      obtain rfl : c' = c := by simpa using hc
      exact h.1

theorem mono (h : SavedOk env Γ known exact bound st cs ts)
    (hknown : ∀ i, known i → known' i) (hbound : bound ≤ bound') :
    SavedOk env Γ known' exact bound' st cs ts := by
  induction cs generalizing bound bound' st ts with
  | nil => cases ts <;> exact h
  | cons c cs ih =>
    cases ts with
    | nil => exact h
    | cons t ts =>
      obtain ⟨hfits, ht, hshield, hrest⟩ := h
      exact ⟨hfits, ht.mono hknown hbound, hshield, ih hrest (by omega)⟩

/-- Only what the records bring back matters. -/
theorem congr (h : SavedOk env Γ known exact bound st cs ts)
    (hst : ∀ c, Store.Fits env c st.trail →
      Store.Fits env c st'.trail ∧ (st.restore c).Agree exact (st'.restore c)) :
    SavedOk env Γ known exact bound st' cs ts := by
  induction cs generalizing bound st st' ts with
  | nil => cases ts <;> exact h
  | cons c cs ih =>
    cases ts with
    | nil => exact h
    | cons t ts =>
      obtain ⟨hfits, ht, hshield, hrest⟩ := h
      obtain ⟨hfits', hagree⟩ := hst c hfits
      have htrail : Store.cutTrail c st'.trail = Store.cutTrail c st.trail := by
        rw [← Store.restore_trail, ← Store.restore_trail, hagree.trail]
      refine ⟨hfits', ht.congr hagree, by rw [htrail]; exact hshield, ih hrest ?_⟩
      intro c' hc'
      rw [hagree.trail]
      exact ⟨hc', hagree.restore c'⟩

/-- A write of a free loop register is not noticed. -/
theorem setLoop (h : SavedOk env Γ known exact bound st cs ts) (hi : i < maxLoops)
    (hfree : Free i st.trail cs ts) {n p : Nat}
    (hgreedy : (Γ i).greedy = true → bound ≤ p - (Γ i).lag) :
    SavedOk env Γ known exact bound (st.setLoop i n p) cs ts := by
  induction cs generalizing bound st ts with
  | nil => cases ts <;> exact h
  | cons c cs ih =>
    cases ts with
    | nil => exact h
    | cons t ts =>
      obtain ⟨hfits, ht, hshield, hrest⟩ := h
      by_cases hcovers : Store.Covers c st.trail i
      · have heq := Store.restore_setLoop_of_covers hi hcovers n p
        exact ⟨hfits, by rw [heq]; exact ht, hshield, by rw [heq]; exact hrest⟩
      · obtain ⟨hlive, hfree⟩ := Or.resolve_left hfree hcovers
        have heq := Store.restore_setLoop hcovers n p
        rw [← Store.restore_trail] at hfree
        refine ⟨hfits, by rw [heq]; exact ht.setLoop hlive hgreedy, hshield, ?_⟩
        rw [heq]
        exact ih hrest hfree fun hgr => by
          have := hgreedy hgr
          omega

/-- Push a thread that stands where the record says. -/
theorem push (h : SavedOk env Γ known exact (min bound (floorOf t)) st cs ts)
    (hfits : st.TrailFits env) (ht : ThreadOk env Γ known exact bound st ip pos t)
    (hshield : Shielded env t.items st.trail cs ts) :
    SavedOk env Γ known exact bound st (st.choice env ip pos :: cs) (t :: ts) := by
  refine ⟨Store.choice_fits env ip pos st, ?_, ?_, ?_⟩
  · rw [Store.restore_choice hfits]
    exact ht
  · rw [Store.cutTrail_choice hfits]
    exact hshield
  · rw [Store.restore_choice hfits]
    exact h

end SavedOk

end

end Snobol4
