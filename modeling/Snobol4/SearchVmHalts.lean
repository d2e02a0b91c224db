import Mathlib.Tactic.Ring
import Snobol4.MatchingProgress
import Snobol4.SearchVmSafety

/-!
# SearchVmHalts — when `search_vm_exec` ends (`search_tiers.c`)

A choice point of the search VM saves no loop registers, and `OP_TAB` and `OP_RTAB` may move
the cursor back, so the test for progress of an unbounded loop can compare with a position that
lies ahead.  While it never does, and no counter wraps, a run ends: every address has a price
that pays for all that can follow from it, and a loop that starts another turn draws on what
`OP_REPEAT_INIT` has laid aside for its turns.
-/

namespace Snobol4

variable {W : Type}

/-! ## Prices -/

/-- What it costs to enter structured code at its start, where its end costs `e`; no position
is beyond `n`. -/
def Blk.price (n : Nat) : Blk → Nat → Nat
  | .skip, e => e
  | .leaf _, e => (n + 2) * (e + 1)
  | .seq p q, e => price n p (price n q e)
  | .alt p q, e => price n p (e + 1) + price n q e + 1
  | .loop k body, e =>
      price n body (e + 1) + e + (k.min + k.max + n) * price n body (e + 1) + 1

/-- The price of an address of structured code at `a`.  A leaf may save a choice point of its
own with the cursor further on, as `OP_BREAKX` does. -/
def Blk.cost (n : Nat) : Blk → Nat → Nat → Nat → Nat → Nat
  | .skip, _, e, _, _ => e
  | .leaf _, a, e, ip, pos => if ip = a then (n + 1 - pos) * (e + 1) + (e + 1) else e
  | .seq p q, a, e, ip, pos =>
      if ip < a + size p then cost n p a (price n q e) ip pos else cost n q (a + size p) e ip pos
  | .alt p q, a, e, ip, pos =>
      if ip = a then price n (.alt p q) e
      else if ip < a + 9 + size p then cost n p (a + 9) (e + 1) ip pos
      else if ip < a + 14 + size p then e + 1
      else cost n q (a + 14 + size p) e ip pos
  | .loop k body, a, e, ip, pos =>
      if ip = a then price n (.loop k body) e
      else if ip < a + 14 + size body then cost n body (a + 14) (e + 1) ip pos
      else if ip < a + 20 + size body then e + 1
      else e

/-- What is laid aside for the turns that the loops have left. -/
def Blk.reserve (n : Nat) : Blk → Nat → (Nat → Nat) → Nat
  | .skip, _, _ => 0
  | .leaf _, _, _ => 0
  | .seq p q, e, f => reserve n p (price n q e) f + reserve n q e f
  | .alt p q, e, f => reserve n p (e + 1) f + reserve n q e f
  | .loop k body, e, f => f k.id * price n body (e + 1) + reserve n body (e + 1) f

namespace Blk

variable {n : Nat}

section

variable (p q body : Blk) (l : Leaf Nat) (k : LoopSpec) (a e ip pos : Nat)

theorem price_of_leaf : price n (.leaf l) e = (n + 2) * (e + 1) := rfl

theorem price_of_seq : price n (.seq p q) e = price n p (price n q e) := rfl

theorem price_of_alt : price n (.alt p q) e = price n p (e + 1) + price n q e + 1 := rfl

theorem price_of_loop : price n (.loop k body) e =
    price n body (e + 1) + e + (k.min + k.max + n) * price n body (e + 1) + 1 := rfl

theorem cost_of_leaf : cost n (.leaf l) a e ip pos =
    if ip = a then (n + 1 - pos) * (e + 1) + (e + 1) else e := rfl

theorem cost_of_seq : cost n (.seq p q) a e ip pos =
    if ip < a + size p then cost n p a (price n q e) ip pos else cost n q (a + size p) e ip pos := rfl

theorem cost_of_alt : cost n (.alt p q) a e ip pos =
    if ip = a then price n (.alt p q) e
    else if ip < a + 9 + size p then cost n p (a + 9) (e + 1) ip pos
    else if ip < a + 14 + size p then e + 1
    else cost n q (a + 14 + size p) e ip pos := rfl

theorem cost_of_loop : cost n (.loop k body) a e ip pos =
    if ip = a then price n (.loop k body) e
    else if ip < a + 14 + size body then cost n body (a + 14) (e + 1) ip pos
    else if ip < a + 20 + size body then e + 1
    else e := rfl

end

theorem le_price (b : Blk) (e : Nat) : e ≤ price n b e := by
  induction b generalizing e with
  | skip => exact le_rfl
  | leaf l =>
    rw [price_of_leaf]
    calc e ≤ 1 * (e + 1) := by omega
      _ ≤ (n + 2) * (e + 1) := Nat.mul_le_mul_right _ (by omega)
  | seq p q ihp ihq => exact (ihq e).trans (ihp _)
  | alt p q ihp ihq =>
    have hq := ihq e
    rw [price_of_alt]
    omega
  | loop k body ih =>
    rw [price_of_loop]
    omega

/-- The end of structured code costs what stands behind it. -/
theorem cost_end (b : Blk) (a e pos : Nat) : cost n b a e (a + size b) pos = e := by
  induction b generalizing a e with
  | skip => rfl
  | leaf l =>
    have hpos := l.size_pos
    rw [cost_of_leaf, if_neg (by rw [size]; omega)]
  | seq p q ihp ihq =>
    rw [cost_of_seq, size, if_neg (by omega), ← Nat.add_assoc]
    exact ihq _ _
  | alt p q ihp ihq =>
    have hend : a + size (.alt p q) = a + 14 + size p + size q := by
      rw [size]
      omega
    rw [cost_of_alt, hend, if_neg (by omega), if_neg (by omega), if_neg (by omega)]
    exact ihq _ _
  | loop k body ih =>
    have hend : a + size (.loop k body) = a + 20 + size body := by
      rw [size]
      omega
    rw [cost_of_loop, hend, if_neg (by omega), if_neg (by omega), if_neg (by omega)]

/-- The start of structured code costs at most its price. -/
theorem cost_start_le (b : Blk) (a e pos : Nat) : cost n b a e a pos ≤ price n b e := by
  induction b generalizing a e with
  | skip => exact le_rfl
  | leaf l =>
    rw [cost_of_leaf, if_pos rfl, price_of_leaf]
    calc (n + 1 - pos) * (e + 1) + (e + 1) ≤ (n + 1) * (e + 1) + (e + 1) :=
          Nat.add_le_add_right (Nat.mul_le_mul_right _ (by omega)) _
      _ = (n + 2) * (e + 1) := by ring
  | seq p q ihp ihq =>
    rw [cost_of_seq, price_of_seq]
    split
    · exact ihp _ _
    · -- the first part is empty
      rename_i hempty
      have hend : a + size p = a := by omega
      rw [hend]
      exact (ihq _ _).trans (le_price p _)
  | alt p q ihp ihq => rw [cost_of_alt, if_pos rfl]
  | loop k body ih => rw [cost_of_loop, if_pos rfl]

section

variable (p q body : Blk) (k : LoopSpec) (a e pos : Nat)

theorem cost_alt : cost n (.alt p q) a e a pos = price n (.alt p q) e := by
  rw [cost_of_alt, if_pos rfl]

theorem cost_leftArm_le : cost n (.alt p q) a e (a + 9) pos ≤ price n p (e + 1) := by
  rw [cost_of_alt, if_neg (by omega)]
  split
  · exact cost_start_le p _ _ _
  · rw [if_pos (by omega)]
    exact le_price p _

theorem cost_rightArm_le : cost n (.alt p q) a e (a + 14 + size p) pos ≤ price n q e := by
  rw [cost_of_alt, if_neg (by omega), if_neg (by omega), if_neg (by omega)]
  exact cost_start_le q _ _ _

theorem cost_jmp : cost n (.alt p q) a e (a + 9 + size p) pos = e + 1 := by
  rw [cost_of_alt, if_neg (by omega), if_neg (by omega), if_pos (by omega)]

theorem cost_loop : cost n (.loop k body) a e a pos = price n (.loop k body) e := by
  rw [cost_of_loop, if_pos rfl]

theorem cost_body_le : cost n (.loop k body) a e (a + 14) pos ≤ price n body (e + 1) := by
  rw [cost_of_loop, if_neg (by omega)]
  split
  · exact cost_start_le body _ _ _
  · rw [if_pos (by omega)]
    exact le_price body _

theorem cost_step : cost n (.loop k body) a e (a + 14 + size body) pos = e + 1 := by
  rw [cost_of_loop, if_neg (by omega), if_neg (by omega), if_pos (by omega)]

theorem cost_behind : cost n (.loop k body) a e (a + 20 + size body) pos = e := by
  rw [cost_of_loop, if_neg (by omega), if_neg (by omega), if_neg (by omega)]

end

/-- The reserve depends on the loops of the code only. -/
theorem reserve_congr {b : Blk} {lo hi : Nat} (hids : b.LoopIds lo hi) (e : Nat) {f f' : Nat → Nat}
    (h : ∀ i, lo ≤ i → i < hi → f i = f' i) : reserve n b e f = reserve n b e f' := by
  induction b generalizing lo hi e with
  | skip | leaf l => rfl
  | seq p q ihp ihq | alt p q ihp ihq =>
    obtain ⟨mid, hp, hq⟩ := hids
    have hlo := hp.le
    have hhi := hq.le
    rw [reserve, reserve, ihp hp _ fun i h₁ h₂ => h i h₁ (by omega),
      ihq hq _ fun i h₁ h₂ => h i (by omega) h₂]
  | loop k body ih =>
    obtain ⟨hid, hbody⟩ := hids
    have hhi := hbody.le
    rw [reserve, reserve, h k.id hid (by omega), ih hbody _ fun i h₁ h₂ => h i (by omega) h₂]

/-- The addresses of a listing. -/
theorem listing_range {b : Blk} {a c : Nat} {instr : Instr} (h : (c, instr) ∈ listing b a) :
    a ≤ c ∧ c < a + size b := by
  induction b generalizing a with
  | skip => cases h
  | leaf l =>
    have hpos := l.size_pos
    obtain rfl : c = a := congrArg Prod.fst (List.mem_singleton.mp h)
    rw [size]
    omega
  | seq p q ihp ihq =>
    rw [size]
    obtain h | h := List.mem_append.mp h
    · have hp := ihp h
      omega
    · have hq := ihq h
      omega
  | alt p q ihp ihq =>
    rw [size]
    simp only [listing, List.mem_cons, List.mem_append, Prod.mk.injEq] at h
    obtain ⟨rfl, -⟩ | h | ⟨rfl, -⟩ | h := h
    · omega
    · have hp := ihp h
      omega
    · omega
    · have hq := ihq h
      omega
  | loop k body ih =>
    rw [size]
    simp only [listing, List.mem_cons, List.mem_append, Prod.mk.injEq, List.not_mem_nil,
      or_false] at h
    obtain ⟨rfl, -⟩ | h | ⟨rfl, -⟩ := h
    · omega
    · have hbody := ih h
      omega
    · omega

end Blk

/-- The loop whose registers an instruction changes. -/
def Instr.loop : Instr → Option Nat
  | .repeatInit loop _ _ _ => some loop
  | .repeatStep loop _ => some loop
  | _ => none

/-- The loops of a listing. -/
theorem Blk.listing_loop {b : Blk} {lo hi a c k : Nat} {instr : Instr} (hids : b.LoopIds lo hi)
    (h : (c, instr) ∈ listing b a) (hloop : instr.loop = some k) : lo ≤ k ∧ k < hi := by
  induction b generalizing lo hi a with
  | skip => cases h
  | leaf l =>
    obtain rfl : instr = l.instr a := congrArg Prod.snd (List.mem_singleton.mp h)
    cases l with
    | _ => cases hloop
  | seq p q ihp ihq =>
    obtain ⟨mid, hp, hq⟩ := hids
    have hlo := hp.le
    have hhi := hq.le
    obtain h | h := List.mem_append.mp h
    · have hk := ihp hp h
      omega
    · have hk := ihq hq h
      omega
  | alt p q ihp ihq =>
    obtain ⟨mid, hp, hq⟩ := hids
    have hlo := hp.le
    have hhi := hq.le
    simp only [listing, List.mem_cons, List.mem_append, Prod.mk.injEq] at h
    obtain ⟨-, rfl⟩ | h | ⟨-, rfl⟩ | h := h
    · cases hloop
    · have hk := ihp hp h
      omega
    · cases hloop
    · have hk := ihq hq h
      omega
  | loop k' body ih =>
    obtain ⟨hid, hbody⟩ := hids
    have hhi := hbody.le
    simp only [listing, List.mem_cons, List.mem_append, Prod.mk.injEq, List.not_mem_nil,
      or_false] at h
    obtain ⟨-, rfl⟩ | h | ⟨-, rfl⟩ := h
    · cases hloop
      omega
    · have hk := ih hbody h
      omega
    · cases hloop
      omega

/-- The instruction at `c` pays for what it starts: `w` are the prices of the addresses, `d` is
the reserve by the turns that the loops have left. -/
def Paid (n : Nat) (w : Nat → Nat → Nat) (d : (Nat → Nat) → Nat) (c next : Nat) : Instr → Prop
  | .jmp target => ∀ pos, w target pos < w c pos
  | .split left right => ∀ pos, w left pos + w right pos < w c pos
  | .repeatInit k min max skip =>
      ∀ pos f f', (∀ i, i ≠ k → f' i = f i) → f' k ≤ min + max + n →
        w next pos + w skip pos + d f' < w c pos + d f
  | .repeatStep k target =>
      (∀ pos f f', (∀ i, i ≠ k → f' i = f i) → f' k ≤ f k →
        w next pos + d f' < w c pos + d f) ∧
      ∀ pos f f', (∀ i, i ≠ k → f' i = f i) → f' k < f k →
        w target pos + w next pos + d f' < w c pos + d f
  | .breakx _ =>
      (∀ pos pos', w next pos' < w c pos) ∧
        ∀ pos pos' again, pos < again → again ≤ n → w next pos' + w c again < w c pos
  | _ => ∀ pos pos', w next pos' < w c pos

/-- What is paid within a part is paid within the whole, where the prices agree on the part and
the end of the part costs no more. -/
theorem Paid.lift {n : Nat} {bc : Bytes} {p : Blk} {a e lo hi c next : Nat} {instr : Instr}
    {w : Nat → Nat → Nat} {d : (Nat → Nat) → Nat} (hcode : Blk.Code bc p a)
    (hids : p.LoopIds lo hi) (hmem : (c, instr) ∈ p.listing a)
    (hfetch : fetch bc c = some (instr, next))
    (h : Paid n (p.cost n a e) (p.reserve n e) c next instr)
    (hin : ∀ ip pos, a ≤ ip → ip < a + p.size → w ip pos = p.cost n a e ip pos)
    (hend : ∀ pos, w (a + p.size) pos ≤ e)
    (hd : ∀ f f', (∀ i, i < lo ∨ hi ≤ i → f' i = f i) →
      d f' + p.reserve n e f = d f + p.reserve n e f') :
    Paid n w d c next instr := by
  -- what follows an instruction is in the part or behind it, and costs no more in the whole
  have hle : ∀ t ∈ p.boundaries a, ∀ pos, w t pos ≤ p.cost n a e t pos := by
    intro t ht pos
    obtain ht | rfl := Blk.mem_boundaries.mp ht
    · obtain ⟨⟨t, instr'⟩, hmem', rfl⟩ := List.mem_map.mp ht
      obtain ⟨h₁, h₂⟩ := Blk.listing_range hmem'
      exact (hin t pos h₁ h₂).le
    · rw [Blk.cost_end]
      exact hend pos
  have hhere : ∀ pos, w c pos = p.cost n a e c pos := fun pos =>
    hin c pos (Blk.listing_range hmem).1 (Blk.listing_range hmem).2
  have hnext : ∀ pos, w next pos ≤ p.cost n a e next pos := by
    obtain ⟨next', hfetch', hnext⟩ := hcode.decodes.next_of_mem hmem
    rw [hfetch] at hfetch'
    cases hfetch'
    exact hle next (Blk.mem_boundaries.mpr hnext)
  have hbranch : ∀ t ∈ instr.branches, ∀ pos, w t pos ≤ p.cost n a e t pos := fun t ht =>
    hle t (Blk.branch_mem_boundaries hmem ht)
  have hreserve : ∀ k f f', instr.loop = some k → (∀ i, i ≠ k → f' i = f i) →
      d f' + p.reserve n e f = d f + p.reserve n e f' := by
    intro k f f' hloop heq
    obtain ⟨hlo, hhi⟩ := Blk.listing_loop hids hmem hloop
    exact hd f f' fun i hi => heq i (by omega)
  cases instr with
  | jmp target =>
    intro pos
    have ht := hbranch target List.mem_cons_self pos
    have hpaid := h pos
    rw [hhere]
    omega
  | split left right =>
    intro pos
    have hleft := hbranch left List.mem_cons_self pos
    have hright := hbranch right (List.mem_cons_of_mem _ List.mem_cons_self) pos
    have hpaid := h pos
    rw [hhere]
    omega
  | repeatInit k min max skip =>
    intro pos f f' heq hturns
    have hskip := hbranch skip List.mem_cons_self pos
    have hr := hreserve k f f' rfl heq
    have hpaid := h pos f f' heq hturns
    have hn := hnext pos
    rw [hhere]
    omega
  | repeatStep k target =>
    refine ⟨?_, ?_⟩
    · intro pos f f' heq hturns
      have hr := hreserve k f f' rfl heq
      have hpaid := h.1 pos f f' heq hturns
      have hn := hnext pos
      rw [hhere]
      omega
    · intro pos f f' heq hturns
      have ht := hbranch target List.mem_cons_self pos
      have hr := hreserve k f f' rfl heq
      have hpaid := h.2 pos f f' heq hturns
      have hn := hnext pos
      rw [hhere]
      omega
  | breakx set =>
    refine ⟨?_, ?_⟩
    · intro pos pos'
      rw [hhere]
      exact (hnext pos').trans_lt (h.1 pos pos')
    · intro pos pos' again hlt hle
      have hpaid := h.2 pos pos' again hlt hle
      have hn := hnext pos'
      rw [hhere, hhere]
      omega
  | _ =>
    intro pos pos'
    rw [hhere]
    exact (hnext pos').trans_lt (h pos pos')

/-- Every instruction of structured code is paid. -/
theorem Blk.paid {n : Nat} {bc : Bytes} {b : Blk} {a lo hi c next : Nat} {instr : Instr} (e : Nat)
    (hcode : Code bc b a) (hids : b.LoopIds lo hi) (hmem : (c, instr) ∈ listing b a)
    (hfetch : fetch bc c = some (instr, next)) :
    Paid n (cost n b a e) (reserve n b e) c next instr := by
  induction b generalizing a lo hi e with
  | skip => cases hmem
  | leaf l =>
    cases List.mem_singleton.mp hmem
    rw [hcode.leaf] at hfetch
    cases hfetch
    have hhere : ∀ pos, cost n (.leaf l) c e c pos = (n + 1 - pos) * (e + 1) + (e + 1) := by
      intro pos
      rw [cost_of_leaf, if_pos rfl]
    have hnext : ∀ pos, cost n (.leaf l) c e (c + l.size) pos = e := fun pos =>
      cost_end (.leaf l) c e pos
    cases l with
    | breakx id =>
      refine ⟨?_, ?_⟩
      · intro pos pos'
        rw [hhere, hnext]
        omega
      · intro pos pos' again hlt hle
        rw [hhere, hhere, hnext]
        -- the choice that is saved starts further on, so there are fewer offers
        have hmul : (n + 1 - again) * (e + 1) + (e + 1) ≤ (n + 1 - pos) * (e + 1) := by
          calc (n + 1 - again) * (e + 1) + (e + 1) = (n + 1 - again + 1) * (e + 1) := by ring
            _ ≤ (n + 1 - pos) * (e + 1) := Nat.mul_le_mul_right _ (by omega)
        omega
    | _ =>
      intro pos pos'
      rw [hhere, hnext]
      omega
  | seq p q ihp ihq =>
    obtain ⟨mid, hp, hq⟩ := hids
    obtain ⟨hcp, hcq⟩ := hcode.seq
    obtain hmem | hmem := List.mem_append.mp hmem
    -- the end of `p` is the start of `q`
    · refine (ihp (price n q e) hcp hp hmem).lift hcp hp hmem hfetch ?_ ?_ ?_
      · intro ip pos h₁ h₂
        rw [cost_of_seq, if_pos h₂]
      · intro pos
        rw [cost_of_seq, if_neg (by omega)]
        exact cost_start_le q _ e pos
      · intro f f' heq
        have hrest := reserve_congr (n := n) hq e fun i h₁ _ => heq i (.inr h₁)
        rw [reserve, reserve, hrest]
        omega
    · refine (ihq e hcq hq hmem).lift hcq hq hmem hfetch ?_ ?_ ?_
      · intro ip pos h₁ h₂
        rw [cost_of_seq, if_neg (by omega)]
      · intro pos
        rw [cost_of_seq, if_neg (by omega), cost_end]
      · intro f f' heq
        have hrest := reserve_congr (n := n) hp (price n q e) fun i _ h₂ => heq i (.inl h₂)
        rw [reserve, reserve, hrest]
        omega
  | alt p q ihp ihq =>
    obtain ⟨mid, hp, hq⟩ := hids
    obtain ⟨hsplit, hcp, hjmp, hcq⟩ := hcode.alt
    simp only [listing, List.mem_cons, List.mem_append, Prod.mk.injEq] at hmem
    obtain ⟨rfl, rfl⟩ | hmem | ⟨rfl, rfl⟩ | hmem := hmem
    · -- both arms are paid for
      intro pos
      have hleft := cost_leftArm_le (n := n) p q c e pos
      have hright := cost_rightArm_le (n := n) p q c e pos
      rw [cost_alt, price_of_alt]
      omega
    · refine (ihp (e + 1) hcp hp hmem).lift hcp hp hmem hfetch ?_ ?_ ?_
      · intro ip pos h₁ h₂
        rw [cost_of_alt, if_neg (by omega), if_pos h₂]
      · intro pos
        rw [cost_jmp]
      · intro f f' heq
        have hrest := reserve_congr (n := n) hq e fun i h₁ _ => heq i (.inr h₁)
        rw [reserve, reserve, hrest]
        omega
    · intro pos
      have hend := cost_end (n := n) (.alt p q) a e pos
      rw [size, show a + (14 + size p + size q) = a + 14 + size p + size q by omega] at hend
      rw [hend, cost_jmp]
      omega
    · refine (ihq e hcq hq hmem).lift hcq hq hmem hfetch ?_ ?_ ?_
      · intro ip pos h₁ h₂
        rw [cost_of_alt, if_neg (by omega), if_neg (by omega), if_neg (by omega)]
      · intro pos
        rw [cost_of_alt, if_neg (by omega), if_neg (by omega), if_neg (by omega), cost_end]
      · intro f f' heq
        have hrest := reserve_congr (n := n) hp (e + 1) fun i _ h₂ => heq i (.inl h₂)
        rw [reserve, reserve, hrest]
        omega
  | loop k body ih =>
    obtain ⟨hid, hbody⟩ := hids
    obtain ⟨hinit, hcbody, hstep⟩ := hcode.loop
    have hinner := fun (f f' : Nat → Nat) (heq : ∀ i, i ≠ k.id → f' i = f i) =>
      reserve_congr (n := n) hbody (e + 1) fun i h₁ _ => heq i (by omega)
    simp only [listing, List.mem_cons, List.mem_append, Prod.mk.injEq, List.not_mem_nil,
      or_false] at hmem
    obtain ⟨rfl, rfl⟩ | hmem | ⟨rfl, rfl⟩ := hmem
    · -- the turns of the loop are laid aside, beside its body and its end
      rw [hinit] at hfetch
      cases hfetch
      intro pos f f' heq hturns
      have hstart := cost_body_le (n := n) body k c e pos
      have hend := cost_behind (n := n) body k c e pos
      have hmul : f' k.id * price n body (e + 1) ≤
          (k.min + k.max + n) * price n body (e + 1) := Nat.mul_le_mul_right _ hturns
      rw [hend, cost_loop, price_of_loop, reserve, reserve, hinner f f' heq]
      omega
    · refine (ih (e + 1) hcbody hbody hmem).lift hcbody hbody hmem hfetch ?_ ?_ ?_
      · intro ip pos h₁ h₂
        rw [cost_of_loop, if_neg (by omega), if_pos h₂]
      · intro pos
        rw [cost_step]
      · intro f f' heq
        rw [reserve, reserve, heq k.id (.inl (by omega))]
        omega
    · rw [hstep] at hfetch
      cases hfetch
      refine ⟨?_, ?_⟩
      · intro pos f f' heq hturns
        have hmul : f' k.id * price n body (e + 1) ≤ f k.id * price n body (e + 1) :=
          Nat.mul_le_mul_right _ hturns
        rw [cost_behind, cost_step, reserve, reserve, hinner f f' heq]
        omega
      · -- the turn is taken from the reserve
        intro pos f f' heq hturns
        have hstart := cost_body_le (n := n) body k a e pos
        have hmul : f' k.id * price n body (e + 1) + price n body (e + 1) ≤
            f k.id * price n body (e + 1) := by
          rw [← Nat.succ_mul]
          exact Nat.mul_le_mul_right _ hturns
        rw [cost_behind, cost_step, reserve, reserve, hinner f f' heq]
        omega

/-! ## Positions -/

theorem nextCp_le {s : Bytes} {pos pos' : Nat} (h : nextCp s pos = some pos') : pos' ≤ s.length := by
  simp only [nextCp, Option.map_eq_some_iff] at h
  obtain ⟨⟨cp, bytes⟩, hpeek, rfl⟩ := h
  exact (peekCp_bounds hpeek).2

theorem searchBreak_le (env : VmEnv W) (setId : Nat) (ranges : Option (List CpRange)) (fuel : Nat)
    {pos : Nat} (h : pos ≤ env.s.length) : searchBreak env setId ranges fuel pos ≤ env.s.length := by
  induction fuel generalizing pos with
  | zero => exact h
  | succ fuel ih =>
    rw [searchBreak]
    split
    · split
      · exact h
      · split
        · rename_i hnext
          exact ih (nextCp_le hnext)
        · exact h
    · exact h

theorem searchBreakx_bounds (env : VmEnv W) (setId : Nat) (ranges : Option (List CpRange))
    (fuel : Nat) {pos : Nat} (h : pos ≤ env.s.length) :
    pos ≤ searchBreakx env setId ranges fuel pos ∧
      searchBreakx env setId ranges fuel pos ≤ env.s.length := by
  induction fuel generalizing pos with
  | zero => exact ⟨le_rfl, h⟩
  | succ fuel ih =>
    rw [searchBreakx]
    split
    · rename_i hlt
      split
      · exact ⟨le_rfl, h⟩
      · have hnext : pos + 1 ≤ env.s.length := hlt
        have hrest := ih hnext
        omega
    · exact ⟨le_rfl, h⟩

theorem searchSet_le {env : VmEnv W} {setId pos pos' : Nat} {op : SetOp} (h : pos ≤ env.s.length)
    (hset : searchSet env setId pos op = some pos') : pos' ≤ env.s.length := by
  cases op with
  | any =>
    simp only [searchSet, Option.ite_none_right_eq_some] at hset
    exact nextCp_le hset.2
  | notany =>
    simp only [searchSet, Option.ite_none_left_eq_some] at hset
    exact nextCp_le hset.2
  | span =>
    have hspan : matchSet env.s (env.searchRanges setId) pos .span = some pos' := hset
    exact (matchSet_bounds h hspan).2
  | «break» =>
    cases hset
    exact searchBreak_le env setId _ _ h

theorem searchCount_le {s : Bytes} {pos pos' n : Nat} {op : CountOp} (h : pos ≤ s.length)
    (hcount : searchCount s pos op n = some pos') : pos' ≤ s.length := by
  cases op with
  | len => exact (skipCps_bounds h hcount).2
  | pos | rpos =>
    simp only [searchCount, Option.ite_none_right_eq_some, Option.some.injEq] at hcount
    omega
  | tab =>
    obtain ⟨hskip, -⟩ := Option.filter_eq_some_iff.mp hcount
    exact (skipCps_bounds (Nat.zero_le _) hskip).2
  | rtab =>
    simp only [searchCount, Option.ite_none_left_eq_some] at hcount
    exact (skipCps_bounds (Nat.zero_le _) hcount.2).2

/-! ## A turn of the loop -/

namespace SearchVm

/-- The turns that a loop has left: those below its minimum, and those up to its maximum or up
to the end of the subject. -/
def turns (n : Nat) (vm : SearchVm) (k : Nat) : Nat :=
  (vm.loopMin k - vm.counters k) +
    if vm.loopMax k = unbounded then n - vm.loopLastPos k else vm.loopMax k - vm.counters k

/-- What is left to pay in a state. -/
def potential (n : Nat) (b : Blk) (vm : SearchVm) : Nat :=
  b.cost n 0 0 vm.ip vm.pos + (vm.choices.map fun c => b.cost n 0 0 c.ip c.pos).sum +
    b.reserve n 0 (vm.turns n)

/-- At `OP_REPEAT_STEP` the counter of the loop does not wrap, and the last position of an
unbounded loop is not ahead of the cursor. -/
def guarded (env : VmEnv W) (vm : SearchVm) : Bool :=
  match fetch env.bc vm.ip with
  | some (.repeatStep loop _, _) =>
      decide (vm.counters loop + 1 < 2 ^ 32) &&
        (vm.loopMax loop != unbounded || decide (vm.loopLastPos loop ≤ vm.pos))
  | _ => true

/-- The cursors of a state are within the subject. -/
structure Inside (n : Nat) (vm : SearchVm) : Prop where
  pos : vm.pos ≤ n
  choices : ∀ c ∈ vm.choices, c.pos ≤ n

/-- The turn ends with less to pay, or ends the run. -/
def Pays (n : Nat) (b : Blk) (vm : SearchVm) (result : SearchStep) : Prop :=
  ∀ vm', result = .running vm' → vm'.potential n b < vm.potential n b ∧ vm'.Inside n

section

variable {n next : Nat} {b : Blk} {vm vm' : SearchVm}

/-- Backtracking saves the price of the address. -/
theorem Inside.backtrack (h : vm.Inside n) (hcost : 0 < b.cost n 0 0 vm.ip vm.pos) :
    Pays n b vm vm.backtrack := by
  intro vm' hstep
  unfold SearchVm.backtrack at hstep
  split at hstep
  · cases hstep
  · rename_i c rest hchoices
    cases hstep
    constructor
    · have hsum : (vm.choices.map fun c => b.cost n 0 0 c.ip c.pos).sum =
          b.cost n 0 0 c.ip c.pos + (rest.map fun c => b.cost n 0 0 c.ip c.pos).sum := by
        rw [hchoices, List.map_cons, List.sum_cons]
      show b.cost n 0 0 c.ip c.pos + (rest.map fun c => b.cost n 0 0 c.ip c.pos).sum +
        b.reserve n 0 (vm.turns n) < vm.potential n b
      rw [potential, hsum]
      omega
    · refine ⟨h.choices c ?_, ?_⟩
      · rw [hchoices]
        exact List.mem_cons_self
      · intro c' hc'
        apply h.choices
        rw [hchoices]
        exact List.mem_cons_of_mem _ hc'

/-- A turn that keeps the choice points and pays for what it changes in the reserve. -/
theorem Inside.keep (h : vm.Inside n) (hchoices : vm'.choices = vm.choices) (hpos : vm'.pos ≤ n)
    (hcost : b.cost n 0 0 vm'.ip vm'.pos + b.reserve n 0 (vm'.turns n) <
      b.cost n 0 0 vm.ip vm.pos + b.reserve n 0 (vm.turns n)) : Pays n b vm (.running vm') := by
  intro vm'' hstep
  cases hstep
  refine ⟨?_, hpos, ?_⟩
  · rw [potential, potential, hchoices]
    omega
  · rw [hchoices]
    exact h.choices

/-- A turn that pays for a new choice point as well. -/
theorem Inside.push (h : vm.Inside n) {c : SearchChoice} (hchoices : vm'.choices = c :: vm.choices)
    (hpos : vm'.pos ≤ n) (hc : c.pos ≤ n)
    (hcost : b.cost n 0 0 vm'.ip vm'.pos + b.cost n 0 0 c.ip c.pos + b.reserve n 0 (vm'.turns n) <
      b.cost n 0 0 vm.ip vm.pos + b.reserve n 0 (vm.turns n)) : Pays n b vm (.running vm') := by
  intro vm'' hstep
  cases hstep
  refine ⟨?_, hpos, ?_⟩
  · rw [potential, potential, hchoices, List.map_cons, List.sum_cons]
    omega
  · intro c' hc'
    rw [hchoices] at hc'
    obtain rfl | hc' := List.mem_cons.mp hc'
    · exact hc
    · exact h.choices c' hc'

/-- A state with the choice points and loop registers of `vm` at a cheaper address. -/
theorem Inside.move (h : vm.Inside n) {pos : Nat} {regs : Regs} (hpos : pos ≤ n)
    (hcost : b.cost n 0 0 next pos < b.cost n 0 0 vm.ip vm.pos) :
    Pays n b vm (.running { vm with ip := next, pos, regs }) := by
  exact h.keep rfl hpos (Nat.add_lt_add_right hcost _)

/-- Going on at a cheaper address. -/
theorem Inside.goOn (h : vm.Inside n) {target : Option Nat}
    (hcost : ∀ pos', b.cost n 0 0 next pos' < b.cost n 0 0 vm.ip vm.pos)
    (htarget : ∀ pos', target = some pos' → pos' ≤ n) : Pays n b vm (vm.goOn next target) := by
  cases target with
  | none => exact h.backtrack ((Nat.zero_le _).trans_lt (hcost 0))
  | some pos => exact h.move (htarget pos rfl) (hcost pos)

theorem Inside.repeatInit (h : vm.Inside n) {loop min max skip : Nat} (hloop : loop < maxLoops)
    (hpaid : Paid n (b.cost n 0 0) (b.reserve n 0) vm.ip next (.repeatInit loop min max skip)) :
    Pays n b vm (.running (SearchVm.repeatInit loop min max skip { vm with ip := next })) := by
  rw [SearchVm.repeatInit, if_pos hloop]
  simp only
  generalize hinner : SearchVm.mk next vm.pos vm.regs (Function.update vm.counters loop 0)
    (Function.update vm.loopMin loop min) (Function.update vm.loopMax loop max)
    (Function.update vm.loopLastPos loop vm.pos) (Nat.max vm.maxCounterUsed (loop + 1))
    vm.choices = inner
  have hsame : ∀ i, i ≠ loop → inner.turns n i = vm.turns n i := by
    intro i hi
    rw [← hinner]
    simp only [turns, Function.update_of_ne hi]
  have hturns : inner.turns n loop ≤ min + max + n := by
    rw [← hinner]
    simp only [turns, Function.update_self]
    split <;> omega
  have hcost := hpaid vm.pos (vm.turns n) (inner.turns n) hsame hturns
  subst hinner
  split
  · -- the way past the loop is saved
    exact h.push rfl h.pos h.pos hcost
  · have hless := (Nat.add_le_add_right (Nat.le_add_right _ _) _).trans_lt hcost
    exact h.keep rfl h.pos hless

/-- The registers of a loop after `OP_REPEAT_STEP`. -/
def stepped (vm : SearchVm) (loop last : Nat) : SearchVm :=
  { vm with
    counters := Function.update vm.counters loop (vm.counters loop + 1)
    loopLastPos := Function.update vm.loopLastPos loop last }

theorem turns_stepped_of_ne (n : Nat) (vm : SearchVm) (last : Nat) {loop i : Nat} (h : i ≠ loop) :
    (vm.stepped loop last).turns n i = vm.turns n i := by
  simp only [turns, stepped, Function.update_of_ne h]

theorem turns_stepped_self (n : Nat) (vm : SearchVm) (loop last : Nat) :
    (vm.stepped loop last).turns n loop = (vm.loopMin loop - (vm.counters loop + 1)) +
      if vm.loopMax loop = unbounded then n - last
      else vm.loopMax loop - (vm.counters loop + 1) := by
  simp only [turns, stepped, Function.update_self]

theorem Inside.repeatStep (h : vm.Inside n) {loop target : Nat} (hloop : loop < maxLoops)
    (hcount : vm.counters loop + 1 < 2 ^ 32)
    (hlast : vm.loopMax loop = unbounded → vm.loopLastPos loop ≤ vm.pos)
    (hpaid : Paid n (b.cost n 0 0) (b.reserve n 0) vm.ip next (.repeatStep loop target)) :
    Pays n b vm (.running (SearchVm.repeatStep loop target { vm with ip := next })) := by
  have hpos := h.pos
  have hleft : vm.turns n loop = (vm.loopMin loop - vm.counters loop) +
      if vm.loopMax loop = unbounded then n - vm.loopLastPos loop
      else vm.loopMax loop - vm.counters loop := rfl
  have hstepped := turns_stepped_self n vm loop vm.pos
  have hother : ∀ i, i ≠ loop → (vm.stepped loop vm.pos).turns n i = vm.turns n i := fun i hi =>
    turns_stepped_of_ne n vm vm.pos hi
  -- leaving the loop draws nothing from the reserve
  have hexit : Pays n b vm (.running { vm with
      ip := next, counters := Function.update vm.counters loop (vm.counters loop + 1) }) := by
    have hcost := hpaid.1 vm.pos (vm.turns n) ((vm.stepped loop (vm.loopLastPos loop)).turns n)
      (fun i hi => turns_stepped_of_ne n vm _ hi) (by
        rw [turns_stepped_self, hleft]
        split <;> omega)
    simp only [stepped, Function.update_eq_self] at hcost
    exact h.keep rfl h.pos hcost
  rw [SearchVm.repeatStep, if_pos hloop]
  simp only [Nat.mod_eq_of_lt hcount]
  split
  · -- below the minimum
    have hcost := hpaid.2 vm.pos (vm.turns n) ((vm.stepped loop vm.pos).turns n) hother (by
      rw [hstepped, hleft]
      split
      · have hback := hlast ‹_›
        omega
      · omega)
    have hless := (Nat.add_le_add_right (Nat.le_add_right _ _) _).trans_lt hcost
    exact h.keep rfl h.pos hless
  · split
    · split
      · exact hexit
      · -- up to the maximum, or further on in the subject
        rename_i hmore hforward
        have hcost := hpaid.2 vm.pos (vm.turns n) ((vm.stepped loop vm.pos).turns n) hother (by
          rw [hstepped, hleft]
          split
          · rename_i hmax
            have hback := hlast hmax
            have hne : vm.pos ≠ vm.loopLastPos loop := fun heq => hforward ⟨hmax, heq⟩
            omega
          · rename_i hmax
            have hlt := hmore.resolve_left hmax
            omega)
        exact h.push rfl h.pos h.pos hcost
    · exact hexit

end

theorem Inside.breakx {env : VmEnv W} {b : Blk} {next : Nat} {vm : SearchVm}
    (h : vm.Inside env.s.length) {setId : Nat}
    (hpaid : Paid env.s.length (b.cost env.s.length 0 0) (b.reserve env.s.length 0) vm.ip next
      (.breakx setId)) :
    Pays env.s.length b vm
      (.running (SearchVm.breakx env setId vm.ip { vm with ip := next })) := by
  obtain ⟨hle, hstop⟩ :=
    searchBreakx_bounds env setId (env.searchRanges setId) env.s.length h.pos
  rw [SearchVm.breakx]
  simp only
  split
  · rename_i hlt
    -- the same instruction is saved, with the cursor further on
    have hagain : vm.pos < searchBreakx env setId (env.searchRanges setId) env.s.length vm.pos +
          (peekCp env.s (searchBreakx env setId (env.searchRanges setId) env.s.length
            vm.pos)).elim 1 (·.2) ∧
        searchBreakx env setId (env.searchRanges setId) env.s.length vm.pos +
          (peekCp env.s (searchBreakx env setId (env.searchRanges setId) env.s.length
            vm.pos)).elim 1 (·.2) ≤ env.s.length := by
      cases hpeek : peekCp env.s
          (searchBreakx env setId (env.searchRanges setId) env.s.length vm.pos) with
      | none =>
        rw [Option.elim_none]
        omega
      | some next =>
        have hbounds := peekCp_bounds hpeek
        rw [Option.elim_some]
        omega
    have hcost := hpaid.2 vm.pos
      (searchBreakx env setId (env.searchRanges setId) env.s.length vm.pos) _ hagain.1 hagain.2
    exact h.push rfl hstop hagain.2 (Nat.add_lt_add_right hcost _)
  · exact h.move hstop (hpaid.1 vm.pos _)

theorem Inside.prim {env : VmEnv W} {b : Blk} {next : Nat} {vm : SearchVm} {p : Prim}
    (h : vm.Inside env.s.length) (hsearchable : (Instr.prim p).searchable = true)
    (hpaid : Paid env.s.length (b.cost env.s.length 0 0) (b.reserve env.s.length 0) vm.ip next
      (.prim p)) : Pays env.s.length b vm (vm.prim env next p) := by
  have hcost : ∀ pos', b.cost env.s.length 0 0 next pos' < b.cost env.s.length 0 0 vm.ip vm.pos :=
    hpaid vm.pos
  cases p with
  | nop | capStart | capEnd | assign => exact h.move h.pos (hcost vm.pos)
  | lit => exact h.goOn hcost fun pos' hpos' => (matchLit_bounds h.pos hpos').2
  | set => exact h.goOn hcost fun pos' hpos' => searchSet_le h.pos hpos'
  | count => exact h.goOn hcost fun pos' hpos' => searchCount_le h.pos hpos'
  | anchor =>
    refine h.goOn hcost ?_
    intro pos' hpos'
    simp only [matchAnchor, Option.ite_none_right_eq_some, Option.some.injEq] at hpos'
    obtain ⟨-, rfl⟩ := hpos'
    exact h.pos
  | _ => cases hsearchable

/-- A turn of the loop on vetted code. -/
theorem Inside.step {env : VmEnv W} {b : Blk} {hi : Nat} {vm : SearchVm}
    (h : vm.Inside env.s.length) (hcode : Blk.Code env.bc b 0)
    (haccept : fetch env.bc b.size = some (.accept, b.size + 1)) (hids : b.LoopIds 0 hi)
    (hhi : hi ≤ maxLoops) (hvetted : Vetted env.bc b) (hwithin : vm.Within b)
    (hguard : vm.guarded env = true) : Pays env.s.length b vm (vm.step env) := by
  obtain ⟨⟨c, instr⟩, hmem, hc⟩ := List.mem_map.mp hwithin.ip
  obtain rfl : c = vm.ip := hc
  have hsearchable := hvetted.searchable vm.ip instr hmem
  obtain hmem | hmem := List.mem_append.mp hmem
  · obtain ⟨next, hfetch, -⟩ := hcode.decodes.next_of_mem hmem
    have hpaid := Blk.paid (n := env.s.length) 0 hcode hids hmem hfetch
    have hloop : ∀ k, instr.loop = some k → k < maxLoops := fun k hk =>
      (Blk.listing_loop hids hmem hk).2.trans_le hhi
    rw [SearchVm.guarded, hfetch] at hguard
    rw [SearchVm.step, hfetch]
    cases instr with
    | prim p => exact h.prim hsearchable hpaid
    | accept | succeed | abort =>
      intro vm' hstep
      cases hstep
    | fail => exact h.backtrack ((Nat.zero_le _).trans_lt (hpaid vm.pos 0))
    | jmp target => exact h.move h.pos (hpaid vm.pos)
    | split left right =>
      exact h.push rfl h.pos h.pos (Nat.add_lt_add_right (hpaid vm.pos) _)
    | repeatInit loop min max skip => exact h.repeatInit (hloop loop rfl) hpaid
    | repeatStep loop target =>
      simp only [Bool.and_eq_true, Bool.or_eq_true, bne_iff_ne, decide_eq_true_eq] at hguard
      exact h.repeatStep (hloop loop rfl) hguard.1 (fun hmax => hguard.2.resolve_left
        fun hne => hne hmax) hpaid
    | breakx setId => exact h.breakx hpaid
    | fence =>
      intro vm' hstep
      cases hstep
      constructor
      · have hcost := hpaid vm.pos vm.pos
        show b.cost env.s.length 0 0 next vm.pos + ([] : List Nat).sum +
          b.reserve env.s.length 0 (vm.turns env.s.length) < vm.potential env.s.length b
        rw [potential, List.sum_nil]
        omega
      · refine ⟨h.pos, ?_⟩
        intro c hc
        cases hc
    | goto | unknown => cases hsearchable
  · -- the end of the program
    have hip : vm.ip = b.size := congrArg Prod.fst (List.mem_singleton.mp hmem)
    intro vm' hstep
    rw [SearchVm.step, hip, haccept] at hstep
    cases hstep

/-! ## Runs -/

/-- The states of a run, turn by turn. -/
theorem Reach.of_steps {env : VmEnv W} {n : Nat} {vm vm' : SearchVm} (h : Reach env vm)
    (hsteps : steps env n vm = .running vm') : Reach env vm' := by
  induction n generalizing vm with
  | zero =>
    cases hsteps
    exact h
  | succ n ih =>
    obtain ⟨vm₁, hstep, hrest⟩ := steps_succ_running hsteps
    exact ih (h.step hstep) hrest

/-- A run whose states all pay ends within its potential. -/
theorem ends_of_pays {env : VmEnv W} {b : Blk} {m : Nat} {vm : SearchVm} (h : vm.Inside m)
    (hpays : ∀ n vm', steps env n vm = .running vm' → vm'.Inside m → Pays m b vm' (vm'.step env)) :
    ∃ n ≤ vm.potential m b + 1, ∀ vm', steps env n vm ≠ .running vm' := by
  induction hp : vm.potential m b using Nat.strong_induction_on generalizing vm with
  | _ p ih =>
    subst hp
    cases hstep : vm.step env with
    | running vm₁ =>
      obtain ⟨hless, hinside⟩ := hpays 0 vm rfl h vm₁ hstep
      have hrest : ∀ n vm', steps env n vm₁ = .running vm' → vm'.Inside m →
          Pays m b vm' (vm'.step env) := by
        intro n vm' hn
        apply hpays (n + 1) vm'
        rw [steps_succ hstep]
        exact hn
      obtain ⟨n, hle, hn⟩ := ih _ hless hinside hrest rfl
      refine ⟨n + 1, by omega, ?_⟩
      intro vm'
      rw [steps_succ hstep]
      exact hn vm'
    | unknown | matched | failed | aborted =>
      refine ⟨1, by omega, ?_⟩
      intro vm' hrun
      rw [steps, hstep] at hrun
      cases hrun

/-- The condition of the end theorem, checked along a run of at most `fuel` turns. -/
def guardedRun (env : VmEnv W) : Nat → SearchVm → Bool
  | 0, _ => false
  | fuel + 1, vm =>
      vm.guarded env &&
        match vm.step env with
        | .running vm => guardedRun env fuel vm
        | _ => true

theorem guarded_of_guardedRun {env : VmEnv W} {fuel n : Nat} {vm vm' : SearchVm}
    (h : guardedRun env fuel vm = true) (hsteps : steps env n vm = .running vm') :
    vm'.guarded env = true := by
  induction fuel generalizing vm n with
  | zero => cases h
  | succ fuel ih =>
    rw [guardedRun, Bool.and_eq_true] at h
    cases n with
    | zero =>
      cases hsteps
      exact h.1
    | succ n =>
      obtain ⟨vm₁, hstep, hrest⟩ := steps_succ_running hsteps
      rw [hstep] at h
      exact ih h.2 hrest

end SearchVm

/-- A run of the search VM ends, where at every `OP_REPEAT_STEP` the counter does not wrap and
the last position of an unbounded loop is not ahead of the cursor. -/
theorem searchVm_terminates (env : VmEnv W) (cfg : CompilerConfig) (ast : AstNode)
    (st : CompilerState) (hcode : WellEncoded cfg ast st)
    (hcompile : compileAstToBytecodeC cfg ast = some env.bc) (hshort : env.bc.length < 2 ^ 32)
    (heligible : checkSearchVmEligible env.bc = true) (start : SearchVm) (hip : start.ip = 0)
    (hpos : start.pos ≤ env.s.length) (hchoices : start.choices = [])
    (hguard : ∀ n vm, SearchVm.steps env n start = .running vm → vm.guarded env = true) :
    ∃ n, ∀ vm, SearchVm.steps env n start ≠ .running vm := by
  obtain ⟨b, b', h⟩ := hcode.compiledAs hcompile
  obtain ⟨-, hvetted⟩ := h.vetted hshort heligible
  obtain ⟨hi, hhi, hids⟩ := h.loops
  have hinside : start.Inside env.s.length := by
    refine ⟨hpos, ?_⟩
    intro c hc
    rw [hchoices] at hc
    cases hc
  obtain ⟨n, -, hn⟩ := SearchVm.ends_of_pays (b := b') hinside fun n vm hsteps hin =>
    hin.step h.code h.fetch_accept (h.fused.loops 0 hi hids) hhi hvetted
      (((SearchVm.Reach.start hip hchoices).of_steps hsteps).within hvetted) (hguard n vm hsteps)
  exact ⟨n, hn⟩

/-- `ARBNO('a') 'b'` -/
def letters : AstNode := .concat [.arbno (.literal [0x61]), .literal [0x62]]

/-- What the emitters make of it. -/
def lettersState : CompilerState where
  buf :=
    [15, 0, 0, 0, 0, 0, 255, 255, 255, 255, 0, 0, 0, 30, 4, 0, 0, 0, 23, 0, 0, 0, 1, 97, 16, 0, 0,
      0, 0, 14, 4, 0, 0, 0, 39, 0, 0, 0, 1, 98, 0]
  classes := []
  nextLoopId := 1
  labels := []
  splits := []

theorem searchVm_terminates_letters :
    ∃ bc, compileAstToBytecodeC .caseSensitive letters = some bc ∧
      ∃ n, ∀ vm, SearchVm.steps (VmEnv.ofCode bc [0x61, 0x61, 0x62] .bare) n SearchVm.zero ≠
        .running vm := by
  have hchecked : (compileAstToBytecodeC .caseSensitive letters).any (fun bc =>
      checkSearchVmEligible bc && decide (bc.length < 2 ^ 32) &&
        SearchVm.guardedRun (VmEnv.ofCode bc [0x61, 0x61, 0x62] .bare) 20 SearchVm.zero) =
      true := by decide +kernel
  obtain ⟨bc, hcompile, hchecks⟩ := (Option.any_eq_true _ _).mp hchecked
  rw [Bool.and_eq_true, Bool.and_eq_true, decide_eq_true_eq] at hchecks
  obtain ⟨⟨heligible, hshort⟩, hguarded⟩ := hchecks
  have hencoded : WellEncoded .caseSensitive letters lettersState := by
    constructor
    · decide +kernel
    · decide
    · decide
    · exact ⟨trivial, trivial, trivial⟩
    · decide +kernel
  exact ⟨bc, hcompile, searchVm_terminates (VmEnv.ofCode bc [0x61, 0x61, 0x62] .bare)
    .caseSensitive letters lettersState hencoded hcompile hshort heligible SearchVm.zero rfl
    (Nat.zero_le _) rfl fun n vm => SearchVm.guarded_of_guardedRun hguarded⟩

/-! ## A loop without end -/

/-- `ARBNO(LEN(1) | '') FAIL` -/
def letterOrNothing : AstNode := .concat [.arbno (.alt (.len 1) (.literal [])), .fail]

def letterOrNothingCode : Bytes :=
  [15, 0, 0, 0, 0, 0, 255, 255, 255, 255, 0, 0, 0, 48, 3, 0, 0, 0, 23, 0, 0, 0, 33, 12, 0, 0, 0, 1,
    2, 0, 0, 0, 42, 4, 0, 0, 0, 42, 0, 0, 0, 0, 16, 0, 0, 0, 0, 14, 1, 0, 0, 0, 0, 0, 0, 0, 0, 0,
    83, 78, 66, 76]

def letterOrNothingEnv : VmEnv Unit := VmEnv.ofCode letterOrNothingCode [0x61] .bare

/-- At the body of the loop, at the start of the subject. -/
structure AtBody (vm : SearchVm) : Prop where
  ip : vm.ip = 14
  pos : vm.pos = 0
  min : vm.loopMin 0 = 0
  max : vm.loopMax 0 = unbounded
  last : vm.loopLastPos 0 = 0

theorem AtBody.cycle {vm : SearchVm} (h : AtBody vm) :
    ∃ vm', SearchVm.steps letterOrNothingEnv 12 vm = .running vm' ∧ AtBody vm' := by
  have hsplit : fetch letterOrNothingCode 14 = some (.split 23 33, 23) := by decide +kernel
  have hlen : fetch letterOrNothingCode 23 = some (.prim (.count .len 1), 28) := by decide +kernel
  have hjmp : fetch letterOrNothingCode 28 = some (.jmp 42, 33) := by decide +kernel
  have hlit : fetch letterOrNothingCode 33 = some (.prim (.lit 42 0), 42) := by decide +kernel
  have hstep : fetch letterOrNothingCode 42 = some (.repeatStep 0 14, 48) := by decide +kernel
  have hfail : fetch letterOrNothingCode 48 = some (.fail, 49) := by decide +kernel
  have hat0 : peekCp [0x61] 0 = some (0x61, 1) := by decide +kernel
  have hat1 : peekCp [0x61] 1 = none := by decide +kernel
  obtain ⟨ip, pos, regs, counters, loopMin, loopMax, loopLastPos, used, choices⟩ := vm
  obtain ⟨rfl, rfl, hmin, hmax, hlast⟩ := h
  simp only at hmin hmax hlast
  have hbc : letterOrNothingEnv.bc = letterOrNothingCode := rfl
  have hs : letterOrNothingEnv.s = [0x61] := rfl
  simp only [SearchVm.steps, SearchVm.step, SearchVm.prim, SearchVm.goOn, SearchVm.pushChoice,
    SearchVm.backtrack, SearchVm.repeatStep, searchCount, skipCps, matchLit, hbc, hs, hsplit, hlen,
    hjmp, hlit, hstep, hfail, hat0, hat1, hmin, hmax, hlast, maxLoops, zero_add, Nat.zero_lt_succ,
    ↓reduceIte, Nat.reducePow, not_lt_zero, true_or, one_ne_zero, and_false, List.length_cons,
    List.length_nil, tsub_self, Std.le_refl, List.drop_succ_cons, List.drop_nil, List.take_nil,
    List.take_zero, and_self, add_zero, Function.update_self, Nat.mod_add_mod, Function.update_idem,
    tsub_zero, zero_le, List.drop_zero, zero_ne_one, SearchStep.running.injEq, exists_eq_left']
  exact ⟨rfl, rfl, hmin, hmax, by simp⟩

/-- Two parts of a run. -/
theorem SearchVm.steps_add {env : VmEnv W} {m n : Nat} {vm vm' : SearchVm}
    (h : steps env m vm = .running vm') : steps env (m + n) vm = steps env n vm' := by
  induction m generalizing vm with
  | zero =>
    cases h
    rw [Nat.zero_add]
  | succ m ih =>
    obtain ⟨vm₁, hstep, hrest⟩ := steps_succ_running h
    rw [Nat.add_right_comm, steps_succ hstep]
    exact ih hrest

/-- An eligible pattern whose search never ends: on the way back into the loop its last
position is that of a later turn. -/
theorem letterOrNothing_endless :
    compileAstToBytecodeC .caseSensitive letterOrNothing = some letterOrNothingCode ∧
      checkSearchVmEligible letterOrNothingCode = true ∧
      ∀ n, ∃ vm, SearchVm.steps letterOrNothingEnv n SearchVm.zero = .running vm := by
  refine ⟨by decide +kernel, by decide +kernel, ?_⟩
  have hturns : ∀ j, ∃ vm,
      SearchVm.steps letterOrNothingEnv (1 + 12 * j) SearchVm.zero = .running vm ∧ AtBody vm := by
    intro j
    induction j with
    | zero => exact ⟨_, rfl, ⟨rfl, rfl, rfl, rfl, rfl⟩⟩
    | succ j ih =>
      obtain ⟨vm, hrun, hbody⟩ := ih
      obtain ⟨vm', hcycle, hbody'⟩ := hbody.cycle
      refine ⟨vm', ?_, hbody'⟩
      rw [Nat.mul_succ, ← Nat.add_assoc, SearchVm.steps_add hrun]
      exact hcycle
  intro n
  obtain ⟨vm, hrun, -⟩ := hturns n
  rw [show 1 + 12 * n = n + (1 + 11 * n) by omega] at hrun
  exact SearchVm.steps_of_steps_add hrun

end Snobol4
