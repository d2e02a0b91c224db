import Snobol4.VmRepeat

/-!
# PlainLoops — patterns whose loops run as ordered repetition

A loop is plain if it may run at all, takes no greedy shortcut and, where it has no upper
bound, asks for at most one iteration or consumes in each.  That is a condition on the
pattern alone: the counters of plain loops stay below the cursor or the bounds, so every
loop instruction of a run follows the specification.
-/

namespace Pat

variable {L K L' K' : Type}

/-- The pattern has no leaf, alternative or loop. -/
def blank : Pat L K → Bool
  | skip => true
  | leaf _ => false
  | seq p q => p.blank && q.blank
  | alt _ _ => false
  | loop _ _ => false

/-- The pattern starts with a leaf that satisfies `f`. -/
def opensWith (f : L → Bool) : Pat L K → Bool
  | skip => false
  | leaf l => f l
  | seq p q => if p.blank then q.opensWith f else p.opensWith f
  | alt _ _ => false
  | loop _ _ => false

/-- Every loop satisfies `P`. -/
def Loops (P : K → Pat L K → Prop) : Pat L K → Prop
  | skip => True
  | leaf _ => True
  | seq p q => p.Loops P ∧ q.Loops P
  | alt p q => p.Loops P ∧ q.Loops P
  | loop k body => P k body ∧ body.Loops P

instance decidableLoops {P : K → Pat L K → Prop} [∀ k b, Decidable (P k b)] :
    (p : Pat L K) → Decidable (p.Loops P)
  | skip => isTrue trivial
  | leaf _ => isTrue trivial
  | seq p q =>
      haveI := decidableLoops (P := P) p
      haveI := decidableLoops (P := P) q
      inferInstanceAs (Decidable (_ ∧ _))
  | alt p q =>
      haveI := decidableLoops (P := P) p
      haveI := decidableLoops (P := P) q
      inferInstanceAs (Decidable (_ ∧ _))
  | loop _ body =>
      haveI := decidableLoops (P := P) body
      inferInstanceAs (Decidable (_ ∧ _))

theorem All.and {P P' : L → Prop} {p : Pat L K} (h : p.All P) (h' : p.All P') :
    p.All fun l => P l ∧ P' l := by
  induction p with
  | skip => trivial
  | leaf l => exact ⟨h, h'⟩
  | seq p q ihp ihq | alt p q ihp ihq => exact ⟨ihp h.1 h'.1, ihq h.2 h'.2⟩
  | loop k body ih => exact ih h h'

variable {f : L → L'} {h : K → K'}

@[simp] theorem blank_map (p : Pat L K) : (p.map f h).blank = p.blank := by
  induction p with
  | skip | leaf | alt | loop => rfl
  | seq p q ihp ihq => simp only [map, blank, ihp, ihq]

@[simp] theorem opensWith_map (t : L' → Bool) (p : Pat L K) :
    (p.map f h).opensWith t = p.opensWith fun l => t (f l) := by
  induction p with
  | skip | leaf | alt | loop => rfl
  | seq p q ihp ihq => simp only [map, opensWith, blank_map, ihp, ihq]

@[simp] theorem consumes_map (t : L' → Bool) (p : Pat L K) :
    (p.map f h).consumes t = p.consumes fun l => t (f l) := by
  induction p with
  | skip | leaf | alt | loop => rfl
  | seq p q ihp ihq => simp only [map, consumes, ihp, ihq]

theorem loops_map {P : K' → Pat L' K' → Prop} (p : Pat L K) :
    (p.map f h).Loops P ↔ p.Loops fun k body => P (h k) (body.map f h) := by
  induction p with
  | skip | leaf => exact Iff.rfl
  | seq p q ihp ihq | alt p q ihp ihq => exact and_congr ihp ihq
  | loop k body ih => exact and_congr_right fun _ => ih

theorem Loops.mono {P P' : K → Pat L K → Prop} {p : Pat L K} (hp : p.Loops P)
    (hP : ∀ k body, P k body → P' k body) : p.Loops P' := by
  induction p with
  | skip | leaf => trivial
  | seq p q ihp ihq | alt p q ihp ihq => exact ⟨ihp hp.1, ihq hp.2⟩
  | loop k body ih => exact ⟨hP k body hp.1, ih hp.2⟩

end Pat

namespace Snobol4

open Pat Backtrack

variable {W C K : Type}

/-! ## Leaves that advance -/

/-- The instruction moves the cursor on wherever it succeeds. -/
def Leaf.advances : Leaf C → Bool
  | .lit text => !text.isEmpty
  | .set op _ => decide (op ≠ .break)
  | .count .len n => decide (0 < n)
  | _ => false

theorem matchSet_advances {s : Bytes} {ranges : Option (List CpRange)} {pos pos' : Nat} {op : SetOp}
    (hop : op ≠ .break) (hmatch : matchSet s ranges pos op = some pos') : pos < pos' := by
  cases op with
  | any =>
    simp only [matchSet, matchAny] at hmatch
    split at hmatch
    · simp at hmatch
    split at hmatch
    · simp only [Option.ite_none_right_eq_some, Option.some.injEq] at hmatch
      omega
    split at hmatch
    · rename_i hpeek
      have := peekCp_bounds hpeek
      simp only [Option.ite_none_right_eq_some, Option.some.injEq] at hmatch
      omega
    · simp at hmatch
  | notany =>
    simp only [matchSet, matchNotany] at hmatch
    split at hmatch
    · simp only [Option.ite_none_right_eq_some, Option.some.injEq] at hmatch
      omega
    split at hmatch
    · rename_i hpeek
      have := peekCp_bounds hpeek
      simp only [Option.ite_none_left_eq_some, Option.some.injEq] at hmatch
      omega
    · simp at hmatch
  | span =>
    simp only [matchSet, matchSpan] at hmatch
    split at hmatch
    · simp at hmatch
    simp only [Option.ite_none_right_eq_some, Option.some.injEq] at hmatch
    omega
  | «break» => exact absurd rfl hop

namespace Leaf

variable {s : Bytes} {host : Host W} {ranges : C → Option (List CpRange)} {l : Leaf C}
  {st st' : Local} {g g' : Globals W}

theorem next_of_moveTo {target : Option Nat} (h : (moveTo st.regs g target).move = .next st' g') :
    target = some st'.pos := by
  cases target with
  | none => cases h
  | some pos =>
    cases h
    rfl

/-- An advancing instruction that goes on has moved the cursor. -/
theorem exec_advances (h : st.pos ≤ s.length)
    (hmove : l.exec s host ranges st g = .next st' g') :
    st.pos + l.advances.toNat ≤ st'.pos ∧ st'.pos ≤ s.length := by
  obtain ⟨hle, hlen⟩ := exec_next h hmove
  refine ⟨?_, hlen⟩
  cases hadv : l.advances with
  | false =>
    rw [Bool.toNat_false]
    omega
  | true =>
    rw [Bool.toNat_true]
    cases l with
    | lit text =>
      have htarget := next_of_moveTo hmove
      have htext : text ≠ [] := by simpa [advances] using hadv
      have hpos := List.length_pos_of_ne_nil htext
      simp only [matchLit, Option.ite_none_right_eq_some, Option.some.injEq] at htarget
      omega
    | set op c => exact matchSet_advances (by simpa [advances] using hadv) (next_of_moveTo hmove)
    | count op n =>
      cases op with
      | len =>
        have hn : 0 < n := by simpa [advances] using hadv
        have htarget := next_of_moveTo hmove
        obtain ⟨m, rfl⟩ := Nat.exists_eq_add_of_le' hn
        simp only [matchCount, skipCps] at htarget
        split at htarget
        · rename_i hpeek
          have hstep := peekCp_bounds hpeek
          have hskip := skipCps_bounds hstep.2 htarget
          omega
        · cases htarget
      | _ => cases hadv
    | _ => cases hadv

/-- A leaf with a retry does not advance. -/
theorem advances_of_choice {retry : Local}
    (hmove : l.exec s host ranges st g = .choice st' g' retry) : l.advances = false := by
  have hplain : ∀ result : PrimResult W, result.move ≠ .choice st' g' retry := by
    intro result
    cases result <;> simp [PrimResult.move]
  cases l with
  | lit text | set op c | count op n => exact absurd hmove (hplain _)
  | _ => rfl

theorem advances_of_cut (hmove : l.exec s host ranges st g = .cut st' g') : l.advances = false := by
  have hplain : ∀ result : PrimResult W, result.move ≠ .cut st' g' := by
    intro result
    cases result <;> simp [PrimResult.move]
  cases l with
  | lit text | set op c | count op n => exact absurd hmove (hplain _)
  | _ => rfl

end Leaf

/-! ## Plain loops -/

/-- The loop runs as ordered repetition whatever the subject. -/
structure LoopPlain (k : Bounds) (body : Pat (Leaf C) K) : Prop where
  runs : k.max ≠ 0
  oneByOne : k.max = unbounded → body.opensWith Leaf.isSpan = false
  advances : k.max = unbounded → k.min ≤ 1 ∨ body.consumes Leaf.advances = true

instance (k : Bounds) (body : Pat (Leaf C) K) : Decidable (LoopPlain k body) :=
  decidable_of_iff (k.max ≠ 0 ∧ (k.max = unbounded → body.opensWith Leaf.isSpan = false) ∧
    (k.max = unbounded → k.min ≤ 1 ∨ body.consumes Leaf.advances = true))
    ⟨fun ⟨h, h', h''⟩ => ⟨h, h', h''⟩, fun ⟨h, h', h''⟩ => ⟨h, h', h''⟩⟩

@[simp] theorem Leaf.isSpan_resolve (classes : List CcEntry) (l : Leaf Nat) :
    (l.resolve classes).isSpan = l.isSpan := by
  cases l with
  | set op id => cases op <;> rfl
  | _ => rfl

@[simp] theorem Leaf.advances_resolve (classes : List CcEntry) (l : Leaf Nat) :
    (l.resolve classes).advances = l.advances := by
  cases l with
  | count op n => cases op <;> rfl
  | _ => rfl

/-- Code is as plain as the pattern it was emitted for. -/
theorem loopPlain_map {classes : List CcEntry} {k : LoopSpec} {body : Blk} :
    LoopPlain k.bounds (body.map (Leaf.resolve classes) LoopSpec.bounds) ↔
      LoopPlain k.bounds body := by
  constructor
  · rintro ⟨h, h', h''⟩
    exact ⟨h, by simpa using h', by simpa using h''⟩
  · rintro ⟨h, h', h''⟩
    exact ⟨h, by simpa using h', by simpa using h''⟩

namespace Blk

theorem blank_iff (b : Blk) : b.blank = true ↔ b.size = 0 := by
  induction b with
  | skip => exact ⟨fun _ => rfl, fun _ => rfl⟩
  | leaf l => exact ⟨(fun h => by cases h), fun h => absurd h l.size_pos.ne'⟩
  | seq p q ihp ihq =>
    rw [Pat.blank, Bool.and_eq_true, ihp, ihq, size, Nat.add_eq_zero_iff]
  | alt p q => exact ⟨(fun h => by cases h), fun h => absurd h (by simp only [size]; omega)⟩
  | loop k body => exact ⟨(fun h => by cases h), fun h => absurd h (by simp only [size]; omega)⟩

theorem startsWithSpan_eq (b : Blk) : b.startsWithSpan = b.opensWith Leaf.isSpan := by
  induction b with
  | skip | leaf | alt | loop => rfl
  | seq p q ihp ihq =>
    rw [startsWithSpan, Pat.opensWith, ihp, ihq]
    by_cases h : size p = 0
    · rw [if_pos h, if_pos ((blank_iff p).mpr h)]
    · rw [if_neg h, if_neg fun hb => h ((blank_iff p).mp hb)]

end Blk

/-- The loops of the code are plain. -/
abbrev PlainBlk (b : Blk) : Prop := b.Loops fun k body => LoopPlain k.bounds body

theorem isGreedy_of_plain {k : LoopSpec} {body : Blk} (h : LoopPlain k.bounds body) :
    isGreedy k body = false := by
  rw [isGreedy, Blk.startsWithSpan_eq]
  by_cases hmax : k.max = unbounded
  · rw [h.oneByOne hmax, Bool.and_false]
  · simp [hmax]

/-- The loops of plain code can be placed without a greedy entry. -/
theorem Placed.notGreedy {Γ : LoopTable} {b : Blk} {ctx : Ctx} (h : Placed Γ ctx b)
    (hplain : PlainBlk b) : Placed (fun i => { Γ i with greedy := false }) ctx b := by
  induction b generalizing ctx with
  | skip => trivial
  | leaf l => exact h
  | seq p q ihp ihq => exact ⟨ihp h.1 hplain.1, ihq h.2 hplain.2⟩
  | alt p q ihp ihq => exact ⟨ihp h.1 hplain.1, ihq h.2 hplain.2⟩
  | loop k body ih =>
    obtain ⟨⟨hinfo, hfresh, hmax⟩, hbody⟩ := h
    refine ⟨⟨?_, hfresh, hmax⟩, ih hbody hplain.2⟩
    simp only [hinfo, isGreedy_of_plain hplain.1]

/-! ## The counters of a search -/

/-- The iterations so far against the mark, or against the bounds. -/
def CountOk (k : LoopSpec) (count mark : Nat) : Prop :=
  if k.max = unbounded then count ≤ mark else count < max k.min k.max

/-- The items are plain, and the counters and marks of open loops are bounded by the
cursor; what stands in front of a mark's loop is reckoned with. -/
def Advancing : List BlkItem → Nat → Prop
  | [], _ => True
  | .pat p :: κ, pos => PlainBlk p ∧ Advancing κ (pos + (p.consumes Leaf.advances).toNat)
  | .join :: κ, pos => Advancing κ pos
  | .iter k body count mark :: κ, pos =>
      (LoopPlain k.bounds body ∧ PlainBlk body) ∧ CountOk k count mark ∧
        mark + (body.consumes Leaf.advances).toNat ≤ pos ∧ Advancing κ pos

theorem Advancing.mono {κ : List BlkItem} {pos pos' : Nat} (h : Advancing κ pos) (hle : pos ≤ pos') :
    Advancing κ pos' := by
  induction κ generalizing pos pos' with
  | nil => trivial
  | cons item κ ih =>
    cases item with
    | pat p => exact ⟨h.1, ih h.2 (by omega)⟩
    | join => exact ih h hle
    | iter k body count mark =>
      obtain ⟨hplain, hcount, hmark, hκ⟩ := h
      exact ⟨hplain, hcount, by omega, ih hκ hle⟩

/-- One more iteration keeps the count. -/
theorem CountOk.succ {k : LoopSpec} {body : Blk} {count mark pos count' mark' : Nat} {saved : Bool}
    {st : Local} (hplain : LoopPlain k.bounds body) (hcount : CountOk k count mark)
    (hmark : mark + (body.consumes Leaf.advances).toNat ≤ pos) (hpos : st.pos = pos)
    (h : repetition k (count + 1) (decide (st.pos ≠ mark)) st = .again count' mark' saved) :
    CountOk k count' mark' ∧ mark' = pos := by
  subst hpos
  unfold repetition at h
  split at h
  · rename_i hmin
    cases h
    refine ⟨?_, rfl⟩
    unfold CountOk at hcount ⊢
    split
    · rename_i hmax
      rw [if_pos hmax] at hcount
      -- two iterations are asked for, so each one consumes
      have hadv := (hplain.advances hmax).resolve_left (by
        show ¬k.min ≤ 1
        omega)
      rw [hadv, Bool.toNat_true] at hmark
      omega
    · omega
  split at h
  · rename_i hmax
    split at h
    · rename_i hmoved
      cases h
      have hne := of_decide_eq_true hmoved
      refine ⟨?_, rfl⟩
      rw [CountOk, if_pos hmax] at hcount ⊢
      omega
    · cases h
  split at h
  · rename_i hmax hlt
    cases h
    refine ⟨?_, rfl⟩
    rw [CountOk, if_neg hmax]
    omega
  · cases h

/-- The threads that a move of the ordered search leaves behind are steady. -/
theorem Advancing.moves {env : VmEnv W} {κ : List BlkItem} {s : Local} {g : Globals W}
    {m : Move BlkThread Local (Globals W)} (h : Advancing κ s.pos) (hpos : s.pos ≤ env.s.length)
    (hmoves : Moves (repetitionInterp env).rules ⟨κ, s⟩ g m) :
    ∀ u ∈ m.threads, Advancing u.items u.state.pos := by
  have hexit : ∀ {k count moved st' retry}, repetition k count moved s = .exit st' retry →
      st' = s ∧ retry = none := by
    intro k count moved st' retry hrep
    unfold repetition at hrep
    split at hrep
    · cases hrep
    split at hrep
    · split at hrep
      · cases hrep
      · cases hrep
        exact ⟨rfl, rfl⟩
    split at hrep
    · cases hrep
    · cases hrep
      exact ⟨rfl, rfl⟩
  cases hmoves with
  | finish => simp [Move.threads]
  | skip κ => simpa [Move.threads, Advancing, PlainBlk, Loops, consumes] using h
  | seq p q κ =>
    obtain ⟨⟨hp, hq⟩, hκ⟩ := h
    simp only [Move.threads, List.mem_singleton, forall_eq]
    refine ⟨hp, hq, hκ.mono ?_⟩
    simp only [consumes]
    cases p.consumes Leaf.advances <;> cases q.consumes Leaf.advances <;> simp
  | alt p q κ =>
    obtain ⟨⟨hp, hq⟩, hκ⟩ := h
    simp only [consumes, Bool.toNat_false, Nat.add_zero] at hκ
    simp only [Move.threads, List.mem_cons, List.not_mem_nil, or_false, forall_eq_or_imp, forall_eq]
    exact ⟨⟨hp, hκ.mono (Nat.le_add_right _ _)⟩, hq, hκ.mono (Nat.le_add_right _ _)⟩
  | join κ => simpa [Move.threads, Advancing] using h
  | @leaf l _ _ lm κ hleaf =>
    obtain ⟨-, hκ⟩ := h
    have hmove : l.exec env.s env.host env.ranges s g = lm := hleaf.symm
    simp only [consumes] at hκ
    cases lm with
    | next s' g' =>
      obtain ⟨hle, -⟩ := Leaf.exec_advances hpos hmove
      simp only [LeafMove.move, Move.threads, List.mem_singleton, forall_eq]
      exact hκ.mono hle
    | choice s' g' r =>
      obtain ⟨⟨hle, -⟩, hlt, -⟩ := Leaf.exec_choice hpos hmove
      have hadv := Leaf.advances_of_choice hmove
      rw [hadv, Bool.toNat_false] at hκ
      simp only [LeafMove.move, Move.threads, List.mem_cons, List.not_mem_nil, or_false,
        forall_eq_or_imp, forall_eq]
      exact ⟨hκ.mono (by omega), trivial, hκ.mono (by omega)⟩
    | cut s' g' =>
      obtain ⟨hle, -⟩ := Leaf.exec_cut hpos hmove
      have hadv := Leaf.advances_of_cut hmove
      rw [hadv, Bool.toNat_false] at hκ
      simp only [LeafMove.move, Move.threads, List.mem_singleton, forall_eq]
      exact hκ.mono (by omega)
    | fail g' => simp [LeafMove.move, Move.threads]
    | stop ok g' => cases ok <;> simp [LeafMove.move, Move.threads]
  | @enter k body _ lm κ _ henter =>
    obtain ⟨⟨hplain, hbody⟩, hκ⟩ := h
    simp only [consumes, Bool.toNat_false, Nat.add_zero] at hκ
    have hrep : repetition k 0 true s = lm := henter.symm
    cases lm with
    | again count mark saved =>
      rw [repetition_enter hplain.runs] at hrep
      cases hrep
      have hiter : Advancing (.iter k body 0 s.pos :: κ)
          (s.pos + (body.consumes Leaf.advances).toNat) := by
        refine ⟨⟨hplain, hbody⟩, ?_, le_rfl, hκ.mono (Nat.le_add_right _ _)⟩
        have hmax : k.max ≠ 0 := hplain.runs
        unfold CountOk
        split <;> omega
      simp only [LoopMove.move, Move.threads, List.mem_cons, forall_eq_or_imp]
      refine ⟨⟨hbody, hiter⟩, ?_⟩
      by_cases hmin : k.min = 0
      · simpa [hmin, Advancing] using hκ
      · simp [hmin]
    | exit s' retry =>
      obtain ⟨rfl, rfl⟩ := hexit hrep
      simpa [LoopMove.move, Move.threads] using hκ
  | @step k body count mark _ lm κ _ hstep =>
    obtain ⟨⟨hplain, hbody⟩, hcount, hmark, hκ⟩ := h
    have hrep : repetition k (count + 1) (decide (s.pos ≠ mark)) s = lm := hstep.symm
    cases lm with
    | again count' mark' saved =>
      obtain ⟨hcount', rfl⟩ := hcount.succ hplain hmark rfl hrep
      have hiter : Advancing (.iter k body count' s.pos :: κ)
          (s.pos + (body.consumes Leaf.advances).toNat) :=
        ⟨⟨hplain, hbody⟩, hcount', le_rfl, hκ.mono (Nat.le_add_right _ _)⟩
      simp only [LoopMove.move, Move.threads, List.mem_cons, forall_eq_or_imp]
      refine ⟨⟨hbody, hiter⟩, ?_⟩
      cases saved with
      | true => simpa [Advancing] using hκ
      | false => simp
    | exit s' retry =>
      obtain ⟨rfl, rfl⟩ := hexit hrep
      simpa [LoopMove.move, Move.threads] using hκ

/-! ## Every loop instruction of a run follows the specification -/

variable {env : VmEnv W} {Γ : LoopTable}

/-- At the instruction of a steady thread. -/
theorem VmOk.loopOk {vm : Vm W} {κ : List BlkItem} {s : Local} {ts : List BlkThread}
    (h : VmOk env Γ true vm ⟨κ, s⟩ ts) (hhead : HeadAt env.bc κ vm.ip) (hsteady : Advancing κ s.pos)
    (hlen : env.s.length + 1 < 2 ^ 32) (htrail : vm.toStore.TrailFits env) : LoopOk env vm := by
  have hpos : s.pos ≤ env.s.length := h.thread.le_length
  -- the instruction is that of the first item
  have hother : ∀ instr next, fetch env.bc vm.ip = some (instr, next) →
      (∀ loop min max skip, instr ≠ .repeatInit loop min max skip) →
      (∀ loop target, instr ≠ .repeatStep loop target) → LoopOk env vm := by
    intro instr next hfetch hinit hstep
    refine ⟨?_, ?_, ?_, htrail⟩
    · intro loop min max skip next' hfetch'
      rw [hfetch] at hfetch'
      exact absurd (Prod.mk.inj (Option.some.inj hfetch')).1 (hinit _ _ _ _)
    · rintro ⟨loop, target, next', hfetch', -⟩
      rw [hfetch] at hfetch'
      exact absurd (Prod.mk.inj (Option.some.inj hfetch')).1 (hstep _ _)
    · intro loop target next' hfetch'
      rw [hfetch] at hfetch'
      exact absurd (Prod.mk.inj (Option.some.inj hfetch')).1 (hstep _ _)
  generalize hip : vm.ip = ip at hhead hother
  cases hhead with
  | accept hfetch => exact hother _ _ hfetch (by simp) (by simp)
  | @leaf l _ _ hcode hκ =>
    refine hother _ _ hcode.leaf ?_ ?_
    · intro loop min max skip
      cases l <;> simp [Leaf.instr]
    · intro loop target
      cases l <;> simp [Leaf.instr]
  | alt hcode hκ => exact hother _ _ hcode.alt.1 (by simp) (by simp)
  | jmp hfetch hκ => exact hother _ _ hfetch (by simp) (by simp)
  | @loop k body _ _ hcode hκ =>
    obtain ⟨hfetch, -, -⟩ := hcode.loop
    rw [← hip] at hfetch
    refine ⟨?_, ?_, ?_, htrail⟩
    · intro loop min max skip next hfetch'
      rw [hfetch] at hfetch'
      cases hfetch'
      exact hsteady.1.1.runs
    · rintro ⟨loop, target, next, hfetch', -⟩
      rw [hfetch] at hfetch'
      cases hfetch'
    · intro loop target next hfetch'
      rw [hfetch] at hfetch'
      cases hfetch'
  | @iter k body count mark a κ hcode hκ =>
    obtain ⟨⟨hplain, -⟩, hcount, hmark, -⟩ := hsteady
    obtain ⟨-, -, hfetch⟩ := hcode.loop
    obtain ⟨-, hmin, hmax⟩ := hcode.fits.1
    rw [← hip] at hfetch
    obtain ⟨⟨hinfo, -, -⟩, -⟩ := h.thread.placed.1
    have hknown : Known Γ vm k.id := h.thread.known k.id List.mem_cons_self
    have hgreedy := isGreedy_of_plain hplain
    have hmem : (k.id, count, mark) ∈ live (.iter k body count mark :: κ) := by
      simp [live, hgreedy]
    obtain ⟨hcounter, -, -⟩ := h.thread.holds _ hmem
    simp only at hcounter
    have hunb : unbounded = 2 ^ 32 - 1 := rfl
    have hbelow : count + 1 < 2 ^ 32 ∧ (k.max = unbounded → count ≤ env.s.length) := by
      unfold CountOk at hcount
      split at hcount
      · exact ⟨by omega, fun _ => by omega⟩
      · rename_i hbounded
        exact ⟨by omega, fun h => absurd h hbounded⟩
    refine ⟨?_, ?_, ?_, htrail⟩
    · intro loop min max skip next hfetch'
      rw [hfetch] at hfetch'
      cases hfetch'
    · rintro ⟨loop, target, next, hfetch', htakes⟩
      rw [hfetch] at hfetch'
      cases hfetch'
      rw [takesGreedy_eq h.flags hknown hcode hinfo rfl, hgreedy] at htakes
      cases htakes
    · intro loop target next hfetch'
      rw [hfetch] at hfetch'
      cases hfetch'
      rw [hknown.2, hinfo, hcounter]
      exact ⟨hbelow.1, fun hmax _ _ => hbelow.2 hmax⟩

/-- The threads behind a move. -/
theorem mem_of_apply {m : Move BlkThread Local (Globals W)} {t : BlkThread} {ts us : List BlkThread}
    {g : Globals W} (h : m.apply ts = .run t g us) : ∀ u ∈ t :: us, u ∈ m.threads ∨ u ∈ ts := by
  cases m with
  | go t' g' new =>
    cases h
    intro u hu
    rw [← List.cons_append, List.mem_append] at hu
    exact hu
  | cut t' g' =>
    cases h
    exact fun u hu => .inl hu
  | back g' =>
    cases ts with
    | nil => cases h
    | cons t' ts =>
      cases h
      exact fun u hu => .inr hu
  | done v => cases h

theorem Advancing.silent {κ κ' : List BlkItem} {pos : Nat} (h : Advancing κ pos)
    (hstep : Silent κ κ') :
    Advancing κ' pos := by
  cases hstep with
  | skip => exact h.2
  | seq p q κ =>
    obtain ⟨⟨hp, hq⟩, hκ⟩ := h
    refine ⟨hp, hq, hκ.mono ?_⟩
    simp only [consumes]
    cases p.consumes Leaf.advances <;> cases q.consumes Leaf.advances <;> simp
  | join => exact h

theorem Advancing.silents {κ κ' : List BlkItem} {pos : Nat} (h : Advancing κ pos)
    (hsteps : Silents κ κ') : Advancing κ' pos := by
  induction hsteps with
  | refl => exact h
  | tail _ hstep ih => exact ih.silent hstep

/-- The next instruction of a steady thread. -/
theorem VmOk.next_loopOk {vm : Vm W} {κ : List BlkItem} {s : Local} {ts : List BlkThread}
    (h : VmOk env Γ true vm ⟨κ, s⟩ ts) (hnot : ∀ i, (Γ i).greedy = false)
    (hsteady : Advancing κ s.pos) (hlen : env.s.length + 1 < 2 ^ 32)
    (htrail : vm.toStore.TrailFits env) : LoopOk env vm := by
  cases h.thread.standing with
  | items hitems hpos =>
    obtain ⟨κ', hsilent, hhead, hok⟩ := h.normalize hitems hpos
    exact hok.loopOk hhead (hsteady.silents hsilent) hlen htrail
  | @retry k _ _ _ _ _ _ _ _ hinfo =>
    -- only a greedy loop leaves a retry behind
    have hgreedy := hnot k.id
    rw [hinfo] at hgreedy
    cases hgreedy

/-- A run that stands for steady threads. -/
theorem VmOk.loopsOk (hcompact : env.compact = true) (hlen : env.s.length + 1 < 2 ^ 32)
    (hnot : ∀ i, (Γ i).greedy = false) {n : Nat} {vm vm' : Vm W} {t : BlkThread}
    {ts : List BlkThread} (h : VmOk env Γ true vm t ts)
    (hsteady : ∀ u ∈ t :: ts, Advancing u.items u.state.pos)
    (htrail : ∀ n vm', vmSteps env n vm = .running vm' → vm'.toStore.TrailFits env)
    (hn : vmSteps env n vm = .running vm') : LoopOk env vm' := by
  induction n generalizing vm t ts with
  | zero =>
    cases hn
    exact h.next_loopOk hnot (hsteady t List.mem_cons_self) hlen (htrail 0 _ rfl)
  | succ n ih =>
    obtain ⟨κ, s⟩ := t
    obtain ⟨hκ, hts⟩ := List.forall_mem_cons.mp hsteady
    have hloop := h.next_loopOk hnot hκ hlen (htrail 0 vm rfl)
    have hfits : NextFits env vm := fun vm₁ hstep => htrail 1 vm₁ (by rw [vmSteps, hstep]; rfl)
    obtain ⟨κ', hsilent, hvm, hat, m, hmoves, hmatches⟩ :=
      h.turn (fun _ => hcompact) hloop.greedyOk hfits
    have hhead : HeadAt env.bc κ' vm.ip ∧ s.pos = vm.pos := hat.resolve_right hloop.oneByOne
    have hchildren := (Advancing.silents hκ hsilent).moves hvm.thread.le_length
      (hvm.repeats hhead.1 hhead.2 hloop hmoves)
    rw [vmSteps] at hn
    cases hturn : vmStep env vm with
    | halted ok final =>
      rw [hturn] at hn
      cases hn
    | running vm₁ =>
      rw [hturn] at hn hmatches
      generalize hc : m.apply ts = c at hmatches
      cases hmatches with
      | running hvm₁ =>
        refine ih hvm₁ (fun u hu => ?_) (fun n vm'' hn => htrail (n + 1) vm'' ?_) hn
        · exact (mem_of_apply hc u hu).elim (hchildren u) (hts u)
        · rw [vmSteps, hturn]
          exact hn

end Snobol4
