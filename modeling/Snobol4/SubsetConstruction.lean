import Mathlib.Computability.NFA
import Snobol4.Automaton

/-!
# SubsetConstruction — `build_dfa` against the automaton of the bytecode

The addresses of the bytecode with their byte and epsilon transitions are a nondeterministic
automaton.  As long as no set of addresses is full, `epsilon_closure` is reachability, the
sets behind a text are those of the automaton, and the numbered states that `build_dfa`
finds accept what the automaton accepts.
-/

namespace Snobol4

variable {W : Type}

/-! ## Sorted sets -/

theorem mem_nfaSetAdd {s : List Nat} {v x : Nat} (h : (nfaSetAdd s v).length < dfaNfaMax) :
    x ∈ nfaSetAdd s v ↔ x ∈ s ∨ x = v := by
  unfold nfaSetAdd at h ⊢
  split
  · rename_i hkeep
    rw [if_pos hkeep] at h
    have hv : v ∈ s := hkeep.resolve_right (by omega)
    constructor
    · exact .inl
    · rintro (hx | rfl)
      · exact hx
      · exact hv
  · have hsplit : x ∈ s ↔ x ∈ s.takeWhile (· < v) ∨ x ∈ s.dropWhile (· < v) := by
      rw [← List.mem_append, List.takeWhile_append_dropWhile]
    rw [hsplit]
    simp only [List.mem_append, List.mem_cons]
    tauto

theorem subset_nfaSetAdd (s : List Nat) (v : Nat) : s.Sublist (nfaSetAdd s v) := by
  unfold nfaSetAdd
  split
  · exact List.Sublist.refl s
  · have h := (List.sublist_cons_self v (s.dropWhile (· < v))).append_left (s.takeWhile (· < v))
    rwa [List.takeWhile_append_dropWhile] at h

theorem nodup_nfaSetAdd {s : List Nat} (v : Nat) (h : s.Nodup) : (nfaSetAdd s v).Nodup := by
  unfold nfaSetAdd
  split
  · exact h
  · rename_i hnew
    have hv : v ∉ s := fun hmem => hnew (.inl hmem)
    have hperm : (s.takeWhile (· < v) ++ v :: s.dropWhile (· < v)).Perm (v :: s) := by
      refine List.perm_middle.trans ?_
      rw [List.takeWhile_append_dropWhile]
    exact hperm.nodup_iff.mpr (List.nodup_cons.mpr ⟨hv, h⟩)

theorem subset_foldl_nfaSetAdd (s vs : List Nat) : s.Sublist (vs.foldl nfaSetAdd s) := by
  induction vs generalizing s with
  | nil => exact List.Sublist.refl s
  | cons v vs ih => exact (subset_nfaSetAdd s v).trans (ih _)

theorem nodup_foldl_nfaSetAdd {s : List Nat} (vs : List Nat) (h : s.Nodup) :
    (vs.foldl nfaSetAdd s).Nodup := by
  induction vs generalizing s with
  | nil => exact h
  | cons v vs ih => exact ih (nodup_nfaSetAdd v h)

theorem mem_foldl_nfaSetAdd {s vs : List Nat} {x : Nat}
    (h : (vs.foldl nfaSetAdd s).length < dfaNfaMax) :
    x ∈ vs.foldl nfaSetAdd s ↔ x ∈ s ∨ x ∈ vs := by
  induction vs generalizing s with
  | nil => simp
  | cons v vs ih =>
    have hadd := (subset_foldl_nfaSetAdd (nfaSetAdd s v) vs).length_le
    rw [List.foldl_cons] at h ⊢
    rw [ih h, mem_nfaSetAdd (by omega), List.mem_cons, or_assoc]

/-! ## The closure is reachability -/

/-- The address `b` is reached from `a` by epsilon transitions. -/
def EpsReach (bc : Bytes) : Nat → Nat → Prop :=
  Relation.ReflTransGen fun a b => b ∈ epsilonSteps bc a

theorem closurePass_sublist (bc : Bytes) (fuel i : Nat) (s : List Nat) :
    s.Sublist (closurePass bc fuel i s) := by
  induction fuel generalizing i s with
  | zero => exact List.Sublist.refl s
  | succ fuel ih =>
    rw [closurePass]
    split
    · exact List.Sublist.refl s
    · exact (subset_foldl_nfaSetAdd s _).trans (ih _ _)

theorem closurePass_nodup {bc : Bytes} {fuel i : Nat} {s : List Nat} (h : s.Nodup) :
    (closurePass bc fuel i s).Nodup := by
  induction fuel generalizing i s with
  | zero => exact h
  | succ fuel ih =>
    rw [closurePass]
    split
    · exact h
    · exact ih (nodup_foldl_nfaSetAdd _ h)

theorem mem_foldl_nfaSetAdd_of {P : Nat → Prop} {s vs : List Nat} (hs : ∀ x ∈ s, P x)
    (hvs : ∀ x ∈ vs, P x) : ∀ x ∈ vs.foldl nfaSetAdd s, P x := by
  induction vs generalizing s with
  | nil => exact hs
  | cons v vs ih =>
    obtain ⟨hv, hvs⟩ := List.forall_mem_cons.mp hvs
    refine ih (fun x hx => ?_) hvs
    unfold nfaSetAdd at hx
    split at hx
    · exact hs x hx
    · obtain hx | hx := List.mem_append.mp hx
      · exact hs x ((List.takeWhile_sublist _).subset hx)
      · obtain rfl | hx := List.mem_cons.mp hx
        · exact hv
        · exact hs x ((List.dropWhile_sublist _).subset hx)

/-- What a pass adds is reached from what was there. -/
theorem closurePass_of {bc : Bytes} {P : Nat → Prop} (hP : ∀ a, P a → ∀ b ∈ epsilonSteps bc a, P b)
    {fuel i : Nat} {s : List Nat} (hs : ∀ x ∈ s, P x) : ∀ x ∈ closurePass bc fuel i s, P x := by
  induction fuel generalizing i s with
  | zero => exact hs
  | succ fuel ih =>
    rw [closurePass]
    split
    · exact hs
    · rename_i off hoff
      exact ih (mem_foldl_nfaSetAdd_of hs (hP off (hs off (List.mem_of_getElem? hoff))))

theorem foldl_nfaSetAdd_fixed {s : List Nat} (vs : List Nat) (hroom : s.length < dfaNfaMax)
    (h : (vs.foldl nfaSetAdd s).length ≤ s.length) :
    vs.foldl nfaSetAdd s = s ∧ ∀ v ∈ vs, v ∈ s := by
  have heq : vs.foldl nfaSetAdd s = s :=
    ((subset_foldl_nfaSetAdd s vs).eq_of_length_le h).symm
  refine ⟨heq, fun v hv => ?_⟩
  rw [← heq]
  exact (mem_foldl_nfaSetAdd (by rw [heq]; exact hroom)).mpr (.inr hv)

/-- A pass that changes nothing has found every transition inside the set. -/
theorem closurePass_fixed {bc : Bytes} {fuel i : Nat} {s : List Nat} (hroom : s.length < dfaNfaMax)
    (hfuel : s.length ≤ fuel + i) (h : (closurePass bc fuel i s).length ≤ s.length) :
    ∀ k a, i ≤ k → s[k]? = some a → ∀ b ∈ epsilonSteps bc a, b ∈ s := by
  induction fuel generalizing i with
  | zero =>
    intro k a hk ha
    have := (List.getElem?_eq_some_iff.mp ha).1
    omega
  | succ fuel ih =>
    intro k a hk ha
    rw [closurePass] at h
    cases hi : s[i]? with
    | none =>
      have hlt := (List.getElem?_eq_some_iff.mp ha).1
      have hge := List.getElem?_eq_none_iff.mp hi
      omega
    | some off =>
      rw [hi] at h
      dsimp only at h
      have hgrow := (closurePass_sublist bc fuel (i + 1)
        ((epsilonSteps bc off).foldl nfaSetAdd s)).length_le
      obtain ⟨hsame, hmem⟩ := foldl_nfaSetAdd_fixed (epsilonSteps bc off) hroom (by omega)
      rw [hsame] at h
      obtain rfl | hlt := Nat.eq_or_lt_of_le hk
      · rw [hi] at ha
        cases ha
        exact hmem
      · exact ih (by omega) h k a hlt ha

/-- The passes end with a set that one more pass does not change, or that is full. -/
theorem closePasses_spec {bc : Bytes} {P : Nat → Prop}
    (hP : ∀ a, P a → ∀ b ∈ epsilonSteps bc a, P b) {fuel : Nat} {s : List Nat} (hs : ∀ x ∈ s, P x)
    (hfuel : dfaNfaMax < fuel + s.length)
    (hroom : (closePasses bc fuel s).length < dfaNfaMax) :
    s.Sublist (closePasses bc fuel s) ∧
      (∀ x ∈ closePasses bc fuel s, P x) ∧
      ∀ a ∈ closePasses bc fuel s, ∀ b ∈ epsilonSteps bc a, b ∈ closePasses bc fuel s := by
  induction fuel generalizing s with
  | zero =>
    rw [closePasses] at hroom
    omega
  | succ fuel ih =>
    rw [closePasses] at hroom ⊢
    have hsub := closurePass_sublist bc (dfaNfaMax + 1) 0 s
    split
    · rename_i hfix
      rw [if_pos hfix] at hroom
      refine ⟨List.Sublist.refl s, hs, fun a ha => ?_⟩
      obtain ⟨k, hk⟩ := List.getElem?_of_mem ha
      have hfuel' : s.length ≤ dfaNfaMax + 1 + 0 := by omega
      exact closurePass_fixed hroom hfuel' (by rw [hfix]) k a (Nat.zero_le k) hk
    · rename_i hne
      rw [if_neg hne] at hroom
      have hlt : s.length < (closurePass bc (dfaNfaMax + 1) 0 s).length := by
        by_contra hge
        exact hne (hsub.eq_of_length_le (by omega)).symm
      obtain ⟨hgrow, hrest⟩ :=
        ih (s := closurePass bc (dfaNfaMax + 1) 0 s) (closurePass_of hP hs) (by omega) hroom
      exact ⟨hsub.trans hgrow, hrest⟩

/-- `epsilon_closure` finds the addresses that are reached, unless the set is full. -/
theorem mem_epsilonClosure {bc : Bytes} {start x : Nat}
    (hroom : (epsilonClosure bc start).length < dfaNfaMax) :
    x ∈ epsilonClosure bc start ↔ EpsReach bc start x := by
  have hstart : ∀ x ∈ [start], EpsReach bc start x := by
    intro x hx
    obtain rfl := List.mem_singleton.mp hx
    exact .refl
  have hfuel : dfaNfaMax < dfaNfaMax + 1 + [start].length := by
    rw [List.length_singleton]
    omega
  obtain ⟨hgrow, hsound, hclosed⟩ :=
    closePasses_spec (fun a ha b hb => ha.tail hb) hstart hfuel hroom
  refine ⟨hsound x, fun hreach => ?_⟩
  induction hreach with
  | refl => exact hgrow.subset List.mem_cons_self
  | tail _ hstep ih => exact hclosed _ ih _ hstep

theorem epsilonClosure_nodup (bc : Bytes) (start : Nat) : (epsilonClosure bc start).Nodup := by
  have hpasses : ∀ fuel s, s.Nodup → (closePasses bc fuel s).Nodup := by
    intro fuel
    induction fuel with
    | zero => exact fun s hs => hs
    | succ fuel ih =>
      intro s hs
      rw [closePasses]
      split
      · exact hs
      · exact ih _ (closurePass_nodup hs)
  exact hpasses _ _ (List.nodup_singleton start)

/-- The closures that `build_dfa` keeps: an instruction that ends the match has no epsilon
transitions. -/
theorem mem_epsClosures {bc : Bytes} {off x : Nat}
    (hroom : (epsClosures bc off).length < dfaNfaMax) : x ∈ epsClosures bc off ↔ EpsReach bc off x := by
  have hend : epsilonSteps bc off = [] → (x ∈ [off] ↔ EpsReach bc off x) := by
    intro hnone
    rw [List.mem_singleton]
    constructor
    · rintro rfl
      exact .refl
    · intro hreach
      obtain rfl | ⟨b, hstep, -⟩ := Relation.ReflTransGen.cases_head hreach
      · rfl
      · rw [hnone] at hstep
        cases hstep
  have hcases : epsClosures bc off = epsilonClosure bc off ∨
      epsClosures bc off = [off] ∧ epsilonSteps bc off = [] := by
    unfold epsClosures epsilonSteps
    dsimp only
    generalize bc[off]?.bind OpCode.ofByte = op
    split
    · exact .inr ⟨rfl, rfl⟩
    · exact .inr ⟨rfl, rfl⟩
    · exact .inr ⟨rfl, rfl⟩
    · exact .inl rfl
  obtain hopen | ⟨hsingle, hnone⟩ := hcases
  · rw [hopen] at hroom ⊢
    exact mem_epsilonClosure hroom
  · rw [hsingle]
    exact hend hnone

theorem epsClosures_nodup (bc : Bytes) (off : Nat) : (epsClosures bc off).Nodup := by
  unfold epsClosures
  split
  · exact List.nodup_singleton off
  · exact List.nodup_singleton off
  · exact List.nodup_singleton off
  · exact epsilonClosure_nodup bc off

/-! ## The automaton of the bytecode -/

/-- Where a byte leads from the address `off`, and whether epsilon transitions follow. -/
def byteTargets (env : VmEnv W) (b : UInt8) (off : Nat) : List (Nat × Bool) :=
  let bc := env.bc
  let open_ (target : Nat) : Nat × Bool := (target % 2 ^ 16, true)
  let set (bytes : List CpRange → UInt8 → Bool) (go : List (Nat × Bool)) : List (Nat × Bool) :=
    if (opBytes env off bytes).any (· b) then go else []
  if bc.length ≤ off then []
  else if litNext bc off ≠ dfaDead then
    if bc[off]? = some b then
      let cont := litNext bc off
      if cont < bc.length ∧ cont ≠ off ∧ litNext bc cont ≠ dfaDead then [(cont, false)]
      else [open_ cont]
    else []
  else
    match bc[off]?.bind OpCode.ofByte with
    | some .lit =>
        let litOff := (readU32 bc (off + 1)).1
        let litLen := (readU32 bc (off + 5)).1
        if bc.length < off + 9 ∨ bc.length ≤ litOff ∨ litLen = 0 ∨ bc[litOff]? ≠ some b then []
        else if litLen = 1 then [open_ (off + 10)]
        else
          let second := (litOff + 1) % 2 ^ 16
          if second < bc.length ∧ litNext bc second ≠ dfaDead then [(second, false)] else []
    | some .span => set asciiMap [open_ off, open_ (off + 3)]
    | some .any => set asciiMap [open_ (off + 3)]
    | some .notany => set (fun ranges b => !asciiMap ranges b) [open_ (off + 3)]
    | some .break => set (fun ranges b => !asciiMap ranges b) [open_ off]
    | some .len =>
        if bc.length < off + 5 then []
        else if (readU32 bc (off + 1)).1 ≤ 1 then [open_ (off + 5)]
        else [(off, false)]
    | _ => []

/-- The addresses behind a target. -/
def TargetReach (bc : Bytes) (t : Nat × Bool) (x : Nat) : Prop :=
  if t.2 then EpsReach bc t.1 x else x = t.1

/-- The addresses of the bytecode as an automaton. -/
def bytecodeNfa (env : VmEnv W) : NFA UInt8 Nat where
  step off b := {x | ∃ t ∈ byteTargets env b off, TargetReach env.bc t x}
  start := {x | EpsReach env.bc 0 x}
  accept := {off | nfaIsAccept env.bc off = true}

/-- What `build_dfa` adds for a target. -/
def addTarget (bc : Bytes) (next : List Nat) (t : Nat × Bool) : List Nat :=
  if t.2 then (epsClosures bc t.1).foldl nfaSetAdd next else nfaSetAdd next t.1

theorem dfaStep_eq (env : VmEnv W) (b : UInt8) (next : List Nat) (off : Nat) :
    dfaStep env b next off = (byteTargets env b off).foldl (addTarget env.bc) next := by
  unfold dfaStep byteTargets
  dsimp only
  split
  · rfl
  split
  · split
    · split <;> rfl
    · rfl
  cases env.bc[off]?.bind OpCode.ofByte with
  | none => rfl
  | some op =>
    cases op with
    | lit =>
      dsimp only
      split
      · rfl
      split
      · rfl
      split <;> rfl
    | span | any | notany | «break» =>
      dsimp only
      split <;> rfl
    | len =>
      dsimp only
      split
      · rfl
      split <;> rfl
    | _ => rfl

theorem addTarget_sublist (bc : Bytes) (next : List Nat) (t : Nat × Bool) :
    next.Sublist (addTarget bc next t) := by
  unfold addTarget
  split
  · exact subset_foldl_nfaSetAdd next _
  · exact subset_nfaSetAdd next _

theorem mem_addTarget {bc : Bytes} {next : List Nat} {t : Nat × Bool} {x : Nat}
    (hroom : (addTarget bc next t).length < dfaNfaMax) :
    x ∈ addTarget bc next t ↔ x ∈ next ∨ TargetReach bc t x := by
  unfold addTarget TargetReach at *
  split
  · rename_i hopen
    rw [if_pos hopen] at hroom
    have hsub : epsClosures bc t.1 ⊆ (epsClosures bc t.1).foldl nfaSetAdd next :=
      fun y hy => (mem_foldl_nfaSetAdd hroom).mpr (.inr hy)
    have hlen := (List.subperm_of_subset (epsClosures_nodup bc t.1) hsub).length_le
    rw [mem_foldl_nfaSetAdd hroom, mem_epsClosures (by omega)]
  · rename_i hclosed
    rw [if_neg hclosed] at hroom
    exact mem_nfaSetAdd hroom

theorem foldl_addTarget_sublist (bc : Bytes) (next : List Nat) (ts : List (Nat × Bool)) :
    next.Sublist (ts.foldl (addTarget bc) next) := by
  induction ts generalizing next with
  | nil => exact List.Sublist.refl next
  | cons t ts ih => exact (addTarget_sublist bc next t).trans (ih _)

theorem mem_foldl_addTarget {bc : Bytes} {next : List Nat} {ts : List (Nat × Bool)} {x : Nat}
    (hroom : (ts.foldl (addTarget bc) next).length < dfaNfaMax) :
    x ∈ ts.foldl (addTarget bc) next ↔ x ∈ next ∨ ∃ t ∈ ts, TargetReach bc t x := by
  induction ts generalizing next with
  | nil => simp
  | cons t ts ih =>
    have hgrow := (foldl_addTarget_sublist bc (addTarget bc next t) ts).length_le
    rw [List.foldl_cons] at hroom ⊢
    rw [ih hroom, mem_addTarget (by omega)]
    simp only [List.mem_cons, exists_eq_or_imp, or_assoc]

theorem foldl_dfaStep_sublist (env : VmEnv W) (b : UInt8) (next set : List Nat) :
    next.Sublist (set.foldl (dfaStep env b) next) := by
  induction set generalizing next with
  | nil => exact List.Sublist.refl next
  | cons off set ih =>
    refine List.Sublist.trans ?_ (ih _)
    rw [dfaStep_eq]
    exact foldl_addTarget_sublist _ _ _

/-- The set behind a byte, as long as it is not full. -/
theorem mem_dfaMove {env : VmEnv W} {set : List Nat} {b : UInt8} {x : Nat}
    (hroom : (dfaMove env set b).length < dfaNfaMax) :
    x ∈ dfaMove env set b ↔ ∃ off ∈ set, x ∈ (bytecodeNfa env).step off b := by
  have hfold : ∀ next, (set.foldl (dfaStep env b) next).length < dfaNfaMax →
      (x ∈ set.foldl (dfaStep env b) next ↔
        x ∈ next ∨ ∃ off ∈ set, x ∈ (bytecodeNfa env).step off b) := by
    clear hroom
    induction set with
    | nil => simp
    | cons off set ih =>
      intro next hroom
      rw [List.foldl_cons] at hroom ⊢
      have hgrow := (foldl_dfaStep_sublist env b (dfaStep env b next off) set).length_le
      rw [ih _ hroom, dfaStep_eq, mem_foldl_addTarget (by rw [← dfaStep_eq]; omega)]
      simp only [List.mem_cons, exists_eq_or_imp, or_assoc]
      rfl
  have hmove := hfold [] hroom
  simpa [dfaMove] using hmove

/-! ## Texts -/

/-- The set of addresses behind a text. -/
def textSet (env : VmEnv W) (w : Bytes) : List Nat :=
  w.foldl (dfaMove env) (epsilonClosure env.bc 0)

theorem textSet_append (env : VmEnv W) (w : Bytes) (b : UInt8) :
    textSet env (w ++ [b]) = dfaMove env (textSet env w) b := by
  simp [textSet]

/-- The sets are those of the automaton. -/
theorem mem_textSet {env : VmEnv W} (hroom : ∀ w, (textSet env w).length < dfaNfaMax) (w : Bytes)
    (x : Nat) : x ∈ textSet env w ↔ x ∈ (bytecodeNfa env).eval w := by
  induction w using List.reverseRecOn generalizing x with
  | nil => exact mem_epsilonClosure (hroom [])
  | append_singleton w b ih =>
    have hset := hroom (w ++ [b])
    rw [textSet_append] at hset ⊢
    rw [mem_dfaMove hset, NFA.eval_append_singleton, NFA.mem_stepSet]
    exact exists_congr fun off => and_congr_left fun _ => ih off

end Snobol4
