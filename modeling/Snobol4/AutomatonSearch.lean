import Snobol4.SubsetConstruction

/-!
# AutomatonSearch — the search by the deterministic automaton

The states of `build_dfa` number the sets behind the texts, so the automaton accepts what
the bytecode's own automaton accepts.  `search_automaton_exec` takes the first start with a
match and there the shortest one, but it looks at a later start only if every walk before
it has died: a walk that is alive at the end of the subject ends the search.
-/

namespace Snobol4

variable {W : Type} {env : VmEnv W}

/-! ## The numbering -/

/-- The sets that `build_dfa` finds, by their numbers. -/
def dfaSets (env : VmEnv W) : List (List Nat) :=
  (dfaLoop env dfaMaxStates [] [epsilonClosure env.bc 0]).2

/-- The entry of a transition table for a set. -/
def Numbers (known : List (List Nat)) (set : List Nat) (id : Nat) : Prop :=
  set = [] ∧ id = dfaDead ∨ set ≠ [] ∧ known[id]? = some set

theorem Numbers.mono {known known' : List (List Nat)} {set : List Nat} {id : Nat}
    (h : Numbers known set id) (hk : known <+: known') : Numbers known' set id := by
  obtain h | ⟨hne, hget⟩ := h
  · exact .inl h
  · obtain ⟨more, rfl⟩ := hk
    refine .inr ⟨hne, ?_⟩
    rw [List.getElem?_append_left (List.getElem?_eq_some_iff.mp hget).1, hget]

theorem findOrInsert_entry (known : List (List Nat)) (set : List Nat) :
    known <+: (findOrInsert known set).2 ∧
      Numbers (findOrInsert known set).2 set (findOrInsert known set).1 ∧
      ∀ t ∈ (findOrInsert known set).2, t ∈ known ∨ t = set ∧ set ≠ [] := by
  unfold findOrInsert
  split
  · rename_i hnil
    exact ⟨List.prefix_refl _, .inl ⟨hnil, rfl⟩, fun t ht => .inl ht⟩
  split
  · rename_i hne hmem
    refine ⟨List.prefix_refl _, .inr ⟨hne, ?_⟩, fun t ht => .inl ht⟩
    exact List.getElem?_eq_some_iff.mpr
      ⟨List.idxOf_lt_length_of_mem hmem, List.getElem_idxOf (List.idxOf_lt_length_of_mem hmem)⟩
  · rename_i hne _
    refine ⟨List.prefix_append _ _, .inr ⟨hne, by simp⟩, fun t ht => ?_⟩
    obtain ht | ht := List.mem_append.mp ht
    · exact .inl ht
    · exact .inr ⟨List.mem_singleton.mp ht, hne⟩

/-- The row of a set: an entry for each byte. -/
def RowOf (env : VmEnv W) (known : List (List Nat)) (set row : List Nat) : Prop :=
  ∀ b : UInt8, ∃ id, row[b.toNat]? = some id ∧ Numbers known (dfaMove env set b) id

theorem RowOf.mono {known known' : List (List Nat)} {set row : List Nat}
    (h : RowOf env known set row) (hk : known <+: known') : RowOf env known' set row := by
  intro b
  obtain ⟨id, hget, hentry⟩ := h b
  exact ⟨id, hget, hentry.mono hk⟩

/-- The loop over the bytes of a row. -/
theorem foldRow_spec (env : VmEnv W) (set : List Nat) (bytes : List UInt8) (row : List Nat)
    (known : List (List Nat)) :
    ∃ (ids : List Nat) (known' : List (List Nat)), bytes.foldl
        (fun acc b =>
          let (id, known) := findOrInsert acc.2 (dfaMove env set b)
          (acc.1 ++ [id], known))
        (row, known) = (row ++ ids, known') ∧ known <+: known' ∧
      (∀ (k : Nat) (b : UInt8), bytes[k]? = some b →
        ∃ id, ids[k]? = some id ∧ Numbers known' (dfaMove env set b) id) ∧
      ∀ t ∈ known', t ∈ known ∨ ∃ b, t = dfaMove env set b ∧ t ≠ [] := by
  induction bytes generalizing row known with
  | nil => exact ⟨[], known, by simp, List.prefix_refl _, by simp, fun t ht => .inl ht⟩
  | cons b bytes ih =>
    obtain ⟨hgrow, hentry, hnew⟩ := findOrInsert_entry known (dfaMove env set b)
    obtain ⟨ids, known', hfold, hgrow', hids, hnew'⟩ :=
      ih (row ++ [(findOrInsert known (dfaMove env set b)).1])
        (findOrInsert known (dfaMove env set b)).2
    refine ⟨(findOrInsert known (dfaMove env set b)).1 :: ids, known', ?_, hgrow.trans hgrow', ?_,
      ?_⟩
    · rw [List.foldl_cons]
      refine hfold.trans ?_
      rw [List.append_assoc]
      rfl
    · intro k c hk
      cases k with
      | zero =>
        cases hk
        exact ⟨_, rfl, hentry.mono hgrow'⟩
      | succ k => exact hids k c hk
    · intro t ht
      obtain ht | ht := hnew' t ht
      · obtain ht | ⟨rfl, hne⟩ := hnew t ht
        · exact .inl ht
        · exact .inr ⟨b, rfl, hne⟩
      · exact .inr ht

theorem dfaRow_spec (env : VmEnv W) (set : List Nat) (known : List (List Nat)) :
    known <+: (dfaRow env set known).2 ∧
      RowOf env (dfaRow env set known).2 set (dfaRow env set known).1 ∧
      ∀ t ∈ (dfaRow env set known).2, t ∈ known ∨ ∃ b, t = dfaMove env set b ∧ t ≠ [] := by
  obtain ⟨ids, known', hfold, hgrow, hids, hnew⟩ := foldRow_spec env set allBytes [] known
  have hrow : dfaRow env set known = (ids, known') := hfold
  rw [hrow]
  exact ⟨hgrow, fun b => hids b.toNat b (LiteralCode.allBytes_get b), hnew⟩

/-- The rows that are done and the sets that are known. -/
structure Explored (env : VmEnv W) (rows : List (List Nat)) (known : List (List Nat)) : Prop where
  le : rows.length ≤ known.length
  rows : ∀ (i : Nat) (row set : List Nat),
    rows[i]? = some row → known[i]? = some set → RowOf env known set row
  start : known[0]? = some (epsilonClosure env.bc 0)
  sets : ∀ set ∈ known, set ≠ [] ∧ ∃ w, set = textSet env w

/-- One turn of the queue. -/
theorem Explored.turn {rows known : List (List Nat)} {set : List Nat} (h : Explored env rows known)
    (hset : known[rows.length]? = some set) :
    Explored env (rows ++ [(dfaRow env set known).1]) (dfaRow env set known).2 := by
  obtain ⟨hgrow, hrow, hnew⟩ := dfaRow_spec env set known
  have hlt := (List.getElem?_eq_some_iff.mp hset).1
  have hkeep : ∀ (i : Nat) (t : List Nat),
      known[i]? = some t → (dfaRow env set known).2[i]? = some t := by
    intro i t hi
    obtain ⟨more, hmore⟩ := hgrow
    rw [← hmore, List.getElem?_append_left (List.getElem?_eq_some_iff.mp hi).1, hi]
  constructor
  · rw [List.length_append, List.length_singleton]
    exact (Nat.succ_le_of_lt hlt).trans hgrow.length_le
  · intro i row t hi ht
    obtain hlti | rfl | hgti := Nat.lt_trichotomy i rows.length
    · rw [List.getElem?_append_left hlti] at hi
      obtain ⟨t', ht'⟩ : ∃ t', known[i]? = some t' :=
        ⟨_, List.getElem?_eq_getElem (hlti.trans hlt)⟩
      obtain rfl := Option.some.inj (ht.symm.trans (hkeep i t' ht'))
      exact (h.rows i row t hi ht').mono hgrow
    · obtain rfl := Option.some.inj (ht.symm.trans (hkeep _ _ hset))
      rw [List.getElem?_append_right le_rfl, Nat.sub_self,
        List.getElem?_cons_zero, Option.some.injEq] at hi
      exact hi ▸ hrow
    · have := (List.getElem?_eq_some_iff.mp hi).1
      rw [List.length_append, List.length_singleton] at this
      omega
  · exact hkeep 0 _ h.start
  · intro t ht
    obtain ht | ⟨b, rfl, hne⟩ := hnew t ht
    · exact h.sets t ht
    · obtain ⟨-, w, rfl⟩ := h.sets set (List.mem_of_getElem? hset)
      exact ⟨hne, w ++ [b], (textSet_append env w b).symm⟩

/-- The loop over the queue ends with every row done, or with too many states. -/
theorem dfaLoop_spec {fuel : Nat} {rows known : List (List Nat)} (h : Explored env rows known)
    (hfuel : dfaMaxStates ≤ fuel + rows.length) :
    Explored env (dfaLoop env fuel rows known).1 (dfaLoop env fuel rows known).2 ∧
      ((dfaLoop env fuel rows known).2.length < dfaMaxStates →
        (dfaLoop env fuel rows known).1.length = (dfaLoop env fuel rows known).2.length) := by
  induction fuel generalizing rows known with
  | zero =>
    refine ⟨h, fun hfew => ?_⟩
    have := h.le
    simp only [dfaLoop] at hfew ⊢
    omega
  | succ fuel ih =>
    rw [dfaLoop]
    cases hset : known[rows.length]? with
    | none =>
      refine ⟨h, fun _ => ?_⟩
      have := h.le
      have := List.getElem?_eq_none_iff.mp hset
      dsimp only
      omega
    | some set =>
      dsimp only
      split
      · rename_i hmany
        exact ⟨h, fun hfew => by dsimp only at hfew; omega⟩
      · exact ih (h.turn hset) (by rw [List.length_append, List.length_singleton]; omega)

theorem epsilonClosure_ne_nil (bc : Bytes) (start : Nat) : epsilonClosure bc start ≠ [] := by
  have hpasses : ∀ fuel s, s ≠ [] → closePasses bc fuel s ≠ [] := by
    intro fuel
    induction fuel with
    | zero => exact fun s hs => hs
    | succ fuel ih =>
      intro s hs
      rw [closePasses]
      split
      · exact hs
      · refine ih _ fun hnil => hs ?_
        have hsub := closurePass_sublist bc (dfaNfaMax + 1) 0 s
        rw [hnil] at hsub
        exact List.sublist_nil.mp hsub
  exact hpasses _ _ (List.cons_ne_nil start [])

theorem explored_start (env : VmEnv W) : Explored env [] [epsilonClosure env.bc 0] where
  le := Nat.zero_le _
  rows := by simp
  start := rfl
  sets := by
    intro set hset
    obtain rfl := List.mem_singleton.mp hset
    exact ⟨epsilonClosure_ne_nil _ _, [], rfl⟩

/-- The tables of an automaton that was built. -/
structure Built (env : VmEnv W) (dfa : Dfa) : Prop where
  few : (dfaSets env).length < dfaMaxStates
  next : ∀ (id : Nat) (set : List Nat), (dfaSets env)[id]? = some set → ∀ b,
    Numbers (dfaSets env) (dfaMove env set b) (dfa.next id b)
  accepts : ∀ (id : Nat) (set : List Nat), (dfaSets env)[id]? = some set →
    dfa.accepts id = set.any (nfaIsAccept env.bc)
  start : (dfaSets env)[0]? = some (epsilonClosure env.bc 0)
  sets : ∀ set ∈ dfaSets env, set ≠ [] ∧ ∃ w, set = textSet env w

theorem built_of_buildDfa {dfa : Dfa} (h : buildDfa env = some dfa) : Built env dfa := by
  have hfuel : dfaMaxStates ≤ dfaMaxStates + ([] : List (List Nat)).length := Nat.le_add_right _ _
  obtain ⟨hexplored, hdone⟩ := dfaLoop_spec (explored_start env) hfuel
  unfold buildDfa at h
  split at h
  · cases h
  dsimp only at h
  split at h
  · cases h
  rename_i hfew
  cases h
  have hlength := hdone (by omega)
  refine ⟨by unfold dfaSets; omega, ?_, ?_, hexplored.start, hexplored.sets⟩
  · intro id set hset b
    have hlt := (List.getElem?_eq_some_iff.mp hset).1
    obtain ⟨row, hrow⟩ : ∃ row, (dfaLoop env dfaMaxStates [] [epsilonClosure env.bc 0]).1[id]? =
        some row := ⟨_, List.getElem?_eq_getElem (by unfold dfaSets at hlt; omega)⟩
    obtain ⟨id', hid', hentry⟩ := hexplored.rows id row set hrow hset b
    have hnext : Dfa.next ⟨(dfaLoop env dfaMaxStates [] [epsilonClosure env.bc 0]).1,
        (dfaLoop env dfaMaxStates [] [epsilonClosure env.bc 0]).2.map fun set =>
          set.any (nfaIsAccept env.bc)⟩ id b = id' := by
      simp only [Dfa.next, hrow, Option.bind_some, hid', Option.getD_some]
    rw [hnext]
    exact hentry
  · intro id set hset
    have hget : (dfaLoop env dfaMaxStates [] [epsilonClosure env.bc 0]).2[id]? = some set := hset
    simp only [Dfa.accepts, List.getElem?_map, hget, Option.map_some, Option.getD_some]

/-! ## Texts -/

theorem dfaMove_nil (env : VmEnv W) (b : UInt8) : dfaMove env [] b = [] := rfl

theorem foldl_dfaMove_nil (env : VmEnv W) (t : Bytes) : t.foldl (dfaMove env) [] = [] := by
  induction t with
  | nil => rfl
  | cons b t ih => exact ih

namespace Built

variable {dfa : Dfa}

theorem ne_dead (h : Built env dfa) {id : Nat} {set : List Nat}
    (hset : (dfaSets env)[id]? = some set) : id ≠ dfaDead := by
  have hlt := (List.getElem?_eq_some_iff.mp hset).1
  have hfew := h.few
  unfold dfaMaxStates at hfew
  unfold dfaDead
  omega

/-- The set behind a text is numbered, unless it is empty. -/
theorem textSet_mem (h : Built env dfa) (w : Bytes) :
    textSet env w = [] ∨ textSet env w ∈ dfaSets env := by
  induction w using List.reverseRecOn with
  | nil => exact .inr (List.mem_of_getElem? h.start)
  | append_singleton w b ih =>
    rw [textSet_append]
    obtain hnil | hmem := ih
    · rw [hnil]
      exact .inl (dfaMove_nil env b)
    · obtain ⟨id, hid⟩ := List.getElem?_of_mem hmem
      obtain ⟨hnil, -⟩ | ⟨-, hget⟩ := h.next id _ hid b
      · exact .inl hnil
      · exact .inr (List.mem_of_getElem? hget)

/-- If no set is full, no set behind a text is. -/
theorem room (h : Built env dfa) (hroom : ∀ set ∈ dfaSets env, set.length < dfaNfaMax) (w : Bytes) :
    (textSet env w).length < dfaNfaMax := by
  obtain hnil | hmem := h.textSet_mem w
  · rw [hnil]
    exact Nat.succ_pos _
  · exact hroom _ hmem

end Built

/-- A text leads to the end of a match. -/
def Accepts (env : VmEnv W) (set : List Nat) (w : Bytes) : Prop :=
  (w.foldl (dfaMove env) set).any (nfaIsAccept env.bc) = true

theorem accepts_iff {dfa : Dfa} (h : Built env dfa)
    (hroom : ∀ set ∈ dfaSets env, set.length < dfaNfaMax) (w : Bytes) :
    Accepts env (epsilonClosure env.bc 0) w ↔ w ∈ (bytecodeNfa env).accepts := by
  have hmem := mem_textSet (h.room hroom) w
  rw [NFA.mem_accepts]
  unfold Accepts
  rw [List.any_eq_true]
  constructor
  · rintro ⟨x, hx, hacc⟩
    exact ⟨x, hacc, (hmem x).mp hx⟩
  · rintro ⟨x, hacc, hx⟩
    exact ⟨x, (hmem x).mpr hx, hacc⟩

theorem textSet_eq_nil_iff {dfa : Dfa} (h : Built env dfa)
    (hroom : ∀ set ∈ dfaSets env, set.length < dfaNfaMax) (w : Bytes) :
    textSet env w = [] ↔ (bytecodeNfa env).eval w = ∅ := by
  have hmem := mem_textSet (h.room hroom) w
  rw [List.eq_nil_iff_forall_not_mem, Set.eq_empty_iff_forall_notMem]
  exact forall_congr' fun x => not_congr (hmem x)

/-! ## What the automaton accepts -/

namespace Dfa

/-- The state behind a text; the dead state is left by no byte. -/
def run (dfa : Dfa) (state : Nat) (w : Bytes) : Nat :=
  w.foldl (fun q b => if q = dfaDead then dfaDead else dfa.next q b) state

/-- The automaton accepts the text. -/
def matchesText (dfa : Dfa) (w : Bytes) : Bool :=
  dfa.run 0 w != dfaDead && dfa.accepts (dfa.run 0 w)

end Dfa

theorem Built.run {dfa : Dfa} (h : Built env dfa) (w : Bytes) :
    Numbers (dfaSets env) (textSet env w) (dfa.run 0 w) := by
  induction w using List.reverseRecOn with
  | nil => exact .inr ⟨epsilonClosure_ne_nil _ _, h.start⟩
  | append_singleton w b ih =>
    have hrun : dfa.run 0 (w ++ [b]) =
        if dfa.run 0 w = dfaDead then dfaDead else dfa.next (dfa.run 0 w) b := by
      rw [Dfa.run, List.foldl_append]
      rfl
    rw [hrun, textSet_append]
    obtain ⟨hnil, hdead⟩ | ⟨-, hget⟩ := ih
    · rw [if_pos hdead, hnil]
      exact .inl ⟨dfaMove_nil env b, rfl⟩
    · rw [if_neg (h.ne_dead hget)]
      exact h.next _ _ hget b

/-- As long as no set is full, the automaton that `build_dfa` returns accepts what the
automaton of the bytecode accepts. -/
theorem buildDfa_accepts (env : VmEnv W) (dfa : Dfa) (w : Bytes) (h : buildDfa env = some dfa)
    (hroom : ∀ set ∈ dfaSets env, set.length < dfaNfaMax) :
    dfa.matchesText w = true ↔ w ∈ (bytecodeNfa env).accepts := by
  have hbuilt := built_of_buildDfa h
  rw [← accepts_iff hbuilt hroom, Dfa.matchesText, Bool.and_eq_true, bne_iff_ne]
  obtain ⟨hnil, hdead⟩ | ⟨hne, hget⟩ := hbuilt.run w
  · constructor
    · exact fun hrun => absurd hdead hrun.1
    · intro hacc
      have hset : w.foldl (dfaMove env) (epsilonClosure env.bc 0) = [] := hnil
      rw [Accepts, hset] at hacc
      cases hacc
  · rw [hbuilt.accepts _ _ hget]
    exact ⟨fun hrun => hrun.2, fun hacc => ⟨hbuilt.ne_dead hget, hacc⟩⟩

/-- The code of `SPAN('a') ANY('b')`. -/
def spanThenAnyCode : Bytes :=
  [7, 0, 1, 5, 0, 2, 0, 0, 1, 0, 0, 0, 0, 0, 98, 0, 0, 0, 98, 0, 1, 0, 0, 0, 0, 0, 97, 0, 0, 0,
    97, 0, 0, 0, 19, 0, 0, 0, 7, 0, 0, 0, 2, 0, 0, 0, 0, 83, 78, 66, 76]

/-- A machine over no subject with this code and the class metadata of it. -/
def spanThenAny : VmEnv Unit :=
  { VmEnv.ofCode spanThenAnyCode [] .bare with
    rangeMeta := buildRangeMeta spanThenAnyCode
    rangeMeta_eq := .inr rfl }

/-- The automaton of `SPAN('a') ANY('b')` at "aab". -/
theorem buildDfa_accepts_spanThenAny :
    ∃ dfa, buildDfa spanThenAny = some dfa ∧
      (dfa.matchesText [0x61, 0x61, 0x62] = true ↔
        [0x61, 0x61, 0x62] ∈ (bytecodeNfa spanThenAny).accepts) := by
  have hbuilt : (buildDfa spanThenAny).isSome = true := by decide +kernel
  obtain ⟨dfa, hdfa⟩ := Option.isSome_iff_exists.mp hbuilt
  exact ⟨dfa, hdfa, buildDfa_accepts spanThenAny dfa _ hdfa (by decide +kernel)⟩

/-! ## The search -/

/-- How a walk from a numbered set ends. -/
theorem dfaWalk_spec {dfa : Dfa} (h : Built env dfa) {id : Nat} {set : List Nat}
    (hset : (dfaSets env)[id]? = some set) (t : Bytes) (pos : Nat) :
    match dfaWalk dfa t id pos with
    | .accepted stop => ∃ k, 0 < k ∧ k ≤ t.length ∧ stop = pos + k ∧ Accepts env set (t.take k) ∧
        ∀ j, 0 < j → j < k → ¬Accepts env set (t.take j)
    | .dead => (∀ k, 0 < k → k ≤ t.length → ¬Accepts env set (t.take k)) ∧
        t.foldl (dfaMove env) set = []
    | .ended => (∀ k, 0 < k → k ≤ t.length → ¬Accepts env set (t.take k)) ∧
        t.foldl (dfaMove env) set ≠ [] := by
  induction t generalizing id set pos with
  | nil =>
    refine ⟨fun k hk hle => ?_, (h.sets set (List.mem_of_getElem? hset)).1⟩
    rw [List.length_nil] at hle
    omega
  | cons b t ih =>
    rw [dfaWalk]
    obtain ⟨hnil, hdead⟩ | ⟨hne, hget⟩ := h.next id set hset b
    · rw [if_pos hdead]
      have hfold : ∀ u : Bytes, (b :: u).foldl (dfaMove env) set = [] := by
        intro u
        rw [List.foldl_cons, hnil, foldl_dfaMove_nil]
      refine ⟨fun k hk _ => ?_, hfold t⟩
      obtain ⟨k, rfl⟩ := Nat.exists_eq_add_of_le' hk
      rw [List.take_succ_cons, Accepts, hfold]
      simp
    · have haccepts : dfa.accepts (dfa.next id b) = true ↔ Accepts env set [b] := by
        rw [h.accepts _ _ hget]
        exact Iff.rfl
      -- a text behind the first byte
      have hshift : ∀ u : Bytes, Accepts env set (b :: u) ↔ Accepts env (dfaMove env set b) u :=
        fun u => Iff.rfl
      rw [if_neg (h.ne_dead hget)]
      by_cases hacc : dfa.accepts (dfa.next id b) = true
      · rw [if_pos hacc]
        refine ⟨1, Nat.one_pos, by simp, rfl, haccepts.mp hacc, fun j hj hlt => ?_⟩
        omega
      · rw [if_neg hacc]
        have hfirst : ¬Accepts env set [b] := fun hyes => hacc (haccepts.mpr hyes)
        have hrest := ih hget (pos + 1)
        have hnone : (∀ k, 0 < k → k ≤ t.length → ¬Accepts env (dfaMove env set b) (t.take k)) →
            ∀ k, 0 < k → k ≤ (b :: t).length → ¬Accepts env set ((b :: t).take k) := by
          intro hall k hk hle
          obtain ⟨k, rfl⟩ := Nat.exists_eq_add_of_le' hk
          rw [List.take_succ_cons, hshift]
          obtain rfl | hpos := Nat.eq_zero_or_pos k
          · exact hfirst
          · exact hall k hpos (by simpa using hle)
        cases hwalk : dfaWalk dfa t (dfa.next id b) (pos + 1) with
        | accepted stop =>
          rw [hwalk] at hrest
          obtain ⟨k, hk, hle, rfl, hyes, hno⟩ := hrest
          refine ⟨k + 1, Nat.succ_pos k, by simpa using hle, by omega, ?_, fun j hj hlt => ?_⟩
          · rw [List.take_succ_cons, hshift]
            exact hyes
          · obtain ⟨j, rfl⟩ := Nat.exists_eq_add_of_le' hj
            rw [List.take_succ_cons, hshift]
            obtain rfl | hpos := Nat.eq_zero_or_pos j
            · exact hfirst
            · exact hno j hpos (by omega)
        | dead =>
          rw [hwalk] at hrest
          exact ⟨hnone hrest.1, hrest.2⟩
        | ended =>
          rw [hwalk] at hrest
          exact ⟨hnone hrest.1, hrest.2⟩

/-- The shortest match that starts at `p` ends at `e`. -/
structure ShortestMatch (env : VmEnv W) (s : Bytes) (p e : Nat) : Prop where
  le : p ≤ e
  le_length : e ≤ s.length
  accepted : slice s p e ∈ (bytecodeNfa env).accepts
  shortest : ∀ e', p ≤ e' → e' < e → slice s p e' ∉ (bytecodeNfa env).accepts

/-- No match starts at `q`, and the rest of the subject leads nowhere from there. -/
structure DeadStart (env : VmEnv W) (s : Bytes) (q : Nat) : Prop where
  barren : ∀ e, q ≤ e → e ≤ s.length → slice s q e ∉ (bytecodeNfa env).accepts
  dead : (bytecodeNfa env).eval (s.drop q) = ∅

/-- The search looks at one start. -/
theorem automatonFrom_step {dfa : Dfa} (h : Built env dfa)
    (hroom : ∀ set ∈ dfaSets env, set.length < dfaNfaMax) {s : Bytes} {pos : Nat} (fuel : Nat)
    (hpos : pos ≤ s.length) :
    (∃ e, ShortestMatch env s pos e ∧ automatonFrom dfa s (fuel + 1) pos = some (pos, e)) ∨
    (DeadStart env s pos ∧
      automatonFrom dfa s (fuel + 1) pos = automatonFrom dfa s fuel (pos + 1)) ∨
    ((∀ e, ¬ShortestMatch env s pos e) ∧ ¬DeadStart env s pos ∧
      automatonFrom dfa s (fuel + 1) pos = none) := by
  have hstart : dfa.accepts 0 = true ↔ Accepts env (epsilonClosure env.bc 0) [] := by
    rw [h.accepts _ _ h.start]
    exact Iff.rfl
  have hslice : ∀ e, slice s pos e = (s.drop pos).take (e - pos) := fun e => rfl
  have hlen : (s.drop pos).length = s.length - pos := List.length_drop
  rw [automatonFrom]
  by_cases hempty : dfa.accepts 0 = true
  · -- the empty text
    refine .inl ⟨pos, ⟨le_rfl, hpos, ?_, fun e' hle hlt => by omega⟩, by rw [if_pos hempty]⟩
    rw [hslice, Nat.sub_self, List.take_zero, ← accepts_iff h hroom]
    exact hstart.mp hempty
  rw [if_neg hempty]
  have hnone : (∀ k, 0 < k → k ≤ (s.drop pos).length →
      ¬Accepts env (epsilonClosure env.bc 0) ((s.drop pos).take k)) →
      ∀ e, pos ≤ e → e ≤ s.length → slice s pos e ∉ (bytecodeNfa env).accepts := by
    intro hall e hle hlt
    rw [hslice, ← accepts_iff h hroom]
    obtain hzero | hk := Nat.eq_zero_or_pos (e - pos)
    · rw [hzero, List.take_zero]
      exact fun hyes => hempty (hstart.mpr hyes)
    · exact hall _ hk (by omega)
  have hwalk := dfaWalk_spec h h.start (s.drop pos) pos
  cases hend : dfaWalk dfa (s.drop pos) 0 pos with
  | accepted stop =>
    rw [hend] at hwalk
    obtain ⟨k, hk, hle, rfl, hyes, hno⟩ := hwalk
    refine .inl ⟨pos + k, ⟨Nat.le_add_right _ _, by omega, ?_, fun e' hle' hlt => ?_⟩, rfl⟩
    · rw [hslice, Nat.add_sub_cancel_left, ← accepts_iff h hroom]
      exact hyes
    · rw [hslice, ← accepts_iff h hroom]
      obtain hzero | hpos' := Nat.eq_zero_or_pos (e' - pos)
      · rw [hzero, List.take_zero]
        exact fun hyes => hempty (hstart.mpr hyes)
      · exact hno _ hpos' (by omega)
  | dead =>
    rw [hend] at hwalk
    refine .inr (.inl ⟨⟨hnone hwalk.1, ?_⟩, rfl⟩)
    exact (textSet_eq_nil_iff h hroom _).mp hwalk.2
  | ended =>
    rw [hend] at hwalk
    refine .inr (.inr ⟨fun e he => hnone hwalk.1 e he.le he.le_length he.accepted, fun hdead => ?_,
      rfl⟩)
    exact hwalk.2 ((textSet_eq_nil_iff h hroom _).mpr hdead.dead)

/-- `search_automaton_exec` finds the shortest match at the first start with a match, if
every walk from an earlier start has died before the end of the subject; otherwise nothing. -/
theorem searchAutomatonExec_iff (env : VmEnv W) (dfa : Dfa) (s : Bytes) (offset p e : Nat)
    (h : buildDfa env = some dfa) (hroom : ∀ set ∈ dfaSets env, set.length < dfaNfaMax) :
    searchAutomatonExec dfa s offset = some (p, e) ↔
      offset ≤ p ∧ ShortestMatch env s p e ∧ ∀ q, offset ≤ q → q < p → DeadStart env s q := by
  have hbuilt := built_of_buildDfa h
  unfold searchAutomatonExec
  generalize hfuel : s.length + 1 - offset = fuel
  induction fuel generalizing offset with
  | zero =>
    refine ⟨nofun, fun ⟨hle, hmatch, _⟩ => ?_⟩
    have := hmatch.le
    have := hmatch.le_length
    omega
  | succ fuel ih =>
    obtain ⟨e₀, hmatch₀, hrun⟩ | ⟨hdead, hrun⟩ | ⟨hno, hlive, hrun⟩ :=
      automatonFrom_step hbuilt hroom fuel (show offset ≤ s.length by omega)
    · rw [hrun]
      constructor
      · rintro ⟨⟩
        exact ⟨le_rfl, hmatch₀, fun q hle hlt => by omega⟩
      · rintro ⟨hle, hmatch, hbefore⟩
        obtain rfl | hlt := Nat.eq_or_lt_of_le hle
        · -- two shortest matches end at the same place
          obtain hlt | rfl | hgt := Nat.lt_trichotomy e e₀
          · exact absurd hmatch.accepted (hmatch₀.shortest e hmatch.le hlt)
          · rfl
          · exact absurd hmatch₀.accepted (hmatch.shortest e₀ hmatch₀.le hgt)
        · exact absurd hmatch₀.accepted
            ((hbefore offset le_rfl hlt).barren e₀ hmatch₀.le hmatch₀.le_length)
    · have hnext := ih (offset + 1) (by omega)
      rw [hrun]
      refine hnext.trans ?_
      constructor
      · rintro ⟨hle, hmatch, hbefore⟩
        refine ⟨by omega, hmatch, fun q hq hlt => ?_⟩
        obtain rfl | hq := Nat.eq_or_lt_of_le hq
        · exact hdead
        · exact hbefore q hq hlt
      · rintro ⟨hle, hmatch, hbefore⟩
        obtain rfl | hlt := Nat.eq_or_lt_of_le hle
        · exact absurd hmatch.accepted (hdead.barren e hmatch.le hmatch.le_length)
        · exact ⟨hlt, hmatch, fun q hq => hbefore q (by omega)⟩
    · rw [hrun]
      refine ⟨nofun, fun ⟨hle, hmatch, hbefore⟩ => ?_⟩
      obtain rfl | hlt := Nat.eq_or_lt_of_le hle
      · exact absurd hmatch (hno e)
      · exact absurd (hbefore offset le_rfl hlt) hlive

/-- `SPAN('a') ANY('b')` on "acaab", which it matches from the third letter on. -/
theorem searchAutomatonExec_iff_spanThenAny :
    ∃ dfa, buildDfa spanThenAny = some dfa ∧
      (searchAutomatonExec dfa [0x61, 0x63, 0x61, 0x61, 0x62] 0 = some (2, 5) ↔
        0 ≤ 2 ∧ ShortestMatch spanThenAny [0x61, 0x63, 0x61, 0x61, 0x62] 2 5 ∧
          ∀ q, 0 ≤ q → q < 2 → DeadStart spanThenAny [0x61, 0x63, 0x61, 0x61, 0x62] q) := by
  have hbuilt : (buildDfa spanThenAny).isSome = true := by decide +kernel
  obtain ⟨dfa, hdfa⟩ := Option.isSome_iff_exists.mp hbuilt
  exact ⟨dfa, hdfa, searchAutomatonExec_iff spanThenAny dfa _ 0 2 5 hdfa (by decide +kernel)⟩

end Snobol4
