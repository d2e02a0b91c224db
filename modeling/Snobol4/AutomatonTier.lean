import Snobol4.AutomatonSearch
import Snobol4.ExecutedTier

/-!
# AutomatonTier — the loop around the automaton (`search_tiers.c`)

`search_automaton_exec` gives up where a walk is alive at the end of the subject.  `tier_automaton`
starts it again behind the offset, so that the two together find the leftmost start of a match
and the shortest match there.  On the way it steps over offsets by the Horspool table for the
literal at the front, and all that the automaton of such code accepts starts with that literal.
-/

namespace Snobol4

open Horspool

variable {W : Type} {env : VmEnv W} {dfa : Dfa} {s : Bytes}

/-- The leftmost start of a match from an offset on, and the shortest match there. -/
structure LeftmostShortest (env : VmEnv W) (s : Bytes) (start p e : Nat) : Prop where
  le : start ≤ p
  matched : ShortestMatch env s p e
  leftmost : ∀ q, start ≤ q → q < p → ∀ e', ¬ShortestMatch env s q e'

/-- The advance of the loop leaves no start of a match out. -/
def SkipsNoMatch (env : VmEnv W) (info : SearchMeta) (s : Bytes) : Prop :=
  ∀ offset q, offset < q → q < info.advance s offset → ∀ e, ¬ShortestMatch env s q e

theorem ShortestMatch.unique {p e e' : Nat} (h : ShortestMatch env s p e)
    (h' : ShortestMatch env s p e') : e = e' := by
  obtain hlt | heq | hgt := Nat.lt_trichotomy e e'
  · exact absurd h.accepted (h'.shortest e h.le hlt)
  · exact heq
  · exact absurd h'.accepted (h.shortest e' h'.le hgt)

theorem LeftmostShortest.unique {start p e p' e' : Nat} (h : LeftmostShortest env s start p e)
    (h' : LeftmostShortest env s start p' e') : (p, e) = (p', e') := by
  obtain hlt | rfl | hgt := Nat.lt_trichotomy p p'
  · exact absurd h.matched (h'.leftmost p h.le hlt e)
  · rw [h.matched.unique h'.matched]
  · exact absurd h'.matched (h.leftmost p' h'.le hgt e')

/-- From a later offset the leftmost start is the same, if no match starts before it. -/
theorem LeftmostShortest.later {start next p e : Nat} (hle : start ≤ next)
    (hnone : ∀ q, start ≤ q → q < next → ∀ e, ¬ShortestMatch env s q e) :
    LeftmostShortest env s start p e ↔ LeftmostShortest env s next p e := by
  constructor
  · intro h
    have hnext : next ≤ p := by
      by_contra hlt
      exact hnone p h.le (Nat.lt_of_not_le hlt) e h.matched
    exact ⟨hnext, h.matched, fun q hq => h.leftmost q (hle.trans hq)⟩
  · intro h
    refine ⟨hle.trans h.le, h.matched, ?_⟩
    intro q hq hlt
    by_cases hnext : q < next
    · exact hnone q hq hnext
    · exact h.leftmost q (Nat.le_of_not_lt hnext) hlt

/-- The automaton looks at the offset itself first. -/
theorem automatonFrom_here (h : Built env dfa) (hroom : ∀ set ∈ dfaSets env, set.length < dfaNfaMax)
    {offset e : Nat} (fuel : Nat) (hmatch : ShortestMatch env s offset e) :
    automatonFrom dfa s (fuel + 1) offset = some (offset, e) := by
  have hle := hmatch.le.trans hmatch.le_length
  obtain ⟨e', hmatch', hrun⟩ | ⟨hdead, -⟩ | ⟨hno, -⟩ := automatonFrom_step h hroom fuel hle
  · rw [hrun, hmatch.unique hmatch']
  · exact absurd hmatch.accepted (hdead.barren e hmatch.le hmatch.le_length)
  · exact absurd hmatch (hno e)

/-- What the search finds from an offset. -/
theorem searchAutomatonExec_spec (h : Built env dfa)
    (hroom : ∀ set ∈ dfaSets env, set.length < dfaNfaMax) {fuel offset : Nat} {found : Nat × Nat}
    (hrun : automatonFrom dfa s fuel offset = some found) (hfuel : fuel + offset = s.length + 1) :
    LeftmostShortest env s offset found.1 found.2 := by
  induction fuel generalizing offset with
  | zero => cases hrun
  | succ fuel ih =>
    obtain ⟨e, hmatch, hstep⟩ | ⟨hdead, hstep⟩ | ⟨-, -, hstep⟩ :=
      automatonFrom_step h hroom fuel (show offset ≤ s.length by omega)
    · rw [hstep] at hrun
      cases hrun
      exact ⟨Nat.le_refl _, hmatch, fun q hq hlt => by omega⟩
    · rw [hstep] at hrun
      refine (LeftmostShortest.later (Nat.le_succ offset) ?_).mpr (ih hrun (by omega))
      intro q hq hlt e hmatch
      obtain rfl : q = offset := by omega
      exact hdead.barren e hmatch.le hmatch.le_length hmatch.accepted
    · rw [hstep] at hrun
      cases hrun

/-- The loop of the tier, from any offset. -/
theorem automatonLoop_from (h : Built env dfa)
    (hroom : ∀ set ∈ dfaSets env, set.length < dfaNfaMax) {info : SearchMeta}
    (hskip : SkipsNoMatch env info s) {fuel offset : Nat} (hfuel : s.length < fuel + offset)
    (p e : Nat) :
    automatonLoop dfa info s false fuel offset = some (p, e) ↔
      LeftmostShortest env s offset p e := by
  induction fuel generalizing offset with
  | zero =>
    refine ⟨fun hnone => (by cases hnone), fun hleft => ?_⟩
    have hle := hleft.matched.le.trans hleft.matched.le_length
    have hstart := hleft.le
    omega
  | succ fuel ih =>
    rw [automatonLoop]
    cases hexec : searchAutomatonExec dfa s offset with
    | some found =>
      -- the search did not give up
      have hoffset : offset ≤ s.length := by
        by_contra hgt
        rw [searchAutomatonExec, show s.length + 1 - offset = 0 by omega] at hexec
        cases hexec
      have hfound := searchAutomatonExec_spec h hroom hexec (by omega)
      constructor
      · rintro ⟨⟩
        exact hfound
      · intro hleft
        rw [hleft.unique hfound]
    | none =>
      have hbarren : ∀ e, ¬ShortestMatch env s offset e := by
        intro e hmatch
        have hle := hmatch.le.trans hmatch.le_length
        have hhere := automatonFrom_here h hroom (s.length - offset) hmatch
        rw [searchAutomatonExec, show s.length + 1 - offset = s.length - offset + 1 by omega,
          hhere] at hexec
        cases hexec
      have hforward : offset < info.advance s offset := by
        unfold SearchMeta.advance
        split
        · split
          · omega
          · exact Nat.lt_succ_self _
        · exact Nat.lt_succ_self _
      have hlater := LeftmostShortest.later (p := p) (e := e) (Nat.le_of_lt hforward)
        (fun q hq hlt => by
          obtain rfl | hgt := Nat.eq_or_lt_of_le hq
          · exact hbarren
          · exact hskip offset q hgt hlt)
      rw [hlater]
      simp only [Bool.false_eq_true, or_false]
      split
      · refine ⟨fun hnone => (by cases hnone), fun hleft => ?_⟩
        have hle := hleft.matched.le.trans hleft.matched.le_length
        have hstart := hleft.le
        omega
      split
      · refine ⟨fun hnone => (by cases hnone), fun hleft => ?_⟩
        have hle := hleft.matched.le.trans hleft.matched.le_length
        have hstart := hleft.le
        omega
      · exact ih (by omega)

/-- The anchored pass looks at one start only. -/
theorem automatonAnchored_eq (dfa : Dfa) (s : Bytes) (start : Nat) :
    automatonAnchored dfa s start = (automatonFrom dfa s 1 start).isSome := by
  rw [automatonAnchored, automatonFrom]
  cases dfa.accepts 0 with
  | true => rfl
  | false =>
    cases dfaWalk dfa (s.drop start) 0 start with
    | accepted stop => rfl
    | dead => rfl
    | ended => rfl

theorem automatonAnchored_iff (h : Built env dfa)
    (hroom : ∀ set ∈ dfaSets env, set.length < dfaNfaMax) {start : Nat}
    (hstart : start ≤ s.length) :
    automatonAnchored dfa s start = true ↔ ∃ e, ShortestMatch env s start e := by
  rw [automatonAnchored_eq]
  constructor
  · intro hsome
    obtain ⟨e, hmatch, -⟩ | ⟨-, hstep⟩ | ⟨-, -, hstep⟩ := automatonFrom_step h hroom 0 hstart
    · exact ⟨e, hmatch⟩
    · rw [hstep] at hsome
      cases hsome
    · rw [hstep] at hsome
      cases hsome
  · rintro ⟨e, hmatch⟩
    rw [automatonFrom_here h hroom 0 hmatch]
    rfl

/-! ## Code with a literal in front -/

/-- The code starts with a literal that `build_dfa` reads as its own: it has at least two bytes,
and no literal behind it has its text among them. -/
structure LedBy (bc lit : Bytes) : Prop where
  op : bc[0]? = some OpCode.lit.code
  root : rootLiteral bc = some lit
  len : (readU32 bc 5).1 = lit.length
  two : 2 ≤ lit.length
  notData : litNext bc 0 = dfaDead
  own : ∀ k, 0 < k → k + 1 < lit.length →
    litNext bc ((readU32 bc 1).1 + k) = (readU32 bc 1).1 + k + 1
  last : litNext bc ((readU32 bc 1).1 + (lit.length - 1)) ≠ dfaDead

/-- The address behind `k` bytes of the literal. -/
def ledState (bc : Bytes) (k : Nat) : Nat := if k = 0 then 0 else (readU32 bc 1).1 + k

namespace LedBy

variable {bc lit : Bytes}

theorem frontRoot_eq (h : LedBy bc lit) : frontRoot bc = ([], 0) := by
  have hstep : frontStep bc 0 = none := by
    rw [frontStep, h.op, Option.bind_some, OpCode.ofByte_code]
  have hwalk : ∀ fuel, frontWalk bc fuel 0 = ([], 0) := by
    intro fuel
    cases fuel with
    | zero => rfl
    | succ fuel => rw [frontWalk, hstep]
  unfold frontRoot
  rw [hwalk]
  exact ite_self _

theorem litText_eq (h : LedBy bc lit) : litText bc 0 = lit := by
  have htext := (rootLiteral_spec h.root).2.1
  rwa [h.frontRoot_eq] at htext

theorem text (h : LedBy bc lit) {k : Nat} (hk : k < lit.length) :
    bc[(readU32 bc 1).1 + k]? = lit[k]? := by
  have htext := congrArg (·[k]?) h.litText_eq
  simp only [litText, Nat.zero_add] at htext
  rw [← htext, List.getElem?_take_of_lt (h.len ▸ hk), List.getElem?_drop]

theorem lt_length (h : LedBy bc lit) {k : Nat} (hk : k < lit.length) :
    (readU32 bc 1).1 + k < bc.length := by
  have hget := h.text hk
  rw [List.getElem?_eq_getElem hk] at hget
  exact (List.getElem?_eq_some_iff.mp hget).1

/-- The metadata for such code. -/
theorem literalPrefix_eq (h : LedBy bc lit) (isAltLiterals captures : Bool) (turns : Nat) :
    (literalMeta isAltLiterals captures turns bc).literalPrefix = lit.take maxPrefixLen := by
  rw [literalMeta, h.root]

/-- Inside the literal an address has a successor. -/
theorem litNext_ne (h : LedBy bc lit) (hfits : bc.length ≤ dfaDead) {k : Nat} (hpos : 0 < k)
    (hk : k < lit.length) : litNext bc ((readU32 bc 1).1 + k) ≠ dfaDead := by
  by_cases hnext : k + 1 < lit.length
  · have hlt := h.lt_length hnext
    rw [h.own k hpos hnext]
    omega
  · obtain rfl : k = lit.length - 1 := by omega
    exact h.last

end LedBy

variable {lit : Bytes}

/-- One byte of the literal. -/
theorem LedBy.step (h : LedBy env.bc lit) (hfits : env.bc.length ≤ dfaDead) {k x : Nat} {b : UInt8}
    (hk : k < lit.length) (hx : x ∈ (bytecodeNfa env).step (ledState env.bc k) b) :
    lit[k]? = some b ∧ (k + 1 < lit.length → x = ledState env.bc (k + 1)) := by
  obtain ⟨t, ht, hreach⟩ := hx
  have htwo := h.two
  have hlt := h.lt_length hk
  unfold byteTargets at ht
  simp only at ht
  by_cases hzero : k = 0
  · subst hzero
    have hsecond := h.lt_length (show 1 < lit.length by omega)
    rw [ledState, if_pos rfl, if_neg (by omega), if_neg (not_not.mpr h.notData), h.op,
      Option.bind_some, OpCode.ofByte_code] at ht
    simp only [Nat.zero_add, h.len] at ht
    split at ht
    · cases ht
    rename_i hdata
    have hbyte : env.bc[(readU32 env.bc 1).1]? = some b := by
      by_contra hne
      exact hdata (.inr (.inr (.inr hne)))
    refine ⟨(h.text hk).symm.trans hbyte, fun _ => ?_⟩
    rw [if_neg (by omega), Nat.mod_eq_of_lt (by unfold dfaDead at hfits; omega)] at ht
    split at ht
    · obtain rfl := List.mem_singleton.mp ht
      exact hreach
    · cases ht
  · rw [ledState, if_neg hzero, if_neg (by omega),
      if_pos (h.litNext_ne hfits (Nat.pos_of_ne_zero hzero) hk)] at ht
    split at ht
    · rename_i hbyte
      refine ⟨(h.text hk).symm.trans hbyte, fun hnext => ?_⟩
      have hcont := h.own k (Nat.pos_of_ne_zero hzero) hnext
      have hnextlt := h.lt_length hnext
      rw [hcont, if_pos ⟨hnextlt, by omega,
        h.litNext_ne hfits (Nat.succ_pos k) hnext⟩] at ht
      obtain rfl := List.mem_singleton.mp ht
      exact hreach
    · cases ht

/-- Up to the end of the literal the automaton reads the literal. -/
theorem LedBy.eval (h : LedBy env.bc lit) (hfits : env.bc.length ≤ dfaDead) {w : Bytes} {x : Nat}
    (hw : w.length ≤ lit.length) (hx : x ∈ (bytecodeNfa env).eval w) :
    w <+: lit ∧ (w.length < lit.length → x = ledState env.bc w.length) := by
  have htwo := h.two
  induction w using List.reverseRecOn generalizing x with
  | nil =>
    refine ⟨List.nil_prefix, fun _ => ?_⟩
    have hreach : EpsReach env.bc 0 x := hx
    obtain rfl | ⟨y, hy, -⟩ := Relation.ReflTransGen.cases_head hreach
    · rfl
    · -- a literal that is not empty has no epsilon transition
      rw [epsilonSteps, h.op, Option.bind_some, OpCode.ofByte_code] at hy
      simp only [Nat.zero_add, h.len] at hy
      split at hy
      · rw [if_neg (by omega)] at hy
        cases hy
      · cases hy
  | append_singleton w b ih =>
    rw [List.length_append, List.length_singleton] at hw ⊢
    rw [NFA.eval_append_singleton, NFA.mem_stepSet] at hx
    obtain ⟨y, hy, hstep⟩ := hx
    obtain ⟨hpre, hstate⟩ := ih (by omega) hy
    rw [hstate (by omega)] at hstep
    obtain ⟨hbyte, hnext⟩ := h.step hfits (by omega) hstep
    refine ⟨?_, hnext⟩
    obtain ⟨rest, rfl⟩ := hpre
    rw [List.getElem?_append_right (Nat.le_refl _), Nat.sub_self] at hbyte
    cases rest with
    | nil => cases hbyte
    | cons c rest =>
      cases hbyte
      exact ⟨rest, by simp⟩

theorem LedBy.not_accept (h : LedBy env.bc lit) (hfits : env.bc.length ≤ dfaDead) {k : Nat}
    (hk : k < lit.length) : nfaIsAccept env.bc (ledState env.bc k) ≠ true := by
  intro haccept
  rw [nfaIsAccept, Bool.and_eq_true, beq_iff_eq, beq_iff_eq] at haccept
  by_cases hzero : k = 0
  · subst hzero
    rw [ledState, if_pos rfl, h.op] at haccept
    exact absurd haccept.1 (by decide)
  · rw [ledState, if_neg hzero] at haccept
    exact h.litNext_ne hfits (Nat.pos_of_ne_zero hzero) hk haccept.2

/-- All that is accepted starts with the literal. -/
theorem LedBy.prefix_of_accepts (h : LedBy env.bc lit) (hfits : env.bc.length ≤ dfaDead) {w : Bytes}
    (hw : w ∈ (bytecodeNfa env).accepts) : lit <+: w := by
  obtain ⟨x, haccept, hx⟩ := NFA.mem_accepts.mp hw
  by_cases hshort : w.length < lit.length
  · have hstate := (h.eval hfits (Nat.le_of_lt hshort) hx).2 hshort
    subst hstate
    exact absurd haccept (h.not_accept hfits hshort)
  · -- the automaton has come through the first bytes
    have htake : (w.take lit.length).length = lit.length :=
      List.length_take_of_le (Nat.le_of_not_lt hshort)
    rw [← List.take_append_drop lit.length w, NFA.evalFrom_append] at hx
    obtain ⟨y, hy, -⟩ := NFA.mem_evalFrom_iff_exists.mp hx
    have hpre := (h.eval hfits (Nat.le_of_eq htake) hy).1
    have hall := hpre.eq_of_length htake
    exact hall ▸ List.take_prefix _ w

/-- The Horspool table of the metadata leaves no start of a match out. -/
theorem LedBy.skipsNoMatch (h : LedBy env.bc lit) (hfits : env.bc.length ≤ dfaDead)
    {isAltLiterals captures : Bool} {turns : Nat} {info : SearchMeta}
    (hinfo : info.bmhSkip = (literalMeta isAltLiterals captures turns env.bc).bmhSkip) (s : Bytes) :
    SkipsNoMatch env info s := by
  intro offset q hlt hnext e hmatch
  refine advance_skips hinfo hlt hnext ?_
  rw [h.literalPrefix_eq]
  have hlit := h.prefix_of_accepts hfits hmatch.accepted
  exact (List.take_prefix _ _).trans (hlit.trans (List.take_prefix _ _))

/-- For code with a literal in front, `tier_automaton` reports the shortest match at the leftmost
start, also where the search by the automaton gives up; where the automaton has no match it reports
what the general tier reports.  The anchored pass succeeds if a match starts at the anchor. -/
theorem tierAutomaton_leftmost (env : VmEnv W) (dfa : Dfa) (lit : Bytes)
    (isAltLiterals captures : Bool) (turns : Nat) (info : SearchMeta) (start : Nat) (vm₀ : Vm W)
    (hstart : start ≤ env.s.length)
    (h : buildDfa env = some dfa) (hroom : ∀ set ∈ dfaSets env, set.length < dfaNfaMax)
    (hlit : LedBy env.bc lit)
    (hinfo : info.bmhSkip = (literalMeta isAltLiterals captures turns env.bc).bmhSkip) :
    (∀ result, TierAutomaton env (some dfa) info false start vm₀ result ↔
      (∃ p e, result = some (p, e) ∧ LeftmostShortest env env.s start p e) ∨
        (∀ p e, ¬LeftmostShortest env env.s start p e) ∧
          SearchReports env info false start vm₀ result) ∧
    (automatonAnchored dfa env.s start = true ↔ ∃ e, ShortestMatch env env.s start e) := by
  have hbuilt := built_of_buildDfa h
  have hfits : env.bc.length ≤ dfaDead := by
    by_contra hlong
    rw [buildDfa, if_pos (.inr (Nat.lt_of_not_le hlong))] at h
    cases h
  have hskip := hlit.skipsNoMatch hfits hinfo env.s
  have hloop := automatonLoop_from hbuilt hroom hskip
    (show env.s.length < env.s.length + 1 - start + start by omega)
  refine ⟨fun result => ⟨fun hreports => ?_, fun hreports => ?_⟩,
    automatonAnchored_iff hbuilt hroom hstart⟩
  · cases hreports with
    | @found dfa' found hdfa hfound =>
      cases hdfa
      exact .inl ⟨found.1, found.2, rfl, (hloop found.1 found.2).mp hfound⟩
    | fallback hnone hgeneral =>
      refine .inr ⟨fun p e hleft => ?_, hgeneral⟩
      have hfound := (hloop p e).mpr hleft
      rw [hnone dfa rfl] at hfound
      cases hfound
  · obtain ⟨p, e, rfl, hleft⟩ | ⟨hnone, hgeneral⟩ := hreports
    · exact .found rfl ((hloop p e).mpr hleft)
    · refine .fallback ?_ hgeneral
      rintro dfa' ⟨⟩
      cases hfind : automatonLoop dfa info env.s false (env.s.length + 1 - start) start with
      | none => rfl
      | some found => exact absurd ((hloop found.1 found.2).mp hfind) (hnone _ _)

/-- The code of `'ab' SPAN('b')`. -/
def literalThenSpanCode : Bytes :=
  [4, 0, 0, 0, 9, 0, 0, 0, 2, 97, 98, 7, 0, 1, 0, 0, 1, 0, 0, 0, 0, 0, 98, 0, 0, 0, 98, 0, 0, 0,
    15, 0, 0, 0, 1, 0, 0, 0, 0, 83, 78, 66, 76]

/-- A machine with this code and its class metadata over "abaabb". -/
def literalThenSpan : VmEnv Unit :=
  { VmEnv.ofCode literalThenSpanCode [0x61, 0x62, 0x61, 0x61, 0x62, 0x62] .bare with
    rangeMeta := buildRangeMeta literalThenSpanCode
    rangeMeta_eq := .inr rfl }

/-- `'ab' SPAN('b')` on "abaabb", from the second letter on, with the table of its metadata. -/
theorem tierAutomaton_leftmost_literalThenSpan :
    ∃ dfa, buildDfa literalThenSpan = some dfa ∧
      ∀ result, TierAutomaton literalThenSpan (some dfa)
          ⟨none, 3, (literalMeta false false 0 literalThenSpan.bc).bmhSkip⟩ false 1
          (.zero ⟨[], ()⟩) result ↔
        (∃ p e, result = some (p, e) ∧ LeftmostShortest literalThenSpan literalThenSpan.s 1 p e) ∨
          (∀ p e, ¬LeftmostShortest literalThenSpan literalThenSpan.s 1 p e) ∧
            SearchReports literalThenSpan
              ⟨none, 3, (literalMeta false false 0 literalThenSpan.bc).bmhSkip⟩ false 1
              (.zero ⟨[], ()⟩) result := by
  have hbuilt : (buildDfa literalThenSpan).isSome = true := by decide +kernel
  obtain ⟨dfa, hdfa⟩ := Option.isSome_iff_exists.mp hbuilt
  have hlit : LedBy literalThenSpan.bc [0x61, 0x62] := by
    refine ⟨by decide, by decide +kernel, by decide, by decide, by decide +kernel, ?_,
      by decide +kernel⟩
    intro k hpos hlt
    exact absurd hlt (by simp; omega)
  exact ⟨dfa, hdfa, (tierAutomaton_leftmost literalThenSpan dfa [0x61, 0x62] false false 0 _ 1
    (.zero ⟨[], ()⟩) (by decide) hdfa (by decide +kernel) hlit rfl).1⟩

end Snobol4
