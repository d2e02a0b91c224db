import Snobol4.PlainLoops
import Snobol4.Support.OfferLaws
import Snobol4.TrailerRoundTrip

/-!
# Meaning — compiled patterns mean what the syntax tree says

The meaning of a pattern is the list of the states it can end in, in the order in which
they are tried: a sequence tries its second part behind each end of the first, an
alternative appends, a repetition prefers one more iteration.  `vm_run` on the compiled
code delivers the first end state, with the classes of the pattern itself in place of the
ids and offsets of the trailer.
-/

namespace Snobol4

open Pat Backtrack

variable {W C : Type}

/-! ## The meaning of a pattern -/

/-- The ordered search of a source pattern: a leaf looks at its own class. -/
def sourceInterp (s : Bytes) (host : Host W) :
    Interp (Leaf (Option CcEntry)) Bounds Local (Globals W) where
  leaf l st g := l.exec s host (Option.map CcEntry.ranges) st g
  enter k st := repetition ⟨0, k.min, k.max⟩ 0 true st
  step k count mark st := repetition ⟨0, k.min, k.max⟩ (count + 1) (decide (st.pos ≠ mark)) st

/-- The end states of a pattern at a state, in order. -/
abbrev Means (s : Bytes) (host : Host W) (g : Globals W) (p : SrcPat) (st : Local)
    (ends : List Local) : Prop :=
  (sourceInterp s host).Offers g [⟨[.pat p], st⟩] ends

/-- An instruction that neither writes the globals nor cuts choices nor ends the run. -/
def Leaf.IsQuiet : Leaf C → Prop
  | .nop | .lit _ | .set _ _ | .capStart _ | .capEnd _ | .assign _ _ | .count _ _ | .anchor _
  | .label _ | .rem | .fail | .breakx _ => True
  | _ => False

theorem moveTo_quiet {F : Interp (Leaf C) Bounds Local (Globals W)} {g : Globals W} {l : Leaf C}
    {st : Local} {target : Option Nat} (h : F.leaf l st g = (moveTo st.regs g target).move) :
    F.Quiet g l st := by
  cases target with
  | none => exact .fail h
  | some pos => exact .next _ h

theorem Leaf.IsQuiet.quiet {s : Bytes} {host : Host W} {g : Globals W}
    {l : Leaf (Option CcEntry)} (h : l.IsQuiet) : (sourceInterp s host).QuietLeaf g l := by
  intro st
  cases l with
  | lit | set | count | anchor => exact moveTo_quiet rfl
  | nop | capStart | capEnd | assign | label | rem => exact .next _ rfl
  | fail => exact .fail rfl
  | breakx c =>
    have hleaf : (sourceInterp s host).leaf (.breakx c) st g =
        breakxMove s (c.map CcEntry.ranges) st g := rfl
    by_cases hlt : breakTarget s (c.map CcEntry.ranges) st.pos < s.length
    · simp only [breakxMove, if_pos hlt] at hleaf
      exact .choice _ _ hleaf
    · simp only [breakxMove, if_neg hlt] at hleaf
      exact .next _ hleaf
  | _ => exact absurd h id

/-- How far the count is from the bounds. -/
def boundsRank (k : Bounds) (count : Nat) : Nat := max k.min k.max - count

theorem repetition_exit {k : LoopSpec} {count : Nat} {moved : Bool} {st st' : Local}
    {retry : Option Local} (h : repetition k count moved st = .exit st' retry) :
    st' = st ∧ retry = none := by
  unfold repetition at h
  split at h
  · cases h
  split at h
  · split at h
    · cases h
    · cases h
      exact ⟨rfl, rfl⟩
  split at h
  · cases h
  · cases h
    exact ⟨rfl, rfl⟩

theorem repetition_again {k : LoopSpec} {count count' mark' : Nat} {moved saved : Bool} {st : Local}
    (h : repetition k count moved st = .again count' mark' saved) :
    count' = count ∧ mark' = st.pos ∧ (moved = true ∨ count < max k.min k.max) := by
  unfold repetition at h
  split at h
  · cases h
    exact ⟨rfl, rfl, .inr (by omega)⟩
  split at h
  · split at h
    · cases h
      exact ⟨rfl, rfl, .inl ‹_›⟩
    · cases h
  split at h
  · cases h
    exact ⟨rfl, rfl, .inr (by omega)⟩
  · cases h

/-- The ordered search always makes progress. -/
theorem sourceInterp_progress (s : Bytes) (host : Host W) :
    Progress (sourceInterp s host).rules Local.pos s.length Leaf.isSpan boundsRank where
  next h hleaf := Leaf.exec_next h hleaf.symm
  choice h hleaf := by
    obtain ⟨⟨hnext, hle⟩, hlt, hle'⟩ := Leaf.exec_choice h hleaf.symm
    exact ⟨⟨hnext, hle⟩, (Nat.le_of_add_right_le hnext).trans_lt hlt, hle'⟩
  cut h hleaf := Leaf.exec_cut h hleaf.symm
  enter_again h := (repetition_again h.symm).2.1
  enter_exit := by
    intro k body st st' retry hpos h
    obtain ⟨rfl, rfl⟩ := repetition_exit h.symm
    exact ⟨⟨le_rfl, hpos⟩, nofun⟩
  step_again := by
    intro k body count mark st count' mark' saved hmark h
    obtain ⟨rfl, rfl, hgoes⟩ := repetition_again h.symm
    refine ⟨rfl, ?_⟩
    by_cases hmoved : st.pos = mark
    · have hlt := hgoes.resolve_left (by simp [hmoved])
      simp only at hlt
      refine .inr ?_
      unfold boundsRank
      omega
    · exact .inl (by omega)
  step_exit := by
    intro k body count mark st st' retry hpos h
    obtain ⟨rfl, rfl⟩ := repetition_exit h.symm
    exact ⟨⟨le_rfl, hpos⟩, nofun⟩

/-- A pattern of quiet instructions has a meaning at every state. -/
theorem exists_means {s : Bytes} (g : Globals W) {p : SrcPat} {pos : Nat}
    (hquiet : p.All Leaf.IsQuiet) (hpos : pos ≤ s.length) (regs : Regs) (host : Host W) :
    ∃ ends, Means s host g p ⟨pos, regs⟩ ends :=
  Interp.exists_offers (P := Leaf.IsQuiet) (fun _ => Leaf.IsQuiet.quiet)
    ((sourceInterp_progress s host).acc_thread p hpos) (by simpa [Item.All] using hquiet)

/-! ## Classes through the trailer -/

/-- No class is read behind the last one. -/
theorem Sections.parse_none {bc body : Bytes} {classes : List CcEntry} {labels : List LabelEntry}
    (h : Sections bc body classes labels) (hmany : classes.length < 2 ^ 32) {id : Nat}
    (hid : classes.length < id) : parseRanges bc id = none := by
  unfold parseRanges
  rw [h.ccTail_eq]
  have hlen := h.length
  simp only [Option.bind_eq_bind, Option.bind_some, Nat.add_sub_cancel, h.readCount,
    Nat.mod_eq_of_lt hmany]
  rw [if_neg (by omega), if_neg (by omega), if_pos hid]
  rfl

/-- The VM sees the class that stands in the pattern. -/
theorem ranges_eq {env : VmEnv W} {body : Bytes} {classes : List CcEntry} {labels : List LabelEntry}
    (h : Sections env.bc body classes labels) (hrt : RoundTrips env.bc body classes) {id : Nat}
    (hid : id < 2 ^ 16) : env.ranges id = (classAt classes id).map CcEntry.ranges := by
  have hfew := h.few_of_roundTrips hrt
  unfold VmEnv.ranges classAt
  by_cases hzero : id = 0
  · simp [hzero, getRangesPtr]
  rw [if_neg hzero]
  cases he : classes[id - 1]? with
  | some e =>
    have hparsed := hrt.parsed (id - 1) e he env.rangeMeta env.rangeMeta_eq
    rw [Nat.sub_add_cancel (Nat.pos_of_ne_zero hzero), Nat.mod_eq_of_lt hid] at hparsed
    simp [hparsed, CcEntry.stored]
  | none =>
    have hlt := List.getElem?_eq_none_iff.mp he
    rw [getRangesPtr_eq env.rangeMeta_eq, h.parse_none (by omega) (by omega)]
    rfl

/-- Leaves whose operands fit mean what the leaves they resolve to mean. -/
theorem resolve_exec {env : VmEnv W} {body : Bytes} {classes : List CcEntry}
    {labels : List LabelEntry} (h : Sections env.bc body classes labels)
    (hrt : RoundTrips env.bc body classes) {l : Leaf Nat} (hfits : l.Fits)
    (hstraight : l.IsStraight) (st : Local) (g : Globals W) :
    l.exec env.s env.host env.ranges st g =
      (l.resolve classes).exec env.s env.host (Option.map CcEntry.ranges) st g := by
  cases l with
  | set op id => simp only [Leaf.exec, Leaf.resolve, ranges_eq h hrt hfits]
  | breakx id => simp only [Leaf.exec, Leaf.resolve, ranges_eq h hrt hfits]
  | _ => rfl

theorem Blk.Fits.all {b : Blk} (h : b.Fits) : b.All Leaf.Fits := by
  induction b with
  | skip => trivial
  | leaf l => exact h
  | seq p q ihp ihq | alt p q ihp ihq => exact ⟨ihp h.1, ihq h.2⟩
  | loop k body ih => exact ih h.2

/-- The rules of compiled code and of its pattern. -/
theorem interp_agree {env : VmEnv W} {body : Bytes} {classes : List CcEntry}
    {labels : List LabelEntry} (h : Sections env.bc body classes labels)
    (hrt : RoundTrips env.bc body classes) :
    (repetitionInterp env).Agree (sourceInterp env.s env.host) (Leaf.resolve classes)
      LoopSpec.bounds fun l => l.Fits ∧ l.IsStraight where
  leaf _ st g hl := resolve_exec h hrt hl.1 hl.2 st g
  enter _ _ := rfl
  step _ _ _ _ := rfl

/-! ## Compiled patterns -/

/-- The result of a run as the state it ends in. -/
def resultState (ok : Bool) (final : Vm W) : Option Local :=
  if ok then some ⟨final.pos, final.regs⟩ else none

theorem verdict_firstOf {ok : Bool} {final : Vm W} {g : Globals W} {ends : List Local}
    (h : verdict ok final = Interp.firstOf g ends) :
    final.globals = g ∧ resultState ok final = ends.head? := by
  unfold verdict at h
  unfold resultState
  cases ends with
  | nil =>
    cases ok with
    | true => cases h
    | false =>
      cases h
      exact ⟨rfl, rfl⟩
  | cons s ends =>
    cases ok with
    | true =>
      cases h
      exact ⟨rfl, rfl⟩
    | false => cases h

/-- What the compiled code of a pattern needs: quiet instructions and plain loops, in a
tree that the fusion pass leaves alone. -/
structure Compiled (cfg : CompilerConfig) (ast : AstNode) (st : CompilerState) (bc : Bytes) :
    Prop where
  emitted : emitProgram cfg ast = some st
  compiled : compileAstToBytecodeC cfg ast = some bc
  unfused : fuseSplitAny ⟨st.buf, st.classes⟩ = ⟨st.buf, st.classes⟩
  short : st.buf.length ≤ 2 ^ 32
  fold : cfg.fold.Fits
  classes : st.classes.length < 2 ^ 16
  counts : ∀ e ∈ st.classes, e.ranges.length < 2 ^ 16
  offsets : ∀ off ∈ classOffsets st.buf.length st.classes, off < 2 ^ 32
  quiet : (ast.pat cfg).All Leaf.IsQuiet
  plain : (ast.pat cfg).Loops LoopPlain

theorem Leaf.IsQuiet.straight {l : Leaf C} (h : l.IsQuiet) : l.IsStraight := by
  cases l with
  | accept | goto => exact h
  | _ => trivial

theorem Leaf.IsQuiet.nameFits {l : Leaf C} (h : l.IsQuiet) : l.NameFits := by
  cases l with
  | tableGet | tableSet => exact absurd h id
  | _ => trivial

theorem Compiled.bytes {cfg : CompilerConfig} {ast : AstNode} {st : CompilerState} {bc : Bytes}
    (h : Compiled cfg ast st bc) : bc = st.buf ++ trailer st.buf.length st.classes st.labels := by
  have hbc := compileAstToBytecodeC_bytes h.emitted h.compiled
  rwa [h.unfused] at hbc

theorem Compiled.sections {cfg : CompilerConfig} {ast : AstNode} {st : CompilerState} {bc : Bytes}
    (h : Compiled cfg ast st bc) : Sections bc st.buf st.classes st.labels := by
  have hmax : maxLabels = 32768 := rfl
  have hlabels := (emitProgram_labelled h.emitted).1.few (Nat.zero_le _)
  exact ⟨h.bytes, by omega⟩

theorem Compiled.stored {cfg : CompilerConfig} {ast : AstNode} {st : CompilerState} {bc : Bytes}
    (h : Compiled cfg ast st bc) : RoundTrips bc st.buf st.classes := by
  obtain ⟨st', hst', hfit, -⟩ := compileAstToBytecodeC_eq_some_iff.mp h.compiled
  obtain rfl : st = st' := Option.some.inj (h.emitted.symm.trans hst')
  have hfits := fusedClasses_fits h.fold h.emitted hfit
  rw [h.unfused] at hfits
  exact h.sections.roundTrips (emitProgram_ne_nil h.emitted) hfits h.classes h.offsets

section

variable {cfg : CompilerConfig} {ast : AstNode} {st : CompilerState} {env : VmEnv W} {start : Vm W}

/-- The run of the compiled code performs the ordered search for its code tree. -/
theorem Compiled.search (h : Compiled cfg ast st env.bc) (hcompact : env.compact = true)
    (hlen : env.s.length + 1 < 2 ^ 32) (hip : start.ip = 0) (hpos : start.pos ≤ env.s.length)
    (hflags : ∀ i, start.loopSpanGreedy i = false)
    (htrail : ∀ vm, VmReach env start vm → vm.toStore.TrailFits env) :
    ∃ (b : Blk) (ok : Bool) (final : Vm W),
      b.map (Leaf.resolve st.classes) LoopSpec.bounds = ast.pat cfg ∧
      b.All (fun l => l.Fits ∧ l.IsStraight) ∧ VmRun env start ok final ∧
      (repetitionInterp env).Finds b ⟨start.pos, start.regs⟩ start.globals (verdict ok final) := by
  obtain ⟨b, hpat, hcode, haccept, hi, hmax, hids⟩ :=
    emitProgram_code h.emitted h.short h.classes (h.quiet.mono fun _ => Leaf.IsQuiet.nameFits)
      (trailer st.buf.length st.classes st.labels)
  rw [← h.bytes] at hcode haccept
  have hplain : PlainBlk b := by
    have hloops := h.plain
    rw [← hpat, loops_map] at hloops
    exact hloops.mono fun k body => loopPlain_map.mp
  have hstraight : b.All Leaf.IsStraight := by
    have hsource := h.quiet.mono fun _ => Leaf.IsQuiet.straight
    rw [← hpat, Pat.all_map] at hsource
    exact hsource.mono fun l hl => hl.of_resolve
  -- no loop is greedy, so every loop instruction is that of ordered repetition
  obtain ⟨Γ, hplaced⟩ := exists_placed hids hmax hstraight ⟨0, []⟩ (by simp)
  have hstart : VmOk env _ true (vmRunStart start) ⟨[.pat b], ⟨start.pos, start.regs⟩⟩ [] :=
    .start hcode haccept (hplaced.notGreedy hplain) hip hpos hflags rfl
  have hsteady : ∀ u ∈ [(⟨[.pat b], ⟨start.pos, start.regs⟩⟩ : BlkThread)],
      Advancing u.items u.state.pos := by
    simp [Advancing, hplain]
  have hloops : ∀ n vm, vmSteps env n (vmRunStart start) = .running vm → LoopOk env vm :=
    fun n vm hn => hstart.loopsOk hcompact hlen (fun _ => rfl) hsteady
      (fun m vm' hm => htrail vm' (VmReach.steps .start hm)) hn
  obtain ⟨n, ok, final, hn⟩ : ∃ n ok final, vmSteps env n (vmRunStart start) = .halted ok final :=
    VmOk.halts (vmSearch_acc env true b hpos start.globals) (fun _ => hcompact) rfl hstart
      fun n vm hn => ⟨(hloops n vm hn).greedyOk, (hloops n vm hn).trail⟩
  exact ⟨b, ok, final, hpat, hcode.fits.all.and hstraight, ⟨n, hn⟩,
    hstart.finds hcompact hloops hn⟩

/-- The result of a run is the first state that the pattern means. -/
theorem Compiled.run_eq (h : Compiled cfg ast st env.bc) (hcompact : env.compact = true)
    (hlen : env.s.length + 1 < 2 ^ 32) (hip : start.ip = 0) (hpos : start.pos ≤ env.s.length)
    (hflags : ∀ i, start.loopSpanGreedy i = false)
    (htrail : ∀ vm, VmReach env start vm → vm.toStore.TrailFits env) {ok : Bool} {final : Vm W}
    (hrun : VmRun env start ok final) {ends : List Local}
    (hends : Means env.s env.host start.globals (ast.pat cfg) ⟨start.pos, start.regs⟩ ends) :
    final.globals = start.globals ∧ resultState ok final = ends.head? := by
  obtain ⟨b, ok₀, final₀, hpat, hall, hrun₀, hfinds⟩ :=
    h.search hcompact hlen hip hpos hflags htrail
  obtain ⟨rfl, rfl⟩ := hrun.unique hrun₀
  -- the meaning of the pattern, carried over to the code
  have hoffers : (repetitionInterp env).Offers start.globals
      [⟨[.pat b], ⟨start.pos, start.regs⟩⟩] ends := by
    refine Interp.Offers.of_map (interp_agree h.sections h.stored) ?_ ?_
    · simpa [Item.All] using hall
    · rw [← hpat] at hends
      exact hends
  exact verdict_firstOf (hfinds.unique hoffers.finds)

end

/-- `vm_run` on the compiled code of a pattern ends with the first state that the pattern
means, and with nothing written elsewhere. -/
theorem vmRun_means (cfg : CompilerConfig) (ast : AstNode) (st : CompilerState) (env : VmEnv W)
    (start : Vm W) (hcompiled : Compiled cfg ast st env.bc) (hcompact : env.compact = true)
    (hlen : env.s.length + 1 < 2 ^ 32) (hip : start.ip = 0) (hpos : start.pos ≤ env.s.length)
    (hflags : ∀ i, start.loopSpanGreedy i = false)
    (htrail : ∀ vm, VmReach env start vm → vm.toStore.TrailFits env) :
    ∃ (ends : List Local) (ok : Bool) (final : Vm W),
      Means env.s env.host start.globals (ast.pat cfg) ⟨start.pos, start.regs⟩ ends ∧
      VmRun env start ok final ∧ final.globals = start.globals ∧
      resultState ok final = ends.head? := by
  obtain ⟨ends, hends⟩ := exists_means start.globals hcompiled.quiet hpos start.regs env.host
  obtain ⟨-, ok, final, -, -, hrun, -⟩ := hcompiled.search hcompact hlen hip hpos hflags htrail
  exact ⟨ends, ok, final, hends, hrun,
    hcompiled.run_eq hcompact hlen hip hpos hflags htrail hrun hends⟩

/-- `ARBNO('ab' | 'a') ANY('b')` -/
def arbnoAny : AstNode :=
  .concat [.arbno (.alt (.literal [0x61, 0x62]) (.literal [0x61])), .any [0x62]]

def arbnoAnyState : CompilerState where
  buf :=
    [15, 0, 0, 0, 0, 0, 255, 255, 255, 255, 0, 0, 0, 55, 3, 0, 0, 0, 23, 0, 0, 0, 39, 4, 0, 0, 0,
      32, 0, 0, 0, 2, 97, 98, 2, 0, 0, 0, 49, 4, 0, 0, 0, 48, 0, 0, 0, 1, 97, 16, 0, 0, 0, 0, 14, 5, 0,
      1, 0]
  classes := [⟨[⟨98, 98⟩], false⟩]
  nextLoopId := 1
  labels := []
  splits := [14]

def arbnoAnyCode : Bytes :=
  arbnoAnyState.buf ++ trailer arbnoAnyState.buf.length arbnoAnyState.classes []

theorem arbnoAny_compiled : Compiled .caseSensitive arbnoAny arbnoAnyState arbnoAnyCode where
  emitted := by decide +kernel
  compiled := by decide +kernel
  unfused := by decide +kernel
  short := by decide
  fold := CompilerConfig.caseSensitive_fits
  classes := by decide
  counts := by decide
  offsets := by decide +kernel
  quiet := ⟨⟨trivial, trivial⟩, trivial, trivial⟩
  plain := by decide +kernel

/-- The run of `ARBNO('ab' | 'a') ANY('b')` on "abab". -/
theorem vmRun_means_arbnoAny :
    ∃ (ends : List Local) (ok : Bool) (final : Vm Unit),
      Means [0x61, 0x62, 0x61, 0x62] .bare ⟨[], ()⟩ (arbnoAny.pat .caseSensitive)
        ⟨0, (Vm.zero (⟨[], ()⟩ : Globals Unit)).regs⟩ ends ∧
      VmRun (VmEnv.ofCode arbnoAnyCode [0x61, 0x62, 0x61, 0x62] .bare) (.zero ⟨[], ()⟩) ok final ∧
      final.globals = ⟨[], ()⟩ ∧ resultState ok final = ends.head? := by
  let env := VmEnv.ofCode arbnoAnyCode [0x61, 0x62, 0x61, 0x62] .bare
  have hend : vmSteps env 20 (vmRunStart (.zero ⟨[], ()⟩)) = .halted true _ :=
    StepResult.eq_halted (by decide +kernel)
  exact vmRun_means .caseSensitive arbnoAny arbnoAnyState env (.zero ⟨[], ()⟩) arbnoAny_compiled
    rfl (by decide) rfl (Nat.zero_le _) (fun _ => rfl) (VmReach.trailFits hend (by decide +kernel))

/-! ## Programs that mean the same -/

/-- Compiled patterns of the same meaning give the same result. -/
theorem Compiled.same_result {cfg : CompilerConfig} {ast ast' : AstNode} {st st' : CompilerState}
    {env env' : VmEnv W} {start final final' : Vm W} {ok ok' : Bool}
    (h : Compiled cfg ast st env.bc) (h' : Compiled cfg ast' st' env'.bc)
    (hsame : Interp.Same (sourceInterp env.s env.host) start.globals (ast.pat cfg) (ast'.pat cfg))
    (hs : env'.s = env.s) (hhost : env'.host = env.host) (hcompact : env.compact = true)
    (hcompact' : env'.compact = true) (hlen : env.s.length + 1 < 2 ^ 32) (hip : start.ip = 0)
    (hpos : start.pos ≤ env.s.length) (hflags : ∀ i, start.loopSpanGreedy i = false)
    (htrail : ∀ vm, VmReach env start vm → vm.toStore.TrailFits env)
    (htrail' : ∀ vm, VmReach env' start vm → vm.toStore.TrailFits env')
    (hrun : VmRun env start ok final) (hrun' : VmRun env' start ok' final') :
    resultState ok final = resultState ok' final' ∧ final.globals = final'.globals := by
  obtain ⟨ends, hends⟩ := exists_means start.globals h.quiet hpos start.regs env.host
  have hends' := (hsame _ _).mp hends
  rw [← hs, ← hhost] at hends'
  obtain ⟨hglobals, hresult⟩ := h.run_eq hcompact hlen hip hpos hflags htrail hrun hends
  obtain ⟨hglobals', hresult'⟩ :=
    h'.run_eq hcompact' (hs ▸ hlen) hip (hs ▸ hpos) hflags htrail' hrun' hends'
  exact ⟨hresult.trans hresult'.symm, hglobals.trans hglobals'.symm⟩

/-- A common continuation may be taken out of the arms of an alternative. -/
theorem vmRun_factored (cfg : CompilerConfig) (a b : AstNode) (rest : List AstNode)
    (st st' : CompilerState) (env env' : VmEnv W) (start : Vm W)
    (h : Compiled cfg (.alt (.concat (a :: rest)) (.concat (b :: rest))) st env.bc)
    (h' : Compiled cfg (.concat (.alt a b :: rest)) st' env'.bc)
    (hs : env'.s = env.s) (hhost : env'.host = env.host) (hcompact : env.compact = true)
    (hcompact' : env'.compact = true) (hlen : env.s.length + 1 < 2 ^ 32) (hip : start.ip = 0)
    (hpos : start.pos ≤ env.s.length) (hflags : ∀ i, start.loopSpanGreedy i = false)
    (htrail : ∀ vm, VmReach env start vm → vm.toStore.TrailFits env)
    (htrail' : ∀ vm, VmReach env' start vm → vm.toStore.TrailFits env') :
    ∃ (ok ok' : Bool) (final final' : Vm W), VmRun env start ok final ∧
      VmRun env' start ok' final' ∧ resultState ok final = resultState ok' final' ∧
      final.globals = final'.globals := by
  obtain ⟨-, ok, final, -, -, hrun, -⟩ := h.search hcompact hlen hip hpos hflags htrail
  obtain ⟨-, ok', final', -, -, hrun', -⟩ :=
    h'.search hcompact' (hs ▸ hlen) hip (hs ▸ hpos) hflags htrail'
  refine ⟨ok, ok', final, final', hrun, hrun', ?_⟩
  refine h.same_result h' (fun s ends => ?_) hs hhost hcompact hcompact' hlen hip hpos hflags
    htrail htrail' hrun hrun'
  exact (Interp.Same.alt_seq (a.pat cfg) (b.pat cfg) (AstNode.patParts cfg rest) s ends).symm

def twoArmsState : CompilerState where
  buf :=
    [3, 0, 0, 0, 9, 0, 0, 0, 28, 4, 0, 0, 0, 18, 0, 0, 0, 2, 97, 98, 5, 0, 1, 2, 0, 0, 0, 41, 4, 0,
      0, 0, 37, 0, 0, 0, 1, 97, 5, 0, 1, 0]
  classes := [⟨[⟨98, 98⟩], false⟩]
  nextLoopId := 0
  labels := []
  splits := [0]

def twoArmsCode : Bytes :=
  twoArmsState.buf ++ trailer twoArmsState.buf.length twoArmsState.classes []

theorem twoArms_compiled : Compiled .caseSensitive
    (.alt (.concat [.literal [0x61, 0x62], .any [0x62]]) (.concat [.literal [0x61], .any [0x62]]))
    twoArmsState twoArmsCode where
  emitted := by decide +kernel
  compiled := by decide +kernel
  unfused := by decide +kernel
  short := by decide
  fold := CompilerConfig.caseSensitive_fits
  classes := by decide
  counts := by decide
  offsets := by decide +kernel
  quiet := ⟨⟨trivial, trivial, trivial⟩, trivial, trivial, trivial⟩
  plain := by decide +kernel

def oneTailState : CompilerState where
  buf :=
    [3, 0, 0, 0, 9, 0, 0, 0, 25, 4, 0, 0, 0, 18, 0, 0, 0, 2, 97, 98, 2, 0, 0, 0, 35, 4, 0, 0, 0, 34,
      0, 0, 0, 1, 97, 5, 0, 1, 0]
  classes := [⟨[⟨98, 98⟩], false⟩]
  nextLoopId := 0
  labels := []
  splits := [0]

def oneTailCode : Bytes :=
  oneTailState.buf ++ trailer oneTailState.buf.length oneTailState.classes []

theorem oneTail_compiled : Compiled .caseSensitive
    (.concat [.alt (.literal [0x61, 0x62]) (.literal [0x61]), .any [0x62]])
    oneTailState oneTailCode where
  emitted := by decide +kernel
  compiled := by decide +kernel
  unfused := by decide +kernel
  short := by decide
  fold := CompilerConfig.caseSensitive_fits
  classes := by decide
  counts := by decide
  offsets := by decide +kernel
  quiet := ⟨⟨trivial, trivial⟩, trivial, trivial⟩
  plain := by decide +kernel

/-- `'ab' ANY('b') | 'a' ANY('b')` and `('ab' | 'a') ANY('b')` on "abab". -/
theorem vmRun_factored_arms :
    ∃ (ok ok' : Bool) (final final' : Vm Unit),
      VmRun (VmEnv.ofCode twoArmsCode [0x61, 0x62, 0x61, 0x62] .bare) (.zero ⟨[], ()⟩) ok final ∧
      VmRun (VmEnv.ofCode oneTailCode [0x61, 0x62, 0x61, 0x62] .bare) (.zero ⟨[], ()⟩) ok' final' ∧
      resultState ok final = resultState ok' final' ∧ final.globals = final'.globals := by
  let env := VmEnv.ofCode twoArmsCode [0x61, 0x62, 0x61, 0x62] .bare
  let env' := VmEnv.ofCode oneTailCode [0x61, 0x62, 0x61, 0x62] .bare
  have hend : vmSteps env 6 (vmRunStart (.zero ⟨[], ()⟩)) = .halted true _ :=
    StepResult.eq_halted (by decide +kernel)
  have hend' : vmSteps env' 7 (vmRunStart (.zero ⟨[], ()⟩)) = .halted true _ :=
    StepResult.eq_halted (by decide +kernel)
  exact vmRun_factored .caseSensitive (.literal [0x61, 0x62]) (.literal [0x61]) [.any [0x62]]
    twoArmsState oneTailState env env' (.zero ⟨[], ()⟩) twoArms_compiled oneTail_compiled rfl rfl
    rfl rfl (by decide) rfl (Nat.zero_le _) (fun _ => rfl)
    (VmReach.trailFits hend (by decide +kernel)) (VmReach.trailFits hend' (by decide +kernel))

end Snobol4
