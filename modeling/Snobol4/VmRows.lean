import Snobol4.SearchVmSafety
import Snobol4.VmFlow

/-!
# VmRows — a run goes from row to row (`vm_exec.c`)

The program of a compiled pattern is a list of instructions with their addresses.  A run
that starts at the first of them and whose jumps by label lead to one is always at one of
them, and so is every choice point that it has saved.
-/

namespace Snobol4

variable {W : Type}

/-- Structured code at the start of the bytecode, in front of `OP_ACCEPT`. -/
structure Blk.Runs (bc : Bytes) (b : Blk) : Prop where
  code : Blk.Code bc b 0
  accept : fetch bc b.size = some (.accept, b.size + 1)

/-- The address is one of a row of the program. -/
def Blk.IsRow (b : Blk) (a : Nat) : Prop := a ∈ b.program.map Prod.fst

/-- An `OP_GOTO` at the cursor leads to a row. -/
def JumpsToRow (env : VmEnv W) (b : Blk) (vm : Vm W) : Prop :=
  ∀ label next target, fetch env.bc vm.ip = some (.goto label, next) →
    env.labelOffsets[label]? = some target → b.IsRow target

namespace Blk.Runs

variable {bc : Bytes} {b : Blk}

theorem start_isRow (b : Blk) : b.IsRow 0 := by
  have hstart : 0 ∈ boundaries b 0 := start_mem_boundaries b 0
  unfold IsRow program
  rw [List.map_append]
  have hend : boundaries b 0 = (listing b 0).map Prod.fst ++ [size b] := by
    rw [boundaries, Nat.zero_add]
  rw [hend] at hstart
  exact hstart

/-- Behind a row stands the next one. -/
theorem row (h : b.Runs bc) {c : Nat} {instr : Instr} (hmem : (c, instr) ∈ b.program) :
    ∃ next, fetch bc c = some (instr, next) ∧ (b.IsRow next ∨ instr = .accept) := by
  have haccept : b.IsRow b.size :=
    List.mem_map_of_mem (f := Prod.fst) (List.mem_append_right _ (List.mem_singleton_self _))
  obtain hmem | hmem := List.mem_append.mp hmem
  · have hcode := h.code.decodes
    rw [Nat.zero_add] at hcode
    obtain ⟨next, hfetch, hnext⟩ := hcode.next_of_mem hmem
    refine ⟨next, hfetch, .inl ?_⟩
    obtain hnext | rfl := hnext
    · rw [IsRow, program, List.map_append]
      exact List.mem_append_left _ hnext
    · exact haccept
  · cases List.mem_singleton.mp hmem
    exact ⟨_, h.accept, .inr rfl⟩

/-- What the VM fetches at a row. -/
theorem fetched (h : b.Runs bc) {c next : Nat} {instr : Instr} (hrow : b.IsRow c)
    (hfetch : fetch bc c = some (instr, next)) :
    (c, instr) ∈ b.program ∧ (b.IsRow next ∨ instr = .accept) := by
  obtain ⟨⟨c', instr'⟩, hmem, rfl⟩ := List.mem_map.mp hrow
  obtain ⟨next', hfetch', hnext⟩ := h.row hmem
  cases hfetch'.symm.trans hfetch
  exact ⟨hmem, hnext⟩

/-- Where the VM goes on behind an `OP_REPEAT_STEP`. -/
theorem repeatStep_next {b : Blk} {a c loop target : Nat} (hcode : Code bc b a)
    (hmem : (c, Instr.repeatStep loop target) ∈ listing b a) :
    fetch bc c = some (.repeatStep loop target, c + 6) := by
  induction b generalizing a with
  | skip => cases hmem
  | leaf l =>
    obtain ⟨-, hinstr⟩ := Prod.mk.inj (List.mem_singleton.mp hmem)
    cases l <;> cases hinstr
  | seq p q ihp ihq =>
    obtain ⟨hp, hq⟩ := hcode.seq
    obtain hmem | hmem := List.mem_append.mp hmem
    · exact ihp hp hmem
    · exact ihq hq hmem
  | alt p q ihp ihq =>
    obtain ⟨-, hp, -, hq⟩ := hcode.alt
    simp only [listing_of_alt, List.mem_cons, List.mem_append, Prod.mk.injEq, reduceCtorEq,
      and_false, false_or] at hmem
    obtain hmem | hmem := hmem
    · exact ihp hp hmem
    · exact ihq hq hmem
  | loop k body ih =>
    obtain ⟨-, hbody, hstep⟩ := hcode.loop
    simp only [listing_of_loop, List.mem_cons, List.mem_append, Prod.mk.injEq, reduceCtorEq,
      and_false, false_or, List.not_mem_nil, or_false] at hmem
    obtain hmem | ⟨rfl, hinstr⟩ := hmem
    · exact ih hbody hmem
    · rw [hinstr, hstep]
      congr 2
      omega

/-- The successors of a row are rows. -/
theorem successor (h : b.Runs bc) {labels : List Nat} {c next target : Nat} {instr : Instr}
    (hrow : b.IsRow c) (hfetch : fetch bc c = some (instr, next))
    (hgoto : ∀ label, instr = .goto label → labels[label]? = some target → b.IsRow target)
    (htarget : target ∈ instr.successors labels c next) :
    b.IsRow target := by
  obtain ⟨hmem, hnext⟩ := h.fetched hrow hfetch
  have hbranch : ∀ t ∈ instr.branches, b.IsRow t := fun t => branch_mem_program hmem
  cases instr with
  | prim p =>
    obtain rfl := List.mem_singleton.mp htarget
    exact hnext.resolve_right (by simp)
  | fence =>
    obtain rfl := List.mem_singleton.mp htarget
    exact hnext.resolve_right (by simp)
  | jmp t => exact hbranch _ htarget
  | split a b => exact hbranch _ htarget
  | repeatInit loop min max skip =>
    simp only [Instr.successors] at htarget
    split at htarget
    · simp only [List.mem_cons, List.not_mem_nil, or_false] at htarget
      obtain rfl | rfl := htarget
      · exact hnext.resolve_right (by simp)
      · exact hbranch _ (List.mem_singleton_self _)
    · obtain rfl := List.mem_singleton.mp htarget
      exact hnext.resolve_right (by simp)
  | repeatStep loop t =>
    have hback : next = c + 6 := by
      obtain hcode | hend := List.mem_append.mp hmem
      · cases (repeatStep_next h.code hcode).symm.trans hfetch
        rfl
      · cases List.mem_singleton.mp hend
    simp only [Instr.successors] at htarget
    split at htarget
    · simp only [List.mem_cons, List.not_mem_nil, or_false] at htarget
      obtain rfl | rfl | rfl := htarget
      · exact hnext.resolve_right (by simp)
      · exact hbranch _ (List.mem_singleton_self _)
      · rw [hback, Nat.add_sub_cancel]
        exact hrow
    · obtain rfl := List.mem_singleton.mp htarget
      exact hnext.resolve_right (by simp)
  | goto label =>
    exact hgoto label rfl (Option.mem_toList.mp htarget)
  | breakx setId =>
    simp only [Instr.successors, List.mem_cons, List.not_mem_nil, or_false] at htarget
    obtain rfl | rfl := htarget
    · exact hnext.resolve_right (by simp)
    · exact hrow
  | accept | fail | abort | succeed | unknown => cases htarget

end Blk.Runs

/-! ## Bound tables -/

/-- The instruction without the id of its table. -/
def Instr.unbound : Instr → Instr
  | .prim (.tableGet _ key dest) => .prim (.tableGet Leaf.unboundTable key dest)
  | .prim (.tableSet _ key value) => .prim (.tableSet Leaf.unboundTable key value)
  | instr => instr

namespace Instr

@[simp] theorem successors_unbound (instr : Instr) (labels : List Nat) (ip next : Nat) :
    instr.unbound.successors labels ip next = instr.successors labels ip next := by
  cases instr with
  | prim p => cases p <;> rfl
  | _ => rfl

theorem unbound_eq_goto {instr : Instr} {label : Nat} :
    instr.unbound = .goto label ↔ instr = .goto label := by
  cases instr with
  | prim p => cases p <;> simp [unbound]
  | _ => exact Iff.rfl

end Instr

/-- The instructions of the rows are those of the code `bc`, with tables bound. -/
def Rebound (bc bc' : Bytes) (b : Blk) : Prop :=
  ∀ c instr next, b.IsRow c → fetch bc' c = some (instr, next) →
    fetch bc c = some (instr.unbound, next)

/-- The compiler leaves every table unbound. -/
theorem Blk.unbound_of_mem {b : Blk} {c : Nat} {instr : Instr} (hmem : (c, instr) ∈ b.program) :
    instr.unbound = instr := by
  have hlisting : ∀ a, (c, instr) ∈ listing b a → instr.unbound = instr := by
    clear hmem
    intro a hmem
    induction b generalizing a with
    | skip => cases hmem
    | leaf l =>
      obtain ⟨-, rfl⟩ := Prod.mk.inj (List.mem_singleton.mp hmem)
      cases l <;> rfl
    | seq p q ihp ihq =>
      obtain hmem | hmem := List.mem_append.mp hmem
      · exact ihp _ hmem
      · exact ihq _ hmem
    | alt p q ihp ihq =>
      simp only [listing_of_alt, List.mem_cons, List.mem_append, Prod.mk.injEq] at hmem
      obtain ⟨-, rfl⟩ | hmem | ⟨-, rfl⟩ | hmem := hmem
      · rfl
      · exact ihp _ hmem
      · rfl
      · exact ihq _ hmem
    | loop k body ih =>
      simp only [listing_of_loop, List.mem_cons, List.mem_append, Prod.mk.injEq, List.not_mem_nil,
        or_false] at hmem
      obtain ⟨-, rfl⟩ | hmem | ⟨-, rfl⟩ := hmem
      · rfl
      · exact ih _ hmem
      · rfl
  obtain hmem | hmem := List.mem_append.mp hmem
  · exact hlisting 0 hmem
  · cases List.mem_singleton.mp hmem
    rfl

theorem Blk.Runs.rebound {bc : Bytes} {b : Blk} (h : b.Runs bc) : Rebound bc bc b := by
  intro c instr next hrow hfetch
  rw [Blk.unbound_of_mem (h.fetched hrow hfetch).1]
  exact hfetch

/-- A run whose jumps by label lead to rows, whatever its tables are bound to. -/
theorem Blk.Runs.within_rebound {bc : Bytes} {env : VmEnv W} {b : Blk} (h : b.Runs bc)
    (hbound : Rebound bc env.bc b) {start : Vm W} (hip : start.ip = 0)
    (hgoto : ∀ vm, VmReach env start vm → b.IsRow vm.ip → JumpsToRow env b vm) {vm : Vm W}
    (hvm : VmReach env start vm) : vm.Within b.IsRow := by
  induction hvm with
  | start =>
    refine ⟨?_, nofun⟩
    rw [show (vmRunStart start).ip = 0 from hip]
    exact start_isRow b
  | @step vm vm' hvm hstep ih =>
    have hkeeps : Keeps env.bc vm.ip b.IsRow (vmStep env vm) := by
      refine ih.step fun instr next target hfetch _ htarget => ?_
      rw [← Instr.successors_unbound] at htarget
      refine h.successor ih.ip (hbound _ _ _ ih.ip hfetch) (fun label heq => ?_) htarget
      rw [Instr.unbound_eq_goto] at heq
      exact hgoto vm hvm ih.ip label next target (heq ▸ hfetch)
    rw [hstep] at hkeeps
    cases hkeeps with
    | running h => exact h

/-- The same for code whose tables are not bound. -/
theorem Blk.Runs.within {env : VmEnv W} {b : Blk} (h : b.Runs env.bc) {start : Vm W}
    (hip : start.ip = 0)
    (hgoto : ∀ vm, VmReach env start vm → b.IsRow vm.ip → JumpsToRow env b vm) {vm : Vm W}
    (hvm : VmReach env start vm) : vm.Within b.IsRow :=
  h.within_rebound h.rebound hip hgoto hvm

/-- Compiled code runs. -/
theorem CompiledAs.runs {cfg : CompilerConfig} {ast : AstNode} {st : CompilerState} {bc : Bytes}
    {b b' : Blk} (h : CompiledAs cfg ast st bc b b') : b'.Runs bc := ⟨h.code, h.fetch_accept⟩

end Snobol4
