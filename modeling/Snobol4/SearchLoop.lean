import Snobol4.Vm

/-!
# SearchLoop — the general search tier (`search_tiers.c`)

`tier_general_fallback` runs `vm_exec` at one candidate offset after the other, each time
over the window of the subject that starts there.  The VM is reused; `search_reset_vm`
clears the counts of its registers and not the registers themselves.
-/

namespace Snobol4

variable {W : Type}

/-- The fields of `snobol_search_meta_t` that the tier reads. -/
structure SearchMeta where
  /-- `start_bitmap`, where `has_start_bitmap` is set. -/
  startBitmap : Option (UInt8 → Bool)
  minlength : Nat
  /-- `bmh_skip_len` and `bmh_skip`, where `has_bmh_skip` is set. -/
  bmhSkip : Option (Nat × (UInt8 → Nat))

/-- No metadata. -/
def SearchMeta.empty : SearchMeta := ⟨none, 0, none⟩

/-- The environment of `vm_exec` over the window at `offset`. -/
def VmEnv.window (env : VmEnv W) (offset : Nat) : VmEnv W :=
  { env with
    s := env.s.drop offset
    labelOffsets := registerLabels env.bc }

/-- `search_reset_vm` -/
def searchResetVm (vm : Vm W) : Vm W :=
  { vm with
    ip := 0
    pos := 0
    regs.varCount := 0
    regs.maxCapUsed := 0
    maxCounterUsed := 0
    choices := [] }

/-- The start bitmap rules the candidate out. -/
def SearchMeta.skips (info : SearchMeta) (s : Bytes) (offset : Nat) : Bool :=
  match info.startBitmap, s[offset]? with
  | some bitmap, some b => !bitmap b
  | _, _ => false

/-- The next candidate after a failed attempt. -/
def SearchMeta.advance (info : SearchMeta) (s : Bytes) (offset : Nat) : Nat :=
  match info.bmhSkip with
  | some (len, skip) =>
      if offset + len ≤ s.length then offset + max 1 ((s[offset + len - 1]?).elim 0 skip)
      else offset + 1
  | none => offset + 1

/-- `tier_general_fallback` tries the candidate `offset`. -/
def SearchMeta.Tries (info : SearchMeta) (s : Bytes) (offset : Nat) : Prop :=
  offset ≤ s.length ∧ info.skips s offset = false ∧
    (info.minlength = 0 ∨ offset + info.minlength ≤ s.length)

/-- The loop of `tier_general_fallback` that starts at `start` with the VM `vm₀` comes to
`offset` with the VM in the given state. -/
inductive SearchReach (env : VmEnv W) (info : SearchMeta) (anchored : Bool) (start : Nat)
    (vm₀ : Vm W) : Nat → Vm W → Prop where
  | start : SearchReach env info anchored start vm₀ start vm₀
  | skip {offset : Nat} {vm : Vm W} (h : SearchReach env info anchored start vm₀ offset vm)
      (hskip : info.skips env.s offset = true) :
      SearchReach env info anchored start vm₀ (offset + 1) vm
  | failed {offset : Nat} {vm final : Vm W}
      (h : SearchReach env info anchored start vm₀ offset vm) (htries : info.Tries env.s offset)
      (hexec : VmExec (env.window offset) (searchResetVm vm) false final)
      (habort : final.abortFlag = false) (hlt : offset < env.s.length)
      (hscan : anchored = false) :
      SearchReach env info anchored start vm₀ (info.advance env.s offset) final

/-- `tier_general_fallback` finds a match at `offset`: the attempt there starts from the
VM `vm` and leaves `final`. -/
structure SearchFound (env : VmEnv W) (info : SearchMeta) (anchored : Bool) (start : Nat)
    (vm₀ : Vm W) (offset : Nat) (vm final : Vm W) : Prop where
  reach : SearchReach env info anchored start vm₀ offset vm
  tries : info.Tries env.s offset
  exec : VmExec (env.window offset) (searchResetVm vm) true final

end Snobol4
