import Snobol4.Code
import Snobol4.Vm

/-!
# Matching — what a leaf does

The meaning of an instruction that leads to the next one, apart from its address:
literals stand inline and classes are looked up by `ranges`, so one definition
serves compiled leaves, whose classes are ids, and source patterns, whose classes
are range lists.
-/

namespace Snobol4

/-- What backtracking restores, apart from the loop registers. -/
structure Local where
  pos : Nat
  regs : Regs

variable {W C : Type}

/-- The move of a plain instruction. -/
def PrimResult.move : PrimResult W → Pat.LeafMove Local (Globals W)
  | .next pos regs _ g => .next ⟨pos, regs⟩ g
  | .fail g => .fail g
  | .leave g => .stop false g

/-- `OP_BREAKX`: the break position, and the retry behind the break character. -/
def breakxMove (s : Bytes) (ranges : Option (List CpRange)) (st : Local) (g : Globals W) :
    Pat.LeafMove Local (Globals W) :=
  let stop := breakTarget s ranges st.pos
  if stop < s.length then
    .choice { st with pos := stop } g { st with pos := stop + (peekCp s stop).elim 1 (·.2) }
  else .next { st with pos := stop } g

namespace Leaf

/-- What a leaf does in front of the subject `s`.  Jumps have no meaning here. -/
def exec (s : Bytes) (host : Host W) (ranges : C → Option (List CpRange)) (l : Leaf C)
    (st : Local) (g : Globals W) : Pat.LeafMove Local (Globals W) :=
  let plain (result : PrimResult W) := result.move
  match l with
  | nop => .next st g
  | lit text => plain (moveTo st.regs g (matchLit s text text.length st.pos))
  | set op c => plain (moveTo st.regs g (matchSet s (ranges c) st.pos op))
  | capStart r => plain (writeRegs st.pos g (opCapStart r st.pos st.regs))
  | capEnd r => plain (writeRegs st.pos g (opCapEnd r st.pos st.regs))
  | assign var r => plain (writeRegs st.pos g (opAssign var r st.regs))
  | count op n => plain (moveTo st.regs g (matchCount s st.pos op n))
  | eval fn r => plain (opEval host s fn r st.pos st.regs g)
  | anchor type => plain (moveTo st.regs g (matchAnchor s st.pos type))
  | emitLiteral text => .next st (emitText host text g)
  | emitCapture r => plain (opEmitCapture host s r st.pos st.regs g)
  | label _ => .next st g
  | tableGet key _ _ => plain (opTableGet host s unboundTable key st.pos st.regs g)
  | tableSet key value _ => plain (opTableSet host s unboundTable key value st.pos st.regs g)
  | bal openCp closeCp => plain (opBal s openCp closeCp st.pos st.regs g)
  | rem => .next { st with pos := s.length } g
  | accept => .stop true g
  | fail => .fail g
  | goto _ => .fail g
  | breakx c => breakxMove s (ranges c) st g
  | fence => .cut st g
  | abort => .stop false g
  | succeed => .stop true g

/-- A leaf that is neither a jump nor the end of the program. -/
def IsStraight : Leaf C → Prop
  | goto _ => False
  | accept => False
  | _ => True

/-- The handler of a plain instruction does what the leaf does. -/
theorem exec_prim {env : VmEnv W} {l : Leaf Nat} {a : Nat} {p : Prim} {st : Local}
    {g : Globals W} (hbytes : l.encode a <+: env.bc.drop a) (h : l.instr a = .prim p) :
    (p.exec env st.pos st.regs g).move = l.exec env.s env.host env.ranges st g := by
  cases l with
  | lit text =>
    have hpayload := payload_eq (by simpa [encode] using hbytes)
    cases h
    simp only [Prim.exec, exec, hpayload]
  | emitLiteral text =>
    have hpayload := payload_eq (by simpa [encode] using hbytes)
    cases h
    simp only [Prim.exec, exec, hpayload, PrimResult.move]
  | accept | fail | goto id | breakx id | fence | abort | succeed => cases h
  | _ => cases h; rfl

end Leaf

end Snobol4
