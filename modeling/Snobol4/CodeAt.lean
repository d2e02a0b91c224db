import Snobol4.Code

/-!
# CodeAt — what is still to be matched, as an address

The instruction pointer stands for the list of items still to be matched: the code
at the pointer is the code of the first item, and behind it stands the rest.  A
pointer that reaches `OP_JMP` is at the end of a left arm, one that reaches
`OP_REPEAT_STEP` at the end of an iteration.
-/

namespace Snobol4

/-- Items to be matched over compiled code. -/
abbrev BlkItem := Pat.Item (Leaf Nat) LoopSpec

/-- The items `κ` are what the code at `ip` still has to match. -/
inductive ItemsAt (bc : Bytes) : List BlkItem → Nat → Prop where
  | accept {ip : Nat} (h : fetch bc ip = some (.accept, ip + 1)) : ItemsAt bc [] ip
  | pat {p : Blk} {κ : List BlkItem} {ip : Nat} (h : Blk.Code bc p ip)
      (hκ : ItemsAt bc κ (ip + p.size)) : ItemsAt bc (.pat p :: κ) ip
  | jmp {κ : List BlkItem} {ip target next : Nat} (h : fetch bc ip = some (.jmp target, next))
      (hκ : ItemsAt bc κ target) : ItemsAt bc (.join :: κ) ip
  | join {κ : List BlkItem} {ip : Nat} (hκ : ItemsAt bc κ ip) : ItemsAt bc (.join :: κ) ip
  | iter {k : LoopSpec} {body : Blk} {count mark a : Nat} {κ : List BlkItem}
      (h : Blk.Code bc (.loop k body) a) (hκ : ItemsAt bc κ (a + 20 + body.size)) :
      ItemsAt bc (.iter k body count mark :: κ) (a + 14 + body.size)

/-- Items whose first one has an instruction of its own, at that instruction. -/
inductive HeadAt (bc : Bytes) : List BlkItem → Nat → Prop where
  | accept {ip : Nat} (h : fetch bc ip = some (.accept, ip + 1)) : HeadAt bc [] ip
  | leaf {l : Leaf Nat} {κ : List BlkItem} {ip : Nat} (h : Blk.Code bc (.leaf l) ip)
      (hκ : ItemsAt bc κ (ip + l.size)) : HeadAt bc (.pat (.leaf l) :: κ) ip
  | alt {p q : Blk} {κ : List BlkItem} {ip : Nat} (h : Blk.Code bc (.alt p q) ip)
      (hκ : ItemsAt bc κ (ip + 14 + p.size + q.size)) : HeadAt bc (.pat (.alt p q) :: κ) ip
  | loop {k : LoopSpec} {body : Blk} {κ : List BlkItem} {ip : Nat}
      (h : Blk.Code bc (.loop k body) ip) (hκ : ItemsAt bc κ (ip + 20 + body.size)) :
      HeadAt bc (.pat (.loop k body) :: κ) ip
  | jmp {κ : List BlkItem} {ip target next : Nat} (h : fetch bc ip = some (.jmp target, next))
      (hκ : ItemsAt bc κ target) : HeadAt bc (.join :: κ) ip
  | iter {k : LoopSpec} {body : Blk} {count mark a : Nat} {κ : List BlkItem}
      (h : Blk.Code bc (.loop k body) a) (hκ : ItemsAt bc κ (a + 20 + body.size)) :
      HeadAt bc (.iter k body count mark :: κ) (a + 14 + body.size)

/-- A step that takes no instruction: an empty pattern, the parts of a sequence, the
end of an alternative that is reached without its `OP_JMP`. -/
inductive Silent : List BlkItem → List BlkItem → Prop where
  | skip (κ : List BlkItem) : Silent (.pat .skip :: κ) κ
  | seq (p q : Blk) (κ : List BlkItem) : Silent (.pat (.seq p q) :: κ) (.pat p :: .pat q :: κ)
  | join (κ : List BlkItem) : Silent (.join :: κ) κ

/-- Silent steps. -/
abbrev Silents := Relation.ReflTransGen Silent

/-- A silent step is a step of every search. -/
theorem Silent.moves {σ γ : Type} {R : Pat.Rules (Leaf Nat) LoopSpec σ γ} {κ κ' : List BlkItem}
    (h : Silent κ κ') (s : σ) (g : γ) : Pat.Moves R ⟨κ, s⟩ g (.go ⟨κ', s⟩ g []) := by
  cases h with
  | skip => exact .skip κ' s g
  | seq p q κ => exact .seq p q κ s g
  | join => exact .join κ' s g

/-- A pattern in front of items that reach an instruction reaches one itself. -/
private theorem head_pat {bc : Bytes} (p : Blk) :
    ∀ {κ : List BlkItem} {ip : Nat}, Blk.Code bc p ip → ItemsAt bc κ (ip + p.size) →
      (∃ κ', Silents κ κ' ∧ HeadAt bc κ' (ip + p.size)) →
      ∃ κ', Silents (.pat p :: κ) κ' ∧ HeadAt bc κ' ip := by
  induction p with
  | skip =>
    intro κ ip _ _ ⟨κ', hsilent, hhead⟩
    exact ⟨κ', .head (.skip κ) hsilent, hhead⟩
  | leaf l => exact fun h hκ _ => ⟨_, .refl, .leaf h hκ⟩
  | seq p q ihp ihq =>
    intro κ ip h hκ hrest
    obtain ⟨hp, hq⟩ := h.seq
    simp only [Blk.size, ← Nat.add_assoc] at hκ hrest
    obtain ⟨κ', hsilent, hhead⟩ := ihp hp (.pat hq hκ) (ihq hq hκ hrest)
    exact ⟨κ', .head (.seq p q κ) hsilent, hhead⟩
  | alt p q ihp ihq =>
    intro κ ip h hκ _
    simp only [Blk.size, ← Nat.add_assoc] at hκ
    exact ⟨_, .refl, .alt h hκ⟩
  | loop k body ih =>
    intro κ ip h hκ _
    simp only [Blk.size, ← Nat.add_assoc] at hκ
    exact ⟨_, .refl, .loop h hκ⟩

/-- Silent steps lead to an item with an instruction. -/
theorem ItemsAt.head {bc : Bytes} {κ : List BlkItem} {ip : Nat} (h : ItemsAt bc κ ip) :
    ∃ κ', Silents κ κ' ∧ HeadAt bc κ' ip := by
  induction h with
  | accept h => exact ⟨_, .refl, .accept h⟩
  | pat h hκ ih => exact head_pat _ h hκ ih
  | jmp h hκ ih => exact ⟨_, .refl, .jmp h hκ⟩
  | @join κ ip hκ ih =>
    obtain ⟨κ', hsilent, hhead⟩ := ih
    exact ⟨κ', .head (.join κ) hsilent, hhead⟩
  | iter h hκ ih => exact ⟨_, .refl, .iter h hκ⟩

end Snobol4
