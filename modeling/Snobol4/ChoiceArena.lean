import Mathlib.Algebra.Ring.Nat
import Snobol4.Bytes
import Snobol4.Support.Memory

/-!
# ChoiceArena — the memory of the choice stack (`vm_choice.c`)

Records of any size stand one behind the other in the used part of a page, each between two words
with its size, and a record for which the page has no room opens another page.  `ArenaLayout`
follows the records from the newest down: what is used of the pages is exactly these records, so
the trailing word of the current page belongs to the newest one.
-/

namespace Snobol4

open Memory

/-! ## The arena -/

/-- `CHOICE_ARENA_PAGE_SIZE` -/
def choiceArenaPageSize : Nat := 4096

/-- `ChoiceArenaPage`; its `cap` is the length of `data`. -/
structure ChoiceArenaPage where
  data : Bytes
  used : Nat
  deriving Repr, DecidableEq

def ChoiceArenaPage.cap (p : ChoiceArenaPage) : Nat := p.data.length

/-- `ChoiceArena`: the current page, and the pages that `prev` leads to from there, the head last.
All pages are in memory together, so no sum of their sizes exceeds a `size_t`. -/
structure ChoiceArena where
  cur : ChoiceArenaPage
  below : List ChoiceArenaPage
  totalUsed : Nat
  peakUsed : Nat
  lastRecSize : Nat
  deriving Repr, DecidableEq

/-- `snobol_malloc`, which leaves in the memory what was there. -/
def snobolMalloc (fresh : Nat → UInt8) (n : Nat) : Bytes := (List.range n).map fresh

/-- `vm_arena_create` -/
def vmArenaCreate (fresh : Nat → UInt8) : ChoiceArena where
  cur := { data := snobolMalloc fresh choiceArenaPageSize, used := 0 }
  below := []
  totalUsed := 0
  peakUsed := 0
  lastRecSize := 0

/-- `vm_arena_reset`: the pages behind the head are freed. -/
def vmArenaReset (a : ChoiceArena) : ChoiceArena where
  cur := { (a.cur :: a.below).getLast (List.cons_ne_nil _ _) with used := 0 }
  below := []
  totalUsed := 0
  peakUsed := 0
  lastRecSize := 0

/-- `arena_new_page` -/
def arenaNewPage (fresh : Nat → UInt8) (need : Nat) : ChoiceArenaPage where
  data := snobolMalloc fresh
    (if need > choiceArenaPageSize then need else choiceArenaPageSize)
  used := 0

/-- `aligned_payload + (2 * sizeof(uint32_t)) + 8`, where `aligned_payload` is
`(payload_len + 7) & ~(size_t)7`. -/
def footprint (payloadLen : Nat) : Nat := (payloadLen + 7) / 8 * 8 + 2 * 4 + 8

/-- The part of `vm_arena_alloc` that writes the two words at the end of a page. -/
def ChoiceArenaPage.extend (p : ChoiceArenaPage) (footprint : Nat) : ChoiceArenaPage where
  data := storeWord (storeWord p.data p.used footprint) (p.used + footprint - 4) footprint
  used := p.used + footprint

/-- `vm_arena_alloc`: the arena, and the payload area as an offset in the current page. -/
def vmArenaAlloc (a : ChoiceArena) (payloadLen : Nat) (fresh : Nat → UInt8) :
    Nat × ChoiceArena :=
  let size := footprint payloadLen
  let (page, below) :=
    if a.cur.used + size > a.cur.cap then (arenaNewPage fresh size, a.cur :: a.below)
    else (a.cur, a.below)
  let total := a.totalUsed + size
  (page.used + 8,
    { cur := page.extend size
      below := below
      totalUsed := total
      peakUsed := if total > a.peakUsed then total else a.peakUsed
      lastRecSize := size })

/-- The trailing size word before the page tail. -/
def ChoiceArenaPage.trailing (p : ChoiceArenaPage) : Nat := loadWord p.data (p.used - 4)

/-- `vm_arena_pop_last` -/
def vmArenaPopLast (a : ChoiceArena) : ChoiceArena :=
  if a.totalUsed = 0 then a
  else
    let size := a.cur.trailing
    let page := { a.cur with used := a.cur.used - size }
    let (page, below) :=
      match a.below with
      | [] => (page, [])
      | prev :: below => if page.used = 0 then (prev, below) else (page, prev :: below)
    { a with
      cur := page
      below := below
      totalUsed := a.totalUsed - size
      lastRecSize := if page.used > 0 then page.trailing else 0 }

/-- The record that `vm_pop_choice` restores the VM from: the number of its page, counted from the
head, and its offset there. -/
def vmPopChoiceRecord (a : ChoiceArena) : Option (Nat × Nat) :=
  if a.totalUsed = 0 then none else some (a.below.length, a.cur.used - a.cur.trailing)

/-- A page by its number. -/
def ChoiceArena.page (a : ChoiceArena) (n : Nat) : Option ChoiceArenaPage :=
  (a.cur :: a.below).reverse[n]?

/-! ## Runs -/

/-- A record as it was when its payload had been stored. -/
structure ChoiceRecord where
  page : Nat
  base : Nat
  payload : Bytes
  bytes : Bytes
  deriving Repr, DecidableEq

def ChoiceRecord.size (r : ChoiceRecord) : Nat := footprint r.payload.length

/-- What the VM does with the arena: it allocates a record and stores its payload there, as
`vm_push_choice` does, pops one, or resets the arena. -/
inductive ArenaOp where
  | push (payload : Bytes) (fresh : Nat → UInt8)
  | pop
  | reset

/-- The size of the record fits its words. -/
def ArenaOp.Fits : ArenaOp → Prop
  | .push payload _ => footprint payload.length < 2 ^ 32
  | .pop | .reset => True

/-- The arena, and as a ghost the records that are live, the newest first. -/
structure ArenaRun where
  arena : ChoiceArena
  live : List ChoiceRecord
  deriving Repr, DecidableEq

/-- The payload is stored in the current page. -/
def ChoiceArena.storePayload (a : ChoiceArena) (off : Nat) (payload : Bytes) : ChoiceArena :=
  { a with cur := { a.cur with data := overwrite a.cur.data off payload } }

def arenaStep (s : ArenaRun) : ArenaOp → ArenaRun
  | .push payload fresh =>
      let (off, allocated) := vmArenaAlloc s.arena payload.length fresh
      let arena := allocated.storePayload off payload
      { arena := arena
        live :=
          { page := arena.below.length
            base := off - 8
            payload := payload
            bytes := read arena.cur.data (off - 8) (footprint payload.length) } :: s.live }
  | .pop => { arena := vmArenaPopLast s.arena, live := s.live.tail }
  | .reset => { arena := vmArenaReset s.arena, live := [] }

def arenaRun (fresh : Nat → UInt8) (ops : List ArenaOp) : ArenaRun :=
  ops.foldl arenaStep { arena := vmArenaCreate fresh, live := [] }

/-! ## A record in its page -/

/-- The record is in the used part of the page: its bytes are those it had, its size stands at
both ends, and its payload behind the first. -/
structure ChoiceRecord.Held (r : ChoiceRecord) (p : ChoiceArenaPage) : Prop where
  within : r.base + r.size ≤ p.used
  inside : p.used ≤ p.data.length
  bytes : read p.data r.base r.size = r.bytes
  leading : loadWord p.data r.base = r.size
  trailing : loadWord p.data (r.base + r.size - 4) = r.size
  payload : read p.data (r.base + 8) r.payload.length = r.payload

section records

variable {r : ChoiceRecord} {p : ChoiceArenaPage} {data : Bytes} {used n : Nat}

theorem footprint_room : n + 16 ≤ footprint n := by
  unfold footprint
  omega

theorem ChoiceRecord.size_room : r.payload.length + 16 ≤ r.size := footprint_room

/-- The record is held as long as the used part of the page has the same front. -/
theorem ChoiceRecord.Held.keep (h : r.Held p) (hwithin : r.base + r.size ≤ used)
    (hinside : used ≤ data.length)
    (hdata : data.take (r.base + r.size) = p.data.take (r.base + r.size)) :
    r.Held { data := data, used := used } := by
  have hroom := r.size_room
  refine ⟨hwithin, hinside, ?_, ?_, ?_, ?_⟩
  · exact (read_congr hdata (Nat.le_refl _)).trans h.bytes
  · exact (congrArg wordOf (read_congr hdata (by omega))).trans h.leading
  · exact (congrArg wordOf (read_congr hdata (by omega))).trans h.trailing
  · exact (read_congr hdata (by omega)).trans h.payload

/-- A page that is extended by a record holds it behind what was used. -/
theorem held_extend {payload : Bytes} (hfits : footprint payload.length < 2 ^ 32)
    (hroom : p.used + footprint payload.length ≤ p.data.length) :
    let data := overwrite (p.extend (footprint payload.length)).data (p.used + 8) payload
    data.take p.used = p.data.take p.used ∧ data.length = p.data.length ∧
      loadWord data p.used = footprint payload.length ∧
      loadWord data (p.used + footprint payload.length - 4) = footprint payload.length ∧
      read data (p.used + 8) payload.length = payload := by
  have hsize := @footprint_room payload.length
  generalize footprint payload.length = size at *
  have hfirst : (storeWord p.data p.used size).length = p.data.length :=
    length_overwrite (show p.used + 4 ≤ _ by omega)
  have hsecond : (p.extend size).data.length = p.data.length :=
    (length_overwrite (show p.used + size - 4 + 4 ≤ _ by omega)).trans hfirst
  refine ⟨?_, ?_, ?_, ?_, ?_⟩
  · rw [take_overwrite (by omega) (by omega)]
    exact (take_overwrite (by omega) (by omega)).trans (take_overwrite (by omega) (by omega))
  · rw [length_overwrite (by omega), hsecond]
  · rw [loadWord, read_overwrite_before (by omega) (by omega), ChoiceArenaPage.extend]
    dsimp only
    rw [storeWord, read_overwrite_before (by omega) (by omega)]
    exact loadWord_storeWord (by omega) hfits
  · rw [loadWord, read_overwrite_behind (by omega) (by omega), ChoiceArenaPage.extend]
    exact loadWord_storeWord (by omega) hfits
  · exact read_overwrite (by omega)

end records

/-! ## The records of the pages -/

/-- The record is the last one in the used part of a page with this number. -/
structure ChoiceRecord.Ends (r : ChoiceRecord) (number : Nat) (p : ChoiceArenaPage) : Prop
    extends r.Held p where
  number : r.page = number
  last : r.base + r.size = p.used

/-- The used parts of the pages, the current page first, are the records, the newest first.  Only
the head may be unused, when it is alone or when the first record was too large for it. -/
inductive ArenaLayout : List ChoiceArenaPage → List ChoiceRecord → Prop where
  | start (data : Bytes) : ArenaLayout [{ data := data, used := 0 }] []
  | record {p below live r} (h : ArenaLayout ({ p with used := r.base } :: below) live)
      (hr : r.Ends below.length p) : ArenaLayout (p :: below) (r :: live)
  | page {p below live r} (h : ArenaLayout below live) (hbase : r.base = 0)
      (hr : r.Ends below.length p) : ArenaLayout (p :: below) (r :: live)

section stack

variable {r : ChoiceRecord} {p : ChoiceArenaPage} {pages below : List ChoiceArenaPage}
  {live : List ChoiceRecord} {number : Nat} {data payload : Bytes}

theorem ChoiceRecord.Ends.used_pos (h : r.Ends number p) : 0 < p.used := by
  have hroom := r.size_room
  have hlast := h.last
  omega

theorem ChoiceRecord.Ends.keep (h : r.Ends number p)
    (hdata : data.take p.used = p.data.take p.used) (hlength : data.length = p.data.length) :
    r.Ends number { p with data := data } where
  toHeld := by
    refine h.toHeld.keep h.within (hlength ▸ h.inside) ?_
    rw [h.last]
    exact hdata
  number := h.number
  last := h.last

theorem ends_extend (hfits : footprint payload.length < 2 ^ 32)
    (hroom : p.used + footprint payload.length ≤ p.data.length) (number : Nat) :
    let data := overwrite (p.extend (footprint payload.length)).data (p.used + 8) payload
    ChoiceRecord.Ends
      { page := number
        base := p.used
        payload := payload
        bytes := read data p.used (footprint payload.length) } number
      { data := data, used := p.used + footprint payload.length } := by
  obtain ⟨-, hlength, hleading, htrailing, hpayload⟩ := held_extend hfits hroom
  exact ⟨⟨Nat.le_refl _, Nat.le_trans hroom (Nat.le_of_eq hlength.symm), rfl, hleading, htrailing,
    hpayload⟩, rfl, rfl⟩

namespace ArenaLayout

theorem ne_nil (h : ArenaLayout pages live) : pages ≠ [] := by
  cases h with
  | start | record | page => exact List.cons_ne_nil _ _

/-- The current page is in use exactly if a record is live. -/
theorem used_pos_iff (h : ArenaLayout (p :: below) live) : 0 < p.used ↔ live ≠ [] := by
  cases h with
  | start => exact iff_of_false (Nat.lt_irrefl 0) fun h => h rfl
  | record _ hr | page _ _ hr => exact iff_of_true hr.used_pos (List.cons_ne_nil _ _)

/-- An unused page is the head. -/
theorem below_eq_nil (h : ArenaLayout (p :: below) live) (hused : p.used = 0) : below = [] := by
  cases h with
  | start => rfl
  | record _ hr | page _ _ hr => exact absurd hused (Nat.ne_of_gt hr.used_pos)

/-- The newest record is the last one in the current page. -/
theorem ends (h : ArenaLayout (p :: below) (r :: live)) : r.Ends below.length p := by
  cases h with
  | record _ hr | page _ _ hr => exact hr

/-- What is not used of the current page does not matter. -/
theorem keep (h : ArenaLayout pages live) : ∀ {p below}, pages = p :: below → ∀ {data : Bytes},
    data.take p.used = p.data.take p.used → data.length = p.data.length →
    ArenaLayout ({ p with data := data } :: below) live := by
  induction h with
  | start =>
    rintro p below ⟨⟩ data - -
    exact .start data
  | record _ hr ih =>
    rintro p below ⟨⟩ data hdata hlength
    refine .record (ih rfl (take_congr hdata ?_) hlength) (hr.keep hdata hlength)
    exact Nat.le_trans (Nat.le_add_right _ _) hr.within
  | page h hbase hr =>
    rintro p below ⟨⟩ data hdata hlength
    exact .page h hbase (hr.keep hdata hlength)

/-- The size in front of the end of the current page is that of the newest record. -/
theorem trailing_eq (h : ArenaLayout (p :: below) live) :
    (if p.used > 0 then p.trailing else 0) = (live.head?.map ChoiceRecord.size).getD 0 := by
  cases h with
  | start => rfl
  | record _ hr | page _ _ hr =>
    rw [if_pos hr.used_pos, ChoiceArenaPage.trailing, ← hr.last, hr.trailing]
    rfl

/-- A record is allocated. -/
theorem alloc {a : ChoiceArena} (h : ArenaLayout (a.cur :: a.below) live)
    (hfits : footprint payload.length < 2 ^ 32) (fresh : Nat → UInt8) :
    let s := arenaStep { arena := a, live := live } (.push payload fresh)
    ArenaLayout (s.arena.cur :: s.arena.below) s.live := by
  dsimp only [arenaStep, vmArenaAlloc, ChoiceArena.storePayload]
  rw [Nat.add_sub_cancel]
  by_cases hfull : a.cur.used + footprint payload.length > a.cur.cap
  · -- on a page of its own, or the first on a page
    rw [if_pos hfull]
    refine .page h rfl (ends_extend hfits ?_ _)
    simp only [arenaNewPage, snobolMalloc, List.length_map, List.length_range]
    split <;> omega
  · rw [if_neg hfull]
    have hroom : a.cur.used + footprint payload.length ≤ a.cur.data.length := Nat.le_of_not_lt hfull
    obtain ⟨hdata, hlength, -⟩ := held_extend hfits hroom
    exact .record (h.keep rfl hdata hlength) (ends_extend hfits hroom _)

/-- The newest record is removed, with its page if it was the first there. -/
theorem pop {a : ChoiceArena} (h : ArenaLayout (a.cur :: a.below) (r :: live))
    (htotal : a.totalUsed ≠ 0) :
    ArenaLayout ((vmArenaPopLast a).cur :: (vmArenaPopLast a).below) live ∧
      (vmArenaPopLast a).totalUsed = a.totalUsed - r.size := by
  obtain ⟨cur, pages, total, peak, last⟩ := a
  dsimp only at h htotal
  have htrailing : cur.trailing = r.size := by
    have htail := h.trailing_eq
    rw [if_pos (h.used_pos_iff.mpr (List.cons_ne_nil _ _))] at htail
    exact htail
  rw [vmArenaPopLast, if_neg htotal, htrailing]
  refine ⟨?_, rfl⟩
  dsimp only
  cases h with
  | record h hr =>
    have hbase : cur.used - r.size = r.base := by
      have hlast := hr.last
      omega
    rw [hbase]
    cases hbelow : pages with
    | nil =>
      rw [hbelow] at h
      exact h
    | cons prev below =>
      rw [hbelow] at h
      have hused : ¬ r.base = 0 := fun hused => by cases h.below_eq_nil hused
      dsimp only
      rw [if_neg hused]
      exact h
  | page h hbase hr =>
    have hused : cur.used - r.size = 0 := by
      have hlast := hr.last
      omega
    rw [hused]
    obtain ⟨prev, below, hbelow⟩ := List.exists_cons_of_ne_nil h.ne_nil
    rw [hbelow] at h ⊢
    exact h

theorem page_last (p : ChoiceArenaPage) (below : List ChoiceArenaPage) :
    (p :: below).reverse[below.length]? = some p := by
  rw [List.reverse_cons, ← List.length_reverse, List.getElem?_concat_length]

/-- Every live record is in its page. -/
theorem located (h : ArenaLayout pages live) :
    ∀ r ∈ live, ∃ p, pages.reverse[r.page]? = some p ∧ r.Held p := by
  induction h with
  | start => exact List.forall_mem_nil _
  | @record p below live r h hr ih =>
    refine List.forall_mem_cons.mpr ⟨⟨p, hr.number ▸ page_last p below, hr.toHeld⟩, ?_⟩
    intro r' hr'
    obtain ⟨q, hq, hheld⟩ := ih r' hr'
    rw [List.reverse_cons, List.getElem?_append] at hq ⊢
    split at hq
    · rename_i hlt
      rw [if_pos hlt]
      exact ⟨q, hq, hheld⟩
    · -- the page is the same, and more of it is used
      rename_i hlt
      rw [if_neg hlt]
      rw [List.getElem?_singleton] at hq ⊢
      split at hq
      · rename_i hzero
        cases hq
        refine ⟨p, if_pos hzero, hheld.keep ?_ hr.inside rfl⟩
        have hwithin := hr.within
        exact Nat.le_trans hheld.within (Nat.le_trans (Nat.le_add_right _ _) hwithin)
      · cases hq
  | @page p below live r h hbase hr ih =>
    refine List.forall_mem_cons.mpr ⟨⟨p, hr.number ▸ page_last p below, hr.toHeld⟩, ?_⟩
    intro r' hr'
    obtain ⟨q, hq, hheld⟩ := ih r' hr'
    refine ⟨q, ?_, hheld⟩
    rw [List.reverse_cons]
    exact (List.getElem?_append_left (List.getElem?_eq_some_iff.mp hq).1).trans hq

/-- The records do not overlap, and a newer one is behind an older one. -/
theorem ordered (h : ArenaLayout pages live) :
    live.Pairwise fun newer older =>
      older.page < newer.page ∨
        older.page = newer.page ∧ older.base + older.size ≤ newer.base := by
  induction h with
  | start => exact .nil
  | @record p below live r h hr ih =>
    refine .cons (fun older holder => ?_) ih
    obtain ⟨q, hq, hheld⟩ := h.located older holder
    rw [List.reverse_cons, List.getElem?_append] at hq
    rw [hr.number]
    split at hq
    · rename_i hlt
      exact .inl (lt_of_lt_of_eq hlt List.length_reverse)
    · rename_i hge
      rw [List.getElem?_singleton] at hq
      split at hq
      · cases hq
        rw [List.length_reverse] at *
        exact .inr ⟨by omega, hheld.within⟩
      · cases hq
  | @page p below live r h hbase hr ih =>
    refine .cons (fun older holder => ?_) ih
    obtain ⟨q, hq, -⟩ := h.located older holder
    have hlt := (List.getElem?_eq_some_iff.mp hq).1
    rw [hr.number]
    exact .inl (lt_of_lt_of_eq hlt List.length_reverse)

/-- The record that a backtracking step reads is the newest one. -/
theorem record_eq {a : ChoiceArena} (h : ArenaLayout (a.cur :: a.below) live)
    (htotal : a.totalUsed = 0 ↔ live = []) :
    vmPopChoiceRecord a = live.head?.map fun r => (r.page, r.base) := by
  have htrailing := h.trailing_eq
  cases live with
  | nil => exact if_pos (htotal.mpr rfl)
  | cons r live =>
    rw [if_pos (h.used_pos_iff.mpr (List.cons_ne_nil _ _))] at htrailing
    rw [vmPopChoiceRecord, if_neg fun hzero => List.cons_ne_nil _ _ (htotal.mp hzero), htrailing]
    rw [← h.ends.number, ← h.ends.last]
    exact congrArg (fun base => some (r.page, base)) (Nat.add_sub_cancel _ _)

end ArenaLayout

end stack

/-! ## Every run -/

/-- The arena holds the live records, and counts their sizes. -/
structure ArenaRun.Sound (s : ArenaRun) : Prop where
  layout : ArenaLayout (s.arena.cur :: s.arena.below) s.live
  total : s.arena.totalUsed = (s.live.map ChoiceRecord.size).sum

section runs

variable {s : ArenaRun}

/-- Something is in use exactly if a record is live. -/
theorem ArenaRun.Sound.total_eq_zero (h : s.Sound) : s.arena.totalUsed = 0 ↔ s.live = [] := by
  rw [h.total]
  cases s.live with
  | nil => exact iff_of_true rfl rfl
  | cons r live =>
    have hroom := r.size_room
    rw [List.map_cons, List.sum_cons]
    exact iff_of_false (by omega) (List.cons_ne_nil _ _)

theorem ArenaRun.Sound.step (h : s.Sound) {op : ArenaOp} (hfits : op.Fits) :
    (arenaStep s op).Sound := by
  cases op with
  | push payload fresh =>
    refine ⟨h.layout.alloc hfits fresh, ?_⟩
    show s.arena.totalUsed + footprint payload.length = _
    rw [h.total, arenaStep, List.map_cons, List.sum_cons, Nat.add_comm]
    rfl
  | pop =>
    by_cases htotal : s.arena.totalUsed = 0
    · have hlive := h.total_eq_zero.mp htotal
      rw [arenaStep, vmArenaPopLast, if_pos htotal, hlive, List.tail_nil, ← hlive]
      exact h
    · obtain ⟨arena, live⟩ := s
      cases live with
      | nil => exact absurd (h.total_eq_zero.mpr rfl) htotal
      | cons r live =>
        obtain ⟨hlayout, hused⟩ := h.layout.pop htotal
        refine ⟨hlayout, hused.trans ?_⟩
        have hsum := h.total
        rw [List.map_cons, List.sum_cons] at hsum
        exact Nat.sub_eq_of_eq_add' hsum
  | reset => exact ⟨.start _, rfl⟩

theorem ArenaRun.Sound.run (h : s.Sound) {ops : List ArenaOp} (hfits : ∀ op ∈ ops, op.Fits) :
    (ops.foldl arenaStep s).Sound := by
  induction ops generalizing s with
  | nil => exact h
  | cons op ops ih =>
    rw [List.forall_mem_cons] at hfits
    exact ih (h.step hfits.1) hfits.2

end runs

/-! ### The stack -/

/-- What the operations do to a stack of payloads. -/
def stackStep (payloads : List Bytes) : ArenaOp → List Bytes
  | .push payload _ => payload :: payloads
  | .pop => payloads.tail
  | .reset => []

theorem arenaStep_payloads (s : ArenaRun) (op : ArenaOp) :
    (arenaStep s op).live.map ChoiceRecord.payload =
      stackStep (s.live.map ChoiceRecord.payload) op := by
  cases op with
  | push payload fresh => rfl
  | pop => exact List.map_tail
  | reset => rfl

theorem foldl_arenaStep_payloads (s : ArenaRun) (ops : List ArenaOp) :
    (ops.foldl arenaStep s).live.map ChoiceRecord.payload =
      ops.foldl stackStep (s.live.map ChoiceRecord.payload) := by
  induction ops generalizing s with
  | nil => rfl
  | cons op ops ih => rw [List.foldl_cons, List.foldl_cons, ih, arenaStep_payloads]

/-- After any operations the live records are the stack that the operations make, and nothing else
is used of the pages.  Their sizes add up to `total_used`, the current page is in use if and only if
that is positive, each of them has the bytes that it had when it was stored, they do not overlap,
and the next record to be restored and popped is the newest. -/
theorem choiceArena_lifo (fresh : Nat → UInt8) (ops : List ArenaOp)
    (hfits : ∀ op ∈ ops, op.Fits) :
    let s := arenaRun fresh ops
    s.live.map ChoiceRecord.payload = ops.foldl stackStep [] ∧
      ArenaLayout (s.arena.cur :: s.arena.below) s.live ∧
      s.arena.totalUsed = (s.live.map ChoiceRecord.size).sum ∧
      (0 < s.arena.cur.used ↔ 0 < s.arena.totalUsed) ∧
      (∀ r ∈ s.live, ∃ p, s.arena.page r.page = some p ∧ r.Held p) ∧
      (s.live.Pairwise fun newer older =>
        older.page < newer.page ∨
          older.page = newer.page ∧ older.base + older.size ≤ newer.base) ∧
      vmPopChoiceRecord s.arena = s.live.head?.map fun r => (r.page, r.base) := by
  have hcreated : ArenaRun.Sound { arena := vmArenaCreate fresh, live := [] } := ⟨.start _, rfl⟩
  have h : (arenaRun fresh ops).Sound := hcreated.run hfits
  refine ⟨foldl_arenaStep_payloads _ ops, h.layout, h.total, ?_, h.layout.located,
    h.layout.ordered, h.layout.record_eq h.total_eq_zero⟩
  rw [h.layout.used_pos_iff, Nat.pos_iff_ne_zero, ne_eq, ne_eq, h.total_eq_zero]

/-- A record that is larger than a page is stored on a page of its own, between two small ones. -/
theorem choiceArena_lifo_large :
    let large : Bytes := List.replicate 5000 7
    let s := arenaRun (fun _ => 255)
      [.push [1, 2, 3] fun _ => 0, .push large fun _ => 0, .push [4] fun _ => 0, .pop]
    s.live.map ChoiceRecord.payload = [large, [1, 2, 3]] ∧
      s.arena.totalUsed = (s.live.map ChoiceRecord.size).sum := by
  have hlarge : footprint (List.replicate 5000 (7 : UInt8)).length < 2 ^ 32 := by
    rw [List.length_replicate]
    decide
  obtain ⟨hlive, -, htotal, -⟩ := choiceArena_lifo (fun _ => 255)
    [.push [1, 2, 3] fun _ => 0, .push (List.replicate 5000 7) fun _ => 0, .push [4] fun _ => 0,
      .pop]
    (by
      rw [List.forall_mem_cons, List.forall_mem_cons, List.forall_mem_cons,
        List.forall_mem_singleton]
      exact ⟨(by decide : footprint 3 < 2 ^ 32), hlarge, (by decide : footprint 1 < 2 ^ 32),
        trivial⟩)
  exact ⟨hlive, htotal⟩

end Snobol4
