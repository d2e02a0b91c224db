import Snobol4.ClassText
import Snobol4.CompilerLayout
import Snobol4.TemplateFormat

/-!
# ClassFold — classes when case is ignored (`compiler_analysis.c`, `compiler_codegen.c`)

`add_or_get_charclass` adds the case variants of single characters, of ranges within the
upper-case or the lower-case letters, and of ranges that end above U+007F.  Other ranges stay
as they are, a two-character uppercase is added as two characters, and what maps to a denoted
codepoint without being mapped to by one is left out.
-/

namespace Snobol4

open Utf8 Intervals

/-- The folding of the compiler, from the tables of the library. -/
def CaseFold.ofTables (T : FoldTables) : CaseFold where
  upper cp :=
    match snobolToUpperCp T (.ofNat cp) with
    | [] => (cp, none)
    | [upper] => (upper.toNat, none)
    | upper :: second :: _ => (upper.toNat, some second.toNat)
  lower cp := (snobolToLowerCp T (.ofNat cp)).toNat

/-- Case is ignored. -/
def CompilerConfig.ignoringCase (T : FoldTables) : CompilerConfig where
  caseInsensitive := true
  fold := .ofTables T

/-- The simple case mappings of a codepoint: an uppercase of two characters is none. -/
def simpleVariants (T : FoldTables) (cp : UInt32) : List UInt32 :=
  (match snobolToUpperCp T cp with
    | [upper] => [upper]
    | _ => []) ++ [snobolToLowerCp T cp]

/-- Some simple case mapping of the codepoint is denoted. -/
def DenotesVariant (T : FoldTables) (cs : List Char) (cp : UInt32) : Prop :=
  ∃ v ∈ simpleVariants T cp, Denotes cs v.toNat

/-- The ranges whose variants `add_or_get_charclass` looks for. -/
def CpRange.IsFolded (r : CpRange) : Prop :=
  (0x41 ≤ r.start ∧ r.stop ≤ 0x5A) ∨ (0x61 ≤ r.start ∧ r.stop ≤ 0x7A) ∨ 0x7F < r.stop

/-- The codepoint is an upper or lower case of one that the text names in such a range. -/
def FoldsInto (T : FoldTables) (cs : List Char) (cp : Nat) : Prop :=
  ∃ r ∈ textItems cs, r.IsFolded ∧ ∃ y, r.start ≤ y ∧ y ≤ r.stop ∧
    Covers CpRange.start CpRange.stop (foldVariants (.ofTables T) y) cp

/-! ## The variants that are added -/

section

variable (T : FoldTables) {y cp : Nat}

omit T in
theorem ofNat_ascii (h : y < 0x80) : (UInt32.ofNat y).toNat = y ∧ UInt32.ofNat y < 0x80 := by
  have hnat : (UInt32.ofNat y).toNat = y :=
    UInt32.toNat_ofNat_of_lt (Nat.lt_trans h (by decide))
  refine ⟨hnat, ?_⟩
  rw [UInt32.lt_iff_toNat_lt, hnat]
  exact h

theorem foldVariants_upper (h : 0x41 ≤ y) (h' : y ≤ 0x5A) :
    foldVariants (.ofTables T) y = [⟨y + 32, y + 32⟩] := by
  obtain ⟨hnat, hascii⟩ := ofNat_ascii (Nat.lt_of_le_of_lt h' (by decide))
  have hletter : 0x41 ≤ UInt32.ofNat y ∧ UInt32.ofNat y ≤ 0x5A := by
    simp only [UInt32.le_iff_toNat_le, hnat]
    exact ⟨h, h'⟩
  have hnot : ¬(0x61 ≤ UInt32.ofNat y ∧ UInt32.ofNat y ≤ 0x7A) := by
    simp only [UInt32.le_iff_toNat_le, hnat]
    intro hlow
    have hle : 0x61 ≤ y := hlow.1
    omega
  have hlower : (UInt32.ofNat y + 32).toNat = y + 32 := by
    rw [UInt32.toNat_add, hnat]
    exact Nat.mod_eq_of_lt (show y + 32 < 2 ^ 32 by omega)
  simp [foldVariants, CaseFold.ofTables, snobolToUpperCp, snobolToLowerCp, hascii, hletter, hnot,
    hnat, hlower]

theorem foldVariants_lower (h : 0x61 ≤ y) (h' : y ≤ 0x7A) :
    foldVariants (.ofTables T) y = [⟨y - 32, y - 32⟩] := by
  obtain ⟨hnat, hascii⟩ := ofNat_ascii (Nat.lt_of_le_of_lt h' (by decide))
  have hletter : 0x61 ≤ UInt32.ofNat y ∧ UInt32.ofNat y ≤ 0x7A := by
    simp only [UInt32.le_iff_toNat_le, hnat]
    exact ⟨h, h'⟩
  have hnot : ¬(0x41 ≤ UInt32.ofNat y ∧ UInt32.ofNat y ≤ 0x5A) := by
    simp only [UInt32.le_iff_toNat_le, hnat]
    intro hup
    have hle : y ≤ 0x5A := hup.2
    omega
  have hle : (32 : UInt32) ≤ UInt32.ofNat y := by
    rw [UInt32.le_iff_toNat_le, hnat]
    exact Nat.le_trans (by decide) h
  have hupper : (UInt32.ofNat y - 32).toNat = y - 32 := by
    rw [UInt32.toNat_sub_of_le _ _ hle, hnat]
    rfl
  have hne : y - 32 ≠ y := by omega
  simp [foldVariants, CaseFold.ofTables, snobolToUpperCp, snobolToLowerCp, hascii, hletter, hnot,
    hnat, hupper, hne]

end

theorem foldVariants_valid (fold : CaseFold) (y : Nat) :
    ∀ r ∈ foldVariants fold y, r.start ≤ r.stop := by
  intro r hr
  simp only [foldVariants, List.mem_append] at hr
  obtain hr | hr := hr
  · split at hr
    · cases hr
    · obtain rfl | hr := List.mem_cons.mp hr
      · exact le_rfl
      · obtain ⟨second, -, rfl⟩ :
            ∃ second ∈ (fold.upper y).2, (⟨second, second⟩ : CpRange) = r := by
          simpa using hr
        exact le_rfl
  · split at hr
    · cases hr
    · obtain rfl := List.mem_singleton.mp hr
      exact le_rfl

theorem rangeVariants_valid (fold : CaseFold) {start stop : Nat} (h : start ≤ stop) :
    ∀ r ∈ rangeVariants fold start stop, r.start ≤ r.stop := by
  intro r hr
  unfold rangeVariants at hr
  split at hr
  · obtain rfl := List.mem_singleton.mp hr
    exact Nat.add_le_add_right h 32
  split at hr
  · obtain rfl := List.mem_singleton.mp hr
    exact Nat.sub_le_sub_right h 32
  split at hr
  · obtain ⟨y, -, hr⟩ := List.mem_flatMap.mp hr
    exact foldVariants_valid fold y r hr
  · cases hr

/-- Within letters and above U+007F the added ranges are the variants, one by one. -/
theorem covers_rangeVariants (T : FoldTables) (r : CpRange) (cp : Nat) :
    Covers CpRange.start CpRange.stop (rangeVariants (.ofTables T) r.start r.stop) cp ↔
      r.IsFolded ∧ ∃ y, r.start ≤ y ∧ y ≤ r.stop ∧
        Covers CpRange.start CpRange.stop (foldVariants (.ofTables T) y) cp := by
  unfold rangeVariants
  split
  · rename_i hupper
    constructor
    · rintro ⟨r', hr', hstart, hstop⟩
      obtain rfl := List.mem_singleton.mp hr'
      dsimp only at hstart hstop
      refine ⟨.inl hupper, cp - 32, by omega, by omega, ?_⟩
      rw [foldVariants_upper T (by omega) (by omega)]
      exact ⟨_, List.mem_singleton_self _, by dsimp only; omega, by dsimp only; omega⟩
    · rintro ⟨-, y, hstart, hstop, hy⟩
      rw [foldVariants_upper T (by omega) (by omega)] at hy
      obtain ⟨r', hr', hle, hle'⟩ := hy
      obtain rfl := List.mem_singleton.mp hr'
      dsimp only at hle hle'
      exact ⟨_, List.mem_singleton_self _, by dsimp only; omega, by dsimp only; omega⟩
  split
  · rename_i hlower
    constructor
    · rintro ⟨r', hr', hstart, hstop⟩
      obtain rfl := List.mem_singleton.mp hr'
      dsimp only at hstart hstop
      refine ⟨.inr (.inl hlower), cp + 32, by omega, by omega, ?_⟩
      rw [foldVariants_lower T (by omega) (by omega)]
      exact ⟨_, List.mem_singleton_self _, by dsimp only; omega, by dsimp only; omega⟩
    · rintro ⟨-, y, hstart, hstop, hy⟩
      rw [foldVariants_lower T (by omega) (by omega)] at hy
      obtain ⟨r', hr', hle, hle'⟩ := hy
      obtain rfl := List.mem_singleton.mp hr'
      dsimp only at hle hle'
      exact ⟨_, List.mem_singleton_self _, by dsimp only; omega, by dsimp only; omega⟩
  rename_i hupper hlower
  split
  · rename_i hwide
    constructor
    · rintro ⟨r', hr', hcp⟩
      obtain ⟨y, hy, hr'⟩ := List.mem_flatMap.mp hr'
      rw [List.mem_range'_1] at hy
      exact ⟨.inr (.inr hwide), y, by omega, by omega, r', hr', hcp⟩
    · rintro ⟨-, y, hstart, hstop, r', hr', hcp⟩
      refine ⟨r', List.mem_flatMap.mpr ⟨y, ?_, hr'⟩, hcp⟩
      rw [List.mem_range'_1]
      omega
  · rename_i hwide
    constructor
    · exact fun h => absurd h not_covers_nil
    · rintro ⟨h | h | h, -⟩
      · exact absurd h hupper
      · exact absurd h hlower
      · exact absurd h hwide

/-! ## The class -/

theorem setRanges_ignoringCase (T : FoldTables) (cs : List Char) :
    setRanges (.ignoringCase T) (encode cs) (encode cs).length 0 =
      (textItems cs).flatMap (itemRanges (.ignoringCase T)) :=
  setRanges_items (Sees.start cs) (length_le_encode cs)

theorem itemRanges_valid (T : FoldTables) (cs : List Char) :
    ∀ r ∈ (textItems cs).flatMap (itemRanges (.ignoringCase T)), r.start ≤ r.stop := by
  intro r hr
  obtain ⟨item, hitem, hr⟩ := List.mem_flatMap.mp hr
  have hvalid := textItems_valid cs item hitem
  obtain rfl | hr := List.mem_cons.mp hr
  · exact hvalid
  · exact rangeVariants_valid _ hvalid r hr

/-- A codepoint is collected when it is denoted or a variant of what is folded. -/
theorem covers_itemRanges (T : FoldTables) (cs : List Char) (cp : Nat) :
    Covers CpRange.start CpRange.stop ((textItems cs).flatMap (itemRanges (.ignoringCase T))) cp ↔
      Denotes cs cp ∨ FoldsInto T cs cp := by
  constructor
  · rintro ⟨r, hr, hcp⟩
    obtain ⟨item, hitem, hr⟩ := List.mem_flatMap.mp hr
    obtain rfl | hr := List.mem_cons.mp hr
    · exact .inl ⟨r, hitem, hcp⟩
    · exact .inr ⟨item, hitem, (covers_rangeVariants T item cp).mp ⟨r, hr, hcp⟩⟩
  · rintro (⟨r, hr, hcp⟩ | ⟨item, hitem, hfold⟩)
    · exact ⟨r, List.mem_flatMap.mpr ⟨r, hr, List.mem_cons_self⟩, hcp⟩
    · obtain ⟨r, hr, hcp⟩ := (covers_rangeVariants T item cp).mpr hfold
      exact ⟨r, List.mem_flatMap.mpr ⟨item, hitem, List.mem_cons_of_mem _ hr⟩, hcp⟩

/-- What the class of a text accepts when case is ignored. -/
theorem charclassOf_accepts (T : FoldTables) (cs : List Char) (cp : Nat) :
    rangeContains (charclassOf (.ignoringCase T) (encode cs)).ranges cp = true ↔
      Denotes cs cp ∨ FoldsInto T cs cp := by
  obtain ⟨hnormal, hcovers⟩ := normalizeRanges_spec (itemRanges_valid T cs)
  rw [charclassOf, setRanges_ignoringCase]
  exact (rangeContains_iff hnormal cp).trans ((hcovers cp).trans (covers_itemRanges T cs cp))

/-! ## Literals -/

/-- A literal is matched character by character, each by the class of its text. -/
theorem litPat_sees {cfg : CompilerConfig} {text : Bytes} {fuel pos : Nat} {cs : List Char}
    (h : Sees text pos cs) (hfuel : cs.length ≤ fuel) :
    litPat cfg text fuel pos =
      cs.foldr (fun c p => .seq (.leaf (.set .any (some (charclassOf cfg (encode [c]))))) p)
        .skip := by
  induction fuel generalizing pos cs with
  | zero =>
    rw [List.eq_nil_of_length_eq_zero (Nat.le_zero.mp hfuel)]
    rfl
  | succ fuel ih =>
    have htotal := h.total
    cases cs with
    | nil =>
      rw [litPat, if_pos]
      · rfl
      · simp at htotal
        omega
    | cons c cs =>
      have hpos := c.utf8Size_pos
      have hslice : slice text pos (pos + c.utf8Size) = encode [c] := by
        rw [slice, h.bytes, encode_cons, Nat.add_sub_cancel_left, ← String.length_utf8EncodeChar c,
          List.take_left, encode_cons, encode_nil, List.append_nil]
      rw [encode_cons, List.length_append, String.length_utf8EncodeChar] at htotal
      rw [litPat, if_neg (by omega), h.peek]
      dsimp only
      rw [hslice, ih h.tail (by simpa using hfuel)]
      rfl

/-! ## Simple case mapping -/

/-- The class of the text is stored and accepts what the text denotes up to simple case
mapping. -/
def FoldsSimply (T : FoldTables) (classes : List CcEntry) (cs : List Char) : Prop :=
  ∃ classes' id e, addOrGetClass (.ignoringCase T) classes (encode cs) = .done (classes', id) ∧
    0 < id ∧ classes'[id - 1]? = some e ∧
    ∀ cp : UInt32, rangeContains e.ranges cp.toNat = true ↔
      Denotes cs cp.toNat ∨ DenotesVariant T cs cp

/-- The conditions on the text: it is short enough to be collected, every codepoint with a denoted
variant is denoted or folded into, and what is folded into has a denoted variant. -/
structure IsFoldClosed (T : FoldTables) (cs : List Char) : Prop where
  short : ((textItems cs).flatMap (itemRanges (.ignoringCase T))).length ≤ 32768
  complete : ∀ cp : UInt32, DenotesVariant T cs cp →
    Denotes cs cp.toNat ∨ FoldsInto T cs cp.toNat
  sound : ∀ cp : UInt32, FoldsInto T cs cp.toNat → Denotes cs cp.toNat ∨ DenotesVariant T cs cp

theorem foldsSimply_iff (T : FoldTables) (classes : List CcEntry) (cs : List Char) :
    FoldsSimply T classes cs ↔ IsFoldClosed T cs := by
  have hstored := addOrGetClass_eq (.ignoringCase T) classes (encode cs)
  rw [setRanges_ignoringCase] at hstored
  have hget := internClass_get classes (charclassOf (.ignoringCase T) (encode cs))
  constructor
  · rintro ⟨classes', id, e, hclass, -, he, haccepts⟩
    rw [hstored] at hclass
    split at hclass
    · rename_i hshort
      rw [CallResult.done.inj hclass] at hget
      cases hget.2.symm.trans he
      simp only [charclassOf_accepts] at haccepts
      exact ⟨hshort, fun cp hv => (haccepts cp).mpr (.inr hv),
        fun cp hf => (haccepts cp).mp (.inr hf)⟩
    · cases hclass
  · intro h
    refine ⟨_, _, charclassOf (.ignoringCase T) (encode cs), by rw [hstored, if_pos h.short],
      hget.1, hget.2, fun cp => ?_⟩
    rw [charclassOf_accepts]
    constructor
    · rintro (hd | hf)
      · exact .inl hd
      · exact h.sound cp hf
    · rintro (hd | hv)
      · exact .inl hd
      · exact h.complete cp hv

/-- When case is ignored a set text, and a literal at each of its characters, is matched up to
simple case mapping exactly when the text is closed under what the compiler folds. -/
theorem charclass_foldsSimply_iff (T : FoldTables) (classes : List CcEntry) (cs : List Char) :
    (FoldsSimply T classes cs ↔ IsFoldClosed T cs) ∧
      (AstNode.literal (encode cs)).pat (.ignoringCase T) =
        cs.foldr (fun c p =>
          .seq (.leaf (.set .any (some (charclassOf (.ignoringCase T) (encode [c]))))) p) .skip ∧
      ∀ c ∈ cs, FoldsSimply T classes [c] ↔ IsFoldClosed T [c] := by
  refine ⟨foldsSimply_iff T classes cs, ?_, fun c _ => foldsSimply_iff T classes [c]⟩
  rw [AstNode.pat, if_pos (show (CompilerConfig.ignoringCase T).caseInsensitive = true from rfl)]
  exact litPat_sees (Sees.start cs) (length_le_encode cs)

/-- `0-Z` does not match "a", whose uppercase it denotes; and `ß` matches "S", which is no simple
case variant of it. -/
theorem charclass_not_foldsSimply :
    ¬FoldsSimply .excerpt [] ['0', '-', 'Z'] ∧ ¬FoldsSimply .excerpt [] ['ß'] := by
  rw [foldsSimply_iff, foldsSimply_iff]
  constructor
  · have hitems : textItems ['0', '-', 'Z'] = [⟨0x30, 0x5A⟩] := by decide
    have hvariant : DenotesVariant .excerpt ['0', '-', 'Z'] 0x61 :=
      ⟨0x41, by decide, ⟨0x30, 0x5A⟩, by decide, by decide, by decide⟩
    intro h
    obtain ⟨r, hr, hle⟩ | ⟨r, hr, hfolded, -⟩ := h.complete 0x61 hvariant
    · rw [hitems, List.mem_singleton] at hr
      subst hr
      exact absurd hle (by decide)
    · rw [hitems, List.mem_singleton] at hr
      subst hr
      exact absurd hfolded (by unfold CpRange.IsFolded; decide)
  · have hitems : textItems ['ß'] = [⟨0xDF, 0xDF⟩] := by decide
    have hfolds : FoldsInto .excerpt ['ß'] (0x53 : UInt32).toNat :=
      ⟨⟨0xDF, 0xDF⟩, by decide, .inr (.inr (by decide)), 0xDF, by decide, by decide, ⟨0x53, 0x53⟩,
        by decide, by decide, by decide⟩
    have hnone : ∀ cp, cp ≠ 0xDF → ¬Denotes ['ß'] cp := by
      rintro cp hne ⟨r, hr, hstart, hstop⟩
      rw [hitems, List.mem_singleton] at hr
      subst hr
      exact hne (Nat.le_antisymm hstop hstart)
    intro h
    obtain hd | ⟨v, hv, hd⟩ := h.sound 0x53 hfolds
    · exact hnone _ (by decide) hd
    · have hvariants : simpleVariants .excerpt 0x53 = [0x53, 0x73] := by decide
      rw [hvariants] at hv
      obtain rfl | hv := List.mem_cons.mp hv
      · exact hnone _ (by decide) hd
      · obtain rfl := List.mem_singleton.mp hv
        exact hnone _ (by decide) hd

end Snobol4
