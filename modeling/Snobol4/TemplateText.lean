import Snobol4.Template

/-!
# TemplateText — the documented template syntax (`compiler.c`)

A template is a text with captures, formats and tables in it.  The scan reads every way to
write them, and puts a `$` for itself where none of them stands.
-/

namespace Snobol4

/-! ## Spellings -/

/-- A run of digits. -/
def IsDigits (digits : Bytes) : Prop := digits ≠ [] ∧ ∀ b ∈ digits, isDigitByte b = true

/-- The name of a table. -/
def IsTableName (name : Bytes) : Prop :=
  name ≠ [] ∧ name.length < 2 ^ 8 ∧ ∀ b ∈ name, isNameByte b = true

/-- How a key is written, without its brackets: quoted, or a register with or without `$` and
`v`. -/
inductive KeySpelling : TemplateKey → Bytes → Prop where
  | literal {key : Bytes} (h : 0x27 ∉ key) : KeySpelling (.literal key) (0x27 :: key ++ [0x27])
  | capture {digits : Bytes} (h : IsDigits digits) {sign letter : Bytes}
      (hsign : sign = [] ∨ sign = [0x24]) (hletter : letter = [] ∨ letter = [0x76]) :
      KeySpelling (.capture (digitsValue digits)) (sign ++ letter ++ digits)

/-- The formats without arguments. -/
inductive CallSpelling : Nat → Bytes → Prop where
  | upper : CallSpelling 1 upperCall
  | lower : CallSpelling 2 lowerCall
  | length : CallSpelling 3 lengthCall

/-- The names of the paddings. -/
inductive PadSpelling : Nat → Bytes → Prop where
  | lpad : PadSpelling 4 lpadName
  | rpad : PadSpelling 5 rpadName

/-- How a fill is written behind the width; a space may be left out. -/
inductive FillSpelling : UInt8 → Bytes → Prop where
  | space : FillSpelling 0x20 []
  | quoted (fill : UInt8) : FillSpelling fill [0x2C, 0x27, fill, 0x27]

/-- How an instruction is written behind the `$`, in front of the rest of the template. -/
inductive Spelling : TemplateOp → Bytes → Bytes → Prop where
  | bare {digits rest : Bytes} (h : IsDigits digits)
      (hrest : ∀ b ∈ rest.head?, isDigitByte b = false ∧ b ≠ 0x5B) :
      Spelling (.capture (digitsValue digits)) (0x76 :: digits) rest
  | braced {digits rest : Bytes} (h : IsDigits digits) :
      Spelling (.capture (digitsValue digits)) ([0x7B, 0x76] ++ digits ++ [0x7D]) rest
  | call {digits call rest : Bytes} {type : Nat} (h : IsDigits digits)
      (hcall : CallSpelling type call) :
      Spelling (.format (digitsValue digits) type 0 0x20)
        ([0x7B, 0x76] ++ digits ++ [0x2E] ++ call ++ [0x7D]) rest
  | pad {digits name width fillText rest : Bytes} {type : Nat} {fill : UInt8}
      (h : IsDigits digits) (hname : PadSpelling type name) (hwidth : IsDigits width)
      (hzero : width.head? ≠ some 0x30) (hfill : FillSpelling fill fillText) :
      Spelling (.format (digitsValue digits) type (digitsValue width) fill)
        ([0x7B, 0x76] ++ digits ++ [0x2E] ++ name ++ [0x28] ++ width ++ fillText ++ [0x29, 0x7D])
        rest
  /-- `$v0[t['key']]`, where the register does not matter. -/
  | bracketed {digits name keyText rest : Bytes} {key : TemplateKey} (h : IsDigits digits)
      (hname : IsTableName name) (hkey : KeySpelling key keyText) :
      Spelling (.table name key)
        (0x76 :: digits ++ [0x5B] ++ name ++ [0x5B] ++ keyText ++ [0x5D, 0x5D]) rest
  /-- `$t['key']`; the name is not taken for a register or a brace, and a `]` behind it would
  belong to it. -/
  | named {name keyText rest : Bytes} {key : TemplateKey} (hname : IsTableName name)
      (hhead : name.head? ≠ some 0x7B ∧ name.head? ≠ some 0x76) (hkey : KeySpelling key keyText)
      (hrest : rest.head? ≠ some 0x5D) :
      Spelling (.table name key) (name ++ [0x5B] ++ keyText ++ [0x5D]) rest

/-- A template and its instructions. -/
inductive Written : Bytes → List TemplateOp → Prop where
  | nil : Written [] []
  | text {text rest : Bytes} {ops : List TemplateOp} (hne : text ≠ []) (htext : 0x24 ∉ text)
      (hrest : ∀ b ∈ rest.head?, b = 0x24) (h : Written rest ops) :
      Written (text ++ rest) (.literal text :: ops)
  | item {op : TemplateOp} {spelled rest : Bytes} {ops : List TemplateOp}
      (hop : Spelling op spelled rest) (h : Written rest ops) :
      Written (0x24 :: (spelled ++ rest)) (op :: ops)

/-! ## The scan of a spelling -/

theorem takeWhile_append_stop {p : UInt8 → Bool} {xs rest : Bytes} (hxs : ∀ b ∈ xs, p b = true)
    (hrest : ∀ b ∈ rest.head?, p b = false) : (xs ++ rest).takeWhile p = xs := by
  rw [List.takeWhile_append_of_pos hxs]
  cases rest with
  | nil => rw [List.takeWhile_nil, List.append_nil]
  | cons b rest =>
    rw [List.takeWhile_cons, hrest b rfl, if_neg (by decide), List.append_nil]

/-- A run of digits in front of a byte that is none. -/
theorem IsDigits.takeWhile {digits : Bytes} (h : IsDigits digits) (rest : Bytes)
    (hrest : ∀ b ∈ rest.head?, isDigitByte b = false) :
    (digits ++ rest).takeWhile isDigitByte = digits :=
  takeWhile_append_stop h.2 hrest

/-- Its first byte is no other byte. -/
theorem IsDigits.head?_ne {digits rest : Bytes} (h : IsDigits digits) {b : UInt8}
    (hb : isDigitByte b = false) : (digits ++ rest).head? ≠ some b := by
  obtain ⟨d, digits, rfl⟩ := List.exists_cons_of_ne_nil h.1
  rw [List.cons_append, List.head?_cons]
  intro heq
  have hd := h.2 d List.mem_cons_self
  rw [Option.some.inj heq, hb] at hd
  cases hd

/-- A first byte is no other byte. -/
theorem head?_cons_ne {b c : UInt8} (h : b ≠ c) (tpl : Bytes) : (b :: tpl).head? ≠ some c := by
  rw [List.head?_cons]
  exact fun heq => h (Option.some.inj heq)

theorem skipByte_cons (b : UInt8) (tpl : Bytes) : skipByte b (b :: tpl) = tpl := by
  rw [skipByte, List.head?_cons, if_pos rfl]
  rfl

theorem skipByte_of_ne {b : UInt8} {tpl : Bytes} (h : tpl.head? ≠ some b) :
    skipByte b tpl = tpl :=
  if_neg h

/-- An optional byte in front of what does not start with it. -/
theorem skipByte_optional {b : UInt8} {x tpl : Bytes} (hx : x = [] ∨ x = [b])
    (h : tpl.head? ≠ some b) : skipByte b (x ++ tpl) = tpl := by
  obtain rfl | rfl := hx
  · exact skipByte_of_ne h
  · exact skipByte_cons b tpl

/-- The key behind its bracket, with the bracket that closes it. -/
theorem templateEmitTableLookup_spelling {key : TemplateKey} {keyText name rest : Bytes}
    (h : KeySpelling key keyText) :
    templateEmitTableLookup name (keyText ++ 0x5D :: rest) =
      some (.table name key, skipByte 0x5D rest) := by
  cases h with
  | @literal key hquote =>
    have hkey : (key ++ 0x27 :: 0x5D :: rest).takeWhile (· != 0x27) = key := by
      refine takeWhile_append_stop ?_ ?_
      · intro b hb
        rw [bne_iff_ne]
        rintro rfl
        exact hquote hb
      · intro b hb
        cases hb
        rfl
    have htext : 0x27 :: key ++ [0x27] ++ 0x5D :: rest = 0x27 :: (key ++ 0x27 :: 0x5D :: rest) := by
      simp
    have hdrop : (0x27 :: (key ++ 0x27 :: 0x5D :: rest)).drop (1 + key.length) =
        0x27 :: 0x5D :: rest := by
      rw [Nat.add_comm, List.drop_succ_cons, List.drop_left]
    rw [htext, templateEmitTableLookup, List.head?_cons, if_pos rfl, List.drop_one, List.tail_cons,
      hkey]
    dsimp only
    rw [hdrop, if_pos ⟨rfl, rfl⟩]
    rfl
  | @capture digits hdigits sign letter hsign hletter =>
    have hbehind : sign ++ letter ++ digits ++ 0x5D :: rest =
        sign ++ (letter ++ (digits ++ 0x5D :: rest)) := by
      simp only [List.append_assoc]
    have hquote : (sign ++ (letter ++ (digits ++ 0x5D :: rest))).head? ≠ some 0x27 := by
      obtain rfl | rfl := hsign
      · obtain rfl | rfl := hletter
        · exact hdigits.head?_ne (by decide)
        · exact head?_cons_ne (by decide) _
      · exact head?_cons_ne (by decide) _
    have hsigned : skipByte 0x24 (sign ++ (letter ++ (digits ++ 0x5D :: rest))) =
        letter ++ (digits ++ 0x5D :: rest) := by
      refine skipByte_optional hsign ?_
      obtain rfl | rfl := hletter
      · exact hdigits.head?_ne (by decide)
      · exact head?_cons_ne (by decide) _
    have hlettered : skipByte 0x76 (letter ++ (digits ++ 0x5D :: rest)) = digits ++ 0x5D :: rest :=
      skipByte_optional hletter (hdigits.head?_ne (by decide))
    have hrun : (digits ++ 0x5D :: rest).takeWhile isDigitByte = digits := by
      refine hdigits.takeWhile _ ?_
      intro b hb
      cases hb
      rfl
    rw [hbehind, templateEmitTableLookup, if_neg hquote, hsigned, hlettered]
    dsimp only
    rw [hrun, List.drop_left, if_pos ⟨hdigits.1, rfl⟩]
    rfl

/-- A table from its name on. -/
theorem scanTable_spelling {key : TemplateKey} {keyText name rest behind : Bytes}
    (hname : IsTableName name) (h : KeySpelling key keyText) :
    scanTable (name ++ 0x5B :: (keyText ++ 0x5D :: rest)) behind =
      some (.table name key, skipByte 0x5D rest) := by
  have hrun : (name ++ 0x5B :: (keyText ++ 0x5D :: rest)).takeWhile isNameByte = name := by
    refine takeWhile_append_stop hname.2.2 ?_
    intro b hb
    cases hb
    rfl
  have hshort := hname.2.1
  unfold scanTable
  dsimp only
  rw [hrun, List.drop_left, if_neg (by
    rintro (hnil | hhead)
    · exact hname.1 hnil
    · exact hhead rfl), if_neg (by omega), List.drop_one, List.tail_cons,
    templateEmitTableLookup_spelling h]
  rfl

theorem scanFill_spelling {fill : UInt8} {fillText rest : Bytes} (h : FillSpelling fill fillText) :
    scanFill (fillText ++ 0x29 :: rest) = (fill, 0x29 :: rest) := by
  cases h with
  | space => rfl
  | quoted fill => rfl

/-- What follows the name of a padding, with the brace. -/
theorem scanPad_spelling {width fillText rest : Bytes} {fill : UInt8} (hwidth : IsDigits width)
    (hzero : width.head? ≠ some 0x30) (hfill : FillSpelling fill fillText) :
    scanPad (0x28 :: (width ++ (fillText ++ 0x29 :: rest))) =
      (some (digitsValue width, fill), rest) := by
  have hrun : (width ++ (fillText ++ 0x29 :: rest)).takeWhile isDigitByte = width := by
    refine hwidth.takeWhile _ ?_
    intro b hb
    cases hfill with
    | space =>
      cases hb
      rfl
    | quoted fill =>
      cases hb
      rfl
  rw [scanPad, List.head?_cons, if_neg (fun h => h rfl), List.drop_one, List.tail_cons]
  dsimp only
  rw [hrun, if_neg (by
    rintro (hnil | hhead)
    · exact hwidth.1 hnil
    · exact hzero hhead), List.drop_left, scanFill_spelling hfill]
  rfl

/-- A register behind its brace, and the format up to the brace that closes it. -/
theorem scanDollar_braced {digits : Bytes} (formatText rest : Bytes) {op : TemplateOp}
    (h : IsDigits digits) (hstop : ∀ b ∈ (formatText ++ 0x7D :: rest).head?, isDigitByte b = false)
    (hformat : scanFormat (digitsValue digits) (formatText ++ 0x7D :: rest) = (op, 0x7D :: rest)) :
    scanDollar (0x7B :: 0x76 :: (digits ++ (formatText ++ 0x7D :: rest))) = some (op, rest) := by
  have hrun := h.takeWhile _ hstop
  have hdrop : (0x76 :: (digits ++ (formatText ++ 0x7D :: rest))).drop (1 + digits.length) =
      formatText ++ 0x7D :: rest := by
    rw [Nat.add_comm, List.drop_succ_cons, List.drop_left]
  rw [scanDollar, skipByte_cons, List.head?_cons, if_pos rfl, List.drop_one, List.tail_cons, hrun]
  dsimp only
  rw [hdrop, if_neg h.1, List.head?_cons, if_pos rfl, hformat]
  rfl

/-- Whatever its spelling, the scan finds the instruction and goes on behind it. -/
theorem scanDollar_spelling {op : TemplateOp} {spelled rest : Bytes}
    (h : Spelling op spelled rest) : scanDollar (spelled ++ rest) = some (op, rest) := by
  cases h with
  | @bare digits _ hdigits hrest =>
    have hrun := hdigits.takeWhile rest fun b hb => (hrest b hb).1
    have hdrop : (0x76 :: (digits ++ rest)).drop (1 + digits.length) = rest := by
      rw [Nat.add_comm, List.drop_succ_cons, List.drop_left]
    rw [List.cons_append, scanDollar, skipByte_of_ne (head?_cons_ne (by decide) _)]
    dsimp only
    rw [List.head?_cons, if_pos rfl, List.drop_one, List.tail_cons, hrun, hdrop, if_neg hdigits.1,
      if_neg (fun h => absurd (Option.some.inj h) (by decide)),
      if_neg (fun h : rest.head? = some 0x5B => (hrest _ h).2 rfl)]
  | @braced digits _ hdigits =>
    have hscan := scanDollar_braced [] rest hdigits (fun b hb => by cases hb; rfl) rfl
    simpa using hscan
  | @call digits call _ type hdigits hcall =>
    have hformat : scanFormat (digitsValue digits) (0x2E :: call ++ 0x7D :: rest) =
        (.format (digitsValue digits) type 0 0x20, 0x7D :: rest) := by
      cases hcall with
      | upper => rfl
      | lower => rfl
      | length => rfl
    have hscan := scanDollar_braced _ rest hdigits (fun b hb => by cases hb; rfl) hformat
    simpa using hscan
  | @pad digits name width fillText _ type fill hdigits hname hwidth hzero hfill =>
    have hpad : scanPad (0x28 :: (width ++ (fillText ++ 0x29 :: 0x7D :: rest))) =
        (some (digitsValue width, fill), 0x7D :: rest) := scanPad_spelling hwidth hzero hfill
    have htext : 0x2E :: (name ++ 0x28 :: (width ++ (fillText ++ [0x29]))) ++ 0x7D :: rest =
        0x2E :: (name ++ 0x28 :: (width ++ (fillText ++ 0x29 :: 0x7D :: rest))) := by
      simp
    have hformat : scanFormat (digitsValue digits)
        (0x2E :: (name ++ 0x28 :: (width ++ (fillText ++ [0x29]))) ++ 0x7D :: rest) =
        (.format (digitsValue digits) type (digitsValue width) fill, 0x7D :: rest) := by
      rw [htext]
      generalize width ++ (fillText ++ 0x29 :: 0x7D :: rest) = behind at hpad
      cases hname with
      | lpad => simp [scanFormat, upperCall, lowerCall, lengthCall, lpadName, hpad]
      | rpad => simp [scanFormat, upperCall, lowerCall, lengthCall, lpadName, rpadName, hpad]
    have hscan := scanDollar_braced _ rest hdigits (fun b hb => by cases hb; rfl) hformat
    simpa using hscan
  | @bracketed digits name keyText _ key hdigits hname hkey =>
    have htext : 0x76 :: digits ++ [0x5B] ++ name ++ [0x5B] ++ keyText ++ [0x5D, 0x5D] ++ rest =
        0x76 :: (digits ++ 0x5B :: (name ++ 0x5B :: (keyText ++ 0x5D :: 0x5D :: rest))) := by
      simp
    have hrun := hdigits.takeWhile (0x5B :: (name ++ 0x5B :: (keyText ++ 0x5D :: 0x5D :: rest)))
      fun b hb => by cases hb; rfl
    have hdrop : (0x76 :: (digits ++ 0x5B :: (name ++ 0x5B :: (keyText ++ 0x5D :: 0x5D ::
        rest)))).drop (1 + digits.length) =
        0x5B :: (name ++ 0x5B :: (keyText ++ 0x5D :: 0x5D :: rest)) := by
      rw [Nat.add_comm, List.drop_succ_cons, List.drop_left]
    rw [htext, scanDollar, skipByte_of_ne (head?_cons_ne (by decide) _)]
    dsimp only
    rw [List.head?_cons, if_pos rfl, List.drop_one, List.tail_cons, hrun, hdrop, if_neg hdigits.1,
      if_neg (fun h => absurd (Option.some.inj h) (by decide)), List.head?_cons, if_pos rfl,
      List.drop_one, List.tail_cons, scanTable_spelling hname hkey, skipByte_cons]
  | @named name keyText _ key hname hhead hkey hrest =>
    have htext : name ++ [0x5B] ++ keyText ++ [0x5D] ++ rest =
        name ++ 0x5B :: (keyText ++ 0x5D :: rest) := by
      simp
    obtain ⟨b, tail, rfl⟩ := List.exists_cons_of_ne_nil hname.1
    have hbrace : (b :: tail ++ 0x5B :: (keyText ++ 0x5D :: rest)).head? ≠ some 0x7B := hhead.1
    have hletter : (b :: tail ++ 0x5B :: (keyText ++ 0x5D :: rest)).head? ≠ some 0x76 := hhead.2
    rw [htext, scanDollar, skipByte_of_ne hbrace]
    dsimp only
    rw [if_neg hletter, scanTable_spelling hname hkey, skipByte_of_ne hrest]

/-- A template compiles to the instructions that are written in it. -/
theorem templateOps_written {tpl : Bytes} {ops : List TemplateOp} (h : Written tpl ops)
    {turns : Nat} (hturns : tpl.length ≤ turns) : templateOps turns tpl = some ops := by
  induction h generalizing turns with
  | nil => cases turns <;> rfl
  | @text text rest ops hne htext hrest _ ih =>
    obtain ⟨b, tail, rfl⟩ := List.exists_cons_of_ne_nil hne
    rw [List.length_append, List.length_cons] at hturns
    obtain ⟨turns, rfl⟩ : ∃ n, turns = n + 1 := ⟨turns - 1, by omega⟩
    have hb : b ≠ 0x24 := by
      rintro rfl
      exact htext List.mem_cons_self
    have hrun : (b :: tail ++ rest).takeWhile (· != 0x24) = b :: tail := by
      refine takeWhile_append_stop ?_ ?_
      · intro c hc
        rw [bne_iff_ne]
        rintro rfl
        exact htext hc
      · intro c hc
        rw [hrest c hc]
        rfl
    rw [List.cons_append] at hrun ⊢
    rw [templateOps, if_neg hb, hrun]
    dsimp only
    rw [← List.cons_append, List.drop_left, ih (by omega)]
    rfl
  | @item op spelled rest ops hop _ ih =>
    rw [List.length_cons, List.length_append] at hturns
    obtain ⟨turns, rfl⟩ : ∃ n, turns = n + 1 := ⟨turns - 1, by omega⟩
    rw [templateOps, if_pos rfl, scanDollar_spelling hop]
    show ((templateOps turns rest).bind fun ops => some (op :: ops)) = _
    rw [ih (by omega)]
    rfl

/-- The syntax is not ambiguous: a template that is written in it compiles to the code of its
instructions, and it is written in one way only. -/
theorem compileTemplateToBytecode_written {tpl : Bytes} {ops : List TemplateOp}
    (h : Written tpl ops) :
    compileTemplateToBytecode tpl = some (templateCode (fun _ => Leaf.unboundTable) ops) ∧
      ∀ ops', Written tpl ops' → ops' = ops := by
  have hops := templateOps_written h (Nat.le_refl tpl.length)
  refine ⟨?_, ?_⟩
  · rw [compileTemplateToBytecode, hops, Option.map_some]
  · intro ops' h'
    have hops' := templateOps_written h' (Nat.le_refl tpl.length)
    exact Option.some.inj (hops'.symm.trans hops)

/-- A padding, a table and a text. -/
theorem compileTemplateToBytecode_written_pad :
    compileTemplateToBytecode (ascii "$\x7bv12.rpad(10,'-')\x7d$t['k'];") =
      some (templateCode (fun _ => Leaf.unboundTable)
        [.format 12 5 10 0x2D, .table (ascii "t") (.literal (ascii "k")),
          .literal (ascii ";")]) := by
  have hregister : IsDigits (ascii "12") := ⟨by decide +kernel, by decide +kernel⟩
  have hwidth : IsDigits (ascii "10") := ⟨by decide +kernel, by decide +kernel⟩
  have hpad : Spelling (.format 12 5 10 0x2D) (ascii "\x7bv12.rpad(10,'-')\x7d")
      (ascii "$t['k'];") :=
    .pad hregister .rpad hwidth (by decide) (.quoted 0x2D)
  have htable : Spelling (.table (ascii "t") (.literal (ascii "k"))) (ascii "t['k']") (ascii ";") :=
    .named ⟨by decide, by decide, by decide +kernel⟩ ⟨by decide, by decide⟩
      (.literal (by decide +kernel)) (by decide)
  have htext : Written (ascii ";") [.literal (ascii ";")] :=
    @Written.text (ascii ";") [] [] (by decide) (by decide +kernel) (fun b hb => by cases hb) .nil
  exact (compileTemplateToBytecode_written (.item hpad (.item htable htext))).1

end Snobol4
