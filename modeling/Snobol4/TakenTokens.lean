import Snobol4.TokenStream

/-!
# TakenTokens — what a parser function makes of the tokens it takes (`parser.c`)

A tree names the register 64 exactly if some token that was taken for it stands where the parser
does not test the register.  `Marks` follows a computation along the tokens and keeps count: the
value is good if and only if everything before was and no such token has been passed.
-/

namespace Snobol4

open Fueled

/-! ## The tokens that name the register 64 -/

/-- `v64`, which `ident_is_v_register` accepts. -/
def Token.IsMaxVars : Token → Prop
  | .ident text => Parse.identIsVRegister text = some maxVars
  | _ => False

/-- At this token, `v64 =` or `(@v64)`. -/
def UsesMaxVarsAt (source : Bytes) (t : Nat) : Prop :=
  (tokenAt source t).IsMaxVars ∧ tokenAt source (t + 1) = .equals ∨
    tokenAt source t = .lparen ∧ tokenAt source (t + 1) = .at ∧
      (tokenAt source (t + 2)).IsMaxVars ∧ tokenAt source (t + 3) = .rparen

/-- The source assigns to `v64` or emits it, before its end. -/
def UsesMaxVars (source : Bytes) : Prop :=
  ∃ t, (∀ k < t, tokenAt source k ≠ .eof) ∧ UsesMaxVarsAt source t

/-- With this token taken, the tree names the register 64: the `=` of an assignment to it, or the
`v64` that is emitted. -/
inductive Off (source : Bytes) : Nat → Prop where
  | assign {t : Nat} : (tokenAt source t).IsMaxVars → tokenAt source (t + 1) = .equals →
      Off source (t + 1)
  | emit {t : Nat} : tokenAt source t = .lparen → tokenAt source (t + 1) = .at →
      (tokenAt source (t + 2)).IsMaxVars → tokenAt source (t + 3) = .rparen → Off source (t + 2)

/-- Such a token is among those taken. -/
def Found (source : Bytes) (i j : Nat) : Prop := ∃ k, i ≤ k ∧ k < j ∧ Off source k

/-- The token before is none that an identifier follows in `(@v64)`. -/
def Clear (source : Bytes) (i : Nat) : Prop := ∀ t, i = t + 1 → tokenAt source t ≠ .at

/-- The token before. -/
def Behind (source : Bytes) (tok : Token) (i : Nat) : Prop :=
  ∃ t, i = t + 1 ∧ tokenAt source t = tok

/-- Neither `=` nor `@`, and not the end. -/
def Token.isPlain : Token → Bool
  | .eof | .at | .equals => false
  | _ => true

/-- A token without a text. -/
def Token.isFixed : Token → Bool
  | .lit _ | .ident _ | .charclass _ | .integer _ => false
  | _ => true

section tokens

variable {source : Bytes} {tok : Token} {i j k : Nat}

theorem Token.isPlain_ne (h : tok.isPlain = true) : tok ≠ .eof ∧ tok ≠ .at ∧ tok ≠ .equals := by
  refine ⟨?_, ?_, ?_⟩ <;>
    · rintro rfl
      cases h

theorem Token.IsMaxVars.ne (h : tok.IsMaxVars) : tok ≠ .eof ∧ tok ≠ .equals ∧ tok ≠ .at := by
  refine ⟨?_, ?_, ?_⟩ <;>
    · rintro rfl
      exact h

theorem not_found_self : ¬ Found source i i := by
  rintro ⟨k, hik, hki, -⟩
  omega

theorem found_split (hij : i ≤ j) (hjk : j ≤ k) :
    Found source i k ↔ Found source i j ∨ Found source j k := by
  constructor
  · rintro ⟨n, hin, hnk, hoff⟩
    rcases Nat.lt_or_ge n j with hnj | hjn
    · exact .inl ⟨n, hin, hnj, hoff⟩
    · exact .inr ⟨n, hjn, hnk, hoff⟩
  · rintro (⟨n, hin, hnj, hoff⟩ | ⟨n, hjn, hnk, hoff⟩)
    · exact ⟨n, hin, hnj.trans_le hjk, hoff⟩
    · exact ⟨n, hij.trans hjn, hnk, hoff⟩

theorem found_succ : Found source i (i + 1) ↔ Off source i := by
  constructor
  · rintro ⟨k, hik, hki, hoff⟩
    rwa [Nat.le_antisymm hik (Nat.le_of_lt_succ hki)]
  · exact fun hoff => ⟨i, le_rfl, Nat.lt_succ_self i, hoff⟩

theorem Clear.not_off (h : Clear source i) (htok : tokenAt source i = tok) (hne : tok ≠ .equals) :
    ¬ Off source i := by
  intro hoff
  cases hoff with
  | assign _ hequals => exact hne (htok.symm.trans hequals)
  | emit _ hat => exact h _ rfl hat

theorem Behind.clear (h : Behind source tok i) (hne : tok ≠ .at) : Clear source i := by
  obtain ⟨t, rfl, rfl⟩ := h
  rintro _ ⟨⟩
  exact hne

theorem clear_succ (htok : tokenAt source i = tok) (hne : tok ≠ .at) : Clear source (i + 1) :=
  Behind.clear ⟨i, rfl, htok⟩ hne

/-- An identifier that is off is emitted. -/
theorem Off.of_ident {text : Bytes} (h : Off source i) (hident : tokenAt source i = .ident text) :
    ∃ t, i = t + 2 ∧ tokenAt source t = .lparen ∧ Parse.identIsVRegister text = some maxVars ∧
      tokenAt source (i + 1) = .rparen := by
  cases h with
  | assign _ hequals =>
    rw [hident] at hequals
    cases hequals
  | emit hlparen _ hmax hrparen =>
    rw [hident] at hmax
    exact ⟨_, rfl, hlparen, hmax, hrparen⟩

/-- An `=` is off behind `v64`. -/
theorem off_equals {name : Bytes} (h : Behind source (.ident name) i)
    (hequals : tokenAt source i = .equals) :
    Off source i ↔ Parse.identIsVRegister name = some maxVars := by
  obtain ⟨t, rfl, hname⟩ := h
  constructor
  · intro hoff
    cases hoff with
    | assign hmax =>
      rw [hname] at hmax
      exact hmax
    | emit _ _ hmax => exact absurd hequals hmax.ne.2.1
  · intro hmax
    refine .assign ?_ hequals
    rw [hname]
    exact hmax

/-- The tokens of `UsesMaxVars` are those that are off. -/
theorem usesMaxVars_iff (hinside : ∀ k < j, tokenAt source k ≠ .eof)
    (heof : tokenAt source j = .eof) : UsesMaxVars source ↔ Found source 0 j := by
  have hlast : ∀ k, (∀ n < k, tokenAt source n ≠ .eof) → k ≤ j := by
    intro k hk
    by_contra hlt
    exact hk j (Nat.lt_of_not_le hlt) heof
  constructor
  · rintro ⟨t, ht, ⟨hmax, hequals⟩ | ⟨hlparen, hat, hmax, hrparen⟩⟩
    · -- the tokens of the use are before the end
      refine ⟨t + 1, Nat.zero_le _, ?_, .assign hmax hequals⟩
      refine (hlast (t + 1) fun n hn => ?_).lt_of_ne ?_
      · rcases Nat.lt_succ_iff_lt_or_eq.mp hn with hn | rfl
        · exact ht n hn
        · exact hmax.ne.1
      · rintro rfl
        rw [hequals] at heof
        cases heof
    · refine ⟨t + 2, Nat.zero_le _, ?_, .emit hlparen hat hmax hrparen⟩
      refine (hlast (t + 2) fun n hn => ?_).lt_of_ne ?_
      · rcases Nat.lt_succ_iff_lt_or_eq.mp hn with hn | rfl
        · rcases Nat.lt_succ_iff_lt_or_eq.mp hn with hn | rfl
          · exact ht n hn
          · rw [hlparen]
            exact fun h => by cases h
        · rw [hat]
          exact fun h => by cases h
      · rintro rfl
        exact hmax.ne.1 heof
  · rintro ⟨k, -, hk, hoff⟩
    cases hoff with
    | assign hmax hequals =>
      exact ⟨_, fun n hn => hinside n (by omega), .inl ⟨hmax, hequals⟩⟩
    | emit hlparen hat hmax hrparen =>
      exact ⟨_, fun n hn => hinside n (by omega), .inr ⟨hlparen, hat, hmax, hrparen⟩⟩

end tokens

/-! ## What the parser has taken -/

/-- The parser has gone from the token `i` to a later one, and `now` holds if and only if `before`
does and no token on the way is off. -/
def Reached (source : Bytes) (i : Nat) (before now : Prop) (s : Parsing) : Prop :=
  Dead s ∨ ∃ j, i ≤ j ∧ Cursor source j s ∧ Clear source j ∧
    (now ↔ before ∧ ¬ Found source i j)

/-- Started behind `pos`, and looking at `look` if that is known, the computation returns a value
that is good if and only if `before` holds and no token that it takes is off. -/
structure Marks {α : Type} (source : Bytes) (pos : Nat → Prop) (look : Option Token)
    (before : Prop) (m : Parse α) (good : α → Prop) : Prop where
  dead : ∀ s, Dead s → wp m (fun _ => Dead) (fun _ => True) (fun _ => True) s
  alive : ∀ i s, Cursor source i s → pos i → (∀ tok ∈ look, Seen source i tok s) →
    wp m (fun a => Reached source i before (good a)) (fun _ => True) (fun _ => True) s

/-- What `peek` returns. -/
theorem Cursor.peek_run {source : Bytes} {i : Nat} {s : Parsing} (h : Cursor source i s) :
    Parse.peek s = (.ret (tokenAt source i), Snobol4.peeked s) := by
  show (Outcome.ret (snobolLexerPeek s.lexer).1, Snobol4.peeked s) = _
  rw [congrArg Prod.fst h.peek_eq]

namespace Reached

variable {source : Bytes} {i j : Nat} {before mid now : Prop} {s : Parsing}

/-- From a token that is reached. -/
theorem after (h : Reached source j mid now s) (hij : i ≤ j)
    (hmid : mid ↔ before ∧ ¬ Found source i j) : Reached source i before now s := by
  refine h.imp_right ?_
  rintro ⟨k, hjk, hcursor, hclear, hnow⟩
  refine ⟨k, hij.trans hjk, hcursor, hclear, ?_⟩
  rw [hnow, hmid, found_split hij hjk, not_or, and_assoc]

end Reached

namespace Marks

variable {α β : Type} {source : Bytes} {pos : Nat → Prop} {look : Option Token} {tok : Token}
  {before : Prop} {m m' : Parse α} {f : Token → Parse α} {good : α → Prop}

theorem pure {a : α} (h : good a ↔ before) :
    Marks source (Clear source) look before (Pure.pure a) good where
  dead _ hs := hs
  alive i _ hs hpos _ :=
    .inr ⟨i, le_rfl, hs, hpos, h.trans (iff_self_and.mpr fun _ => not_found_self)⟩

theorem failed : Marks source pos look before (Fueled.failed (α := α)) good :=
  ⟨fun _ _ => trivial, fun _ _ _ _ _ => trivial⟩

theorem failWith (msg : Bytes) : Marks source pos look before (Parse.failWith (α := α) msg) good :=
  ⟨fun _ _ => trivial, fun _ _ _ _ _ => trivial⟩

theorem failLexically : Marks source pos look before (Parse.failLexically (α := α)) good :=
  ⟨fun _ _ => trivial, fun _ _ _ _ _ => trivial⟩

theorem bind {f : β → Parse α} {m : Parse β} {middle : β → Prop}
    (h : Marks source pos look before m middle)
    (hf : ∀ b, Marks source (Clear source) none (middle b) (f b) good) :
    Marks source pos look before (m >>= f) good where
  dead s hs := wp.seq (h.dead s hs) fun b s' hs' => (hf b).dead s' hs'
  alive i s hs hpos hlook := by
    refine wp.seq (h.alive i s hs hpos hlook) ?_
    -- the second part starts dead, or at the token that the first has reached
    rintro b s' (hdead | ⟨j, hij, hcursor, hclear, hmiddle⟩)
    · exact ((hf b).dead s' hdead).mono (fun _ _ => .inl) (fun _ h => h) fun _ h => h
    · refine ((hf b).alive j s' hcursor hclear fun _ h => by cases h).mono ?_ ?_ ?_
      · exact fun a s'' hreached => hreached.after hij hmiddle
      · exact fun _ h => h
      · exact fun _ h => h

theorem ite {c : Prop} [Decidable c] (h : c → Marks source pos look before m good)
    (h' : ¬c → Marks source pos look before m' good) :
    Marks source pos look before (if c then m else m') good := by
  by_cases hc : c
  · rw [if_pos hc]
    exact h hc
  · rw [if_neg hc]
    exact h' hc

/-- The place where the computation starts, split into cases. -/
theorem cases (P : Nat → Prop) (h : Marks source (fun i => pos i ∧ P i) look before m good)
    (h' : Marks source (fun i => pos i ∧ ¬ P i) look before m good) :
    Marks source pos look before m good where
  dead := h.dead
  alive i s hs hpos hlook := by
    by_cases hP : P i
    · exact h.alive i s hs ⟨hpos, hP⟩ hlook
    · exact h'.alive i s hs ⟨hpos, hP⟩ hlook

theorem mono {pos' : Nat → Prop} (h : Marks source pos look before m good)
    (hpos : ∀ i, pos' i → pos i) :
    Marks source pos' look before m good :=
  ⟨h.dead, fun i s hs hi => h.alive i s hs (hpos i hi)⟩

theorem blind (h : Marks source pos none before m good) : Marks source pos look before m good :=
  ⟨h.dead, fun i s hs hi _ => h.alive i s hs hi fun _ h => by cases h⟩

theorem congr {before' : Prop} (h : Marks source pos look before m good)
    (hbefore : before' ↔ before) : Marks source pos look before' m good := by
  rwa [propext hbefore]

theorem frame (h : Marks source pos look before m good) (kept : Prop) :
    Marks source pos look (kept ∧ before) m fun a => kept ∧ good a where
  dead := h.dead
  alive i s hs hpos hlook := by
    refine (h.alive i s hs hpos hlook).mono ?_ (fun _ h => h) fun _ h => h
    rintro a s' (hdead | ⟨j, hij, hcursor, hclear, hgood⟩)
    · exact .inl hdead
    · exact .inr ⟨j, hij, hcursor, hclear, by rw [hgood, and_assoc]⟩

theorem peek (hf : ∀ tok, Marks source pos (some tok) before (f tok) good) :
    Marks source pos look before (Parse.peek >>= f) good where
  dead s hs := (hf _).dead _ hs.peeked
  alive i s hs hpos _ := by
    rcases hs.peeked with hdead | ⟨hcursor, hseen⟩
    · exact ((hf _).dead _ hdead).mono (fun _ _ => .inl) (fun _ h => h) fun _ h => h
    · refine (hf _).alive i _ hcursor hpos ?_
      rintro _ ⟨⟩
      show Seen source i (snobolLexerPeek s.lexer).1 (Snobol4.peeked s)
      rw [congrArg Prod.fst hs.peek_eq]
      exact hseen

/-- Looking at a token that is known. -/
theorem peekKnown (hdead : ∀ tok s, Dead s → wp (f tok) (fun _ => Dead) (fun _ => True)
      (fun _ => True) s)
    (htok : ∀ i s, pos i → (∀ tok ∈ look, Seen source i tok s) → tokenAt source i = tok)
    (hf : Marks source pos (some tok) before (f tok) good) :
    Marks source pos look before (Parse.peek >>= f) good where
  dead s hs := hdead _ _ hs.peeked
  alive i s hs hpos hlook := by
    have htoken := htok i s hpos hlook
    rcases hs.peeked with hdead' | ⟨hcursor, hseen⟩
    · exact (hdead _ _ hdead').mono (fun _ _ => .inl) (fun _ h => h) fun _ h => h
    · have heq : (snobolLexerPeek s.lexer).1 = tok := (congrArg Prod.fst hs.peek_eq).trans htoken
      show wp (f (snobolLexerPeek s.lexer).1) _ _ _ _
      rw [heq]
      refine hf.alive i _ hcursor hpos ?_
      rintro _ ⟨⟩
      rw [← htoken]
      exact hseen

theorem isLexicalError {f : Bool → Parse α}
    (hf : ∀ b, Marks source pos look before (f b) good) :
    Marks source pos look before (Parse.isLexicalError tok >>= f) good :=
  ⟨fun s hs => (hf _).dead s hs, fun i s hs hpos hlook => (hf _).alive i s hs hpos hlook⟩

theorem read {f : Parsing → Parse α}
    (hf : ∀ s, Sane s → Marks source pos look before (f s) good) :
    Marks source pos look before (Fueled.read >>= f) good :=
  ⟨fun s hs => (hf s hs.toSane).dead s hs,
    fun i s hs hpos hlook => (hf s hs.toSane).alive i s hs hpos hlook⟩

/-- The token that is seen is taken. -/
theorem take {f : Unit → Parse α} (mid : Prop) (pos' : Nat → Prop) (htok : tok ≠ .eof)
    (hoff : ∀ i, pos i → tokenAt source i = tok → (mid ↔ before ∧ ¬ Off source i))
    (hpos : ∀ i, pos i → tokenAt source i = tok → pos' (i + 1))
    (hf : Marks source pos' none mid (f ()) good) :
    Marks source pos (some tok) before (Parse.advance >>= f) good where
  dead s hs := hf.dead _ hs.advanced
  alive i s hs hi hlook := by
    have hseen := hlook tok rfl
    refine (hf.alive (i + 1) _ (hs.advanced hseen htok) (hpos i hi hseen.token) ?_).mono ?_ ?_ ?_
    · exact fun _ h => by cases h
    · intro a s' hreached
      refine hreached.after (Nat.le_succ i) ?_
      rw [hoff i hi hseen.token, found_succ]
    · exact fun _ h => h
    · exact fun _ h => h

/-- A plain token is not off. -/
theorem step {f : Unit → Parse α} (htok : tok.isPlain = true)
    (hf : Marks source (Behind source tok) none before (f ()) good) :
    Marks source (Clear source) (some tok) before (Parse.advance >>= f) good := by
  obtain ⟨heof, -, hequals⟩ := Token.isPlain_ne htok
  refine take before (Behind source tok) heof (fun i hi ht => ?_) (fun i _ ht => ⟨i, rfl, ht⟩) hf
  exact iff_self_and.mpr fun _ => hi.not_off ht hequals

theorem skip {f : Unit → Parse α} (htok : tok.isPlain = true)
    (hf : Marks source (Clear source) none before (f ()) good) :
    Marks source (Clear source) (some tok) before (Parse.advance >>= f) good :=
  step htok (hf.mono fun _ hi => hi.clear (Token.isPlain_ne htok).2.1)

variable {t : Token}

/-- A token without a text is told by its type. -/
theorem eq_of_type (ht : t.isFixed = true) (h : tok.type = t.type) : tok = t := by
  cases t <;> cases tok <;> first | rfl | (cases h <;> cases ht)

theorem matchToken {f : Bool → Parse α} (ht : t.isFixed = true)
    (h : Marks source pos (some t) before (f true) good)
    (h' : ∀ tok, Marks source pos (some tok) before (f false) good) :
    Marks source pos look before (Parse.matchToken t.type >>= f) good := by
  show Marks source pos look before
    (Parse.peek >>= fun tok => f (decide (tok.type = t.type))) good
  refine peek fun tok => ?_
  by_cases htype : tok.type = t.type
  · rw [decide_eq_true htype, eq_of_type ht htype]
    exact h
  · rw [decide_eq_false htype]
    exact h' tok

/-- The token that is expected is taken. -/
theorem expect {f : Unit → Parse α} (ht : t.isFixed = true) (hplain : t.isPlain = true)
    (h : Marks source (Behind source t) none before (f ()) good) :
    Marks source (Clear source) look before (Parse.expect t.type >>= f) good := by
  have hassoc : Parse.expect t.type >>= f = (do
      let tok ← Parse.peek
      if tok.type = t.type then do
        Parse.advance
        f ()
      else do
        if ← Parse.isLexicalError tok then Parse.failLexically
        else Parse.failWith (Parse.snprintf 128 (ascii
          s!"Expected {snobolTokenName t.type}, got {snobolTokenName tok.type}"))) := by
    funext s
    unfold Parse.expect
    simp only [bind_apply, Parse.peek, Fueled.update]
    by_cases htype : (snobolLexerPeek s.lexer).1.type = t.type
    · rw [if_pos htype, if_pos htype]
      rfl
    · rw [if_neg htype, if_neg htype]
      simp only [bind_apply, Parse.isLexicalError, Fueled.read, Pure.pure, Fueled.pure]
      split_ifs <;> rfl
  rw [hassoc]
  refine peek fun tok => .ite (fun htype => ?_) fun _ => ?_
  · rw [eq_of_type ht htype]
    exact .step hplain h
  · exact .isLexicalError fun _ => .ite (fun _ => .failLexically) fun _ => .failWith _

/-- A token that is not there is not taken. -/
theorem expectNot {f : Unit → Parse α} (ht : t.isFixed = true) (hplain : t.isPlain = true)
    (h : Marks source (Behind source t) none before (f ()) good) {now : Prop} :
    Marks source (fun i => tokenAt source i ≠ t) look now (Parse.expect t.type >>= f) good := by
  have hexpect : Marks source (Clear source) none before (Parse.expect t.type >>= f) good :=
    expect ht hplain h
  refine ⟨hexpect.dead, fun i s hs hi _ => ?_⟩
  have hexpect : (Parse.expect t.type s).1 = .fail := by
    unfold Parse.expect
    rw [bind_apply, hs.peek_run]
    dsimp only
    rw [if_neg fun htype => hi (eq_of_type ht htype)]
    simp only [bind_apply, Parse.isLexicalError, Fueled.read, Pure.pure, Fueled.pure]
    split_ifs <;> rfl
  unfold wp
  rw [bind_apply]
  rcases hrun : Parse.expect t.type s with ⟨_ | _ | _, s'⟩ <;> rw [hrun] at hexpect
  · cases hexpect
  · trivial
  · cases hexpect

/-- What is allocated is recorded. -/
theorem registerCaptureName_lt {names : List (Bytes × Nat)} {reg : Nat} (text : Bytes)
    (hreg : reg < maxVars) (h : ∀ entry ∈ names, entry.2 < maxVars) :
    ∀ entry ∈ Parse.registerCaptureName names text reg, entry.2 < maxVars := by
  induction names with
  | nil => exact List.forall_mem_singleton.mpr hreg
  | cons entry names ih =>
    rw [List.forall_mem_cons] at h
    rw [Parse.registerCaptureName]
    split
    · exact List.forall_mem_cons.mpr ⟨hreg, h.2⟩
    · exact List.forall_mem_cons.mpr ⟨h.1, ih h.2⟩

/-- `capture_reg_counter` is tested where a register is allocated. -/
theorem allocate {text msg : Bytes} {f : Nat → Parse α}
    (hf : ∀ reg, reg < maxVars → Marks source pos look before (f reg) good) :
    Marks source pos look before
      (do
        let s ← Fueled.read
        if s.parser.captureRegCounter ≥ maxVars then Parse.failWith msg
        else
          let reg ← Parse.allocateCapture text
          f reg) good where
  dead s hs := by
    refine (wp_bind _ _).mpr (wp_read.mpr ((wp_ite _ _ _).mpr ⟨fun _ => trivial, fun hroom => ?_⟩))
    have hlt : s.parser.captureRegCounter < maxVars := Nat.not_le.mp hroom
    refine (hf _ hlt).dead _ ⟨⟨hs.unreported, ?_⟩, hs.error, hs.notEof⟩
    exact registerCaptureName_lt text hlt hs.names
  alive i s hs hpos hlook := by
    refine (wp_bind _ _).mpr (wp_read.mpr ((wp_ite _ _ _).mpr ⟨fun _ => trivial, fun hroom => ?_⟩))
    have hlt : s.parser.captureRegCounter < maxVars := Nat.not_le.mp hroom
    refine (hf _ hlt).alive i _ ⟨⟨hs.unreported, ?_⟩, hs.error, hs.lexer, hs.inside⟩ hpos ?_
    · exact registerCaptureName_lt text hlt hs.names
    · exact fun tok htok => ⟨(hlook tok htok).token, (hlook tok htok).lexer⟩

/-- A lookahead goes on from there, or it comes back. -/
theorem lookahead {f : SnobolLexerState → Token → Parse α} (htok : tok.isPlain = true)
    (hf : ∀ (s : Parsing) (nxt : Token),
      Marks source (Behind source tok) (some nxt) before (f (snobolLexerSave s.lexer) nxt) good ∨
        ∃ m, f (snobolLexerSave s.lexer) nxt =
            (do Parse.restore (snobolLexerSave s.lexer); m) ∧
          Marks source (Clear source) (some tok) before m good) :
    Marks source (Clear source) (some tok) before
      (do let st ← Parse.save; Parse.advance; let next ← Parse.peek; f st next) good where
  dead s hs := by
    rw [wp_lookahead]
    rcases hf s (aheadToken s) with h | ⟨m, heq, h⟩
    · exact h.dead _ hs.ahead
    · rw [heq, wp_restore]
      exact h.dead _ hs.lookedAhead
  alive i s hs hpos hlook := by
    obtain ⟨heof, -, hequals⟩ := Token.isPlain_ne htok
    have hseen := hlook tok rfl
    rw [wp_lookahead]
    rcases hf s (aheadToken s) with h | ⟨m, heq, h⟩
    · -- the token is taken for good, and it is plain
      rcases hs.lookahead hseen heof with ⟨hdead, -⟩ | ⟨⟨hcursor, hnext⟩, -⟩
      · exact (h.dead _ hdead).mono (fun _ _ => .inl) (fun _ h => h) fun _ h => h
      · refine (h.alive (i + 1) _ hcursor ⟨i, rfl, hseen.token⟩ ?_).mono ?_ ?_ ?_
        · rintro _ ⟨⟩
          exact hnext
        · intro a s' hreached
          refine hreached.after (Nat.le_succ i) (iff_self_and.mpr fun _ => ?_)
          rw [found_succ]
          exact hpos.not_off hseen.token hequals
        · exact fun _ h => h
        · exact fun _ h => h
    · -- the lexer is put back, unless the lookahead met an error
      rw [heq, wp_restore]
      rcases hs.lookahead hseen heof with ⟨-, hdead⟩ | ⟨-, hcursor, hback⟩
      · exact (h.dead _ hdead).mono (fun _ _ => .inl) (fun _ h => h) fun _ h => h
      · refine h.alive i _ hcursor hpos ?_
        rintro _ ⟨⟩
        exact hback

end Marks

end Snobol4
