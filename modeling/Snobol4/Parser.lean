import Snobol4.Lexer
import Snobol4.Support.Fueled

/-!
# Parser — recursive descent from tokens to the syntax tree (`parser.c`)

The parser functions call each other through `Rule`: every body is written over
the recursive calls it makes, and `parseRule` ties the knot with one unit of fuel
a call.  A C `return nullptr` (`false` or `-1` in the helpers) is a failure of the
computation: every caller passes it on.  Allocations succeed, so the branches that
only a failed allocation takes are absent; freeing has no counterpart.
-/

namespace Snobol4

/-- `MAX_VARS` -/
def maxVars : Nat := 64

/-- `struct snobol_parser`, with its `parser_error_t` inlined. -/
structure SnobolParser where
  hasError : Bool
  message : Bytes
  line : Nat
  column : Nat
  seenLabels : List Bytes
  captureRegCounter : Nat
  captureNames : List (Bytes × Nat)
  deriving Repr, DecidableEq

/-- `snobol_parser_create` -/
def snobolParserCreate : SnobolParser where
  hasError := false
  message := []
  line := 0
  column := 0
  seenLabels := []
  captureRegCounter := 0
  captureNames := []

/-- The parser with its lexer.  `saves` is a ghost: the lexer as it stood at every
`snobol_lexer_save` so far, latest first. -/
structure Parsing where
  lexer : SnobolLexer
  parser : SnobolParser
  saves : List SnobolLexer
  deriving Repr, DecidableEq

abbrev Parse := Fueled Parsing

namespace Parse

/-- `advance`; no caller looks at the token it returns. -/
def advance : Parse Unit :=
  .modify fun s => { s with lexer := (snobolLexerNext s.lexer).2 }

/-- `peek` -/
def peek : Parse Token :=
  .update fun s => ((snobolLexerPeek s.lexer).1, { s with lexer := (snobolLexerPeek s.lexer).2 })

/-- `match` -/
def matchToken (type : TokenType) : Parse Bool := do
  let tok ← peek
  return tok.type = type

/-- `snobol_lexer_save` -/
def save : Parse SnobolLexerState :=
  .update fun s => (snobolLexerSave s.lexer, { s with saves := s.lexer :: s.saves })

/-- `snobol_lexer_restore` -/
def restore (state : SnobolLexerState) : Parse Unit :=
  .modify fun s => { s with lexer := snobolLexerRestore s.lexer state }

/-- `set_error` at the lexer's line and position, as every caller does; the
message is cut to `SNOBOL_PARSER_ERROR_MAX - 1` bytes. -/
def setError (msg : Bytes) : Parse Unit :=
  .modify fun s =>
    { s with
      parser := { s.parser with
        hasError := true
        message := msg.take 255
        line := s.lexer.line
        column := s.lexer.pos } }

/-- `set_error(..); return nullptr` -/
def failWith {α : Type} (msg : Bytes) : Parse α := do
  setError msg
  .failed

/-- `set_error(parser, snobol_lexer_get_error(lexer), ..); return nullptr` -/
def failLexically {α : Type} : Parse α := do
  let s ← .read
  failWith s.lexer.errorMsg

/-- `tok.type == TOKEN_ERROR && snobol_lexer_has_error(lexer)` -/
def isLexicalError (tok : Token) : Parse Bool := do
  let s ← .read
  return tok = .error && s.lexer.hasError

/-- `snprintf(msg, size, ..)` -/
def snprintf (size : Nat) (msg : Bytes) : Bytes := msg.take (size - 1)

/-- `expect` -/
def expect (type : TokenType) : Parse Unit := do
  let tok ← peek
  if tok.type = type then
    advance
    return ()
  else if ← isLexicalError tok then failLexically
  else
    failWith (snprintf 128
      (ascii s!"Expected {snobolTokenName type}, got {snobolTokenName tok.type}"))

/-- The token description of `parse_integer_arg`. -/
def tokenDesc : Token → Bytes
  | .lit text => ch '\'' :: text.take 45 ++ [ch '\'']
  | .ident text => text.take 47
  | tok => ascii (snobolTokenName tok.type)

/-- `parse_integer_arg` -/
def parseIntegerArg (func : String) : Parse Int32 := do
  let tok ← peek
  if ← isLexicalError tok then failLexically
  else
    match tok with
    | .integer value =>
        if value < -2147483648 ∨ value > 2147483647 then
          failWith (snprintf 192
            (ascii s!"{func} integer argument {value} is out of range (int32)"))
        else do
          advance
          return Int32.ofInt value
    | tok =>
        failWith (snprintf 192
          (ascii s!"{func} expects an integer argument, got " ++ tokenDesc tok))

/-- The digit loop of `ident_is_v_register`. -/
def vRegisterDigits : Bytes → Nat → Option Nat
  | [], reg => some reg
  | c :: rest, reg =>
      if isDigit c then
        let reg := reg * 10 + (c.toNat - (ch '0').toNat)
        if reg > maxVars then none else vRegisterDigits rest reg
      else none

/-- `ident_is_v_register`: the register of `vN`.  `v64` passes. -/
def identIsVRegister : Bytes → Option Nat
  | v :: d :: rest =>
      if v = ch 'v' ∧ isDigit d then vRegisterDigits (d :: rest) 0 else none
  | _ => none

/-- `register_capture_name` on the registry. -/
def registerCaptureName (names : List (Bytes × Nat)) (text : Bytes) (reg : Nat) :
    List (Bytes × Nat) :=
  match names with
  | [] => [(text, reg)]
  | (name, r) :: rest =>
      if name = text then (name, reg) :: rest else (name, r) :: registerCaptureName rest text reg

/-- `find_capture_reg` -/
def findCaptureReg (names : List (Bytes × Nat)) (text : Bytes) : Option Nat :=
  names.lookup text

/-- Allocate the next sequential capture register and record its name:
`parser->capture_reg_counter++; register_capture_name(..)`. -/
def allocateCapture (text : Bytes) : Parse Nat :=
  .update fun s =>
    (s.parser.captureRegCounter,
      { s with
        parser := { s.parser with
          captureRegCounter := s.parser.captureRegCounter + 1
          captureNames :=
            registerCaptureName s.parser.captureNames text s.parser.captureRegCounter } })

/-- The `@name` target of `parse_naming_target`, at the `@`. -/
def parseCaptureTarget : Parse Nat := do
  advance
  let tok ← peek
  match tok with
  | .ident text =>
      let s ← .read
      if s.parser.captureRegCounter ≥ maxVars then failWith (ascii "Too many captures (max 64)")
      else
        let reg ← allocateCapture text
        advance
        return reg
  | _ => failWith (ascii "expected a capture name after '@' in a naming target")

/-- The `vN` target of `parse_naming_target`, at token `tok`. -/
def parseRegisterTarget (tok : Token) : Parse Nat :=
  let notATarget : Parse Nat :=
    failWith (ascii "naming target must be @name or $vN (e.g. 'a' . @word or 'a' $ v1)")
  match tok with
  | .ident text =>
      match identIsVRegister text with
      | some reg =>
          if reg ≥ maxVars then
            failWith (snprintf 160 (ascii s!"naming register v{reg} out of range (v0..v63)"))
          else do
            advance
            return reg
      | none =>
          match text with
          | v :: d :: _ =>
              if v = ch 'v' ∧ isDigit d then
                failWith (ascii "naming register out of range (v0..v63)")
              else notATarget
          | _ => notATarget
  | _ => notATarget

/-- `parse_naming_target` -/
def parseNamingTarget : Parse Nat := do
  let tok ← peek
  if tok = .at then parseCaptureTarget
  else if tok = .anchorEnd then
    advance
    let tok ← peek
    parseRegisterTarget tok
  else parseRegisterTarget tok

end Parse

/-! ## The recursive functions -/

/-- The parser functions that call each other.  The loops of `parse_alternation`
and `parse_concatenation` are functions of what they have accumulated. -/
inductive Rule where
  | statement
  | alternation
  | alternationLoop (left : AstNode)
  | concatenationLoop (parts : List AstNode)
  | repetition
  | primary
  | functionCall

namespace Parse

variable (call : Rule → Parse AstNode)

/-- The label of `parse_statement`, after its `:`. -/
def parseLabel (name : Bytes) : Parse AstNode := do
  let s ← .read
  if name ∈ s.parser.seenLabels then
    failWith (snprintf 256 (ascii "Duplicate label: '" ++ name ++ [ch '\'']))
  else
    .modify fun s =>
      { s with parser := { s.parser with seenLabels := s.parser.seenLabels ++ [name] } }
    let target ← call .statement
    return .label name target

/-- The goto of `parse_statement`, at its `:`. -/
def parseGoto (pattern : AstNode) : Parse AstNode := do
  advance
  expect .lparen
  let tok ← peek
  match tok with
  | .ident label =>
      advance
      expect .rparen
      return .concat [pattern, .goto label]
  | _ => failWith (ascii "Expected label name after ':('")

/-- The part of `parse_statement` after the label lookahead. -/
def parseUnlabelled : Parse AstNode := do
  let pattern ← call .alternation
  let tok ← peek
  if tok = .colon then parseGoto pattern else return pattern

/-- `parse_statement` -/
def parseStatement : Parse AstNode := do
  let tok ← peek
  match tok with
  | .ident name =>
      let savedState ← save
      advance
      let next ← peek
      if next = .colon then
        advance
        parseLabel call name
      else
        restore savedState
        parseUnlabelled call
  | _ => parseUnlabelled call

/-- `parse_alternation` -/
def parseAlternation : Parse AstNode := do
  let left ← call (.concatenationLoop [])
  call (.alternationLoop left)

/-- The `while (match(lexer, TOKEN_PIPE))` loop of `parse_alternation`. -/
def parseAlternationLoop (left : AstNode) : Parse AstNode := do
  if ← matchToken .pipe then
    advance
    let right ← call (.concatenationLoop [])
    call (.alternationLoop (.alt left right))
  else return left

/-- Whether a token starts a primary pattern (`is_primary` of
`parse_concatenation`; the identifier lookahead there can only set it again). -/
def startsPrimary : Token → Bool
  | .lit _ | .charclass _ | .lparen | .anchorStart | .anchorEnd | .at | .ident _ => true
  | _ => false

/-- What follows the loop of `parse_concatenation`. -/
def finishConcatenation (parts : List AstNode) : Parse AstNode :=
  match parts with
  | [] => failWith (ascii "Expected pattern element")
  | [part] => return part
  | parts => return .concat parts

/-- The rest of an iteration of `parse_concatenation`, past the naming operators:
one more part, or the end of the loop. -/
def parsePart (parts : List AstNode) (tok : Token) : Parse AstNode := do
  if startsPrimary tok then
    let part ← call .repetition
    call (.concatenationLoop (parts ++ [part]))
  else finishConcatenation parts

/-- The identifier lookahead of `parse_concatenation`: it restores the lexer
whatever it sees. -/
def parsePartAhead (parts : List AstNode) (tok : Token) : Parse AstNode := do
  match tok with
  | .ident _ =>
      let savedState ← save
      advance
      let _ ← peek
      restore savedState
      parsePart call parts tok
  | _ => parsePart call parts tok

/-- `<part> . <target>` and `<part> $ <target>`: the target wraps the last part. -/
def parseNaming (parts : List AstNode) : Parse AstNode := do
  let reg ← parseNamingTarget
  match parts.getLast? with
  | some part => call (.concatenationLoop (parts.dropLast ++ [.cap (Int32.ofNat reg) part]))
  | none => .failed

/-- What the token after `$` says about it. -/
inductive DollarUse where
  | naming
  | indirect
  | endAnchor

def dollarUse : Token → DollarUse
  | .at => .naming
  | .ident text => if (identIsVRegister text).isSome then .naming else .indirect
  | _ => .endAnchor

def indirectReference : Bytes :=
  ascii "unary '$' indirect reference is not supported (naming targets are @name or $vN)"

/-- An iteration of the loop of `parse_concatenation`. -/
def parseConcatenationLoop (parts : List AstNode) : Parse AstNode := do
  let tok ← peek
  if parts ≠ [] ∧ tok = .dot then
    advance
    parseNaming call parts
  else if parts ≠ [] ∧ tok = .anchorEnd then
    let savedState ← save
    advance
    let nxt ← peek
    match dollarUse nxt with
    | .naming => parseNaming call parts
    | .indirect => failWith indirectReference
    | .endAnchor =>
        restore savedState
        parsePartAhead call parts tok
  else parsePartAhead call parts tok

/-- `parse_repetition` -/
def parseRepetition : Parse AstNode := do
  let primary ← call .primary
  let tok ← peek
  match tok with
  | .star =>
      advance
      return .arbno primary
  | .plus =>
      advance
      return .concat [primary, .arbno primary]
  | .question =>
      advance
      return .repetition primary 0 1
  | _ => return primary

/-- `@IDENT <primary>`, at the `@`. -/
def parseCapture : Parse AstNode := do
  advance
  let tok ← peek
  match tok with
  | .ident text =>
      advance
      let s ← .read
      if s.parser.captureRegCounter ≥ maxVars then failWith (ascii "Too many captures (max 64)")
      else
        let reg ← allocateCapture text
        let sub ← call .primary
        return .cap (Int32.ofNat reg) sub
  | _ => failWith (ascii "Expected capture target")

/-- `( <alternation> )`, at the parenthesis. -/
def parseGroup : Parse AstNode := do
  advance
  let inner ← call .alternation
  expect .rparen
  return inner

/-- `$` as the end anchor. -/
def parseEndAnchor : Parse AstNode := do
  advance
  let nxt ← peek
  if nxt.type = .ident then failWith indirectReference
  else return .anchor .anchorEnd

/-- `parse_primary` -/
def parsePrimary : Parse AstNode := do
  let tok ← peek
  match tok with
  | .lit text =>
      advance
      return .literal text
  | .charclass text =>
      advance
      return .span text
  | .lparen => parseGroup call
  | .anchorStart =>
      advance
      return .anchor .anchorStart
  | .anchorEnd => parseEndAnchor
  | .at => parseCapture call
  | .ident _ => call .functionCall
  | tok =>
      if ← isLexicalError tok then failLexically
      else if tok.type = .integer then
        failWith (ascii "Integer literal is not valid here (digits only appear inside builtin argument lists)")
      else failWith (ascii "Unexpected token in pattern")

/-! ## Function calls -/

/-- `strncmp(name, func, name_len) == 0` for an identifier: it is a prefix. -/
def named (name : Bytes) (func : String) : Bool := name.isPrefixOf (ascii func)

/-- `name_len == strlen(prim) && strncmp(name, prim, name_len) == 0` -/
def isBare (name : Bytes) (prim : String) : Bool := name = ascii prim

/-- The bare primitives that are patterns without an argument list. -/
def barePrimitive (name : Bytes) : Option AstNode :=
  if isBare name "ARB" then some (.arbno (.len 1))
  else if isBare name "FENCE" then some .fence
  else if isBare name "REM" then some .rem
  else none

/-- The builtins with one string argument (`SPAN`, `BREAK`, `BREAKX`, `NOTANY`). -/
def parseSetCall (func : String) (create : Bytes → AstNode) : Parse AstNode := do
  let arg ← peek
  match arg with
  | .lit text | .charclass text =>
      advance
      expect .rparen
      return create text
  | _ => failWith (ascii s!"{func} expects string argument")

/-- `ANY`, whose argument may be absent. -/
def parseAnyCall : Parse AstNode := do
  let arg ← peek
  if arg = .rparen then
    advance
    return .any []
  else parseSetCall "ANY" .any

/-- The builtins with one integer argument (`LEN`, `POS`, `TAB`, `RPOS`, `RTAB`). -/
def parseIntCall (func : String) (create : Int32 → AstNode) : Parse AstNode := do
  let n ← parseIntegerArg func
  expect .rparen
  return create n

/-- The builtins that expect the closing parenthesis at once (`ARB`, `ABORT`,
`FAIL`, `SUCCEED`). -/
def parseNullaryCall (node : AstNode) : Parse AstNode := do
  expect .rparen
  return node

/-- `FENCE` and `REM`, which word their own complaint. -/
def parseNoArgumentsCall (func : String) (node : AstNode) : Parse AstNode := do
  if ← matchToken .rparen then
    advance
    return node
  else failWith (ascii s!"{func} expects no arguments")

/-- `parse_dynamic_eval` -/
def parseDynamicEval : Parse AstNode := do
  let expr ← call .alternation
  expect .rparen
  return .dynamicEval expr

/-- `parse_emit` -/
def parseEmit : Parse AstNode := do
  let tok ← peek
  match tok with
  | .lit text =>
      advance
      expect .rparen
      return .emit (some text) (-1)
  | .at =>
      advance
      let tok ← peek
      match tok with
      | .ident text =>
          let s ← .read
          match (identIsVRegister text).or (findCaptureReg s.parser.captureNames text) with
          | some reg =>
              advance
              expect .rparen
              return .emit none (Int32.ofNat reg)
          | none =>
              failWith (snprintf 192 (ascii "EMIT(@" ++ text ++
                ascii "): unknown capture name (capture it earlier in the pattern with @" ++
                text ++ ascii " ...)"))
      | _ =>
          failWith (ascii "EMIT(@...) expects a capture name or register: EMIT(@name) or EMIT(@vN)")
  | _ => failWith (ascii "EMIT expects an argument: EMIT('text') or EMIT(@reg)")

/-- `ARBNO` -/
def parseArbnoCall : Parse AstNode := do
  let sig := ascii "ARBNO expects one pattern argument: ARBNO(pattern)"
  if ← matchToken .rparen then failWith sig
  else
    let sub ← call .repetition
    if ← matchToken .comma then failWith sig
    else
      expect .rparen
      return .arbno sub

/-- A delimiter of `BAL`: the first codepoint of the literal. -/
def parseDelimiter (text : Bytes) : Parse UInt32 :=
  match utf8PeekNext text 0 with
  | some (cp, _) => return cp
  | none => failWith (ascii "BAL delimiter is not valid UTF-8")

/-- The second delimiter of `BAL`, at the comma. -/
def parseClosingDelimiter : Parse UInt32 := do
  advance
  let arg ← peek
  match arg with
  | .rparen =>
      failWith (ascii "BAL expects a closing delimiter after the comma: BAL('(', ')')")
  | .lit text =>
      advance
      parseDelimiter text
  | _ => failWith (ascii "BAL expects string delimiters: BAL() or BAL('(', ')')")

/-- `BAL` -/
def parseBalCall : Parse AstNode := do
  let arg ← peek
  match arg with
  | .rparen =>
      advance
      return .bal 40 41
  | .lit text =>
      advance
      let openCp ← parseDelimiter text
      if ← matchToken .comma then
        let closeCp ← parseClosingDelimiter
        expect .rparen
        return .bal openCp closeCp
      else
        expect .rparen
        return .bal openCp 41
  | _ => failWith (ascii "BAL expects string delimiters: BAL() or BAL('(', ')')")

/-- The bounds check of `repeat`. -/
def makeRepeat (sub : AstNode) (min max : Int32) : Parse AstNode :=
  if min < 0 then
    failWith (snprintf 160 (ascii s!"repeat: min must be non-negative (got {min.toInt})"))
  else if max < min then
    failWith (snprintf 160 (ascii s!"repeat: max ({max.toInt}) must be >= min ({min.toInt})"))
  else return .repetition sub min max

/-- `repeat` -/
def parseRepeatCall : Parse AstNode := do
  let sig := ascii "repeat expects three arguments: repeat(pattern, min, max)"
  if ← matchToken .rparen then failWith sig
  else
    let sub ← call .repetition
    expect .comma
    let min ← parseIntegerArg "repeat"
    if ← matchToken .rparen then failWith sig
    else
      expect .comma
      let max ← parseIntegerArg "repeat"
      expect .rparen
      makeRepeat sub min max

/-- The builtin calls, after the opening parenthesis.  A name selects the first
builtin it is a prefix of. -/
def parseBuiltin (name : Bytes) : Parse AstNode :=
  if named name "SPAN" then parseSetCall "SPAN" .span
  else if named name "BREAK" then parseSetCall "BREAK" .break
  else if named name "BREAKX" then parseSetCall "BREAKX" .breakx
  else if named name "ANY" then parseAnyCall
  else if named name "NOTANY" then parseSetCall "NOTANY" .notany
  else if named name "LEN" then parseIntCall "LEN" .len
  else if named name "EVAL" then parseDynamicEval call
  else if named name "EMIT" then parseEmit
  else if named name "POS" then parseIntCall "POS" .pos
  else if named name "TAB" then parseIntCall "TAB" .tab
  else if named name "ARB" then parseNullaryCall (.arbno (.len 1))
  else if named name "ARBNO" then parseArbnoCall call
  else if named name "BAL" then parseBalCall
  else if named name "FENCE" then parseNoArgumentsCall "FENCE" .fence
  else if named name "REM" then parseNoArgumentsCall "REM" .rem
  else if named name "RPOS" then parseIntCall "RPOS" .rpos
  else if named name "RTAB" then parseIntCall "RTAB" .rtab
  else if named name "repeat" then parseRepeatCall call
  else if named name "ABORT" then parseNullaryCall .abort
  else if named name "FAIL" then parseNullaryCall .fail
  else if named name "SUCCEED" then parseNullaryCall .succeed
  else failWith (ascii "Unknown function")

/-! ## Assignments and tables -/

/-- The target of an assignment: `vN`, or the register of a capture name. -/
def assignTarget (parser : SnobolParser) (name : Bytes) : Option Nat :=
  (identIsVRegister name).or (findCaptureReg parser.captureNames name)

/-- `<target> = <register-number>`, at the `=`. -/
def parseAssign (name : Bytes) : Parse AstNode := do
  advance
  let s ← .read
  match assignTarget s.parser name with
  | none =>
      failWith (snprintf 192 (ascii "assignment target '" ++ name ++
        ascii "' is not a capture name (register variables are v0..v63)"))
  | some var =>
      let tok ← peek
      match tok with
      | .integer reg =>
          if reg < 0 ∨ reg ≥ maxVars then
            failWith (snprintf 160 (ascii s!"assignment register {reg} out of range (v0..v63)"))
          else
            advance
            return .assign (Int32.ofNat var) (Int32.ofInt reg)
      | _ =>
          failWith (ascii "assignment expects a register number after '=' (e.g. v1 = 0 copies capture register 0 into v1)")

/-- The key `$vN`, at the `$`. -/
def parseRegisterKey : Parse AstNode := do
  advance
  let tok ← peek
  let notARegister : Parse AstNode :=
    failWith (ascii "table key register must be $vN (e.g. $v0 for the value captured into register 0)")
  match tok with
  | .ident text =>
      match identIsVRegister text with
      | some reg =>
          if reg ≥ maxVars then
            failWith (snprintf 160 (ascii s!"table key register v{reg} out of range (v0..v63)"))
          else
            advance
            return .regRef (Int32.ofNat reg)
      | none => notARegister
  | _ => notARegister

/-- The key of a table access, after the `[`. -/
def parseTableKey (name : Bytes) : Parse AstNode := do
  let tok ← peek
  if ← isLexicalError tok then failLexically
  else
    match tok with
    | .lit text =>
        advance
        return .literal text
    | .anchorEnd => parseRegisterKey
    | _ =>
        failWith (snprintf 192 (ascii "invalid key in '" ++ name ++
          ascii "[...]': expected a quoted literal ('k') or $vN register reference"))

/-- `IDENT '[' key ']' [ '=' value ]`, at the `[`. -/
def parseTable (name : Bytes) : Parse AstNode := do
  advance
  let key ← parseTableKey name
  expect .rbracket
  if ← matchToken .equals then
    advance
    let tok ← peek
    if tok.type = .eof then
      failWith (ascii "expected a value pattern after '=' in 'TABLE[key] = '")
    else
      let value ← call .repetition
      return .tableUpdate name key value
  else return .tableAccess name key

/-- `parse_table_or_assign` -/
def parseTableOrAssign (name : Bytes) : Parse AstNode := do
  let tok ← peek
  if tok = .equals then parseAssign name else parseTable call name

/-- The dispatch of `parse_function_call` on the token after the identifier. -/
def parseAfterName (name : Bytes) (next : Token) : Parse AstNode :=
  match next with
  | .equals | .lbracket => parseTableOrAssign call name
  | .charclass _ =>
      failWith (ascii "invalid table key after identifier: expected 'literal' or $vN register reference")
  | .lparen => do
      advance
      parseBuiltin call name
  | _ =>
      match barePrimitive name with
      | some node => return node
      | none => failWith (ascii "Bare identifier is not a valid pattern")

/-- `parse_function_call` -/
def parseFunctionCall : Parse AstNode := do
  let nameTok ← peek
  match nameTok with
  | .ident name =>
      advance
      let next ← peek
      parseAfterName call name next
  | _ => failWith (ascii "Expected function name")

/-! ## The parser -/

/-- The body of each function, over the recursive calls it makes. -/
def ruleBody : Rule → Parse AstNode
  | .statement => parseStatement call
  | .alternation => parseAlternation call
  | .alternationLoop left => parseAlternationLoop call left
  | .concatenationLoop parts => parseConcatenationLoop call parts
  | .repetition => parseRepetition call
  | .primary => parsePrimary call
  | .functionCall => parseFunctionCall call

/-- The parser functions, with `fuel` nested or successive calls at most. -/
def parseRule : Nat → Rule → Parse AstNode
  | 0, _ => .exhausted
  | fuel + 1, rule => ruleBody (parseRule fuel) rule

end Parse

/-- `return ast`, where `ast` may be null. -/
def returnNode : Option AstNode → Parse AstNode
  | some ast => return ast
  | none => .failed

open Parse in
/-- `snobol_parser_parse` -/
def snobolParserParse (fuel : Nat) : Parse AstNode := do
  .modify fun s =>
    { s with
      parser := { s.parser with
        hasError := false
        seenLabels := []
        captureNames := []
        captureRegCounter := 0 } }
  let ast ← .attempt (parseRule fuel .statement)
  let s ← .read
  if s.parser.hasError then returnNode ast
  else
    let tok ← peek
    if ← isLexicalError tok then failLexically
    else if tok.type ≠ .eof then failWith (ascii "Unexpected token after pattern")
    else returnNode ast

/-- A fresh parser and a fresh lexer over `source`. -/
def freshParsing (source : Bytes) : Parsing where
  lexer := snobolLexerCreate source
  parser := snobolParserCreate
  saves := []

end Snobol4
