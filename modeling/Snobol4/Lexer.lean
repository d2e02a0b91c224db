import Snobol4.Ast
import Mathlib.Tactic.Common

/-!
# Lexer — tokens of the pattern source (`lexer.c`)

The lexer is a cursor over the source with a one-token lookahead buffer
(`peekToken`, `hasPeek`) and a sticky error flag.  `save`/`restore` copy the
cursor and the buffer but not the error flag, as in the source.
-/

namespace Snobol4

/-- `token_type_t` -/
inductive TokenType where
  | eof | lit | ident | charclass | integer | pipe | lparen | rparen | star | plus | question
  | anchorStart | anchorEnd | at | colon | lbracket | rbracket | dot | equals | comma | error
  deriving Repr, DecidableEq

/-- `token_t`: the type with the payload that type has.  A text is a slice of the
source. -/
inductive Token where
  | eof
  | lit (text : Bytes)
  | ident (text : Bytes)
  | charclass (text : Bytes)
  | integer (value : Int)
  | pipe | lparen | rparen | star | plus | question
  | anchorStart | anchorEnd | at | colon | lbracket | rbracket | dot | equals | comma
  | error
  deriving Repr, DecidableEq

def Token.type : Token → TokenType
  | .eof => .eof
  | .lit _ => .lit
  | .ident _ => .ident
  | .charclass _ => .charclass
  | .integer _ => .integer
  | .pipe => .pipe
  | .lparen => .lparen
  | .rparen => .rparen
  | .star => .star
  | .plus => .plus
  | .question => .question
  | .anchorStart => .anchorStart
  | .anchorEnd => .anchorEnd
  | .at => .at
  | .colon => .colon
  | .lbracket => .lbracket
  | .rbracket => .rbracket
  | .dot => .dot
  | .equals => .equals
  | .comma => .comma
  | .error => .error

/-- `snobol_token_name` -/
def snobolTokenName : TokenType → String
  | .eof => "EOF"
  | .lit => "LITERAL"
  | .ident => "IDENT"
  | .charclass => "CHARCLASS"
  | .integer => "INTEGER"
  | .pipe => "PIPE"
  | .lparen => "LPAREN"
  | .rparen => "RPAREN"
  | .star => "STAR"
  | .plus => "PLUS"
  | .question => "QUESTION"
  | .anchorStart => "ANCHOR_START"
  | .anchorEnd => "ANCHOR_END"
  | .at => "AT"
  | .colon => "COLON"
  | .lbracket => "LBRACKET"
  | .rbracket => "RBRACKET"
  | .dot => "DOT"
  | .equals => "EQUALS"
  | .comma => "COMMA"
  | .error => "ERROR"

/-- `struct snobol_lexer`; `len` is the length of `source`. -/
structure SnobolLexer where
  source : Bytes
  pos : Nat
  line : Nat
  column : Nat
  peekToken : Token
  hasPeek : Bool
  prevType : TokenType
  hasError : Bool
  errorMsg : Bytes
  errorLine : Nat
  errorCol : Nat
  deriving Repr, DecidableEq

/-- `snobol_lexer_create` -/
def snobolLexerCreate (source : Bytes) : SnobolLexer where
  source := source
  pos := 0
  line := 1
  column := 1
  peekToken := .eof
  hasPeek := false
  prevType := .eof
  hasError := false
  errorMsg := []
  errorLine := 0
  errorCol := 0

/-! ## Scanning -/

/-- The code of a character of the source alphabet. -/
def ch (c : Char) : UInt8 := UInt8.ofNat c.toNat

def isDigit (c : UInt8) : Bool := ch '0' ≤ c && c ≤ ch '9'

def isIdentStart (c : UInt8) : Bool :=
  (ch 'a' ≤ c && c ≤ ch 'z') || (ch 'A' ≤ c && c ≤ ch 'Z') || c == ch '_'

def isIdentContinue (c : UInt8) : Bool := isIdentStart c || isDigit c

namespace SnobolLexer

/-- The unread source. -/
def rest (lexer : SnobolLexer) : Bytes := lexer.source.drop lexer.pos

/-- The source text from `start` up to the cursor. -/
def slice (lexer : SnobolLexer) (start : Nat) : Bytes :=
  (lexer.source.drop start).take (lexer.pos - start)

/-- `lexer->pos++; lexer->column++` -/
def bump (lexer : SnobolLexer) : SnobolLexer :=
  { lexer with pos := lexer.pos + 1, column := lexer.column + 1 }

end SnobolLexer

def skipWhitespaceFrom : Bytes → SnobolLexer → SnobolLexer
  | [], lexer => lexer
  | c :: rest, lexer =>
      if c = ch ' ' ∨ c = ch '\t' ∨ c = ch '\n' ∨ c = ch '\r' then
        let lexer :=
          if c = ch '\n' then { lexer with line := lexer.line + 1, column := 0 } else lexer
        skipWhitespaceFrom rest lexer.bump
      else lexer

/-- `skip_whitespace` -/
def skipWhitespace (lexer : SnobolLexer) : SnobolLexer := skipWhitespaceFrom lexer.rest lexer

/-- The common loop of `scan_literal` and `scan_charclass`: the text up to the
closing character, or up to the end of an unterminated token. -/
def scanUntil (close : UInt8) (token : Bytes → Token) (start : Nat) :
    Bytes → SnobolLexer → Token × SnobolLexer
  | [], lexer => (token (lexer.slice start), lexer)
  | c :: rest, lexer =>
      if c = close then
        -- `pos` is past the closing character when the column is advanced
        (token (lexer.slice start),
          { lexer with
            pos := lexer.pos + 1
            column := lexer.column + (lexer.pos + 1 - start) + 1 })
      else scanUntil close token start rest lexer.bump

/-- `scan_literal`, after the opening quote. -/
def scanLiteral (lexer : SnobolLexer) : Token × SnobolLexer :=
  scanUntil (ch '\'') .lit lexer.pos lexer.rest lexer

/-- `scan_charclass`, after the opening bracket. -/
def scanCharclass (lexer : SnobolLexer) : Token × SnobolLexer :=
  scanUntil (ch ']') .charclass lexer.pos lexer.rest lexer

def scanIdentFrom (start : Nat) : Bytes → SnobolLexer → Token × SnobolLexer
  | [], lexer => (.ident (lexer.slice start), lexer)
  | c :: rest, lexer =>
      if isIdentContinue c then scanIdentFrom start rest lexer.bump
      else (.ident (lexer.slice start), lexer)

/-- `scan_ident` -/
def scanIdent (lexer : SnobolLexer) : Token × SnobolLexer :=
  scanIdentFrom lexer.pos lexer.rest lexer

/-- `INT64_MAX` -/
def int64Max : Int := 9223372036854775807

/-- The digit loop of `scan_integer`.  Past the overflow check the value is no
longer used, so it may grow here where the source's wraps. -/
def scanDigits : Bytes → SnobolLexer → Int → Bool → Int × Bool × SnobolLexer
  | [], lexer, value, overflow => (value, overflow, lexer)
  | c :: rest, lexer, value, overflow =>
      if isDigit c then
        let d : Int := (c.toNat : Int) - (ch '0').toNat
        scanDigits rest lexer.bump (value * 10 + d)
          (overflow || decide (value > (int64Max - d) / 10))
      else (value, overflow, lexer)

/-- `scan_integer`.  The second digit loop of its overflow branch finds nothing
left to consume: the first one stops at a non-digit only. -/
def scanInteger (lexer : SnobolLexer) (negative : Bool) : Token × SnobolLexer :=
  match scanDigits lexer.rest lexer 0 false with
  | (_, true, lexer) =>
      let lexer :=
        if lexer.hasError then lexer
        else
          { lexer with
            hasError := true
            errorLine := lexer.line
            errorCol := lexer.column
            errorMsg := ascii s!"integer literal too large (64-bit overflow) at line {lexer.line}, column {lexer.column}" }
      (.error, lexer)
  | (value, false, lexer) => (.integer (if negative then -value else value), lexer)

/-- `%02X` -/
def hex2 (c : UInt8) : Bytes :=
  let digit (n : Nat) : UInt8 := UInt8.ofNat (if n < 10 then 48 + n else 55 + n)
  [digit (c.toNat / 16), digit (c.toNat % 16)]

/-- `set_lexer_error` -/
def setLexerError (lexer : SnobolLexer) (c : UInt8) : SnobolLexer :=
  if lexer.hasError then lexer
  else
    let shown := if 0x20 ≤ c ∧ c < 0x7f then ch '\'' :: c :: [ch '\''] else ascii "0x" ++ hex2 c
    { lexer with
      hasError := true
      errorLine := lexer.line
      errorCol := lexer.column
      errorMsg := ascii "unrecognized character " ++ shown ++
        ascii s!" at line {lexer.line}, column {lexer.column}" }

/-- The key span of `bracket_is_table_key` after a quote: a second quote comes
before the closing bracket. -/
def quoteBeforeBracket : Bytes → Bool
  | [] => false
  | c :: rest => if c = ch ']' then false else c = ch '\'' || quoteBeforeBracket rest

/-- `bracket_is_table_key`, at a `[`. -/
def bracketIsTableKey (lexer : SnobolLexer) : Bool :=
  match (lexer.source.drop (lexer.pos + 1)).dropWhile fun c => c = ch ' ' || c = ch '\t' with
  | [] => false
  | c :: rest =>
      if c = ch '\'' then quoteBeforeBracket rest
      else if c = ch '$' then
        match rest with
        | v :: d :: _ => v = ch 'v' && isDigit d
        | _ => false
      else false

/-- The single-character cases of `snobol_lexer_next`'s switch, brackets and quotes
apart. -/
def singleCharTokens : List (UInt8 × Token) :=
  [(ch '|', .pipe), (ch '(', .lparen), (ch ')', .rparen), (ch '*', .star), (ch '+', .plus),
    (ch '?', .question), (ch '^', .anchorStart), (ch '$', .anchorEnd), (ch '.', .dot),
    (ch '@', .at), (ch ':', .colon), (ch ']', .rbracket), (ch '=', .equals), (ch ',', .comma)]

/-- `lexer->prev_type = tok.type; return tok` -/
def returning (scanned : Token × SnobolLexer) : Token × SnobolLexer :=
  (scanned.1, { scanned.2 with prevType := scanned.1.type })

/-- The switch of `snobol_lexer_next` on the character under the cursor. -/
def scanToken (lexer : SnobolLexer) (c : UInt8) (next : Option UInt8) : Token × SnobolLexer :=
  match singleCharTokens.lookup c with
  | some tok => returning (tok, lexer.bump)
  | none =>
      if c = ch '[' then
        if lexer.prevType = .ident ∧ bracketIsTableKey lexer then
          returning (.lbracket, lexer.bump)
        else returning (scanCharclass lexer.bump)
      else if c = ch '\'' then returning (scanLiteral lexer.bump)
      else if isIdentStart c then returning (scanIdent lexer)
      else if isDigit c then returning (scanInteger lexer false)
      else if c = ch '-' ∧ next.any isDigit then returning (scanInteger lexer.bump true)
      else returning (.error, setLexerError lexer c)

/-- `snobol_lexer_next`.  The sticky error is tested before the lookahead
buffer. -/
def snobolLexerNext (lexer : SnobolLexer) : Token × SnobolLexer :=
  if lexer.hasError then (.error, lexer)
  else if lexer.hasPeek then
    (lexer.peekToken, { lexer with hasPeek := false, prevType := lexer.peekToken.type })
  else
    let lexer := skipWhitespace lexer
    match lexer.rest with
    | [] => (.eof, lexer)
    | c :: rest => if c = 0 then (.eof, lexer) else scanToken lexer c rest.head?

/-- `snobol_lexer_peek` -/
def snobolLexerPeek (lexer : SnobolLexer) : Token × SnobolLexer :=
  if lexer.hasPeek then (lexer.peekToken, lexer)
  else
    let scanned := snobolLexerNext lexer
    (scanned.1, { scanned.2 with peekToken := scanned.1, hasPeek := true })

/-- `snobol_lexer_state_t` -/
structure SnobolLexerState where
  pos : Nat
  line : Nat
  column : Nat
  peekToken : Token
  hasPeek : Bool
  prevType : TokenType
  deriving Repr, DecidableEq

/-- `snobol_lexer_save` -/
def snobolLexerSave (lexer : SnobolLexer) : SnobolLexerState where
  pos := lexer.pos
  line := lexer.line
  column := lexer.column
  peekToken := lexer.peekToken
  hasPeek := lexer.hasPeek
  prevType := lexer.prevType

/-- `snobol_lexer_restore`: the error flag and its message are not part of the
saved state. -/
def snobolLexerRestore (lexer : SnobolLexer) (state : SnobolLexerState) : SnobolLexer :=
  { lexer with
    pos := state.pos
    line := state.line
    column := state.column
    peekToken := state.peekToken
    hasPeek := state.hasPeek
    prevType := state.prevType }

end Snobol4
