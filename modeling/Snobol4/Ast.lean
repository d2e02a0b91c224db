import Snobol4.Bytes

/-!
# Ast — the pattern syntax tree (`ast.h`)

The tagged union `ast_node_t` as an inductive type.  Texts and sets are byte
strings with their length (`char *` with `size_t len`), C integers are `Int32`,
codepoints of `BAL` are `UInt32`.
-/

namespace Snobol4

/-- `anchor_type_t` -/
inductive AnchorType where
  | anchorStart
  | anchorEnd
  deriving Repr, DecidableEq

/-- `ast_node_t`, one constructor for each `ast_type_t`. -/
inductive AstNode where
  | literal (text : Bytes)
  | concat (parts : List AstNode)
  | alt (left right : AstNode)
  | repetition (sub : AstNode) (min max : Int32)
  | span (set : Bytes)
  | «break» (set : Bytes)
  | any (set : Bytes)
  | notany (set : Bytes)
  | arbno (sub : AstNode)
  | cap (reg : Int32) (sub : AstNode)
  | assign (var reg : Int32)
  | len (n : Int32)
  | eval (fn reg : Int32)
  | dynamicEval (expr : AstNode)
  | anchor (atype : AnchorType)
  | emit (text : Option Bytes) (reg : Int32)
  | label (name : Bytes) (target : AstNode)
  | goto (label : Bytes)
  | tableAccess (table : Bytes) (key : AstNode)
  | tableUpdate (table : Bytes) (key value : AstNode)
  | breakx (set : Bytes)
  | bal (openCp closeCp : UInt32)
  | fence
  | rem
  | rpos (n : Int32)
  | rtab (n : Int32)
  | pos (n : Int32)
  | tab (n : Int32)
  | abort
  | fail
  | succeed
  | regRef (reg : Int32)
  deriving Repr

end Snobol4
