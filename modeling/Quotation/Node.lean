import Quotation.Index

/-!
# Nodes

A node has a kind and a span. The kind names its children by index, so a node can be read out of the
arena and kept while the arena grows.
-/

namespace Quotation

inductive BinaryOp where
  | add | sub | mul | lt | eq
  deriving DecidableEq, Inhabited, Repr

/-- The operator as it is written in source text. -/
def BinaryOp.symbol : BinaryOp → String
  | add => "+"
  | sub => "-"
  | mul => "*"
  | lt => "<"
  | eq => "=="

/-- One clause of an `attempt`. The variable that catches the thrown value is bound in the filter
and in the body; a clause without a filter takes every value. -/
structure Handler where
  caught : Option VarId
  body : ExprId
  filter : Option ExprId
  deriving DecidableEq, Inhabited, Repr

inductive Kind where
  | unit
  | int (n : Int64)
  | bool (b : Bool)
  | var (v : VarId)
  | binary (op : BinaryOp) (left right : ExprId)
  | assign (target value : ExprId)
  | cond (test yes no : ExprId)
  | block (locals : Slice VarId) (body : Slice ExprId)
  | lambda (params : Slice VarId) (body : ExprId) (name : Option VarId)
  | call (callee : ExprId) (args : Slice ExprId)
  | attempt (body : ExprId) (handlers : Slice Handler)
  | throw (value : ExprId)
  /-- A value of the constant pool. -/
  | constant (c : ConstantId)
  /-- What the cell that the receiver yields holds; also a target of assignment. -/
  | content (receiver : ExprId)
  /-- The listed variables as one list that can be read and written by position. -/
  | cellList (vars : Slice VarId)
  deriving DecidableEq, Inhabited, Repr

structure Node where
  kind : Kind
  span : Span
  deriving DecidableEq, Inhabited, Repr

end Quotation
