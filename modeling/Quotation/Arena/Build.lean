import Quotation.Arena.Basic

/-!
# Building fragments

One operation for each kind of node, which stores the node's lists and then the node itself. Nodes
built here stand for no source text.
-/

namespace Quotation.Builder

private def addNowhere (kind : Kind) : Builder ExprId := add kind .nowhere

def unit : Builder ExprId := addNowhere .unit

def int (n : Int64) : Builder ExprId := addNowhere (.int n)

def bool (b : Bool) : Builder ExprId := addNowhere (.bool b)

def var (v : VarId) : Builder ExprId := addNowhere (.var v)

def binary (op : BinaryOp) (left right : ExprId) : Builder ExprId :=
  addNowhere (.binary op left right)

def assign (target value : ExprId) : Builder ExprId := addNowhere (.assign target value)

def cond (test yes no : ExprId) : Builder ExprId := addNowhere (.cond test yes no)

/-- The locals are a set: a variable listed twice is declared once. -/
def block (locals : List VarId) (body : List ExprId) : Builder ExprId := do
  let locals ← addVarSet locals
  let body ← addExprs body
  addNowhere (.block locals body)

/-- A function with a name, which serves messages only. -/
def namedLambda (name : Option VarId) (params : List VarId) (body : ExprId) : Builder ExprId := do
  let params ← addVars params
  addNowhere (.lambda params body name)

def lambda (params : List VarId) (body : ExprId) : Builder ExprId := namedLambda none params body

def call (callee : ExprId) (args : List ExprId) : Builder ExprId := do
  let args ← addExprs args
  addNowhere (.call callee args)

def attempt (body : ExprId) (handlers : List Handler) : Builder ExprId := do
  let handlers ← addHandlers handlers
  addNowhere (.attempt body handlers)

def throw (value : ExprId) : Builder ExprId := addNowhere (.throw value)

def constant (c : ConstantId) : Builder ExprId := addNowhere (.constant c)

def content (receiver : ExprId) : Builder ExprId := addNowhere (.content receiver)

def cellList (vs : List VarId) : Builder ExprId := do
  let vs ← addVars vs
  addNowhere (.cellList vs)

/-- One more node of the kind of `id`, which stands for the source text at `span`. -/
def respan (id : ExprId) (span : Span) : Builder ExprId := do
  let node ← node id
  add node.kind span

end Quotation.Builder
