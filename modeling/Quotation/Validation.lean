import Quotation.Arena.Basic
import Quotation.Pool

/-!
# Validation

A fragment is valid if everything that its nodes name exists: nodes, slices, constants and
variables. The nodes are checked from the root down, a node before its children and the last child
first, and the first defect that is met is reported.
-/

namespace Quotation

section
variable (a : Arena) (constants : Nat)

/-! ## One node -/

def checkVar (v : VarId) : Except Defect Unit :=
  if v.index < a.names.size then .ok () else .error (.undeclared v a.names.size)

/-- The entries of a slice, which has to lie in its table. -/
def checkSlice {α : Type} (list : ListKind) (table : Array α) (s : Slice α) :
    Except Defect (List α) :=
  match s.read? table with
  | some entries => .ok entries
  | none => .error (.slice list s.start s.len table.size)

def checkVars (s : Slice VarId) : Except Defect Unit := do
  (← checkSlice .vars a.varEntries s).forM (checkVar a)

/-- The children of a handler. -/
def checkHandler (h : Handler) : Except Defect (List ExprId) := do
  h.caught.forM (checkVar a)
  return h.body :: h.filter.toList

/-- Checks what a kind names by itself, and yields its children. -/
def checkKind : Kind → Except Defect (List ExprId)
  | .unit | .int _ | .bool _ => return []
  | .var v => do checkVar a v; return []
  | .constant c =>
    if c.index < constants then return [] else throw (.constant c constants)
  | .cellList vars => do checkVars a vars; return []
  | .binary _ left right => return [left, right]
  | .assign target value => return [target, value]
  | .cond test yes no => return [test, yes, no]
  | .block locals body => do
    checkVars a locals
    checkSlice .exprs a.exprEntries body
  | .lambda params body _ => do checkVars a params; return [body]
  | .call callee args => return callee :: (← checkSlice .exprs a.exprEntries args)
  | .attempt body handlers => do
    let handlers ← checkSlice .handlers a.handlerEntries handlers
    return body :: (← handlers.mapM (checkHandler a)).flatten
  | .throw value => return [value]
  | .content receiver => return [receiver]

def checkNode (id : ExprId) : Except Defect (List ExprId) :=
  match a.node? id with
  | some node => checkKind a constants node.kind
  | none => .error (.node a.size)

/-! ## All nodes -/

/-- Checks the nodes from `id` on, at most `levels` nodes deep. -/
def validateWithin : Nat → ExprId → Except Fault Unit
  | 0, _ => .error .endless
  | levels + 1, id =>
    match checkNode a constants id with
    | .ok children => children.reverse.forM (validateWithin levels)
    | .error defect => .error (.invalid id defect)

end

/-- No way down is longer than there are nodes, with one more index that leads nowhere. -/
def validate (a : Arena) (pool : Pool) (root : ExprId) : Except Fault Unit :=
  validateWithin a pool.size (a.size + 1) root

end Quotation
