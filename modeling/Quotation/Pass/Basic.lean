import Quotation.Arena.Basic

/-!
# Passes

A pass answers a node with a node of the same arena. Where it does not answer by itself it descends:
the children are visited from left to right, and the node is built anew only if some child has
changed. An unchanged fragment is therefore answered with its own index, and adds nothing to the
arena.
-/

namespace Quotation

/-- A pass adds to the arena and keeps a state of its own. -/
abbrev PassM (σ : Type) := StateT σ Builder

section
variable {σ : Type} (visit : ExprId → PassM σ ExprId)
  (visitHandler : Handler → PassM σ Handler)

/-! ## One level -/

/-- A list is stored again only if one of its elements has changed. -/
def descendExprs (s : Slice ExprId) : PassM σ (Slice ExprId) := do
  let before ← Builder.exprs s
  let after ← before.mapM visit
  if after == before then return s else Builder.addExprs after

def descendHandlers (s : Slice Handler) : PassM σ (Slice Handler) := do
  let before ← Builder.handlers s
  let after ← before.mapM visitHandler
  if after == before then return s else Builder.addHandlers after

def descendHandler (h : Handler) : PassM σ Handler := do
  let body ← visit h.body
  let filter ← h.filter.mapM visit
  return { h with body, filter }

/-- The kind with the answers for its children. -/
def descendKind : Kind → PassM σ Kind
  | .unit => return .unit
  | .int n => return .int n
  | .bool b => return .bool b
  | .var v => return .var v
  | .binary op left right => return .binary op (← visit left) (← visit right)
  | .assign target value => return .assign (← visit target) (← visit value)
  | .cond test yes no => return .cond (← visit test) (← visit yes) (← visit no)
  | .block locals body => return .block locals (← descendExprs visit body)
  | .lambda params body name => return .lambda params (← visit body) name
  | .call callee args => return .call (← visit callee) (← descendExprs visit args)
  | .attempt body handlers =>
    return .attempt (← visit body) (← descendHandlers visitHandler handlers)
  | .throw value => return .throw (← visit value)
  | .constant c => return .constant c
  | .content receiver => return .content (← visit receiver)
  | .cellList vars => return .cellList vars

/-- A node that is built anew keeps its span. -/
def descend (id : ExprId) : PassM σ ExprId := do
  let node ← Builder.node id
  let kind ← descendKind visit visitHandler node.kind
  if kind = node.kind then return id else Builder.add kind node.span

end

/-! ## All levels -/

/-- What a pass does at a node and at a handler. It is given what would happen if it did nothing,
and may use that as it likes. A pass is taken to walk no node but the one that it is asked about: it
answers by itself or goes down from there. -/
structure Pass (σ : Type) where
  onNode : ExprId → PassM σ ExprId → PassM σ ExprId := fun _ down => down
  onHandler : Handler → PassM σ Handler → PassM σ Handler := fun _ down => down

namespace Pass

variable {σ : Type}

/-- The answer for `id`, at most `levels` nodes deep. -/
def runWithin (p : Pass σ) : Nat → ExprId → PassM σ ExprId
  | 0, _ => throw .endless
  | levels + 1, id =>
    let visit := p.runWithin levels
    p.onNode id (descend visit (fun h => p.onHandler h (descendHandler visit h)) id)

/-- A walk that ends meets no node twice on its way down, so it is no deeper than there are nodes
and indices for new ones. -/
def levels (a : Arena) : Nat := a.size + indexLimit

def run (p : Pass σ) (root : ExprId) : PassM σ ExprId := do
  p.runWithin (levels (← getThe Arena)) root

end Pass

end Quotation
