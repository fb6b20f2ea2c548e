import Quotation.Pass.Basic

/-!
# Passes by rules

Rules say, for a single node, what takes its place, and for a handler whether it keeps the variable
that catches the value. They look at the node and nothing else, so a pass made from them has no
state.
-/

namespace Quotation

/-- What takes the place of a node. -/
inductive Replacement where
  /-- A node that there is already. -/
  | existing (id : ExprId)
  /-- A new node. -/
  | fresh (kind : Kind) (span : Span)
  deriving DecidableEq, Repr

structure Rules where
  /-- What takes the place of the node at an index, if anything does. -/
  replace : ExprId → Node → Option Replacement := fun _ _ => none
  /-- Handlers keep the variable that catches the value. -/
  keepsCaught : Bool := true

namespace Rules

/-- An index is looked up before the rules are asked, so it has to lead to a node even if the node
is not kept. -/
def toPass (r : Rules) : Pass Unit where
  onNode id down := do
    match r.replace id (← Builder.node id) with
    | some (.existing id) => return id
    | some (.fresh kind span) => Builder.add kind span
    | none => down
  onHandler _ down := do
    let h ← down
    return if r.keepsCaught then h else { h with caught := none }

def run (r : Rules) (root : ExprId) : Builder ExprId :=
  (r.toPass.run root).run' ()

/-! ## Some rules -/

/-- Nothing is replaced. -/
def identity : Rules := {}

/-- Every integer literal is multiplied by `k`, modulo the width of a word. -/
def scale (k : Int64) : Rules where
  replace
    | _, ⟨.int n, span⟩ => some (.fresh (.int (n * k)) span)
    | _, _ => none

/-- Every reference to `v` becomes unit. -/
def erase (v : VarId) : Rules where
  replace
    | _, ⟨.var w, _⟩ => if w = v then some (.fresh .unit .nowhere) else none
    | _, _ => none

/-- The node `old` gives way to the node `new` wherever it is referred to. -/
def substitute (old new : ExprId) : Rules where
  replace id _ := if id = old then some (.existing new) else none

/-- Handlers no longer bind the thrown value. -/
def stripCaught : Rules where
  keepsCaught := false

end Rules

end Quotation
