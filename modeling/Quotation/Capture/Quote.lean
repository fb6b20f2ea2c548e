import Quotation.Capture.Frame
import Quotation.Capture.OpenScopes
import Quotation.Pass.Basic
import Quotation.Validation

/-!
# Quoting

Quoting turns a fragment that refers to variables of running scopes into one that can be evaluated
by itself and still reads and writes those variables. A reference to a captured variable becomes an
access to the cell that the chain of frames and storages has for it; a variable that the fragment
declares itself stays as it is.
-/

namespace Quotation

/-- The state of one quoting. -/
structure Quoting where
  pool : Pool
  nextStamp : Stamp
  opened : OpenScopes := {}
  /-- The constant of each captured variable: all references to it share one. -/
  cellConstants : List (VarId × ConstantId) := []
  mergeConstant : Option ConstantId := none

abbrev QuoteM := PassM Quoting

namespace QuoteM

def pushConstant (v : Value) : QuoteM ConstantId := do
  let (c, pool) ← (← get).pool.push v
  modify fun q => { q with pool }
  return c

def newStamp : QuoteM Stamp :=
  modifyGet fun q => (q.nextStamp, { q with nextStamp := q.nextStamp + 1 })

def cellConstant (v : VarId) (c : Cell) : QuoteM ConstantId := do
  match (← get).cellConstants.lookup v with
  | some constant => return constant
  | none =>
    let constant ← pushConstant (.cell c)
    modify fun q => { q with cellConstants := (v, constant) :: q.cellConstants }
    return constant

def mergeConstant : QuoteM ConstantId := do
  match (← get).mergeConstant with
  | some constant => return constant
  | none =>
    let constant ← pushConstant (.builtin .mergeVariables)
    modify fun q => { q with mergeConstant := some constant }
    return constant

/-- Runs `act` inside a scope that declares `vs`. -/
def declaring {α : Type} (vs : List VarId) (act : QuoteM α) : QuoteM α := do
  modify fun q => { q with opened := q.opened.enter vs }
  let a ← act
  let opened ← (← get).opened.exit
  modify fun q => { q with opened }
  return a

end QuoteM

open QuoteM

/-- Reports to the trace that a captured variable is given its cell. -/
def traceCapture [Tracing] (v : VarId) : QuoteM Unit := do
  if Tracing.captures then
    let _ ← Builder.require ((← getThe Arena).name? v)

section
variable [Tracing] (frames : List Frame) (storages : List Storage)

/-- The cell of a variable, and none if the fragment declares the variable itself. -/
def captured (v : VarId) : QuoteM (Option Cell) := do
  if (← get).opened.declares v then return none
  else
    match resolve v frames storages with
    | .ok c => return some c
    | .error why =>
      let name ← Builder.require ((← getThe Arena).name? v)
      throw (.unresolved name v why)

def quoteVar (id : ExprId) (span : Span) (v : VarId) : QuoteM ExprId := do
  match ← captured frames storages v with
  | none => return id
  | some c =>
    let receiver ← Builder.add (.constant (← cellConstant v c)) span
    traceCapture v
    Builder.add (.content receiver) span

/-- A list of variables parted into those that the fragment declares and the cells of the others,
with the route to each position. -/
structure Parted where
  free : Array VarId := #[]
  bound : Array Cell := #[]
  routing : Array Int64 := #[]

def Parted.add (p : Parted) (v : VarId) : Option Cell → Except Fault Parted
  | none => do
    let route ← (Route.first p.free.size).encode
    return { p with free := p.free.push v, routing := p.routing.push route }
  | some c => do
    let route ← (Route.second p.bound.size).encode
    return { p with bound := p.bound.push c, routing := p.routing.push route }

def part (vs : List VarId) : QuoteM Parted :=
  vs.foldlM (fun p v => do p.add v (← captured frames storages v)) {}

/-- The constant list of the captured variables. -/
def boundList (span : Span) (parted : Parted) : QuoteM ExprId := do
  let list := CellList.direct (← newStamp) parted.bound
  Builder.add (.constant (← pushConstant (.cellList list))) span

/-- The call that merges the list of the declared variables with the constant list of the others. -/
def mergeCall (span : Span) (parted : Parted) (bound : ExprId) : QuoteM ExprId := do
  let free ← Builder.add (.cellList (← Builder.addVars parted.free.toList)) span
  let routing ← Builder.add (.constant (← pushConstant (.routing parted.routing))) span
  let callee ← Builder.add (.constant (← mergeConstant)) span
  let args ← Builder.addExprs [free, bound, routing]
  Builder.add (.call callee args) span

/-- A list without captured variables stays, one of captured variables only becomes a constant list,
and any other becomes a call that merges the two. -/
def quoteCellList (id : ExprId) (span : Span) (vars : Slice VarId) : QuoteM ExprId := do
  let parted ← part frames storages (← Builder.vars vars)
  if parted.bound.isEmpty then return id
  else
    let bound ← boundList span parted
    if parted.free.isEmpty then return bound else mergeCall span parted bound

/-- An empty list of declarations opens no scope. -/
def quoteDeclaring (vars : Slice VarId) (down : QuoteM ExprId) : QuoteM ExprId := do
  if vars.isEmpty then down else declaring (← Builder.vars vars) down

def quotePass : Pass Quoting where
  onNode id down := do
    let node ← Builder.node id
    match node.kind with
    | .var v => quoteVar frames storages id node.span v
    | .cellList vars => quoteCellList frames storages id node.span vars
    | .lambda params _ _ => quoteDeclaring params down
    | .block locals _ => quoteDeclaring locals down
    | _ => down
  onHandler h down :=
    match h.caught with
    | some v => declaring [v] down
    | none => down

/-- What quoting yields: the new root, and everything that has grown on the way. -/
structure Quoted where
  root : ExprId
  arena : Arena
  pool : Pool
  nextStamp : Stamp
  deriving DecidableEq

/-- Quotes `root` against a chain of frames and storages, and validates the result. -/
def quote (arena : Arena) (pool : Pool) (nextStamp : Stamp) (root : ExprId) :
    Except Fault Quoted := do
  let walk := (quotePass frames storages).run root
  let ((root, q), arena) ← (walk.run { pool, nextStamp }).run arena
  if q.opened.depth ≠ 0 then throw (.scopeLeftOpen .declarations q.opened.depth 0)
  else
    validate arena q.pool root
    return { root, arena, pool := q.pool, nextStamp := q.nextStamp }

end

end Quotation
