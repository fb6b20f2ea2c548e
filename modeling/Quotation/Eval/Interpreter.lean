import Quotation.Arena.Basic
import Quotation.Eval.Environment
import Quotation.Eval.Operator
import Quotation.Pool

/-!
# The interpreter

Evaluation walks a fragment in an environment of cells. A `throw` is an error that travels up until
an `attempt` around it takes it; every other error, and every fault, ends the evaluation.
-/

namespace Quotation

/-- What is evaluated and how far: no function is called from `maxCallDepth` calls deep. -/
structure Program where
  arena : Arena
  pool : Pool
  maxCallDepth : Nat
  [tracing : Tracing]

def defaultCallDepth : Nat := 1024

/-- What the trace of a call shows of the function: the name that it has for itself, if it has one.
Only a trace looks it up. -/
def Program.tracedName? (p : Program) (f : Closure) : Option (Option String) :=
  if p.tracing.calls then f.name.mapM p.arena.name? else some none

structure Machine where
  heap : Heap
  env : Environment
  callDepth : Nat
  deriving DecidableEq, Inhabited, Repr

namespace Machine

/-- The depth of calls is a word, and stays at the largest one. -/
def enter (m : Machine) (f : Closure) : Machine :=
  { m with
    env := (Environment.ofCaptures f.captures).push
    callDepth := min (m.callDepth + 1) (UInt64.size - 1) }

def leave (m : Machine) (caller : Environment) : Machine :=
  { m with env := caller, callDepth := m.callDepth - 1 }

end Machine

/-- Why an evaluation ends without a value. -/
inductive Stop where
  | error (e : EvalError)
  | fault (f : Fault)
  deriving DecidableEq, Repr

abbrev EvalM := EStateM Stop Machine

namespace EvalM

variable {α : Type}

def fail (e : EvalError) : EvalM α := throw (.error e)

def ofExcept : Except EvalError α → EvalM α
  | .ok a => pure a
  | .error e => fail e

/-- What is read must be there. -/
def require : Option α → EvalM α
  | some a => pure a
  | none => throw (.fault .outOfBounds)

/-- Ends with `close`, whether `act` yields a value or an error. -/
def ensuring (act : EvalM α) (close : EvalM Unit) : EvalM α := fun m =>
  match act m with
  | .ok a m => (do close; return a : EvalM α) m
  | .error (.error e) m => (do close; fail e : EvalM α) m
  | .error (.fault f) m => .error (.fault f) m

def newCell (v : Value) : EvalM Cell := do
  let (c, heap) := (← get).heap.newCell v
  modify fun m => { m with heap }
  return c

def newStamp : EvalM Stamp := do
  let (stamp, heap) := (← get).heap.newStamp
  modify fun m => { m with heap }
  return stamp

def readCell (c : Cell) : EvalM Value := do
  return (← get).heap.read c

def writeCell (c : Cell) (v : Value) : EvalM Unit :=
  modify fun m => { m with heap := m.heap.write c v }

/-- Binds the variable to a new cell that holds `value`. -/
def define (v : VarId) (value : Value) : EvalM Unit := do
  let c ← newCell value
  modify fun m => { m with env := m.env.define v c }

def closeScope (depth : Nat) : EvalM Unit := do
  modify fun m => { m with env := m.env.pop }
  let now := (← get).env.depth
  if now = depth then pure () else throw (.fault (.scopeLeftOpen .environment now depth))

def withScope (act : EvalM α) : EvalM α := do
  let depth := (← get).env.depth
  modify fun m => { m with env := m.env.push }
  ensuring act (closeScope depth)

end EvalM

open EvalM

/-! ## One level

`p` is the program and `ev` evaluates the children. -/

section
variable (p : Program) (ev : ExprId → EvalM Value)

def lookup (v : VarId) : EvalM Cell := do
  match (← get).env.lookup v with
  | some c => return c
  | none => fail (.undefinedVariable (← require (p.arena.name? v)))

def evalBool (id : ExprId) : EvalM Bool := do
  match ← ev id with
  | .bool b => return b
  | v => fail (.typeMismatch .bool v.type)

def evalCell (id : ExprId) : EvalM Cell := do
  match ← ev id with
  | .cell c => return c
  | v => fail (.typeMismatch .cell v.type)

/-- The cell that an assignment to `target` writes. -/
def evalTarget (target : ExprId) : EvalM Cell := do
  match (← require (p.arena.node? target)).kind with
  | .var v => lookup p v
  | .content receiver => evalCell ev receiver
  | _ => fail .invalidAssignmentTarget

/-- The value of the last of the expressions, and unit if there is none. -/
def evalSequence (ids : List ExprId) : EvalM Value :=
  ids.foldlM (fun _ id => ev id) .unit

def evalBlock (locals : Slice VarId) (body : Slice ExprId) : EvalM Value := withScope do
  (← require (p.arena.vars? locals)).forM (define · .unit)
  evalSequence ev (← require (p.arena.exprs? body))

def makeClosure (params : Slice VarId) (body : ExprId) (name : Option VarId) : EvalM Value := do
  let params ← require (p.arena.vars? params)
  let captures := (← get).env.capture
  return .function { stamp := ← newStamp, name, params, body, captures }

/-- A list over the cells that the variables are bound to now. -/
def makeCellList (vars : Slice VarId) : EvalM Value := do
  let cells ← (← require (p.arena.vars? vars)).mapM (lookup p)
  return .cellList (.direct (← newStamp) cells.toArray)

/-- Reports the call of a function to the trace. -/
def traceCall (f : Closure) : EvalM Unit := do
  let _ ← require (p.tracedName? f)

/-- Calls the function in its own environment and comes back to the caller's. -/
def callFunction (f : Closure) (args : List Value) : EvalM Value :=
  if args.length ≠ f.params.length then
    fail (.arityMismatch f.params.length args.length)
  else do
    let caller ← get
    if p.maxCallDepth ≤ caller.callDepth then
      fail (.callDepthExceeded p.maxCallDepth)
    else
      traceCall p f
      modify fun m => m.enter f
      ensuring
        (do (f.params.zip args).forM fun e => define e.1 e.2
            ev f.body)
        (modify fun m => m.leave caller.env)

def callBuiltin (b : Builtin) (args : List Value) : EvalM Value :=
  match b, args with
  | .mergeVariables, [first, second, routing] => do
    let .cellList first := first | fail (.typeMismatch .cellList first.type)
    let .cellList second := second | fail (.typeMismatch .cellList second.type)
    let .routing codes := routing | fail (.typeMismatch .routing routing.type)
    return .cellList (.merged (← newStamp) first second codes)
  | .mergeVariables, _ => fail (.arityMismatch b.arity args.length)

def callValue (callee : Value) (args : List Value) : EvalM Value :=
  match callee with
  | .function f => callFunction p ev f args
  | .builtin b => callBuiltin b args
  | v => fail (.notCallable v.type)

/-- A handler without a filter takes every value. -/
def evalFilter (h : Handler) : EvalM Bool :=
  match h.filter with
  | some filter => evalBool ev filter
  | none => return true

/-- The value of the handler's body, if the handler takes the thrown value. -/
def tryHandler (thrown : Value) (h : Handler) : EvalM (Option Value) := withScope do
  h.caught.forM (define · thrown)
  if ← evalFilter ev h then return some (← ev h.body) else return none

/-- The first handler that takes the thrown value; if none does, it is thrown again. -/
def handle (thrown : Value) : List Handler → EvalM Value
  | [] => fail (.thrown thrown)
  | h :: hs => do
    match ← tryHandler ev thrown h with
    | some v => return v
    | none => handle thrown hs

def evalAttempt (body : ExprId) (handlers : Slice Handler) : EvalM Value := fun m =>
  match ev body m with
  | .error (.error (.thrown v)) m =>
    (do handle ev v (← require (p.arena.handlers? handlers)) : EvalM Value) m
  | result => result

@[inline] def evalKind : Kind → EvalM Value
  | .unit => return .unit
  | .int n => return .int n
  | .bool b => return .bool b
  | .var v => do readCell (← lookup p v)
  | .binary op left right => do
    let left ← ev left
    let right ← ev right
    ofExcept (op.apply left right)
  | .assign target value => do
    let value ← ev value
    let c ← evalTarget p ev target
    writeCell c value
    return value
  | .cond test yes no => do
    if ← evalBool ev test then ev yes else ev no
  | .block locals body => evalBlock p ev locals body
  | .lambda params body name => makeClosure p params body name
  | .call callee args => do
    let callee ← ev callee
    let args ← (← require (p.arena.exprs? args)).mapM ev
    callValue p ev callee args
  | .attempt body handlers => evalAttempt p ev body handlers
  | .throw value => do fail (.thrown (← ev value))
  | .constant c => require (p.pool.get? c)
  | .content receiver => do readCell (← evalCell ev receiver)
  | .cellList vars => makeCellList p vars

def evalStep (id : ExprId) : EvalM Value := do
  evalKind p ev (← require (p.arena.node? id)).kind

end

/-! ## All levels -/

namespace Program

/-- Evaluates `id` with at most `levels` nested evaluations. -/
def evalWithin (p : Program) : Nat → ExprId → EvalM Value
  | 0, _ => throw (.fault .endless)
  | levels + 1, id => evalStep p (p.evalWithin levels) id

/-- Between two calls a fragment without cycles is at most as deep as it has nodes. -/
def levels (p : Program) : Nat := (p.maxCallDepth + 1) * p.arena.size + indexLimit

def eval (p : Program) (id : ExprId) : EvalM Value := p.evalWithin p.levels id

end Program

/-- A machine without bindings on a given heap. -/
def Machine.start (heap : Heap) : Machine := ⟨heap, {}, 0⟩

/-- Evaluates `root` without bindings under the default limit. -/
def evaluate [Tracing] (arena : Arena) (pool : Pool) (heap : Heap) (root : ExprId) :
    EStateM.Result Stop Machine Value :=
  Program.eval ⟨arena, pool, defaultCallDepth⟩ root (.start heap)

end Quotation
