import Quotation.Proofs.Eval.Reach

/-!
# Evaluations on record

A `Recorded` computation also tells what happens while it runs: which evaluations begin and what
they end in, which functions are made, and which cells are written (`Event`), in this order. The
record is kept on the side and cannot be read, so an evaluation on record is the evaluation that the
interpreter makes (`run_recordedWithin`), with its record.

The lemmas on the log say of the steps that do more than one thing after the other what is recorded
of them: of a scope it is what is evaluated in it, and of a call it is the body.
-/

namespace Quotation

/-- What a record tells of an evaluation. -/
inductive Event where
  /-- The evaluation of a node begins. -/
  | began (id : ExprId)
  /-- The evaluation of a node ends. -/
  | ended (id : ExprId) (result : EStateM.Result Stop Machine Value)
  | made (f : Closure)
  | wrote (c : Cell) (v : Value)

structure Recorded (α : Type) where
  run : EvalM α
  /-- The events of a run, in order. -/
  log : Machine → List Event

namespace Recorded

variable {α β : Type}

/-- Nothing is recorded of `x`. -/
def silent (x : EvalM α) : Recorded α := ⟨x, fun _ => []⟩

/-- If `x` yields a value, these events are recorded. -/
def noting (x : EvalM α) (events : α → List Event) : Recorded α where
  run := x
  log m := match x m with
    | .ok v _ => events v
    | .error _ _ => []

instance : Monad Recorded where
  pure v := silent (pure v)
  bind x f := {
    run := x.run >>= fun v => (f v).run
    log := fun m => x.log m ++ match x.run m with
      | .ok v m => (f v).log m
      | .error _ _ => [] }

def ensuring (x : Recorded α) (close : EvalM Unit) : Recorded α :=
  ⟨EvalM.ensuring x.run close, x.log⟩

def withScope (x : Recorded α) : Recorded α := do
  let m ← silent get
  silent (modify fun m => { m with env := m.env.push })
  x.ensuring (EvalM.closeScope m.env.depth)

/-- `handle` goes on with what `x` throws. -/
def catching (x : Recorded α) (handle : Value → Recorded α) : Recorded α where
  run m := match x.run m with
    | .error (.error (.thrown v)) m => (handle v).run m
    | result => result
  log m := x.log m ++ match x.run m with
    | .error (.error (.thrown v)) m => (handle v).log m
    | _ => []

/-- The evaluation of a node, recorded from beginning to end. -/
def whole (id : ExprId) (x : Recorded Value) : Recorded Value where
  run := x.run
  log m := .began id :: (x.log m ++ [.ended id (x.run m)])

theorem run_bind (x : Recorded α) (f : α → Recorded β) :
    (x >>= f).run = x.run >>= fun v => (f v).run := rfl

theorem log_bind_ok {x : Recorded α} {m m' : Machine} {v : α} (h : x.run m = .ok v m')
    (f : α → Recorded β) : (x >>= f).log m = x.log m ++ (f v).log m' := by
  show x.log m ++ _ = _
  rw [h]

theorem log_bind_error {x : Recorded α} {m m' : Machine} {stop : Stop}
    (h : x.run m = .error stop m') (f : α → Recorded β) : (x >>= f).log m = x.log m := by
  show x.log m ++ _ = _
  rw [h, List.append_nil]

theorem log_noting_ok {x : EvalM α} {m m' : Machine} {v : α} (h : x m = .ok v m')
    (events : α → List Event) : (noting x events).log m = events v := by
  show (match x m with
    | .ok v _ => events v
    | .error _ _ => []) = _
  rw [h]

theorem log_noting_error {x : EvalM α} {m m' : Machine} {stop : Stop} (h : x m = .error stop m')
    (events : α → List Event) : (noting x events).log m = [] := by
  show (match x m with
    | .ok v _ => events v
    | .error _ _ => []) = _
  rw [h]

/-- What comes silently first is not recorded. -/
theorem log_silent_bind {x : EvalM α} {m m' : Machine} {v : α} (h : x m = .ok v m')
    (f : α → Recorded β) : (silent x >>= f).log m = (f v).log m' :=
  log_bind_ok (x := silent x) h f

/-! ## The interpreter -/

open EvalM (fail ofExcept require define readCell writeCell)

section
variable (p : Program) (ev : ExprId → Recorded Value)

def evalBool (id : ExprId) : Recorded Bool := do
  match ← ev id with
  | .bool b => return b
  | v => silent (fail (.typeMismatch .bool v.type))

def evalCell (id : ExprId) : Recorded Cell := do
  match ← ev id with
  | .cell c => return c
  | v => silent (fail (.typeMismatch .cell v.type))

def evalTarget (target : ExprId) : Recorded Cell := do
  match (← silent (require (p.arena.node? target))).kind with
  | .var v => silent (lookup p v)
  | .content receiver => evalCell ev receiver
  | _ => silent (fail .invalidAssignmentTarget)

def evalSequence (ids : List ExprId) : Recorded Value :=
  ids.foldlM (fun _ id => ev id) .unit

def evalAll : List ExprId → Recorded (List Value)
  | [] => return []
  | id :: ids => do
    let v ← ev id
    let vs ← evalAll ids
    return v :: vs

def evalBlock (locals : Slice VarId) (body : Slice ExprId) : Recorded Value := withScope do
  silent do (← require (p.arena.vars? locals)).forM (define · .unit)
  evalSequence ev (← silent (require (p.arena.exprs? body)))

def callFunction (f : Closure) (args : List Value) : Recorded Value :=
  if args.length ≠ f.params.length then
    silent (fail (.arityMismatch f.params.length args.length))
  else do
    let caller ← silent get
    if p.maxCallDepth ≤ caller.callDepth then
      silent (fail (.callDepthExceeded p.maxCallDepth))
    else
      silent (traceCall p f)
      silent (modify fun m => m.enter f)
      ensuring
        (do silent ((f.params.zip args).forM fun e => define e.1 e.2)
            ev f.body)
        (modify fun m => m.leave caller.env)

def callValue (callee : Value) (args : List Value) : Recorded Value :=
  match callee with
  | .function f => callFunction p ev f args
  | .builtin b => silent (callBuiltin b args)
  | v => silent (fail (.notCallable v.type))

def evalFilter (h : Handler) : Recorded Bool :=
  match h.filter with
  | some filter => evalBool ev filter
  | none => return true

def tryHandler (thrown : Value) (h : Handler) : Recorded (Option Value) := withScope do
  silent (h.caught.forM (define · thrown))
  if ← evalFilter ev h then
    let v ← ev h.body
    return some v
  else return none

def handle (thrown : Value) : List Handler → Recorded Value
  | [] => silent (fail (.thrown thrown))
  | h :: hs => do
    match ← tryHandler ev thrown h with
    | some v => return v
    | none => handle thrown hs

/-- The function that the value is. -/
def madeBy : Value → List Event
  | .function f => [.made f]
  | _ => []

def evalKind : Kind → Recorded Value
  | .unit => return .unit
  | .int n => return .int n
  | .bool b => return .bool b
  | .var v => silent do readCell (← lookup p v)
  | .binary op left right => do
    let left ← ev left
    let right ← ev right
    silent (ofExcept (op.apply left right))
  | .assign target value => do
    let value ← ev value
    let c ← evalTarget p ev target
    noting (writeCell c value) fun _ => [.wrote c value]
    return value
  | .cond test yes no => do
    if ← evalBool ev test then ev yes else ev no
  | .block locals body => evalBlock p ev locals body
  | .lambda params body name => noting (makeClosure p params body name) madeBy
  | .call callee args => do
    let callee ← ev callee
    let args ← evalAll ev (← silent (require (p.arena.exprs? args)))
    callValue p ev callee args
  | .attempt body handlers =>
    (ev body).catching fun v => do
      handle ev v (← silent (require (p.arena.handlers? handlers)))
  | .throw value => do
    let v ← ev value
    silent (fail (.thrown v))
  | .constant c => silent (require (p.pool.get? c))
  | .content receiver => do
    let c ← evalCell ev receiver
    silent (readCell c)
  | .cellList vars => silent (makeCellList p vars)

end

end Recorded

/-- The evaluation of `id` with at most `levels` nested evaluations, on record. -/
def Program.recordedWithin (p : Program) : Nat → ExprId → Recorded Value
  | 0, id => .whole id (.silent (throw (.fault .endless)))
  | levels + 1, id => .whole id do
    let node ← .silent (EvalM.require (p.arena.node? id))
    Recorded.evalKind p (p.recordedWithin levels) node.kind

/-! ## The run -/

namespace Recorded

open EvalM (require define)

section
variable (p : Program) (ev : ExprId → Recorded Value)

theorem run_evalBool (id : ExprId) :
    (evalBool ev id).run = Quotation.evalBool (fun id => (ev id).run) id :=
  bind_congr fun v => by cases v <;> rfl

theorem run_evalCell (id : ExprId) :
    (evalCell ev id).run = Quotation.evalCell (fun id => (ev id).run) id :=
  bind_congr fun v => by cases v <;> rfl

theorem run_evalTarget (id : ExprId) :
    (evalTarget p ev id).run = Quotation.evalTarget p (fun id => (ev id).run) id :=
  bind_congr fun ⟨kind, _⟩ => by
    cases kind with
    | content receiver => exact run_evalCell ev receiver
    | _ => rfl

theorem run_evalSequence (ids : List ExprId) :
    (evalSequence ev ids).run = Quotation.evalSequence (fun id => (ev id).run) ids := by
  have hfold : ∀ v, (ids.foldlM (fun _ id => ev id) v).run =
      ids.foldlM (fun _ id => (ev id).run) v := by
    induction ids with
    | nil => exact fun _ => rfl
    | cons id ids ih => exact fun _ => bind_congr ih
  exact hfold .unit

theorem run_evalAll (ids : List ExprId) :
    (evalAll ev ids).run = ids.mapM fun id => (ev id).run := by
  induction ids with
  | nil => rfl
  | cons id ids ih =>
    rw [List.mapM_cons, ← ih]
    rfl

theorem run_withScope {α : Type} (x : Recorded α) : x.withScope.run = EvalM.withScope x.run := rfl

theorem run_evalBlock (locals : Slice VarId) (body : Slice ExprId) :
    (evalBlock p ev locals body).run =
      Quotation.evalBlock p (fun id => (ev id).run) locals body := by
  rw [evalBlock, Quotation.evalBlock, run_withScope]
  congr 1
  show ((do (← require (p.arena.vars? locals)).forM (define · .unit)) >>= fun _ =>
    require (p.arena.exprs? body) >>= fun ids => (evalSequence ev ids).run : EvalM Value) = _
  rw [bind_assoc]
  simp only [run_evalSequence]

theorem run_callFunction (f : Closure) (args : List Value) :
    (callFunction p ev f args).run =
      Quotation.callFunction p (fun id => (ev id).run) f args := by
  rw [callFunction, Quotation.callFunction]
  split
  · rfl
  · refine bind_congr fun caller => ?_
    by_cases hdepth : p.maxCallDepth ≤ caller.callDepth
    · simp only [if_pos hdepth]
      rfl
    · simp only [if_neg hdepth]
      rfl

theorem run_callValue (callee : Value) (args : List Value) :
    (callValue p ev callee args).run =
      Quotation.callValue p (fun id => (ev id).run) callee args := by
  cases callee with
  | function f => exact run_callFunction p ev f args
  | _ => rfl

theorem run_evalFilter (h : Handler) :
    (evalFilter ev h).run = Quotation.evalFilter (fun id => (ev id).run) h := by
  rw [evalFilter, Quotation.evalFilter]
  cases h.filter with
  | none => rfl
  | some filter => exact run_evalBool ev filter

theorem run_tryHandler (thrown : Value) (h : Handler) :
    (tryHandler ev thrown h).run = Quotation.tryHandler (fun id => (ev id).run) thrown h := by
  rw [tryHandler, Quotation.tryHandler, run_withScope]
  congr 1
  refine bind_congr fun _ => ?_
  rw [← run_evalFilter]
  refine bind_congr fun b => ?_
  cases b <;> rfl

theorem run_handle (thrown : Value) (hs : List Handler) :
    (handle ev thrown hs).run = Quotation.handle (fun id => (ev id).run) thrown hs := by
  induction hs with
  | nil => rfl
  | cons h hs ih =>
    rw [handle, Quotation.handle, run_bind, run_tryHandler]
    refine bind_congr fun o => ?_
    cases o with
    | none => exact ih
    | some v => rfl

theorem run_evalAttempt (body : ExprId) (handlers : Slice Handler) :
    (evalKind p ev (.attempt body handlers)).run =
      evalAttempt p (fun id => (ev id).run) body handlers := by
  funext m
  have hhandle : ∀ v, (do handle ev v (← silent (require (p.arena.handlers? handlers)))).run = (do
      Quotation.handle (fun id => (ev id).run) v (← require (p.arena.handlers? handlers))) :=
    fun v => bind_congr fun hs => run_handle ev v hs
  rw [evalAttempt, evalKind, catching]
  simp only [hhandle]
  cases (ev body).run m with
  | ok v m => rfl
  | error stop m =>
    cases stop with
    | error e => cases e <;> rfl
    | fault f => rfl

theorem run_evalKind (kind : Kind) :
    (evalKind p ev kind).run = Quotation.evalKind p (fun id => (ev id).run) kind := by
  cases kind with
  | assign target value =>
    refine bind_congr fun value => ?_
    rw [run_bind, run_evalTarget]
    rfl
  | cond test yes no =>
    rw [evalKind, Quotation.evalKind, run_bind, run_evalBool]
    refine bind_congr fun b => ?_
    cases b <;> rfl
  | block locals body => exact run_evalBlock p ev locals body
  | call callee args =>
    refine bind_congr fun callee => bind_congr fun ids => ?_
    rw [run_bind, run_evalAll]
    exact bind_congr fun args => run_callValue p ev callee args
  | attempt body handlers => exact run_evalAttempt p ev body handlers
  | content receiver =>
    rw [evalKind, Quotation.evalKind, run_bind, run_evalCell]
    rfl
  | _ => rfl

end

/-! ## The log -/

section
variable (heap : Heap) (env : Environment) (depth : Nat)

/-- In a scope of its own it is `x` that is recorded, with the variables that the scope defines. -/
theorem log_withScope_define {α ι : Type} (var : ι → VarId) (val : ι → Value) (xs : List ι)
    (x : Recorded α) :
    (withScope (do silent (xs.forM fun i => define (var i) (val i)); x)).log ⟨heap, env, depth⟩ =
      x.log ⟨{ heap with cells := heap.cells ++ xs.map val },
        env.push.bindFrom heap.cells.size (xs.map var), depth⟩ :=
  log_silent_bind (EvalM.forM_define heap env.push depth var val xs) fun _ => x

theorem tryHandler_eq (ev : ExprId → Recorded Value) (thrown : Value) (h : Handler) :
    tryHandler ev thrown h = withScope do
      silent (h.caught.toList.forM fun v => define v thrown)
      if ← evalFilter ev h then
        let v ← ev h.body
        return some v
      else return none := by
  rw [tryHandler]
  cases h.caught with
  | none => rfl
  | some v => simp [List.forM_eq_forM]

/-- Nothing is recorded of a call that comes to nothing. -/
theorem log_callFunction_nil {p : Program} (ev : ExprId → Recorded Value) {f : Closure}
    {args : List Value}
    (h : args.length = f.params.length → depth < p.maxCallDepth → p.tracedName? f = none) :
    (callFunction p ev f args).log ⟨heap, env, depth⟩ = [] := by
  rw [callFunction]
  split
  · rfl
  · rename_i hlen
    show (if p.maxCallDepth ≤ depth then _ else _ : Recorded Value).log _ = _
    by_cases hdepth : p.maxCallDepth ≤ depth
    · rw [if_pos hdepth]
      rfl
    · have hname := h (not_not.1 hlen) (Nat.lt_of_not_le hdepth)
      rw [if_neg hdepth]
      exact log_bind_error (x := silent (traceCall p f)) (EvalM.traceCall_eq_of_none hname _) _

/-- Of a call it is the body that is recorded, one call deeper. -/
theorem log_callFunction {p : Program} (hlimit : p.maxCallDepth < UInt64.size)
    (ev : ExprId → Recorded Value) {f : Closure} {args : List Value}
    (hlen : args.length = f.params.length) (hdepth : depth < p.maxCallDepth)
    (hname : (p.tracedName? f).isSome) :
    (callFunction p ev f args).log ⟨heap, env, depth⟩ =
      (ev f.body).log ⟨{ heap with cells := heap.cells ++ args }, f.bodyEnv heap.cells.size,
        depth + 1⟩ := by
  have hget : (get : EvalM Machine) ⟨heap, env, depth⟩ =
      .ok ⟨heap, env, depth⟩ ⟨heap, env, depth⟩ := rfl
  rw [callFunction, if_neg fun hne => hne hlen, log_silent_bind hget]
  show (if p.maxCallDepth ≤ depth then _ else _ : Recorded Value).log _ = _
  rw [if_neg (Nat.not_le_of_lt hdepth), log_silent_bind (EvalM.traceCall_eq hname _)]
  exact log_silent_bind (EvalM.forM_define_params heap env depth hlen (by omega)) fun _ => ev f.body

end

end Recorded

/-- The evaluation on record is the evaluation. -/
theorem Program.run_recordedWithin (p : Program) (levels : Nat) (id : ExprId) :
    (p.recordedWithin levels id).run = p.evalWithin levels id := by
  induction levels generalizing id with
  | zero => rfl
  | succ levels ih =>
    have hev : (fun id => (p.recordedWithin levels id).run) = p.evalWithin levels := funext ih
    refine bind_congr fun node => ?_
    rw [Recorded.run_evalKind, hev]

end Quotation
