import Quotation.Eval.Interpreter

/-!
# Steps of an evaluation

One equation for each way in which a step of an evaluation goes on or ends.
-/

namespace Quotation

/-! ## Traces of calls -/

section
variable {p : Program} {f g : Closure}

/-- Only a trace comes to an undeclared name. -/
theorem Program.tracedName?_eq_none : p.tracedName? f = none ↔
    p.tracing.calls = true ∧ ∃ v, f.name = some v ∧ p.arena.name? v = none := by
  rw [tracedName?]
  cases p.tracing.calls with
  | false => simp
  | true => cases f.name <;> simp

theorem Program.tracedName?_congr (h : g.name = f.name) : p.tracedName? g = p.tracedName? f := by
  rw [tracedName?, tracedName?, h]

end

/-! ## Binding new cells -/

namespace Environment

/-- The variables bound in order, each to the next cell from `next` on. -/
def bindFrom (env : Environment) : Nat → List VarId → Environment
  | _, [] => env
  | next, v :: vs => (env.define v ⟨next⟩).bindFrom (next + 1) vs

/-- The cell that `bindFrom` binds a variable to. -/
def boundFrom : Nat → List VarId → VarId → Option Cell
  | _, [], _ => none
  | next, w :: vs, v => (boundFrom (next + 1) vs v).or (if w = v then some ⟨next⟩ else none)

theorem isSome_boundFrom (next : Nat) (vs : List VarId) (v : VarId) :
    (boundFrom next vs v).isSome = vs.contains v := by
  induction vs generalizing next with
  | nil => rfl
  | cons w vs ih =>
    rw [boundFrom, Option.isSome_or, ih, List.contains_cons, Bool.or_comm]
    by_cases h : w = v
    · simp [h]
    · simp [h, Ne.symm h]

theorem lookup_bindFrom (env : Environment) (next : Nat) (vs : List VarId) (v : VarId) :
    (env.bindFrom next vs).lookup v = (boundFrom next vs v).or (env.lookup v) := by
  induction vs generalizing env next with
  | nil => rfl
  | cons w vs ih =>
    rw [bindFrom, ih, lookup_define, boundFrom, Option.or_assoc]
    by_cases h : w = v <;> simp [h]

theorem lookup_bindFrom_of_contains (env : Environment) (next : Nat) {vs : List VarId} {v : VarId}
    (h : vs.contains v = true) : (env.bindFrom next vs).lookup v = boundFrom next vs v := by
  rw [← isSome_boundFrom next] at h
  rw [lookup_bindFrom, Option.or_of_isSome h]

theorem lookup_bindFrom_of_not_contains (env : Environment) (next : Nat) {vs : List VarId}
    {v : VarId} (h : vs.contains v = false) : (env.bindFrom next vs).lookup v = env.lookup v := by
  rw [← isSome_boundFrom next, Option.isSome_eq_false_iff, Option.isNone_iff_eq_none] at h
  rw [lookup_bindFrom, h, Option.none_or]

@[simp] theorem outer_bindFrom (env : Environment) (next : Nat) (vs : List VarId) :
    (env.bindFrom next vs).outer = env.outer := by
  induction vs generalizing env next with
  | nil => rfl
  | cons v vs ih => exact ih _ _

/-- Closing a scope gives back what it was opened in. -/
theorem pop_eq {env env' : Environment} (h : env'.outer = env.scopes) : env'.pop = env := by
  obtain ⟨inner, outer, depth, hdepth⟩ := env'
  obtain ⟨inner', outer', depth', hdepth'⟩ := env
  obtain rfl : outer = inner' :: outer' := h
  simp [pop, hdepth, hdepth']

@[simp] theorem lookup_ofCaptures (captures : Scope) :
    (ofCaptures captures).lookup = captures.find? := by
  funext v
  simp [ofCaptures, lookup, scopes]

end Environment

/-- The environment in which a function's body is evaluated. -/
def Closure.bodyEnv (f : Closure) (next : Nat) : Environment :=
  (Environment.ofCaptures f.captures).push.bindFrom next f.params

namespace EvalM

variable {α β : Type} {m m' : Machine}

theorem bind_ok {x : EvalM α} {f : α → EvalM β} {v : α} (h : x m = .ok v m') :
    (x >>= f) m = f v m' := by
  show EStateM.bind x f m = f v m'
  rw [EStateM.bind, h]

theorem bind_error {x : EvalM α} {f : α → EvalM β} {e : Stop} (h : x m = .error e m') :
    (x >>= f) m = .error e m' := by
  show EStateM.bind x f m = .error e m'
  rw [EStateM.bind, h]

theorem mapM_cons_ok {f : α → EvalM β} {x : α} {xs : List α} {y : β} {ys : List β} {m₁ m₂ : Machine}
    (h : f x m = .ok y m₁) (hs : xs.mapM f m₁ = .ok ys m₂) :
    (x :: xs).mapM f m = .ok (y :: ys) m₂ := by
  rw [List.mapM_cons, bind_ok h, bind_ok hs]
  rfl

@[simp] theorem require_some (v : α) (m : Machine) : require (some v) m = .ok v m := rfl

/-! ## Variables -/

section
variable {p : Program} {v : VarId}

theorem lookup_eq {c : Cell} (h : m.env.lookup v = some c) : lookup p v m = .ok c m := by
  have hget : (get : EvalM Machine) m = .ok m m := rfl
  rw [lookup, bind_ok hget, h]
  rfl

theorem lookup_eq_of_none (h : m.env.lookup v = none) :
    lookup p v m = (do fail (.undefinedVariable (← require (p.arena.name? v)))) m := by
  have hget : (get : EvalM Machine) m = .ok m m := rfl
  rw [lookup, bind_ok hget, h]

end

/-! ## Scopes and calls -/

/-- Unless it is a fault, the result is reached in this environment, so many calls deep. -/
def StaysIn (env : Environment) (depth : Nat) : EStateM.Result Stop Machine α → Prop
  | .ok _ m | .error (.error _) m => m.env = env ∧ m.callDepth = depth
  | .error (.fault _) _ => True

theorem StaysIn.cases {env : Environment} {depth : Nat} {r : EStateM.Result Stop Machine α}
    (h : StaysIn env depth r) :
    (∃ v heap, r = .ok v ⟨heap, env, depth⟩) ∨
      (∃ e heap, r = .error (.error e) ⟨heap, env, depth⟩) ∨ ∃ f m, r = .error (.fault f) m := by
  cases r with
  | ok v m =>
    obtain ⟨rfl, rfl⟩ := h
    exact .inl ⟨v, m.heap, rfl⟩
  | error stop m =>
    cases stop with
    | error e =>
      obtain ⟨rfl, rfl⟩ := h
      exact .inr (.inl ⟨e, m.heap, rfl⟩)
    | fault f => exact .inr (.inr ⟨f, m, rfl⟩)

/-- The result, back in an environment and so many calls deep. -/
def backIn (env : Environment) (depth : Nat) :
    EStateM.Result Stop Machine α → EStateM.Result Stop Machine α
  | .ok v m => .ok v ⟨m.heap, env, depth⟩
  | .error (.error e) m => .error (.error e) ⟨m.heap, env, depth⟩
  | .error (.fault f) m => .error (.fault f) m

theorem ensuring_eq_backIn {act : EvalM α} {close : EvalM Unit} {env env' : Environment}
    {depth depth' : Nat} (hact : StaysIn env' depth' (act m))
    (hclose : ∀ h, close ⟨h, env', depth'⟩ = .ok () ⟨h, env, depth⟩) :
    ensuring act close m = backIn env depth (act m) := by
  rw [ensuring]
  rcases hact.cases with ⟨v, heap, hr⟩ | ⟨e, heap, hr⟩ | ⟨f, m', hr⟩
  · rw [hr]
    show (close >>= fun _ => pure v : EvalM α) _ = _
    rw [bind_ok (hclose heap)]
    rfl
  · rw [hr]
    show (close >>= fun _ => fail e : EvalM α) _ = _
    rw [bind_ok (hclose heap)]
    rfl
  · rw [hr]
    rfl

section
variable (heap : Heap) (env : Environment) (depth : Nat)

theorem closeScope_ok {env' : Environment} (h : env'.outer = env.scopes) :
    closeScope env.depth ⟨heap, env', depth⟩ = .ok () ⟨heap, env, depth⟩ := by
  have hpop := Environment.pop_eq h
  show (if env'.pop.depth = env.depth then pure () else _ : EvalM Unit) ⟨heap, env'.pop, depth⟩ = _
  rw [hpop, if_pos rfl]
  rfl

/-- Defining variables makes a new cell for each of them. -/
theorem forM_define {ι : Type} (var : ι → VarId) (val : ι → Value) (xs : List ι) :
    (xs.forM fun x => define (var x) (val x)) ⟨heap, env, depth⟩ =
      .ok () ⟨{ heap with cells := heap.cells ++ xs.map val },
        env.bindFrom heap.cells.size (xs.map var), depth⟩ := by
  induction xs generalizing heap env with
  | nil => simp [Environment.bindFrom]; rfl
  | cons x xs ih =>
    have hx : define (var x) (val x) ⟨heap, env, depth⟩ =
        .ok () ⟨(heap.newCell (val x)).2, env.define (var x) ⟨heap.cells.size⟩, depth⟩ := rfl
    show (define (var x) (val x) >>= fun _ => xs.forM fun x => define (var x) (val x))
      ⟨heap, env, depth⟩ = _
    rw [bind_ok hx, ih]
    simp [Heap.newCell, Environment.bindFrom]

/-- In a scope of its own `x` finds new cells for the variables that the scope defines. -/
theorem withScope_define {ι : Type} (var : ι → VarId) (val : ι → Value) (xs : List ι) {x : EvalM α}
    (hx : StaysIn (env.push.bindFrom heap.cells.size (xs.map var)) depth
      (x ⟨{ heap with cells := heap.cells ++ xs.map val },
        env.push.bindFrom heap.cells.size (xs.map var), depth⟩)) :
    withScope (do xs.forM fun i => define (var i) (val i); x) ⟨heap, env, depth⟩ =
      backIn env depth (x ⟨{ heap with cells := heap.cells ++ xs.map val },
        env.push.bindFrom heap.cells.size (xs.map var), depth⟩) := by
  have hdefine := bind_ok (f := fun _ => x) (forM_define heap env.push depth var val xs)
  rw [← hdefine] at hx ⊢
  exact ensuring_eq_backIn hx fun h => closeScope_ok h env depth (Environment.outer_bindFrom ..)

/-- Below the largest word the depth is counted exactly. -/
theorem enter_eq (f : Closure) (hdepth : depth + 1 < UInt64.size) :
    (⟨heap, env, depth⟩ : Machine).enter f =
      ⟨heap, (Environment.ofCaptures f.captures).push, depth + 1⟩ := by
  rw [Machine.enter, Nat.min_eq_left]
  show depth + 1 ≤ UInt64.size - 1
  omega

/-- Where a function is entered, its parameters are bound to new cells. -/
theorem forM_define_params {f : Closure} {args : List Value}
    (hlen : args.length = f.params.length) (hdepth : depth + 1 < UInt64.size) :
    ((f.params.zip args).forM fun e => define e.1 e.2) ((⟨heap, env, depth⟩ : Machine).enter f) =
      .ok () ⟨{ heap with cells := heap.cells ++ args }, f.bodyEnv heap.cells.size, depth + 1⟩ := by
  have hvars : (f.params.zip args).map Prod.fst = f.params := List.map_fst_zip (by omega)
  have hargs : (f.params.zip args).map Prod.snd = args := List.map_snd_zip (by omega)
  have hdefine := forM_define heap (Environment.ofCaptures f.captures).push (depth + 1) Prod.fst
    Prod.snd (f.params.zip args)
  rw [hvars, hargs] at hdefine
  rw [enter_eq heap env depth f hdepth]
  exact hdefine

/-- Where a function is entered, its body finds new cells for the parameters. -/
theorem enter_define (ev : ExprId → EvalM Value) {f : Closure} {args : List Value}
    (hlen : args.length = f.params.length) (hdepth : depth + 1 < UInt64.size) :
    (do (f.params.zip args).forM fun e => define e.1 e.2; ev f.body : EvalM Value)
        ((⟨heap, env, depth⟩ : Machine).enter f) =
      ev f.body ⟨{ heap with cells := heap.cells ++ args }, f.bodyEnv heap.cells.size,
        depth + 1⟩ :=
  bind_ok (forM_define_params heap env depth hlen hdepth)

theorem callFunction_arity {p : Program} (ev : ExprId → EvalM Value) {f : Closure}
    {args : List Value} (hlen : args.length ≠ f.params.length) (m : Machine) :
    callFunction p ev f args m =
      .error (.error (.arityMismatch f.params.length args.length)) m := by
  rw [callFunction, if_pos hlen]
  rfl

theorem callFunction_deep {p : Program} (ev : ExprId → EvalM Value) {f : Closure}
    {args : List Value} (hlen : args.length = f.params.length) (hdepth : p.maxCallDepth ≤ depth) :
    callFunction p ev f args ⟨heap, env, depth⟩ =
      .error (.error (.callDepthExceeded p.maxCallDepth)) ⟨heap, env, depth⟩ := by
  rw [callFunction, if_neg (fun hne => hne hlen)]
  show (if p.maxCallDepth ≤ depth then _ else _ : EvalM Value) ⟨heap, env, depth⟩ = _
  rw [if_pos hdepth]
  rfl

theorem traceCall_eq {p : Program} {f : Closure} (h : (p.tracedName? f).isSome) (m : Machine) :
    traceCall p f m = .ok () m := by
  obtain ⟨name, hname⟩ := Option.isSome_iff_exists.1 h
  rw [traceCall, hname]
  rfl

theorem traceCall_eq_of_none {p : Program} {f : Closure} (h : p.tracedName? f = none)
    (m : Machine) : traceCall p f m = .error (.fault .outOfBounds) m := by
  rw [traceCall, h]
  rfl

/-- A call is reported before anything else is done. -/
theorem callFunction_undeclared {p : Program} (ev : ExprId → EvalM Value) {f : Closure}
    {args : List Value} (hlen : args.length = f.params.length) (hdepth : depth < p.maxCallDepth)
    (hname : p.tracedName? f = none) :
    callFunction p ev f args ⟨heap, env, depth⟩ =
      .error (.fault .outOfBounds) ⟨heap, env, depth⟩ := by
  rw [callFunction, if_neg (fun hne => hne hlen)]
  show (if p.maxCallDepth ≤ depth then _ else _ : EvalM Value) ⟨heap, env, depth⟩ = _
  rw [if_neg (Nat.not_le_of_lt hdepth), bind_error (traceCall_eq_of_none hname _)]

/-- A call evaluates the body one call deeper and comes back. The limit is a word. -/
theorem callFunction_eq {p : Program} (hlimit : p.maxCallDepth < UInt64.size)
    (ev : ExprId → EvalM Value) {f : Closure} {args : List Value}
    (hlen : args.length = f.params.length) (hdepth : depth < p.maxCallDepth)
    (hname : (p.tracedName? f).isSome)
    (hbody : StaysIn (f.bodyEnv heap.cells.size) (depth + 1) (ev f.body
      ⟨{ heap with cells := heap.cells ++ args }, f.bodyEnv heap.cells.size, depth + 1⟩)) :
    callFunction p ev f args ⟨heap, env, depth⟩ =
      backIn env depth (ev f.body ⟨{ heap with cells := heap.cells ++ args },
        f.bodyEnv heap.cells.size, depth + 1⟩) := by
  have henter := enter_define heap env depth ev hlen (by omega)
  have hclose : ∀ h, (modify fun m => m.leave env : EvalM Unit)
      ⟨h, f.bodyEnv heap.cells.size, depth + 1⟩ = .ok () ⟨h, env, depth⟩ := fun _ => rfl
  rw [callFunction, if_neg (by omega)]
  show (if p.maxCallDepth ≤ depth then _ else _ : EvalM Value) ⟨heap, env, depth⟩ = _
  rw [if_neg (by omega), bind_ok (traceCall_eq hname _), ← henter]
  rw [← henter] at hbody
  exact ensuring_eq_backIn hbody hclose

end

theorem tryHandler_eq (ev : ExprId → EvalM Value) (thrown : Value) (h : Handler) :
    tryHandler ev thrown h = withScope do
      h.caught.toList.forM fun v => define v thrown
      if ← evalFilter ev h then return some (← ev h.body) else return none := by
  rw [tryHandler]
  cases h.caught with
  | none => rfl
  | some v => simp [List.forM_eq_forM]

end EvalM

/-! ## Nesting -/

open EvalM in
/-- Evaluates a node of a kind, with `body` for the bodies of the functions that it calls. -/
def nestedKind (p : Program) (ev body : ExprId → EvalM Value) : Kind → EvalM Value
  | .call callee args => do
    let callee ← ev callee
    let args ← (← require (p.arena.exprs? args)).mapM ev
    callValue p body callee args
  | kind => evalKind p ev kind

theorem nestedKind_self (p : Program) (ev : ExprId → EvalM Value) (kind : Kind) :
    nestedKind p ev ev kind = evalKind p ev kind := by
  cases kind <;> rfl

open EvalM in
/-- Evaluates `id` with at most `levels` evaluations and at most `calls` function bodies nested in
each other. Where there would be one more, the evaluation ends in `.endless`. -/
def Program.evalNested (p : Program) : Nat → Nat → ExprId → EvalM Value
  | 0, _, _ => throw (.fault .endless)
  | levels + 1, calls, id => do
    let body := match calls with
      | 0 => fun _ => throw (.fault .endless)
      | calls + 1 => p.evalNested levels calls
    nestedKind p (p.evalNested levels calls) body (← require (p.arena.node? id)).kind

end Quotation
