import Quotation.Proofs.Eval.Contract

/-!
# An evaluation leaves the interpreter as it found it

Whatever an evaluation ends in, unless it is a fault, the environment and the depth of calls are
what they were before (`evalWithin_staysIn`). The depth is kept in a word that stays at its largest
value and at zero, but it never comes to that: whatever is done where it would, nothing changes
(`evalCounted_eq`). So evaluations one after the other all start from the variables that have been
bound, and from nothing else (`session_env`). `eval_restores` puts the three together.
-/

namespace Quotation

open EvalM

/-! ## Environment and depth -/

/-- Says nothing about values, and permits everything. -/
def Promise.anything : Promise := ⟨fun _ => True, True, fun _ => True, fun _ _ => trivial⟩

theorem Promise.anything_fits (p : Program) (S : VarId → Bool) (kind : Kind) :
    anything.Fits p (fun _ _ => True) S kind :=
  fits_of_children trivial trivial (fun _ _ => trivial) fun _ _ _ => trivial

def Contract.anything (p : Program) : Contract p where
  toPromise := .anything
  ready _ _ _ _ := True
  endless _ := trivial
  mono _ := trivial
  node _ := .of_some trivial fun node _ => Promise.anything_fits p _ node.kind
  make _ _ _ _ _ _ _ := trivial
  traced _ := .of_some trivial fun _ _ => trivial
  call _ _ _ := ⟨fun _ => false, nofun, trivial⟩

theorem evalWithin_staysIn {p : Program} (hlimit : p.maxCallDepth < UInt64.size) (levels : Nat)
    (id : ExprId) (m : Machine) : StaysIn m.env m.callDepth (p.evalWithin levels id m) :=
  ((Contract.anything p).evalWithin_keeps (S := fun _ => false) hlimit trivial nofun m.heap
    fun _ _ => trivial).staysIn

/-! ## Counting calls -/

/-- Evaluates each node as `kind` does, at most so many nodes deep. -/
def Program.evalBy (p : Program) (kind : (ExprId → EvalM Value) → Kind → EvalM Value) :
    Nat → ExprId → EvalM Value
  | 0, _ => throw (.fault .endless)
  | levels + 1, id => do kind (p.evalBy kind levels) (← require (p.arena.node? id)).kind

theorem Program.evalWithin_eq_evalBy (p : Program) (levels : Nat) :
    p.evalWithin levels = p.evalBy (evalKind p) levels := by
  induction levels with
  | zero => rfl
  | succ levels ih =>
    funext id
    rw [Program.evalWithin, evalBy, ih]
    rfl

section
variable (saturated : EvalM Unit) (p : Program) (ev : ExprId → EvalM Value)

/-- A call that does `saturated` before it counts up from the largest word or down from zero. -/
def callCounted (f : Closure) (args : List Value) : EvalM Value :=
  if args.length ≠ f.params.length then
    fail (.arityMismatch f.params.length args.length)
  else do
    let caller ← get
    if p.maxCallDepth ≤ caller.callDepth then
      fail (.callDepthExceeded p.maxCallDepth)
    else
      traceCall p f
      if UInt64.size ≤ caller.callDepth + 1 then saturated
      modify fun m => m.enter f
      ensuring
        (do (f.params.zip args).forM fun e => define e.1 e.2
            ev f.body)
        (do if (← get).callDepth = 0 then saturated
            modify fun m => m.leave caller.env)

def countedKind : Kind → EvalM Value
  | .call callee args => do
    let callee ← ev callee
    let args ← (← require (p.arena.exprs? args)).mapM ev
    match callee with
    | .function f => callCounted saturated p ev f args
    | _ => callValue p ev callee args
  | kind => evalKind p ev kind

end

/-- An evaluation whose calls are counted by `callCounted`. -/
def Program.evalCounted (p : Program) (saturated : EvalM Unit) (id : ExprId) : EvalM Value :=
  p.evalBy (countedKind saturated p) p.levels id

theorem ensuring_congr {α : Type} {act : EvalM α} {close close' : EvalM Unit} {m : Machine}
    {env : Environment} {depth : Nat} (hact : StaysIn env depth (act m))
    (hclose : ∀ h, close ⟨h, env, depth⟩ = close' ⟨h, env, depth⟩) :
    ensuring act close m = ensuring act close' m := by
  rw [ensuring, ensuring]
  rcases hact.cases with ⟨v, heap, hr⟩ | ⟨e, heap, hr⟩ | ⟨f, m', hr⟩
  · rw [hr]
    show EStateM.bind close _ _ = EStateM.bind close' _ _
    rw [EStateM.bind, EStateM.bind, hclose]
  · rw [hr]
    show EStateM.bind close _ _ = EStateM.bind close' _ _
    rw [EStateM.bind, EStateM.bind, hclose]
  · rw [hr]

section
variable {saturated : EvalM Unit} {p : Program} (hlimit : p.maxCallDepth < UInt64.size)
include hlimit

theorem callCounted_eq {ev : ExprId → EvalM Value}
    (hev : ∀ id m, StaysIn m.env m.callDepth (ev id m)) (f : Closure) (args : List Value) :
    callCounted saturated p ev f args = callFunction p ev f args := by
  rw [callCounted, callFunction]
  split
  · rfl
  · rename_i hlen
    funext m
    obtain ⟨heap, env, depth⟩ := m
    show (if p.maxCallDepth ≤ depth then _ else _ : EvalM Value) ⟨heap, env, depth⟩ =
      (if p.maxCallDepth ≤ depth then _ else _ : EvalM Value) ⟨heap, env, depth⟩
    split
    · rfl
    · rename_i hdepth
      have hact := hev f.body ⟨{ heap with cells := heap.cells ++ args },
        f.bodyEnv heap.cells.size, depth + 1⟩
      rw [← enter_define heap env depth ev (by omega) (by omega)] at hact
      cases hname : p.tracedName? f with
      | none =>
        rw [bind_error (traceCall_eq_of_none hname _), bind_error (traceCall_eq_of_none hname _)]
      | some shown =>
        rw [bind_ok (traceCall_eq (hname ▸ rfl) _), bind_ok (traceCall_eq (hname ▸ rfl) _)]
        show (if UInt64.size ≤ depth + 1 then _ else _ : EvalM Value) ⟨heap, env, depth⟩ = _
        rw [if_neg (by omega)]
        refine ensuring_congr hact fun h => ?_
        show (if depth + 1 = 0 then saturated >>= fun _ => modify fun m => m.leave env
          else modify fun m => m.leave env : EvalM Unit) _ = _
        rw [if_neg (Nat.succ_ne_zero depth)]

theorem countedKind_eq {ev : ExprId → EvalM Value}
    (hev : ∀ id m, StaysIn m.env m.callDepth (ev id m)) (kind : Kind) :
    countedKind saturated p ev kind = evalKind p ev kind := by
  cases kind with
  | call callee args =>
    rw [countedKind, evalKind]
    simp only [callCounted_eq hlimit hev]
    congr 1
    funext callee
    congr 1
    funext ids
    congr 1
    funext args
    cases callee <;> rfl
  | _ => rfl

theorem evalCounted_eq (id : ExprId) : p.evalCounted saturated id = p.eval id := by
  rw [Program.evalCounted, Program.eval, p.evalWithin_eq_evalBy]
  induction p.levels generalizing id with
  | zero => rfl
  | succ levels ih =>
    have hlevels : p.evalBy (countedKind saturated p) levels = p.evalBy (evalKind p) levels :=
      funext ih
    have hkind : ∀ kind, countedKind saturated p (p.evalBy (evalKind p) levels) kind =
        evalKind p (p.evalBy (evalKind p) levels) kind := fun kind => by
      rw [← p.evalWithin_eq_evalBy]
      exact countedKind_eq hlimit (evalWithin_staysIn hlimit levels) kind
    rw [Program.evalBy, Program.evalBy, hlevels]
    simp only [hkind]

end

/-! ## One evaluation after the other -/

/-- What an interpreter is used for. -/
inductive Use where
  | bind (v : VarId) (c : Cell)
  | eval (id : ExprId)
  deriving DecidableEq, Repr

/-- The bindings that a use adds. -/
def Use.bindIn (env : Environment) : Use → Environment
  | bind v c => env.define v c
  | eval _ => env

/-- The machine after an evaluation. A fault leaves none behind. -/
def machine? {α : Type} : EStateM.Result Stop Machine α → Option Machine
  | .ok _ m | .error (.error _) m => some m
  | .error (.fault _) _ => none

def Program.use (p : Program) (m : Machine) : Use → Option Machine
  | .bind v c => some { m with env := m.env.define v c }
  | .eval id => machine? (p.eval id m)

/-- The machine after all of these uses, one after the other. -/
def Program.session (p : Program) (uses : List Use) (m : Machine) : Option Machine :=
  uses.foldlM p.use m

theorem machine?_stays {α : Type} {env : Environment} {depth : Nat}
    {r : EStateM.Result Stop Machine α} (h : StaysIn env depth r) {m : Machine}
    (hm : machine? r = some m) : m.env = env ∧ m.callDepth = depth := by
  rcases h.cases with ⟨v, heap, rfl⟩ | ⟨e, heap, rfl⟩ | ⟨f, m', rfl⟩
  · obtain rfl := Option.some.inj hm
    exact ⟨rfl, rfl⟩
  · obtain rfl := Option.some.inj hm
    exact ⟨rfl, rfl⟩
  · cases hm

section
variable {p : Program} (hlimit : p.maxCallDepth < UInt64.size) {m m' : Machine}
include hlimit

theorem use_env {use : Use} (h : p.use m use = some m') :
    m'.env = use.bindIn m.env ∧ m'.callDepth = m.callDepth := by
  cases use with
  | bind v c =>
    obtain rfl := Option.some.inj h
    exact ⟨rfl, rfl⟩
  | eval id => exact machine?_stays (evalWithin_staysIn hlimit p.levels id m) h

theorem session_env {uses : List Use} (h : p.session uses m = some m') :
    m'.env = uses.foldl Use.bindIn m.env ∧ m'.callDepth = m.callDepth := by
  induction uses generalizing m with
  | nil =>
    obtain rfl := Option.some.inj h
    exact ⟨rfl, rfl⟩
  | cons use uses ih =>
    obtain ⟨m₁, huse, hrest⟩ := Option.bind_eq_some_iff.1 h
    obtain ⟨henv, hdepth⟩ := use_env hlimit huse
    obtain ⟨henv', hdepth'⟩ := ih hrest
    exact ⟨henv'.trans (by rw [henv]; rfl), hdepth'.trans hdepth⟩

/-- An evaluation that does not fault leaves environment and depth as they were, counting calls
never comes to the largest word or below zero, and after any uses of an interpreter its environment
has the variables that have been bound, and no others. -/
theorem eval_restores :
    (∀ id m m', machine? (p.eval id m) = some m' →
      m'.env = m.env ∧ m'.callDepth = m.callDepth) ∧
    (∀ saturated id, p.evalCounted saturated id = p.eval id) ∧
    ∀ uses m m', p.session uses m = some m' →
      m'.env = uses.foldl Use.bindIn m.env ∧ m'.callDepth = m.callDepth := by
  refine ⟨fun id m m' h => ?_, fun saturated id => evalCounted_eq hlimit id,
    fun uses m m' h => session_env hlimit h⟩
  exact machine?_stays (evalWithin_staysIn hlimit p.levels id m) h

end

/-- A function that calls itself without end, inside a block whose only local it is: `f` is set to
the function of nothing that calls `f`, and called. -/
def endlessCall : Arena where
  nodes := #[⟨.var ⟨0⟩, ⟨0, 1⟩⟩, ⟨.call ⟨0⟩ ⟨0, 0⟩, ⟨0, 3⟩⟩, ⟨.lambda ⟨0, 0⟩ ⟨1⟩ none, ⟨0, 5⟩⟩,
    ⟨.assign ⟨0⟩ ⟨2⟩, ⟨0, 9⟩⟩, ⟨.block ⟨0, 1⟩ ⟨0, 2⟩, ⟨0, 12⟩⟩]
  exprEntries := #[⟨3⟩, ⟨1⟩]
  varEntries := #[⟨0⟩]
  names := #["f"]

/-- The evaluation runs into the limit three calls deep in a block, and comes back each time. -/
theorem eval_restores_endlessCall :
    3 < UInt64.size ∧
    (∃ m, Program.eval ⟨endlessCall, {}, 3⟩ ⟨4⟩ (.start {}) =
        .error (.error (.callDepthExceeded 3)) m ∧ m.env = {} ∧ m.callDepth = 0) ∧
    ∃ m, Program.session ⟨endlessCall, {}, 3⟩ [.eval ⟨4⟩, .bind ⟨0⟩ ⟨7⟩, .eval ⟨4⟩] (.start {}) =
        some m ∧ m.env = ({} : Environment).define ⟨0⟩ ⟨7⟩ ∧ m.callDepth = 0 := by
  obtain ⟨hstays, -, hsessions⟩ := eval_restores (p := ⟨endlessCall, {}, 3⟩) (by decide)
  have hsession : (Program.session ⟨endlessCall, {}, 3⟩
      [.eval ⟨4⟩, .bind ⟨0⟩ ⟨7⟩, .eval ⟨4⟩] (.start {})).isSome := by
    decide +kernel
  obtain ⟨m, hm⟩ := Option.isSome_iff_exists.1 hsession
  obtain ⟨m₁, hm₁⟩ : ∃ m, Program.eval ⟨endlessCall, {}, 3⟩ ⟨4⟩ (.start {}) =
      .error (.error (.callDepthExceeded 3)) m := ⟨_, rfl⟩
  have hback := hstays ⟨4⟩ (.start {}) m₁ (by rw [hm₁]; rfl)
  exact ⟨by decide, ⟨m₁, hm₁, hback⟩, m, hm, hsessions _ _ _ hm⟩

end Quotation
