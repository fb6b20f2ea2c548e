import Quotation.Proofs.Growth
import Quotation.Validation
import Mathlib.Data.List.Forall2

/-!
# Fragments as trees

A fragment is a graph of nodes in an arena. Its tree is what the graph says when every index is
followed: a `Tree` has the label of each node, its span, and the trees below it in the order in
which a pass visits them. The variables of a node, its operator and its constant stand in its
label, a constant by the value that the pool has for it. A handler is a tree of its own below its
`attempt`, since it declares a variable of its own.

`unfold` follows the indices, and `Represents a pool n id t` says that the fragment of `id` is at
most `n` nodes deep, names only what exists, and has the tree `t`.
-/

namespace Quotation

/-! ## Trees -/

/-- What a node says besides the nodes below it. -/
inductive Label where
  | unit
  | int (n : Int64)
  | bool (b : Bool)
  | var (v : VarId)
  | binary (op : BinaryOp)
  | assign
  | cond
  | block (locals : List VarId)
  | lambda (params : List VarId) (name : Option VarId)
  | call
  | attempt
  | throw
  | constant (v : Value)
  | content
  | cellList (vars : List VarId)
  | handler (caught : Option VarId)
  deriving DecidableEq

/-- The variables that have to be declared: all but the name of a function. -/
def Label.vars : Label → List VarId
  | var v => [v]
  | block locals => locals
  | lambda params _ => params
  | cellList vars => vars
  | handler caught => caught.toList
  | _ => []

inductive Tree where
  | node (label : Label) (span : Span) (children : List Tree)

/-- Something below a node: an expression, or a handler of an `attempt`. -/
inductive Branch where
  | expr (id : ExprId)
  | handler (h : Handler)
  deriving DecidableEq

def Handler.exprs (h : Handler) : List ExprId := h.body :: h.filter.toList

def Branch.exprs : Branch → List ExprId
  | expr id => [id]
  | handler h => h.exprs

/-- The label of a kind, and what lies below it in the order of a visit. -/
def Arena.view? (a : Arena) (pool : Pool) : Kind → Option (Label × List Branch)
  | .unit => some (.unit, [])
  | .int n => some (.int n, [])
  | .bool b => some (.bool b, [])
  | .var v => some (.var v, [])
  | .binary op left right => some (.binary op, [.expr left, .expr right])
  | .assign target value => some (.assign, [.expr target, .expr value])
  | .cond test yes no => some (.cond, [.expr test, .expr yes, .expr no])
  | .block locals body => do return (.block (← a.vars? locals), (← a.exprs? body).map .expr)
  | .lambda params body name => do return (.lambda (← a.vars? params) name, [.expr body])
  | .call callee args => do return (.call, .expr callee :: (← a.exprs? args).map .expr)
  | .attempt body handlers => do
    return (.attempt, .expr body :: (← a.handlers? handlers).map .handler)
  | .throw value => some (.throw, [.expr value])
  | .constant c => do return (.constant (← pool.get? c), [])
  | .content receiver => some (.content, [.expr receiver])
  | .cellList vars => do return (.cellList (← a.vars? vars), [])

section
variable {a : Arena} {pool : Pool} {label : Label} {branches : List Branch}

theorem view?_block {locals : Slice VarId} {body : Slice ExprId} :
    a.view? pool (.block locals body) = some (label, branches) ↔ ∃ vs ids,
      a.vars? locals = some vs ∧ a.exprs? body = some ids ∧ Label.block vs = label ∧
        ids.map .expr = branches := by
  simp [Arena.view?, Option.bind_eq_some_iff]

theorem view?_lambda {params : Slice VarId} {body : ExprId} {name : Option VarId} :
    a.view? pool (.lambda params body name) = some (label, branches) ↔ ∃ vs,
      a.vars? params = some vs ∧ Label.lambda vs name = label ∧ [.expr body] = branches := by
  simp [Arena.view?, Option.bind_eq_some_iff]

theorem view?_call {callee : ExprId} {args : Slice ExprId} :
    a.view? pool (.call callee args) = some (label, branches) ↔ ∃ ids,
      a.exprs? args = some ids ∧ Label.call = label ∧ .expr callee :: ids.map .expr = branches := by
  simp [Arena.view?, Option.bind_eq_some_iff]

theorem view?_attempt {body : ExprId} {handlers : Slice Handler} :
    a.view? pool (.attempt body handlers) = some (label, branches) ↔ ∃ hs,
      a.handlers? handlers = some hs ∧ Label.attempt = label ∧
        .expr body :: hs.map .handler = branches := by
  simp [Arena.view?, Option.bind_eq_some_iff]

theorem view?_constant {c : ConstantId} :
    a.view? pool (.constant c) = some (label, branches) ↔ ∃ v,
      pool.get? c = some v ∧ Label.constant v = label ∧ [] = branches := by
  simp [Arena.view?, Option.bind_eq_some_iff]

theorem view?_cellList {vars : Slice VarId} :
    a.view? pool (.cellList vars) = some (label, branches) ↔ ∃ vs,
      a.vars? vars = some vs ∧ Label.cellList vs = label ∧ [] = branches := by
  simp [Arena.view?, Option.bind_eq_some_iff]

/-- A label leaves only the slices open. -/
theorem kind_of_view? {kind : Kind} (h : a.view? pool kind = some (label, branches)) :
    match label with
    | .unit => kind = .unit ∧ branches = []
    | .int n => kind = .int n ∧ branches = []
    | .bool b => kind = .bool b ∧ branches = []
    | .var v => kind = .var v ∧ branches = []
    | .binary op => ∃ left right,
      kind = .binary op left right ∧ branches = [.expr left, .expr right]
    | .assign => ∃ target value,
      kind = .assign target value ∧ branches = [.expr target, .expr value]
    | .cond => ∃ test yes no,
      kind = .cond test yes no ∧ branches = [.expr test, .expr yes, .expr no]
    | .block vs => ∃ locals body ids, kind = .block locals body ∧ a.vars? locals = some vs ∧
      a.exprs? body = some ids ∧ branches = ids.map .expr
    | .lambda vs name => ∃ params body,
      kind = .lambda params body name ∧ a.vars? params = some vs ∧ branches = [.expr body]
    | .call => ∃ callee args ids, kind = .call callee args ∧ a.exprs? args = some ids ∧
      branches = .expr callee :: ids.map .expr
    | .attempt => ∃ body handlers hs, kind = .attempt body handlers ∧
      a.handlers? handlers = some hs ∧ branches = .expr body :: hs.map .handler
    | .throw => ∃ value, kind = .throw value ∧ branches = [.expr value]
    | .constant v => ∃ k, kind = .constant k ∧ pool.get? k = some v ∧ branches = []
    | .content => ∃ receiver, kind = .content receiver ∧ branches = [.expr receiver]
    | .cellList vs => ∃ vars, kind = .cellList vars ∧ a.vars? vars = some vs ∧ branches = []
    | .handler _ => False := by
  cases kind with
  | block locals body =>
    obtain ⟨vs, ids, hvs, hids, rfl, rfl⟩ := view?_block.1 h
    exact ⟨locals, body, ids, rfl, hvs, hids, rfl⟩
  | lambda params body name =>
    obtain ⟨vs, hvs, rfl, rfl⟩ := view?_lambda.1 h
    exact ⟨params, body, rfl, hvs, rfl⟩
  | call callee args =>
    obtain ⟨ids, hids, rfl, rfl⟩ := view?_call.1 h
    exact ⟨callee, args, ids, rfl, hids, rfl⟩
  | attempt body handlers =>
    obtain ⟨hs, hhs, rfl, rfl⟩ := view?_attempt.1 h
    exact ⟨body, handlers, hs, rfl, hhs, rfl⟩
  | constant k =>
    obtain ⟨v, hv, rfl, rfl⟩ := view?_constant.1 h
    exact ⟨k, rfl, hv, rfl⟩
  | cellList vars =>
    obtain ⟨vs, hvs, rfl, rfl⟩ := view?_cellList.1 h
    exact ⟨vars, rfl, hvs, rfl⟩
  | _ =>
    obtain ⟨rfl, rfl⟩ := Prod.mk.inj (Option.some.inj h)
    simp

end

section
variable (a : Arena) (pool : Pool)

def unfoldBranch (unfold : ExprId → Option Tree) : Branch → Option Tree
  | .expr id => unfold id
  | .handler h => do return .node (.handler h.caught) .nowhere (← h.exprs.mapM unfold)

/-- The tree of `id`, if it is at most `levels` nodes deep. -/
def unfoldWithin : Nat → ExprId → Option Tree
  | 0, _ => none
  | levels + 1, id => do
    let node ← a.node? id
    let (label, branches) ← a.view? pool node.kind
    return .node label node.span (← branches.mapM (unfoldBranch (unfoldWithin levels)))

/-- The tree of a fragment, as deep as an arena without cycles can be. -/
def unfold (root : ExprId) : Option Tree := unfoldWithin a pool (a.size + 1) root

/-! ## Valid fragments and their trees -/

/-- Every variable that the label names has been declared. -/
def Label.Declared (l : Label) : Prop := ∀ v ∈ l.vars, v.index < a.names.size

def RepresentsBranch (R : ExprId → Tree → Prop) : Branch → Tree → Prop
  | .expr id, t => R id t
  | .handler h, t => (Label.handler h.caught).Declared a ∧
      ∃ ts, List.Forall₂ R h.exprs ts ∧ t = .node (.handler h.caught) .nowhere ts

/-- The fragment of `id` is valid, at most `n` nodes deep, and has the tree `t`. -/
def Represents : Nat → ExprId → Tree → Prop
  | 0, _, _ => False
  | n + 1, id, t => ∃ node label branches ts,
      a.node? id = some node ∧ a.view? pool node.kind = some (label, branches) ∧
      label.Declared a ∧ List.Forall₂ (RepresentsBranch a (Represents n)) branches ts ∧
      t = .node label node.span ts

end

end Quotation
