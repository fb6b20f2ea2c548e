import Quotation.Pass.Rules
import Quotation.Proofs.Descend
import Quotation.Proofs.Unfold

/-!
# Plans for a pass

A `Plan` says of each node, by its index, kind and span, whether another node takes its place, and
of each handler whether it keeps the variable that it binds. The `Plan.image` of a fragment is its
tree with the replacements made, from the root down and wherever the nodes occur; nothing below a
replacement is looked at. The plan alters a fragment (`Plan.Alters`) if it replaces a node that is
met on this way down by another one, or drops the variable of a handler that has one.
-/

namespace Quotation

variable {σ : Type}

/-! ## Plans -/

/-- What is to take the place of a node, and which handlers keep the variable that they bind. -/
structure Plan where
  replace : ExprId → Node → Option Replacement
  keeps : Handler → Bool

/-- The node that takes the place is there already, or is added. -/
def Replacement.place : Replacement → Builder ExprId
  | existing id => pure id
  | fresh kind span => Builder.add kind span

/-- The handlers of a node of the kind. -/
def Arena.handlersOf (a : Arena) (kind : Kind) : List Handler :=
  kind.handlerSlices.flatMap fun s => (a.handlers? s).getD []

section
variable (a : Arena) (pool : Pool)

def Replacement.tree? : Replacement → Option Tree
  | existing id => unfold a pool id
  | fresh kind span => do
    let (label, branches) ← a.view? pool kind
    return .node label span (← branches.mapM (unfoldBranch (unfold a pool)))

namespace Plan

variable (plan : Plan)

/-- What becomes of the answer for a handler. -/
def answer (h h' : Handler) : Handler := if plan.keeps h then h' else { h' with caught := none }

def handler (h : Handler) : Handler := plan.answer h h

/-- The branch as the plan has it, before anything is done below it. -/
def branch : Branch → Branch
  | .expr id => .expr id
  | .handler h => .handler (plan.handler h)

/-! ### The image of a tree -/

/-- The tree of `id` with all replacements made, if it is at most `levels` nodes deep. -/
def imageWithin : Nat → ExprId → Option Tree
  | 0, _ => none
  | levels + 1, id => do
    let node ← a.node? id
    match plan.replace id node with
    | some rep => rep.tree? a pool
    | none =>
      let (label, branches) ← a.view? pool node.kind
      return .node label node.span
        (← branches.mapM fun x => unfoldBranch (imageWithin levels) (plan.branch x))

def image (root : ExprId) : Option Tree := plan.imageWithin a pool (a.size + 1) root

/-! ### What is met on the way down -/

/-- The way down leads from a node to a child of it if nothing takes the node's place. -/
def Passes (id c : ExprId) : Prop :=
  a.Child id c ∧ ∀ node, a.node? id = some node → plan.replace id node = none

/-- The way down leads to the node. -/
def Meets (root id : ExprId) : Prop := Relation.ReflTransGen (plan.Passes a) root id

/-- Another node takes the place of the node, or one of its handlers loses its variable. -/
def AltersNode (id : ExprId) : Prop :=
  ∃ node, a.node? id = some node ∧
    ((∃ rep, plan.replace id node = some rep ∧ rep ≠ .existing id) ∨
      plan.replace id node = none ∧ ∃ h ∈ a.handlersOf node.kind, plan.handler h ≠ h)

/-- Some node on the way down is altered. -/
def Alters (root : ExprId) : Prop := ∃ id, plan.Meets a root id ∧ plan.AltersNode a id

def AltersBranch (x : Branch) : Prop := plan.branch x ≠ x ∨ ∃ c ∈ x.exprs, plan.Alters a c

/-- A new node is a replacement for a node on the way down, or has operator, variables, name and
span of one. -/
def Makes (root : ExprId) (new : Node) : Prop :=
  ∃ id node, plan.Meets a root id ∧ a.node? id = some node ∧
    (plan.replace id node = some (.fresh new.kind new.span) ∨
      plan.replace id node = none ∧ new.kind.bare = node.kind.bare ∧ new.span = node.span)

/-- Something has been altered, and there is no room for what takes its place. -/
def Fails (root : ExprId) (f : Fault) : Prop :=
  plan.Alters a root ∧ ∃ table size, f = .tableFull table size ∧ indexLimit ≤ size

end Plan

end

/-- What the plan has a pass do at a node: it makes the replacement, or goes down. -/
def Plan.onNode (plan : Plan) (id : ExprId) (node : Node) (down : PassM σ ExprId) :
    PassM σ ExprId :=
  match plan.replace id node with
  | some rep => liftM rep.place
  | none => down

/-- The hooks of the pass do what the plan says. They may have a state of their own, before and
after that. -/
structure Pass.Enacts (p : Pass σ) (plan : Plan) : Prop where
  node : ∀ id node s a, a.node? id = some node → ∃ (before : σ) (after : σ → σ), ∀ down,
    p.onNode id down s a =
      (plan.onNode id node down before a).map fun r => ((r.1.1, after r.1.2), r.2)
  handler : ∀ h s a, ∃ (before : σ) (after : σ → σ), ∀ down,
    p.onHandler h down s a =
      (down before a).map fun r => ((plan.answer h r.1.1, after r.1.2), r.2)

/-! ## Plans and views -/

section
variable {plan : Plan} {a b b₁ b₂ : Arena} {pool : Pool} {id c root : ExprId} {node new : Node}
  {label : Label} {branches : List Branch} {rep : Replacement} {n : Nat} {t : Tree}

theorem Arena.mem_handlersOf {h : Handler} {kind : Kind}
    (hview : a.view? pool kind = some (label, branches)) :
    h ∈ a.handlersOf kind ↔ .handler h ∈ branches := by
  cases kind with
  | block locals body =>
    obtain ⟨vs, ids, -, -, rfl, rfl⟩ := view?_block.1 hview
    simp [handlersOf, Kind.handlerSlices]
  | lambda params body name =>
    obtain ⟨vs, -, rfl, rfl⟩ := view?_lambda.1 hview
    simp [handlersOf, Kind.handlerSlices]
  | call callee args =>
    obtain ⟨ids, -, rfl, rfl⟩ := view?_call.1 hview
    simp [handlersOf, Kind.handlerSlices]
  | attempt body handlers =>
    obtain ⟨hs, hhs, rfl, rfl⟩ := view?_attempt.1 hview
    simp [handlersOf, Kind.handlerSlices, hhs]
  | constant k =>
    obtain ⟨v, -, rfl, rfl⟩ := view?_constant.1 hview
    simp [handlersOf, Kind.handlerSlices]
  | cellList vars =>
    obtain ⟨vs, -, rfl, rfl⟩ := view?_cellList.1 hview
    simp [handlersOf, Kind.handlerSlices]
  | _ =>
    obtain ⟨rfl, rfl⟩ := Prod.mk.inj (Option.some.inj hview)
    simp [handlersOf, Kind.handlerSlices]

theorem Replacement.tree?_fresh {kind : Kind} {span : Span} :
    (fresh kind span).tree? a pool = some t ↔ ∃ label branches ts,
      a.view? pool kind = some (label, branches) ∧
      List.Forall₂ (fun x t => unfoldBranch (unfold a pool) x = some t) branches ts ∧
      t = .node label span ts := by
  simp only [tree?, Option.bind_eq_bind, Option.bind_eq_some_iff, mapM_eq_some_iff,
    Option.pure_def, Option.some.injEq, Prod.exists, @eq_comm _ _ t]
  constructor
  · rintro ⟨label, branches, hview, ts, hts, rfl⟩
    exact ⟨label, branches, ts, hview, hts, rfl⟩
  · rintro ⟨label, branches, ts, hview, hts, rfl⟩
    exact ⟨label, branches, hview, ts, hts, rfl⟩

namespace Plan

theorem imageWithin_replaced (hnode : a.node? id = some node)
    (hrep : plan.replace id node = some rep) :
    plan.imageWithin a pool (n + 1) id = rep.tree? a pool := by
  rw [imageWithin, hnode]
  simp [hrep]

theorem imageWithin_kept (hnode : a.node? id = some node) (hnone : plan.replace id node = none) :
    plan.imageWithin a pool (n + 1) id = some t ↔ ∃ label branches ts,
      a.view? pool node.kind = some (label, branches) ∧
      List.Forall₂ (fun x t => unfoldBranch (plan.imageWithin a pool n) (plan.branch x) = some t)
        branches ts ∧
      t = .node label node.span ts := by
  rw [imageWithin, hnode]
  simp only [hnone, Option.bind_eq_bind, Option.bind_some, Option.bind_eq_some_iff,
    mapM_eq_some_iff, Option.pure_def, Option.some.injEq, Prod.exists, @eq_comm _ _ t]
  constructor
  · rintro ⟨label, branches, hview, ts, hts, rfl⟩
    exact ⟨label, branches, ts, hview, hts, rfl⟩
  · rintro ⟨label, branches, ts, hview, hts, rfl⟩
    exact ⟨label, branches, hview, ts, hts, rfl⟩

/-- More levels show no more of an image that is shown. -/
theorem imageWithin_mono {m : Nat} (hmn : m ≤ n) (ht : plan.imageWithin a pool m id = some t) :
    plan.imageWithin a pool n id = some t := by
  induction m generalizing n id t with
  | zero => cases ht
  | succ m ih =>
    obtain ⟨n, rfl⟩ := Nat.exists_eq_add_of_le' (Nat.lt_of_lt_of_le (Nat.zero_lt_succ m) hmn)
    cases hnode : a.node? id with
    | none => simp [imageWithin, hnode] at ht
    | some node =>
      cases hrep : plan.replace id node with
      | some rep =>
        rw [imageWithin_replaced hnode hrep] at ht ⊢
        exact ht
      | none =>
        obtain ⟨label, branches, ts, hview, hts, rfl⟩ := (imageWithin_kept hnode hrep).1 ht
        exact (imageWithin_kept hnode hrep).2 ⟨label, branches, ts, hview,
          hts.imp fun _ _ => unfoldBranch_mono fun _ _ => ih (Nat.le_of_succ_le_succ hmn), rfl⟩

theorem Passes.of_child (hnode : a.node? id = some node) (hnone : plan.replace id node = none)
    (hc : a.Child id c) : plan.Passes a id c :=
  ⟨hc, fun _ hnode' => Option.some.inj (hnode.symm.trans hnode') ▸ hnone⟩

/-- Nothing below a node that is replaced is met. -/
theorem Meets.eq_of_replaced (hnode : a.node? id = some node)
    (hrep : plan.replace id node = some rep) (hc : plan.Meets a id c) : c = id := by
  rcases Relation.ReflTransGen.cases_head hc with rfl | ⟨c', hc', -⟩
  · rfl
  · cases hrep.symm.trans (hc'.2 node hnode)

theorem alters_replaced (hnode : a.node? id = some node) (hrep : plan.replace id node = some rep) :
    plan.Alters a id ↔ rep ≠ .existing id := by
  constructor
  · rintro ⟨c, hc, node', hnode', halters⟩
    obtain rfl := hc.eq_of_replaced hnode hrep
    obtain rfl := Option.some.inj (hnode.symm.trans hnode')
    rcases halters with ⟨rep', hrep', hne⟩ | ⟨hnone, -⟩
    · exact Option.some.inj (hrep.symm.trans hrep') ▸ hne
    · cases hrep.symm.trans hnone
  · exact fun hne => ⟨id, .refl, node, hnode, .inl ⟨rep, hrep, hne⟩⟩

/-- A node that stays is altered if one of its branches is. -/
theorem alters_kept (hnode : a.node? id = some node) (hnone : plan.replace id node = none)
    (hview : a.view? pool node.kind = some (label, branches)) :
    plan.Alters a id ↔ ∃ x ∈ branches, plan.AltersBranch a x := by
  constructor
  · rintro ⟨c, hc, halters⟩
    rcases Relation.ReflTransGen.cases_head hc with rfl | ⟨c', hc', hc⟩
    · obtain ⟨node', hnode', ⟨rep, hrep, -⟩ | ⟨-, h, hh, hne⟩⟩ := halters
      · obtain rfl := Option.some.inj (hnode.symm.trans hnode')
        cases hrep.symm.trans hnone
      · obtain rfl := Option.some.inj (hnode.symm.trans hnode')
        exact ⟨.handler h, (Arena.mem_handlersOf hview).1 hh,
          .inl fun heq => hne (Branch.handler.inj heq)⟩
    · obtain ⟨x, hx, hc'x⟩ := List.mem_flatMap.1 ((Arena.child_iff hnode hview).1 hc'.1)
      exact ⟨x, hx, .inr ⟨c', hc'x, c, hc, halters⟩⟩
  · rintro ⟨x, hx, hne | ⟨c, hcx, c', hc', halters⟩⟩
    · cases x with
      | expr id => exact absurd rfl hne
      | handler h =>
        exact ⟨id, .refl, node, hnode, .inr ⟨hnone, h, (Arena.mem_handlersOf hview).2 hx,
          fun heq => hne (congrArg Branch.handler heq)⟩⟩
    · have hc : a.Child id c := (Arena.child_iff hnode hview).2 (List.mem_flatMap.2 ⟨x, hx, hcx⟩)
      exact ⟨c', .head (.of_child hnode hnone hc) hc', halters⟩

theorem Makes.head (hc : plan.Passes a id c) (h : plan.Makes a c new) : plan.Makes a id new := by
  obtain ⟨c', node, hc', hnode, hmade⟩ := h
  exact ⟨c', node, .head hc hc', hnode, hmade⟩

theorem Fails.head {f : Fault} (hc : plan.Passes a id c) (h : plan.Fails a c f) :
    plan.Fails a id f := by
  obtain ⟨⟨c', hc', halters⟩, hf⟩ := h
  exact ⟨⟨c', .head hc hc', halters⟩, hf⟩

theorem alters_handler {h : Handler} :
    plan.AltersBranch a (.handler h) ↔ plan.handler h ≠ h ∨ ∃ c ∈ h.exprs, plan.Alters a c := by
  rw [AltersBranch, branch, Ne, Branch.handler.injEq]
  rfl

theorem alters_expr : plan.AltersBranch a (.expr id) ↔ plan.Alters a id := by
  simp [AltersBranch, branch, Branch.exprs]

theorem answer_eq {h h' : Handler} (hcaught : h'.caught = h.caught) :
    plan.answer h h' = { h' with caught := (plan.handler h).caught } := by
  unfold handler answer
  split
  · rw [← hcaught]
  · rfl

theorem handler_eq_self {h : Handler} :
    plan.handler h = h ↔ (plan.handler h).caught = h.caught := by
  refine ⟨congrArg _, fun hcaught => ?_⟩
  rw [handler, answer_eq rfl, hcaught]

@[simp] theorem exprs_handler (h : Handler) : (plan.handler h).exprs = h.exprs := by
  rw [handler, answer_eq rfl]
  rfl

@[simp] theorem exprs_branch (x : Branch) : (plan.branch x).exprs = x.exprs := by
  cases x with
  | expr id => rfl
  | handler h => exact plan.exprs_handler h

/-- A plan that replaces nothing and drops nothing alters nothing. -/
theorem not_alters (hnone : ∀ id node, plan.replace id node = none)
    (hkeeps : ∀ h, plan.keeps h = true) : ¬plan.Alters a root := by
  rintro ⟨id, -, node, -, ⟨rep, hrep, -⟩ | ⟨-, h, -, hne⟩⟩
  · cases (hnone id node).symm.trans hrep
  · exact hne (by rw [handler, answer, if_pos (hkeeps h)])

end Plan

end

end Quotation
