import Quotation.Proofs.Capture.Settled
import Quotation.Proofs.Eval.Closed
import Quotation.Proofs.Eval.Simulation

/-!
# A quoted fragment stands on its own

The evaluation of a quoted fragment does not depend on the bindings of the interpreter
(`eval_standalone`): quoting leaves no captured variable behind (`captures_capture`), and what the
fragment declares itself has the same cells whatever is bound around it. Only the functions that are
made on the way are not the same, since a function captures whatever is bound.
-/

namespace Quotation

/-! ## In any two environments -/

/-- The branch is part of the fragment of `root`, with the variables `S` declared around it. -/
inductive Inside (a : Arena) (pool : Pool) (root : ExprId) : (VarId → Bool) → Branch → Prop where
  | root : Inside a pool root undeclared (.expr root)
  | child {S : VarId → Bool} {id : ExprId} {node : Node} {label : Label} {branches : List Branch}
    {b : Branch} (parent : Inside a pool root S (.expr id)) (node? : a.node? id = some node)
    (view : a.view? pool node.kind = some (label, branches)) (mem : b ∈ branches) :
    Inside a pool root (label.under S) b
  | handler {S : VarId → Bool} {h : Handler} {id : ExprId}
    (parent : Inside a pool root S (.handler h)) (mem : id ∈ h.exprs) :
    Inside a pool root ((Label.handler h.caught).under S) (.expr id)

namespace Likeness

/-- A fragment is like itself in any two environments. Functions made by the two evaluations
correspond if they differ only in the cells of variables that the fragment does not declare around
them; functions from before, if they do not differ at all. -/
def standalone (p : Program) (root : ExprId) (base : Stamp) : Likeness p where
  base := base
  frames := []
  storages := []
  node S id id' := id' = id ∧ ((∀ v, S v = true) ∨ Inside p.arena p.pool root S (.expr id) ∧
    ∃ n t, Represents p.arena p.pool n id t ∧ t.captures S = [])
  lists _ := True
  stands _ _ := False
  exact := True

section
variable {p : Program} {l : Likeness p} {S : VarId → Bool}

theorem optionRel_self {α : Type} {R : α → α → Prop} (h : ∀ x, R x x) (o : Option α) :
    Option.Rel R o o := by
  cases o with
  | none => exact .none
  | some x => exact .some (h x)

/-- Where all variables have the same cells, any node does the same as itself. -/
theorem Kinds.self (hself : ∀ {S}, (∀ v, S v = true) → ∀ id, l.node S id id)
    (hS : ∀ v, S v = true) (kind : Kind) : l.Kinds S kind kind := by
  have hids : ∀ {S}, (∀ v, S v = true) → ∀ ids, List.Forall₂ (l.node S) ids ids := fun hS ids =>
    List.forall₂_same.2 fun id _ => hself hS id
  cases kind with
  | unit => exact .unit
  | int n => exact .int n
  | bool b => exact .bool b
  | var v => exact .var (hS v)
  | binary op left right => exact .binary op (hself hS left) (hself hS right)
  | assign target value => exact .assign (hself hS target) (hself hS value)
  | cond test yes no => exact .cond (hself hS test) (hself hS yes) (hself hS no)
  | block locals body =>
    exact .block rfl fun vs _ => optionRel_self (hids (Label.under_eq_true hS (.block vs))) _
  | lambda params body name =>
    exact .lambda rfl fun vs _ => hself (Label.under_eq_true hS (.lambda vs name)) body
  | call callee args => exact .call (hself hS callee) (optionRel_self (hids hS) _)
  | attempt body handlers =>
    refine .attempt (hself hS body) (optionRel_self (fun hs => List.forall₂_same.2 fun h _ => ?_) _)
    exact ⟨rfl, hids (Label.under_eq_true hS (.handler h.caught)) h.exprs⟩
  | throw value => exact .throw (hself hS value)
  | constant k => exact .constant rfl
  | content receiver => exact .content (hself hS receiver)
  | cellList vars => exact .cellList rfl fun vs _ v _ => hS v

end

theorem standalone_lawful {p : Program} {root : ExprId} {base : Stamp}
    (hpool : ∀ k v, p.pool.get? k = some v → v.StampedBefore base) :
    (standalone p root base).Lawful where
  known {k v} hk := ⟨hpool k v hk, fun f _ => ⟨rfl, .inl fun _ => rfl⟩, fun _ _ => trivial⟩
  node {S id id'} hid := by
    obtain ⟨rfl, hS | ⟨hinside, n, t, ht, hnil⟩⟩ := hid
    · have hself : ∀ {T}, (∀ v, T v = true) → ∀ id, (standalone p root base).node T id id :=
        fun hT _ => ⟨rfl, .inl hT⟩
      exact .same (optionRel_self (fun node => .self hself hS node.kind) _)
    · obtain ⟨k, node, label, branches, -, hnode, hview, hrefers, hbelow⟩ :=
        ht.nothing_captured hnil
      refine .same ?_
      rw [hnode]
      refine .some (kinds_of_view? hview hview hrefers (List.forall₂_same.2 fun b hb => ?_))
      have hinside := hinside.child hnode hview hb
      obtain ⟨t, ht, hnil⟩ := hbelow b hb
      cases b with
      | expr id => exact ⟨rfl, .inr ⟨hinside, k, t, ht, hnil⟩⟩
      | handler h =>
        refine ⟨rfl, List.forall₂_same.2 fun id hid => ⟨rfl, .inr ⟨hinside.handler hid, k, ?_⟩⟩⟩
        exact ht.nothing_captured hnil hid

/-- No list is in the place of another one. -/
theorem standalone_guarded {p : Program} {root : ExprId} {base : Stamp} :
    (standalone p root base).Guarded .none where
  sure _ := rfl
  stops h h' heq hne := by
    have hold := h.old_of_confused h' heq hne
    have hm := (h.of_old hold).resolve_right And.right
    have hm' := (h'.of_old (heq ▸ hold)).resolve_right And.right
    exact absurd (hm.trans (heq.trans hm'.symm)) hne

end Likeness

section
variable {frames : List Frame} {storages : List Storage} {arena : Arena} {pool : Pool}
  {stamp : Stamp} {root : ExprId} {q : Quoted}

/-- Whatever is bound, and however deep the calls are, a quoted fragment evaluates to the same
value, error or fault, with the same contents of all cells; functions that the evaluation makes may
differ in what they capture besides the variables that the fragment declares around them. No
variable is undefined, if all functions in the pool and the heap are closed. -/
theorem eval_standalone [Tracing] (hvalid : validate arena pool root = .ok ())
    (hq : quote frames storages arena pool stamp root = .ok q) {limit : Nat}
    (hlimit : limit < UInt64.size) {heap : Heap}
    (hpool : ∀ k v, q.pool.get? k = some v → v.StampedBefore heap.nextStamp)
    (hheap : ∀ v ∈ heap.cells, v.StampedBefore heap.nextStamp) (env env' : Environment)
    (depth : Nat) :
    let p := q.program limit
    let l := Likeness.standalone p q.root heap.nextStamp
    l.Ends (.start l.base) env env' depth l.Values (p.eval q.root ⟨heap, env, depth⟩)
        (p.eval q.root ⟨heap, env', depth⟩) ∧
      ((∀ k v, q.pool.get? k = some v → v.Closed p) → (∀ v ∈ heap.cells, v.Closed p) →
        ∀ name m,
          p.eval q.root ⟨heap, env, depth⟩ ≠ .error (.error (.undefinedVariable name)) m) := by
  intro p l
  obtain ⟨t, -, hres, ht⟩ := quote_represents hvalid hq
  have hnil : (t.capture frames storages undeclared stamp).captures undeclared = [] := by
    refine captures_capture t undeclared stamp fun v hv => ?_
    obtain ⟨c, hc⟩ := hres v hv
    rw [cellOf_eq_some_iff.2 hc]
    rfl
  have hlawful : l.Lawful := Likeness.standalone_lawful hpool
  have hroot : l.node undeclared q.root q.root := ⟨rfl, .inr ⟨.root, _, _, ht, hnil⟩⟩
  have hshared : Shared l.frames l.storages undeclared env.lookup env'.lookup :=
    ⟨nofun, nofun, nofun⟩
  have halike : l.Alike (.start l.base) env env' depth
      (p.evalWatched Watch.none.left (throw (.fault .endless)) p.levels q.root)
      (p.evalWatched Watch.none.right (throw (.fault .endless)) p.levels q.root) l.Values :=
    hlawful.evaluate Likeness.standalone_guarded hlimit (fun _ => rfl)
      (fun h => absurd trivial h) p.levels hroot hshared
  rw [Watch.none, p.evalWatched_none] at halike
  refine ⟨?_, fun hp hh => eval_defined hlimit hp (ht.closed hnil) nofun hh⟩
  exact halike _ (.refl _) heap heap
    (.start rfl fun v hv => ⟨hheap v hv, fun f _ => ⟨rfl, .inl fun _ => rfl⟩, fun _ _ => trivial⟩)

/-- The function of nothing that answers `x`. -/
def answerX : Arena where
  nodes := #[⟨.var ⟨0⟩, ⟨3, 4⟩⟩, ⟨.lambda ⟨0, 0⟩ ⟨0⟩ none, ⟨0, 4⟩⟩]
  names := #["x"]

/-- The function that answers what cell 7 holds. -/
def answerCell : Quoted where
  root := ⟨4⟩
  arena := { answerX with
    nodes := answerX.nodes ++ #[⟨.constant ⟨0⟩, ⟨3, 4⟩⟩, ⟨.content ⟨2⟩, ⟨3, 4⟩⟩,
      ⟨.lambda ⟨0, 0⟩ ⟨3⟩ none, ⟨0, 4⟩⟩] }
  pool := ⟨#[.cell ⟨7⟩]⟩
  nextStamp := 0

/-- Where another `x` is bound, the function captures it, and is the same otherwise. -/
theorem eval_standalone_answerX :
    quote [⟨[⟨0⟩]⟩] [⟨#[⟨7⟩]⟩] answerX {} 0 ⟨1⟩ = .ok answerCell ∧
      ∃ f g m m',
        (answerCell.program defaultCallDepth).eval ⟨4⟩ ⟨{}, {}, 0⟩ = .ok (.function f) m ∧
        (answerCell.program defaultCallDepth).eval ⟨4⟩
          ⟨{}, ({} : Environment).define ⟨0⟩ ⟨3⟩, 0⟩ = .ok (.function g) m' ∧
        f.captures.find? ⟨0⟩ = none ∧ g.captures.find? ⟨0⟩ = some ⟨3⟩ ∧
        g.params = f.params ∧ g.body = f.body ∧ m'.heap.cells.size = m.heap.cells.size := by
  have hq : quote [⟨[⟨0⟩]⟩] [⟨#[⟨7⟩]⟩] answerX {} 0 ⟨1⟩ = .ok answerCell := by decide +kernel
  have hlimit : defaultCallDepth < UInt64.size := by decide
  have hpool : ∀ k v, answerCell.pool.get? k = some v →
      v.StampedBefore ({} : Heap).nextStamp := by
    intro k v hk
    obtain rfl := Array.mem_singleton.1 (Array.mem_of_getElem? hk)
    trivial
  have hheap : ∀ v ∈ ({} : Heap).cells, v.StampedBefore ({} : Heap).nextStamp :=
    fun v hv => absurd hv (Array.not_mem_empty v)
  obtain ⟨hends, -⟩ := eval_standalone rfl hq hlimit hpool hheap {}
    (({} : Environment).define ⟨0⟩ ⟨3⟩) 0
  obtain ⟨f, m, hf, hfind⟩ : ∃ f m,
      (answerCell.program defaultCallDepth).eval ⟨4⟩ ⟨{}, {}, 0⟩ = .ok (.function f) m ∧
      f.captures.find? ⟨0⟩ = none := ⟨_, _, rfl, rfl⟩
  obtain ⟨g, m', hg, hfind'⟩ : ∃ g m', (answerCell.program defaultCallDepth).eval ⟨4⟩
        ⟨{}, ({} : Environment).define ⟨0⟩ ⟨3⟩, 0⟩ = .ok (.function g) m' ∧
      g.captures.find? ⟨0⟩ = some ⟨3⟩ := ⟨_, _, rfl, rfl⟩
  rcases hends.cases with ⟨r, v, w, h, h', -, hheaps, hvalues, hv, hw⟩ |
    ⟨_, _, _, _, _, -, -, -, he, -⟩ | ⟨_, _, _, he, -⟩ | ⟨hloose, -⟩
  · obtain ⟨rfl, rfl⟩ := EStateM.Result.ok.inj (hf.symm.trans hv)
    obtain ⟨rfl, rfl⟩ := EStateM.Result.ok.inj (hg.symm.trans hw)
    cases hvalues with
    | function hfg =>
      obtain ⟨S, ⟨hbody, -⟩, -⟩ := hfg.body
      exact ⟨hq, f, g, _, _, hf, hg, hfind, hfind', hfg.params, hbody, hheaps.size⟩
  · cases hf.symm.trans he
  · cases hf.symm.trans he
  · exact absurd trivial hloose

end

end Quotation
