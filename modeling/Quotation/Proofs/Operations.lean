import Quotation.Proofs.Capture.Keeps
import Quotation.Proofs.Eval.Levels
import Quotation.Proofs.Eval.Safety

/-!
# Operations

An `Op` is whatever can be done to an arena and a pool: a variable is declared, a node or a list is
added, a fragment is built, rewritten or quoted, a constant is pushed. No operation disturbs what is
there already (`Op.run_grows`), and so no run of operations does (`Op.runAll_grows`): what could be
read is read unchanged, every answer denotes what was stored under it, and a valid fragment
evaluates as before (`Op.runAll_keeps`). The one exception is a traced call of a function whose name
was undeclared: it faults, until there are variables enough (`runAll_declares_name`).
-/

namespace Quotation

/-- An arena with its pool, and the stamp of the next list. -/
structure Store where
  arena : Arena := {}
  pool : Pool := {}
  nextStamp : Stamp := 0
  deriving DecidableEq

inductive Op where
  | declare (name : String)
  | add (kind : Kind) (span : Span)
  | addExprs (ids : List ExprId)
  | addVars (vs : List VarId)
  | addVarSet (vs : List VarId)
  | addHandlers (hs : List Handler)
  | build (form : Form)
  | respan (id : ExprId) (span : Span)
  | push (v : Value)
  | rewrite {σ : Type} (p : Pass σ) (s : σ) (root : ExprId)
  | quote (frames : List Frame) (storages : List Storage) (root : ExprId)

/-- The index or the slice that an operation answers with. -/
inductive Answer where
  | var (v : VarId)
  | expr (id : ExprId)
  | exprs (s : Slice ExprId)
  | vars (s : Slice VarId)
  | handlers (s : Slice Handler)
  | constant (c : ConstantId)
  deriving DecidableEq, Repr

abbrev StoreM := StateT Store (Except Fault)

namespace Op

/-- An operation on the arena alone. -/
def inArena {α : Type} (x : Builder α) (answer : α → Answer) : StoreM Answer := fun st => do
  let (r, arena) ← x st.arena
  return (answer r, { st with arena })

def run [Tracing] : Op → StoreM Answer
  | declare name => inArena (Builder.declare name) .var
  | add kind span => inArena (Builder.add kind span) .expr
  | addExprs ids => inArena (Builder.addExprs ids) .exprs
  | addVars vs => inArena (Builder.addVars vs) .vars
  | addVarSet vs => inArena (Builder.addVarSet vs) .vars
  | addHandlers hs => inArena (Builder.addHandlers hs) .handlers
  | build form => inArena form.build .expr
  | respan id span => inArena (Builder.respan id span) .expr
  | push v => fun st => do
    let (c, pool) ← st.pool.push v
    return (.constant c, { st with pool })
  | rewrite p s root => inArena ((p.run root).run' s) .expr
  | quote frames storages root => fun st => do
    let q ← Quotation.quote frames storages st.arena st.pool st.nextStamp root
    return (.expr q.root, ⟨q.arena, q.pool, q.nextStamp⟩)

def runAll [Tracing] (ops : List Op) : StoreM (List Answer) := ops.mapM run

/-- What was stored under the answer is found there. Rewriting and quoting store no one thing. -/
def Denotes (st : Store) : Op → Answer → Prop
  | declare name, .var v => st.arena.name? v = some name
  | add kind span, .expr id => st.arena.node? id = some ⟨kind, span⟩
  | addExprs ids, .exprs s => st.arena.exprs? s = some ids
  | addVars vs, .vars s => st.arena.vars? s = some vs
  | addVarSet vs, .vars s => st.arena.vars? s = some vs.eraseDups
  | addHandlers hs, .handlers s => st.arena.handlers? s = some hs
  | build form, .expr id => ∃ kind, st.arena.node? id = some ⟨kind, .nowhere⟩ ∧
      st.arena.form? kind = some form.stored
  | respan id span, .expr r => ∃ node, st.arena.node? id = some node ∧
      st.arena.node? r = some ⟨node.kind, span⟩
  | push v, .constant c => st.pool.get? c = some v
  | rewrite _ _ _, .expr _ | quote _ _ _, .expr _ => True
  | _, _ => False

end Op

/-! ## Growth -/

/-- `st'` is `st` after entries may have been added to its tables. -/
structure Store.Grows (st st' : Store) : Prop where
  arena : st.arena.PartOf st'.arena
  pool : st.pool.Grows st'.pool

/-- Whatever can be read in `st` is read unchanged in `st'`. A list can be read if its slice lies in
its table. -/
structure Store.Reads (st st' : Store) : Prop where
  node : ∀ id node, st.arena.node? id = some node → st'.arena.node? id = some node
  name : ∀ v name, st.arena.name? v = some name → st'.arena.name? v = some name
  constant : ∀ c v, st.pool.get? c = some v → st'.pool.get? c = some v
  exprs : ∀ s ids, st.arena.exprs? s = some ids → st'.arena.exprs? s = some ids
  vars : ∀ s vs, st.arena.vars? s = some vs → st'.arena.vars? s = some vs
  handlers : ∀ s hs, st.arena.handlers? s = some hs → st'.arena.handlers? s = some hs

namespace Store.Grows

variable {st st' st'' : Store}

theorem refl (st : Store) : st.Grows st := ⟨.refl _, .refl _⟩

theorem trans (h : st.Grows st') (h' : st'.Grows st'') : st.Grows st'' :=
  ⟨h.arena.trans h'.arena, h.pool.trans h'.pool⟩

theorem reads (h : st.Grows st') : st.Reads st' where
  node _ _ := h.arena.node?
  name _ _ := h.arena.name?
  constant _ _ := h.pool.get?
  exprs _ _ := h.arena.exprs?
  vars _ _ := h.arena.vars?
  handlers _ _ := h.arena.handlers?

end Store.Grows

theorem bind_eq_some_mono {α β : Type} {o o' : Option α} {f g : α → Option β} {y : β}
    (ho : ∀ x, o = some x → o' = some x) (hf : ∀ x, f x = some y → g x = some y)
    (h : o >>= f = some y) : o' >>= g = some y := by
  obtain ⟨x, hx, hy⟩ := Option.bind_eq_some_iff.1 h
  exact Option.bind_eq_some_iff.2 ⟨x, ho x hx, hf x hy⟩

theorem Arena.PartOf.form? {a b : Arena} (h : a.PartOf b) {kind : Kind} {form : Form}
    (hf : a.form? kind = some form) : b.form? kind = some form := by
  cases kind with
  | block locals body =>
    exact bind_eq_some_mono (fun _ => h.vars?)
      (fun _ => bind_eq_some_mono (fun _ => h.exprs?) fun _ => id) hf
  | lambda params body name => exact bind_eq_some_mono (fun _ => h.vars?) (fun _ => id) hf
  | call callee args => exact bind_eq_some_mono (fun _ => h.exprs?) (fun _ => id) hf
  | attempt body handlers => exact bind_eq_some_mono (fun _ => h.handlers?) (fun _ => id) hf
  | cellList vars => exact bind_eq_some_mono (fun _ => h.vars?) (fun _ => id) hf
  | _ => exact hf

theorem Op.Denotes.grows {st st' : Store} {op : Op} {answer : Answer}
    (h : op.Denotes st answer) (hst : st.Grows st') : op.Denotes st' answer := by
  cases op with
  | declare name => cases answer with
    | var v => exact hst.arena.name? h
    | _ => exact h
  | add kind span => cases answer with
    | expr id => exact hst.arena.node? h
    | _ => exact h
  | addExprs ids => cases answer with
    | exprs s => exact hst.arena.exprs? h
    | _ => exact h
  | addVars vs | addVarSet vs => cases answer with
    | vars s => exact hst.arena.vars? h
    | _ => exact h
  | addHandlers hs => cases answer with
    | handlers s => exact hst.arena.handlers? h
    | _ => exact h
  | build form => cases answer with
    | expr id =>
      obtain ⟨kind, hnode, hform⟩ := h
      exact ⟨kind, hst.arena.node? hnode, hst.arena.form? hform⟩
    | _ => exact h
  | respan id span => cases answer with
    | expr r =>
      obtain ⟨node, hnode, hr⟩ := h
      exact ⟨node, hst.arena.node? hnode, hst.arena.node? hr⟩
    | _ => exact h
  | push v => cases answer with
    | constant c => exact hst.pool.get? h
    | _ => exact h
  | rewrite | quote => cases answer <;> exact h

/-! ## One operation -/

namespace Op

/-- If the operation rewrites, then by a pass that only adds to the arena. -/
def Adds : Op → Prop
  | rewrite p _ _ => p.Adds
  | _ => True

section
variable {st st' : Store} {r : Answer}

theorem inArena_ok {α : Type} {x : Builder α} {f : α → Answer}
    (h : inArena x f st = .ok (r, st')) :
    ∃ v, x st.arena = .ok (v, st'.arena) ∧ r = f v ∧ st'.pool = st.pool := by
  obtain ⟨⟨v, a⟩, hv, hr⟩ := except_bind_eq_ok.1 h
  obtain ⟨rfl, rfl⟩ := Prod.mk.inj (Except.ok.inj hr)
  exact ⟨v, hv, rfl, rfl⟩

theorem push_ok [Tracing] {v : Value} (h : (push v).run st = .ok (r, st')) :
    ∃ c, st.pool.push v = .ok (c, st'.pool) ∧ r = .constant c ∧ st'.arena = st.arena := by
  obtain ⟨⟨c, pool⟩, hv, hr⟩ := except_bind_eq_ok.1 h
  obtain ⟨rfl, rfl⟩ := Prod.mk.inj (Except.ok.inj hr)
  exact ⟨c, hv, rfl, rfl⟩

theorem quote_ok [Tracing] {frames : List Frame} {storages : List Storage} {root : ExprId}
    (h : (quote frames storages root).run st = .ok (r, st')) :
    ∃ q, Quotation.quote frames storages st.arena st.pool st.nextStamp root = .ok q ∧
      r = .expr q.root ∧ st' = ⟨q.arena, q.pool, q.nextStamp⟩ := by
  obtain ⟨q, hq, hr⟩ := except_bind_eq_ok.1 h
  obtain ⟨rfl, rfl⟩ := Prod.mk.inj (Except.ok.inj hr)
  exact ⟨q, hq, rfl, rfl⟩

end

theorem run'_ok {σ α : Type} {x : PassM σ α} {s : σ} {a a' : Arena} {r : α}
    (h : x.run' s a = .ok (r, a')) : ∃ s', x s a = .ok ((r, s'), a') := by
  rw [StateT.run', map_eq_pure_bind, bind_eq_ok] at h
  obtain ⟨⟨r', s'⟩, a₁, hx, h⟩ := h
  obtain ⟨rfl, rfl⟩ := Prod.mk.inj (Except.ok.inj h)
  exact ⟨s', hx⟩

theorem inArena_grows {α : Type} {x : Builder α} {f : α → Answer} {P : Arena → α → Prop}
    {st st' : Store} {r : Answer} (h : inArena x f st = .ok (r, st'))
    (hx : ∀ v a, x st.arena = .ok (v, a) → st.arena.PartOf a ∧ P a v) :
    st.Grows st' ∧ ∃ v, r = f v ∧ P st'.arena v := by
  obtain ⟨v, hv, hr, hpool⟩ := inArena_ok h
  obtain ⟨hpart, hP⟩ := hx v st'.arena hv
  exact ⟨⟨hpart, hpool ▸ .refl _⟩, v, hr, hP⟩

/-- An operation leaves what is there as it is, and its answer denotes what it has stored. -/
theorem run_grows [Tracing] {op : Op} (hop : op.Adds) {st st' : Store} {answer : Answer}
    (h : op.run st = .ok (answer, st')) : st.Grows st' ∧ op.Denotes st' answer := by
  cases op with
  | declare name =>
    obtain ⟨hst, v, rfl, hv⟩ := inArena_grows h fun v a hv =>
      (Builder.declare_ok hv).symm.imp_left Arena.BuildsTo.partOf
    exact ⟨hst, hv⟩
  | add kind span =>
    obtain ⟨hst, id, rfl, hid⟩ := inArena_grows h fun id a hid =>
      (Builder.add_ok hid).imp_right And.left
    exact ⟨hst, hid⟩
  | addExprs ids =>
    obtain ⟨hst, s, rfl, hs⟩ := inArena_grows h fun s a hs =>
      (Builder.addExprs_ok hs).imp_right And.left
    exact ⟨hst, hs⟩
  | addVars vs | addVarSet vs =>
    obtain ⟨hst, s, rfl, hs⟩ := inArena_grows h fun s a hs =>
      (Builder.addVars_ok hs).symm.imp_left Arena.BuildsTo.partOf
    exact ⟨hst, hs⟩
  | addHandlers hs =>
    obtain ⟨hst, s, rfl, hs⟩ := inArena_grows h fun s a hs =>
      (Builder.addHandlers_ok hs).imp_right And.left
    exact ⟨hst, hs⟩
  | build form =>
    obtain ⟨hst, id, rfl, hid⟩ := inArena_grows h fun id a hid =>
      (Form.build_ok hid).imp_right And.left
    exact ⟨hst, hid⟩
  | respan id span =>
    have hcopies : ∀ r a, Builder.respan id span st.arena = .ok (r, a) → st.arena.PartOf a ∧
        ∃ node, a.node? id = some node ∧ a.node? r = some ⟨node.kind, span⟩ := fun r a hr =>
      have ⟨hpart, ⟨node, hnode, hcopy⟩, _⟩ := Builder.respan_ok hr
      ⟨hpart, node, hpart.node? hnode, hcopy⟩
    obtain ⟨hst, r, rfl, hr⟩ := inArena_grows h hcopies
    exact ⟨hst, hr⟩
  | push v =>
    obtain ⟨c, hv, rfl, harena⟩ := push_ok h
    obtain ⟨hpool, hc⟩ := Pool.push_ok hv
    exact ⟨⟨harena ▸ .refl _, hpool⟩, hc⟩
  | rewrite p s root =>
    have hadds : ∀ r a, (p.run root).run' s st.arena = .ok (r, a) → st.arena.PartOf a ∧ True :=
      fun r a hr =>
        have ⟨s', hrun⟩ := run'_ok hr
        ⟨Pass.Adds.run hop root s _ r s' a hrun, trivial⟩
    obtain ⟨hst, r, rfl, -⟩ := inArena_grows h hadds
    exact ⟨hst, trivial⟩
  | quote frames storages root =>
    obtain ⟨q, hq, rfl, rfl⟩ := quote_ok h
    obtain ⟨harena, hpool⟩ := quote_grows hq
    exact ⟨⟨harena, hpool⟩, trivial⟩

/-! ## Runs of operations -/

/-- What an operation has stored stays where it is while the others are done. -/
theorem runAll_grows [Tracing] {ops : List Op} (hops : ∀ op ∈ ops, op.Adds) {st st' : Store}
    {answers : List Answer} (h : runAll ops st = .ok (answers, st')) :
    st.Grows st' ∧ List.Forall₂ (fun op answer => op.Denotes st' answer) ops answers := by
  induction ops generalizing st answers with
  | nil =>
    obtain ⟨rfl, rfl⟩ := Prod.mk.inj (Except.ok.inj h)
    exact ⟨.refl st, .nil⟩
  | cons op ops ih =>
    obtain ⟨hop, hops⟩ := List.forall_mem_cons.1 hops
    rw [runAll, List.mapM_cons] at h
    obtain ⟨answer, st₁, hrun, h⟩ := bind_eq_ok.1 h
    obtain ⟨rest, st₂, hrest, h⟩ := bind_eq_ok.1 h
    obtain ⟨rfl, rfl⟩ := Prod.mk.inj (Except.ok.inj h)
    obtain ⟨hgrows₁, hdenotes⟩ := run_grows hop hrun
    obtain ⟨hgrows₂, hall⟩ := ih hops hrest
    exact ⟨hgrows₁.trans hgrows₂, .cons (hdenotes.grows hgrows₂) hall⟩

end Op

/-! ## Evaluation -/

/-- The store as a program. -/
def Store.program [Tracing] (st : Store) (maxCallDepth : Nat) : Program :=
  ⟨st.arena, st.pool, maxCallDepth⟩

/-- A valid fragment does not look at what has been added, unless a trace does for a name. -/
theorem Store.Grows.eval_eq [Tracing] {st st' : Store} (h : st.Grows st') {limit : Nat}
    (hlimit : limit < UInt64.size) (hp : (st.program limit).Valid) {root : ExprId}
    (hroot : validate st.arena st.pool root = .ok ()) {m : Machine}
    (hheap : ∀ v ∈ m.heap.cells, v.Valid st.arena st.pool) :
    (st'.program limit).eval root m = (st.program limit).eval root m ∨
      Tracing.calls = true ∧ ¬(st.program limit).NamesDeclared m.heap root ∧
        ∃ m', (st.program limit).eval root m = .error (.fault .outOfBounds) m' := by
  have hreads : (st.program limit).ReadIn (fun _ => True) (st'.program limit) :=
    ⟨⟨h.arena, h.pool, rfl, id⟩, .inl trivial⟩
  have hlevels : (st.program limit).levels ≤ (st'.program limit).levels :=
    Nat.add_le_add_right (Nat.mul_le_mul_left _ h.arena.size_le) _
  rcases hreads.evalWithin_agrees trivial hlevels root m with ⟨f, m', hf, -⟩ | heq
  · obtain ⟨htraced, hnames, rfl⟩ := traced_of_eval_fault hlimit hp hroot hheap hf
    exact .inr ⟨htraced, hnames, m', hf⟩
  · exact .inl heq

/-- Growth never disturbs what exists. After any run of operations everything that could be read is
read unchanged, every answer denotes what was stored under it, and whatever was valid evaluates to
the same end, from every machine; unless calls are traced and it faulted before, at a function whose
name was undeclared. -/
theorem Op.runAll_keeps [Tracing] {ops : List Op} (hops : ∀ op ∈ ops, op.Adds) {st st' : Store}
    {answers : List Answer} (h : runAll ops st = .ok (answers, st')) :
    st.Reads st' ∧ List.Forall₂ (fun op answer => op.Denotes st' answer) ops answers ∧
      ∀ limit < UInt64.size, (st.program limit).Valid →
        ∀ root, validate st.arena st.pool root = .ok () →
          ∀ m : Machine, (∀ v ∈ m.heap.cells, v.Valid st.arena st.pool) →
            (st'.program limit).eval root m = (st.program limit).eval root m ∨
              Tracing.calls = true ∧ ¬(st.program limit).NamesDeclared m.heap root ∧
                ∃ m', (st.program limit).eval root m = .error (.fault .outOfBounds) m' := by
  obtain ⟨hgrows, hdenotes⟩ := runAll_grows hops h
  exact ⟨hgrows.reads, hdenotes, fun limit hlimit hp root hroot m hheap =>
    hgrows.eval_eq hlimit hp hroot hheap⟩

/-- The call of a function is built into another one, and rewritten without its variable; the body
of the function is quoted. -/
def functionOps : List Op := [
  .declare "y",
  .push (.cell ⟨0⟩),
  .addVarSet [⟨1⟩, ⟨0⟩, ⟨1⟩],
  .build (.call ⟨1⟩ [⟨3⟩]),
  .rewrite (Rules.erase ⟨0⟩).toPass () ⟨3⟩,
  .quote [⟨[⟨0⟩]⟩] [⟨#[⟨0⟩]⟩] ⟨0⟩]

def functionStore : Store := ⟨functionCall.arena, functionCall.pool, 1⟩

/-- The heap of the call holds the same function as the pool. -/
def functionHeap : Heap := ⟨#[.function ⟨0, none, [⟨0⟩], ⟨0⟩, {}⟩], 1⟩

/-- Traced, what has been stored is found, and the call evaluates as before. -/
theorem runAll_keeps_functionOps :
    ∃ st, @Op.runAll .on functionOps functionStore =
        .ok ([.var ⟨1⟩, .constant ⟨1⟩, .vars ⟨1, 2⟩, .expr ⟨4⟩, .expr ⟨7⟩, .expr ⟨9⟩], st) ∧
      st.arena.name? ⟨0⟩ = some "x" ∧ st.arena.name? ⟨1⟩ = some "y" ∧
      st.pool.get? ⟨1⟩ = some (.cell ⟨0⟩) ∧ st.arena.vars? ⟨1, 2⟩ = some [⟨1⟩, ⟨0⟩] ∧
      Program.eval { st.program defaultCallDepth with tracing := .on } ⟨3⟩ (.start functionHeap) =
        Program.eval { functionCall with tracing := .on } ⟨3⟩ (.start functionHeap) := by
  have hops : ∀ op ∈ functionOps, op.Adds := by
    simp [functionOps, Op.Adds, Rules.adds]
  have hp : (functionStore.program defaultCallDepth).Valid := by
    intro k v hk
    obtain rfl := Array.mem_singleton.1 (Array.mem_of_getElem? hk)
    rfl
  have hheap : ∀ v ∈ functionHeap.cells, v.Valid functionStore.arena functionStore.pool := by
    intro v hv
    obtain rfl := Array.mem_singleton.1 hv
    rfl
  have hanswers : (@Op.runAll .on functionOps functionStore).map Prod.fst =
      .ok [.var ⟨1⟩, .constant ⟨1⟩, .vars ⟨1, 2⟩, .expr ⟨4⟩, .expr ⟨7⟩, .expr ⟨9⟩] := by
    decide +kernel
  obtain ⟨⟨answers, st⟩, hrun, rfl⟩ := except_map_eq_ok.1 hanswers
  obtain ⟨hreads, hdenotes, heval⟩ := @Op.runAll_keeps .on _ hops _ _ _ hrun
  obtain ⟨hy, hdenotes⟩ := List.forall₂_cons.1 hdenotes
  obtain ⟨hcell, hdenotes⟩ := List.forall₂_cons.1 hdenotes
  obtain ⟨hvars, -⟩ := List.forall₂_cons.1 hdenotes
  refine ⟨st, hrun, hreads.name ⟨0⟩ "x" rfl, hy, hcell, hvars, ?_⟩
  obtain ⟨v, m, hv⟩ : ∃ v m, Program.eval { functionCall with tracing := .on } ⟨3⟩
      (.start functionHeap) = .ok v m := ⟨_, _, rfl⟩
  rcases heval defaultCallDepth (by decide) hp ⟨3⟩ rfl (.start functionHeap) hheap with
    hsame | ⟨-, -, m', hfault⟩
  · exact hsame
  · cases hv.symm.trans hfault

/-- A valid call that faults if it is traced does not any more once eight variables are declared. -/
theorem runAll_declares_name :
    validate undeclaredCall.arena {} ⟨2⟩ = .ok () ∧
      (∃ m, undeclaredCall.eval ⟨2⟩ (.start {}) = .error (.fault .outOfBounds) m) ∧
      ∃ answers st,
        @Op.runAll .on (List.replicate 8 (.declare "x")) ⟨undeclaredCall.arena, {}, 0⟩ =
          .ok (answers, st) ∧
        ∃ m, Program.eval { st.program defaultCallDepth with tracing := .on } ⟨2⟩ (.start {}) =
          .ok .unit m := by
  let st : Store := ⟨{ undeclaredCall.arena with names := Array.replicate 8 "x" }, {}, 0⟩
  have hrun : @Op.runAll .on (List.replicate 8 (.declare "x")) ⟨undeclaredCall.arena, {}, 0⟩ =
      .ok ((List.range 8).map fun i => .var ⟨i⟩, st) := by decide +kernel
  exact ⟨rfl, ⟨_, rfl⟩, _, st, hrun, _, rfl⟩

end Quotation
