import Quotation.Proofs.Eval.Restore
import Quotation.Proofs.MergedList

/-!
# Evaluations in lockstep

Two evaluations of a fragment are compared that start from different heaps, or that differ in how
they call functions past the limit. A `Lockstep` fixes the cells and the nodes that the evaluations
can come to: the two heaps agree on the cells, and all values that are met hold no other cells and
no functions over other nodes. `InStep` says that both evaluations end in the same way, that the
heaps still agree, and that the cells outside have not been touched; or that the left one has run
into the limit, with an error that nothing takes. The rules are the steps of the interpreter, and
they are put together in `kindCalling_inStep`, one case for each kind of node, and in
`evalWithin_inStep` for all levels.
-/

namespace Quotation

open EvalM

/-! ## Ways to call -/

/-- Evaluates a node of a kind, with `call` for the calls of functions. -/
def kindCalling (call : (ExprId → EvalM Value) → Closure → List Value → EvalM Value) (p : Program)
    (ev : ExprId → EvalM Value) : Kind → EvalM Value
  | .call callee args => do
    let callee ← ev callee
    let args ← (← require (p.arena.exprs? args)).mapM ev
    match callee with
    | .function f => call ev f args
    | _ => callValue p ev callee args
  | kind => evalKind p ev kind

/-- The limit is read in calls only. -/
theorem kindCalling_limit (p : Program) (limit : Nat) :
    kindCalling (callFunction { p with maxCallDepth := limit }) p =
      evalKind { p with maxCallDepth := limit } := by
  funext ev kind
  cases kind with
  | call callee args =>
    rw [kindCalling, evalKind]
    congr 1
    funext callee
    congr 1
    funext ids
    congr 1
    funext args
    cases callee <;> rfl
  | _ => rfl

theorem evalWithin_limit (p : Program) (limit levels : Nat) :
    Program.evalWithin { p with maxCallDepth := limit } levels =
      p.evalBy (kindCalling (callFunction { p with maxCallDepth := limit }) p) levels := by
  rw [Program.evalWithin_eq_evalBy, kindCalling_limit]
  induction levels with
  | zero => rfl
  | succ levels ih =>
    funext id
    rw [Program.evalBy, Program.evalBy, ih]

/-! ## Regions -/

/-- The value holds no cells but these, and no function over another node. -/
def Value.Within (cells : Cell → Prop) (nodes : ExprId → Prop) : Value → Prop
  | .function f => nodes f.body ∧ ∀ v c, f.captures.find? v = some c → cells c
  | .cell c => cells c
  | .cellList l => ∀ c ∈ l.leaves, cells c
  | _ => True

/-- The node refers to the constant. -/
def Program.Names (p : Program) (id : ExprId) (v : Value) : Prop :=
  ∃ node k, p.arena.node? id = some node ∧ node.kind = .constant k ∧ p.pool.get? k = some v

/-- The cells and the nodes that two evaluations come to, the heaps that they start from, and how
the right one calls functions. -/
structure Lockstep (p : Program) where
  cells : Cell → Prop
  nodes : ExprId → Prop
  left : Heap
  right : Heap
  /-- Both sides do the same at the limit, too. -/
  exact : Prop
  call : (ExprId → EvalM Value) → Closure → List Value → EvalM Value
  child {id c : ExprId} : nodes id → p.arena.Child id c → nodes c
  constant {id : ExprId} {v : Value} : nodes id → p.Names id v → v.Within cells nodes
  fresh {c : Cell} : left.cells.size ≤ c.index → cells c
  call_eq (ev : ExprId → EvalM Value) (f : Closure) (args : List Value) (m : Machine) :
    exact ∨ args.length ≠ f.params.length ∨ m.callDepth < p.maxCallDepth →
      call ev f args m = callFunction p ev f args m

namespace Lockstep

section
variable {p : Program} (l : Lockstep p)

abbrev Within (v : Value) : Prop := v.Within l.cells l.nodes

/-- The visible variables are bound to cells of the region. -/
def Sees (env : Environment) : Prop :=
  ∀ v c, env.lookup v = some c → l.cells c

/-- The heaps agree on the region, and hold elsewhere what they held at first. -/
structure Heaps (h h' : Heap) : Prop where
  size : h'.cells.size = h.cells.size
  stamp : h'.nextStamp = h.nextStamp
  grown : l.left.cells.size ≤ h.cells.size
  inside : ∀ c, l.cells c → h'.read c = h.read c ∧ l.Within (h.read c)
  outside : ∀ c, ¬l.cells c → h.read c = l.left.read c ∧ h'.read c = l.right.read c

/-- An error that both sides may end in. -/
def Error : EvalError → Prop
  | .thrown v => l.Within v
  | .callDepthExceeded _ => l.exact
  | _ => True

/-- Both sides end in the same way, or the left one at the limit. -/
inductive Ends (env : Environment) (depth : Nat) {α : Type} (post : α → Prop) :
    EStateM.Result Stop Machine α → EStateM.Result Stop Machine α → Prop where
  | ok {v : α} {h h' : Heap} (heaps : l.Heaps h h') (value : post v) :
    Ends env depth post (.ok v ⟨h, env, depth⟩) (.ok v ⟨h', env, depth⟩)
  | error {e : EvalError} {h h' : Heap} (heaps : l.Heaps h h') (error : l.Error e) :
    Ends env depth post (.error (.error e) ⟨h, env, depth⟩) (.error (.error e) ⟨h', env, depth⟩)
  | fault {f : Fault} {h h' : Heap} {env' : Environment} {depth' : Nat} (heaps : l.Heaps h h') :
    Ends env depth post (.error (.fault f) ⟨h, env', depth'⟩)
      (.error (.fault f) ⟨h', env', depth'⟩)
  | limit {h : Heap} {result : EStateM.Result Stop Machine α} (loose : ¬l.exact) :
    Ends env depth post
      (.error (.error (.callDepthExceeded p.maxCallDepth)) ⟨h, env, depth⟩) result

/-- From heaps that agree, in this environment, so many calls deep, `x` and `y` end alike. -/
def InStep {α : Type} (env : Environment) (depth : Nat) (x y : EvalM α) (post : α → Prop) : Prop :=
  ∀ h h', l.Heaps h h' → l.Ends env depth post (x ⟨h, env, depth⟩) (y ⟨h', env, depth⟩)

/-- The nodes of the region are evaluated alike wherever its cells are seen. -/
def Evaluate (ev ev' : ExprId → EvalM Value) : Prop :=
  ∀ {env : Environment} {depth : Nat} {id : ExprId}, l.nodes id → l.Sees env →
    l.InStep env depth (ev id) (ev' id) l.Within

end

section
variable {p : Program} {l : Lockstep p} {env : Environment} {depth : Nat} {α β : Type}
  {post : α → Prop} {post' : β → Prop}

/-! ## Heaps and environments -/

namespace Heaps

variable {h h' : Heap} (hh : l.Heaps h h')
include hh

theorem write {c : Cell} (hc : l.cells c) {v : Value} (hv : l.Within v) :
    l.Heaps (h.write c v) (h'.write c v) where
  size := by simpa [Heap.write] using hh.size
  stamp := hh.stamp
  grown := by simpa [Heap.write] using hh.grown
  inside d hd := by
    rw [Heap.read_write_eq, Heap.read_write_eq, hh.size]
    split
    · exact ⟨rfl, hv⟩
    · exact hh.inside d hd
  outside d hd := by
    have hne : ∀ n, ¬(c = d ∧ c.index < n) := fun n hcd => hd (hcd.1 ▸ hc)
    rw [Heap.read_write_eq, Heap.read_write_eq, if_neg (hne _), if_neg (hne _)]
    exact hh.outside d hd

theorem append {vs : List Value} (hvs : ∀ v ∈ vs, l.Within v) :
    l.Heaps { h with cells := h.cells ++ vs } { h' with cells := h'.cells ++ vs } where
  size := by simp [append_list_eq, hh.size]
  stamp := hh.stamp
  grown := by
    have hgrown := hh.grown
    simp only [append_list_eq, Array.size_append]
    omega
  inside d hd := by
    rw [Heap.read_append, Heap.read_append, hh.size]
    split
    · exact hh.inside d hd
    · refine ⟨rfl, ?_⟩
      cases hv : vs[d.index - h.cells.size]? with
      | none => trivial
      | some v => exact hvs v (List.mem_of_getElem? hv)
  outside d hd := by
    have hold : d.index < h.cells.size :=
      Nat.lt_of_lt_of_le (Nat.lt_of_not_le fun hle => hd (l.fresh hle)) hh.grown
    rw [Heap.read_append, Heap.read_append, hh.size, if_pos hold, if_pos hold]
    exact hh.outside d hd

theorem stamped : l.Heaps { h with nextStamp := h.nextStamp + 1 }
    { h' with nextStamp := h'.nextStamp + 1 } :=
  ⟨hh.size, congrArg (· + 1) hh.stamp, hh.grown, hh.inside, hh.outside⟩

end Heaps

theorem boundFrom_le {next : Nat} {vs : List VarId} {v : VarId} {c : Cell}
    (h : Environment.boundFrom next vs v = some c) : next ≤ c.index := by
  induction vs generalizing next with
  | nil => cases h
  | cons w vs ih =>
    rw [Environment.boundFrom, Option.or_eq_some_iff] at h
    rcases h with h | ⟨-, h⟩
    · exact Nat.le_of_succ_le (ih h)
    · split at h
      · obtain rfl := Option.some.inj h
        exact Nat.le_refl _
      · cases h

/-- New cells are in the region. -/
theorem Sees.bindFrom (hsees : l.Sees env) {next : Nat} (hnext : l.left.cells.size ≤ next)
    (vs : List VarId) : l.Sees (env.bindFrom next vs) := by
  intro v c hc
  rw [Environment.lookup_bindFrom, Option.or_eq_some_iff] at hc
  rcases hc with hc | ⟨-, hc⟩
  · exact l.fresh (Nat.le_trans hnext (boundFrom_le hc))
  · exact hsees v c hc

theorem below {id : ExprId} {node : Node} (hid : l.nodes id) (hnode : p.arena.node? id = some node)
    (S : VarId → Bool) : Promise.anything.Fits p (fun _ => l.nodes) S node.kind :=
  Promise.fits_of_children trivial trivial (fun _ hc => l.child hid ⟨node, hnode, hc⟩)
    fun _ _ _ => trivial

namespace Ends

variable {a b : EStateM.Result Stop Machine α}

theorem cases (h : l.Ends env depth post a b) :
    (∃ v h h', l.Heaps h h' ∧ post v ∧ a = .ok v ⟨h, env, depth⟩ ∧ b = .ok v ⟨h', env, depth⟩) ∨
    (∃ e h h', l.Heaps h h' ∧ l.Error e ∧ a = .error (.error e) ⟨h, env, depth⟩ ∧
      b = .error (.error e) ⟨h', env, depth⟩) ∨
    (∃ f h h' env' depth', l.Heaps h h' ∧ a = .error (.fault f) ⟨h, env', depth'⟩ ∧
      b = .error (.fault f) ⟨h', env', depth'⟩) ∨
    ∃ h, ¬l.exact ∧ a = .error (.error (.callDepthExceeded p.maxCallDepth)) ⟨h, env, depth⟩ := by
  cases h with
  | ok heaps value => exact .inl ⟨_, _, _, heaps, value, rfl, rfl⟩
  | error heaps error => exact .inr (.inl ⟨_, _, _, heaps, error, rfl, rfl⟩)
  | fault heaps => exact .inr (.inr (.inl ⟨_, _, _, _, _, heaps, rfl, rfl⟩))
  | limit loose => exact .inr (.inr (.inr ⟨_, loose, rfl⟩))

/-- What comes back to an environment on both sides, after it has stayed in another, ends alike. -/
theorem back {env₁ : Environment} {depth₁ : Nat} {a₁ b₁ : EStateM.Result Stop Machine α}
    (h : l.Ends env₁ depth₁ post a₁ b₁)
    (ha : StaysIn env₁ depth₁ a₁ → a = backIn env depth a₁)
    (hb : StaysIn env₁ depth₁ b₁ → b = backIn env depth b₁) : l.Ends env depth post a b := by
  cases h with
  | ok heaps value =>
    rw [ha ⟨rfl, rfl⟩, hb ⟨rfl, rfl⟩]
    exact .ok heaps value
  | error heaps error =>
    rw [ha ⟨rfl, rfl⟩, hb ⟨rfl, rfl⟩]
    exact .error heaps error
  | fault heaps =>
    rw [ha trivial, hb trivial]
    exact .fault heaps
  | limit loose =>
    rw [ha ⟨rfl, rfl⟩]
    exact .limit loose

end Ends

/-! ## Rules -/

namespace InStep

theorem pure {v : α} (hv : post v) : l.InStep env depth (pure v) (pure v) post :=
  fun _ _ hh => .ok hh hv

theorem fail {e : EvalError} (he : l.Error e) : l.InStep env depth (fail e) (fail e) post :=
  fun _ _ hh => .error hh he

theorem fault (f : Fault) : l.InStep env depth (throw (.fault f)) (throw (.fault f)) post :=
  fun _ _ hh => .fault hh

theorem bind {x y : EvalM α} {f g : α → EvalM β} (hx : l.InStep env depth x y post)
    (hf : ∀ v, post v → l.InStep env depth (f v) (g v) post') :
    l.InStep env depth (x >>= f) (y >>= g) post' := by
  intro h h' hh
  rcases (hx h h' hh).cases with ⟨v, h₁, h₁', hh₁, hv, hx, hy⟩ | ⟨e, h₁, h₁', hh₁, he, hx, hy⟩ |
    ⟨f, h₁, h₁', env', depth', hh₁, hx, hy⟩ | ⟨h₁, loose, hx⟩
  · rw [bind_ok hx, bind_ok hy]
    exact hf v hv h₁ h₁' hh₁
  · rw [bind_error hx, bind_error hy]
    exact .error hh₁ he
  · rw [bind_error hx, bind_error hy]
    exact .fault hh₁
  · rw [bind_error hx]
    exact .limit loose

/-- What is read is the same on both sides. -/
theorem require {o : Option α} (ho : ∀ v, o = some v → post v) :
    l.InStep env depth (EvalM.require o) (EvalM.require o) post := by
  cases o with
  | some v => exact .pure (ho v rfl)
  | none => exact .fault _

theorem read {c : Cell} (hc : l.cells c) :
    l.InStep env depth (readCell c) (readCell c) l.Within := by
  intro h h' hh
  obtain ⟨hread, hwithin⟩ := hh.inside c hc
  show l.Ends env depth l.Within (.ok (h.read c) ⟨h, env, depth⟩) (.ok (h'.read c) ⟨h', env, depth⟩)
  rw [hread]
  exact .ok hh hwithin

theorem write {c : Cell} (hc : l.cells c) {v : Value} (hv : l.Within v) :
    l.InStep env depth (writeCell c v) (writeCell c v) fun _ => True :=
  fun _ _ hh => .ok (hh.write hc hv) trivial

theorem stamp : l.InStep env depth newStamp newStamp fun _ => True := by
  intro h h' hh
  show l.Ends env depth _ (.ok h.nextStamp ⟨{ h with nextStamp := h.nextStamp + 1 }, env, depth⟩)
    (.ok h'.nextStamp ⟨{ h' with nextStamp := h'.nextStamp + 1 }, env, depth⟩)
  have hstamped := hh.stamped
  rw [hh.stamp] at hstamped ⊢
  exact .ok hstamped trivial

theorem mapM {f g : α → EvalM β} {xs : List α}
    (hf : ∀ x ∈ xs, l.InStep env depth (f x) (g x) post') :
    l.InStep env depth (xs.mapM f) (xs.mapM g) fun ys => ∀ y ∈ ys, post' y := by
  induction xs with
  | nil => exact .pure (by simp)
  | cons x xs ih =>
    rw [List.mapM_cons, List.mapM_cons]
    refine .bind (hf x List.mem_cons_self) fun y hy => ?_
    refine .bind (ih fun z hz => hf z (List.mem_cons_of_mem x hz)) fun ys hys => ?_
    exact .pure (List.forall_mem_cons.2 ⟨hy, hys⟩)

/-- A scope gives its variables the same new cells on both sides. -/
theorem scope {ι : Type} (var : ι → VarId) {val : ι → Value} {xs : List ι} {x y : EvalM α}
    (hsees : l.Sees env) (hval : ∀ i, l.Within (val i))
    (hx : ∀ env', l.Sees env' → l.InStep env' depth x y post) :
    l.InStep env depth (withScope do xs.forM fun i => define (var i) (val i); x)
      (withScope do xs.forM fun i => define (var i) (val i); y) post := by
  intro h h' hh
  have hpush : l.Sees env.push := hsees
  have hsees' := hpush.bindFrom hh.grown (xs.map var)
  have hvals : ∀ v ∈ xs.map val, l.Within v := List.forall_mem_map.2 fun i _ => hval i
  refine (hx _ hsees' _ _ (hh.append hvals)).back (fun hstays => ?_) fun hstays => ?_
  · exact withScope_define h env depth var val xs hstays
  · rw [← hh.size] at hstays ⊢
    exact withScope_define h' env depth var val xs hstays

/-- Functions of the region are called alike, or the left call is past the limit. -/
theorem call (hlimit : p.maxCallDepth < UInt64.size) {ev ev' : ExprId → EvalM Value}
    (hev : l.Evaluate ev ev') {f : Closure} (hf : l.Within (.function f)) {args : List Value}
    (hargs : ∀ v ∈ args, l.Within v) :
    l.InStep env depth (callFunction p ev f args) (l.call ev' f args) l.Within := by
  intro h h' hh
  by_cases hlen : args.length = f.params.length
  · by_cases hdepth : depth < p.maxCallDepth
    · have hsees : l.Sees (Environment.ofCaptures f.captures).push := by
        intro v c hc
        rw [Environment.lookup_push, Environment.lookup_ofCaptures] at hc
        exact hf.2 v c hc
      have hbody : l.InStep (f.bodyEnv h.cells.size) (depth + 1) (ev f.body) (ev' f.body)
          l.Within :=
        hev hf.1 (hsees.bindFrom hh.grown f.params)
      rw [l.call_eq ev' f args ⟨h', env, depth⟩ (.inr (.inr hdepth))]
      cases hname : p.tracedName? f with
      | none =>
        rw [callFunction_undeclared h env depth ev hlen hdepth hname,
          callFunction_undeclared h' env depth ev' hlen hdepth hname]
        exact .fault hh
      | some shown =>
        have hshown : (p.tracedName? f).isSome := hname ▸ rfl
        refine (hbody _ _ (hh.append hargs)).back (fun hstays => ?_) fun hstays => ?_
        · exact callFunction_eq h env depth hlimit ev hlen hdepth hshown hstays
        · rw [← hh.size] at hstays ⊢
          exact callFunction_eq h' env depth hlimit ev' hlen hdepth hshown hstays
    · have hdeep := Nat.le_of_not_lt hdepth
      rw [callFunction_deep h env depth ev hlen hdeep]
      by_cases hexact : l.exact
      · rw [l.call_eq ev' f args ⟨h', env, depth⟩ (.inl hexact),
          callFunction_deep h' env depth ev' hlen hdeep]
        exact .error hh hexact
      · exact .limit hexact
  · rw [l.call_eq ev' f args ⟨h', env, depth⟩ (.inr (.inl hlen)), callFunction_arity ev hlen,
      callFunction_arity ev' hlen]
    exact .error hh trivial

end InStep

/-! ## Nodes -/

theorem lookup_inStep (hsees : l.Sees env) (v : VarId) :
    l.InStep env depth (lookup p v) (lookup p v) l.cells := by
  intro h h' hh
  cases hc : env.lookup v with
  | some c =>
    rw [lookup_eq hc, lookup_eq hc]
    exact .ok hh (hsees v c hc)
  | none =>
    rw [lookup_eq_of_none hc, lookup_eq_of_none hc]
    exact InStep.bind (.require fun _ h => h)
      (fun name _ => .fail (e := .undefinedVariable name) trivial) h h' hh

theorem arithmetic_inStep (op : BinaryOp) (n : Int) :
    l.InStep env depth (ofExcept (op.arithmetic n)) (ofExcept (op.arithmetic n)) l.Within := by
  rw [BinaryOp.arithmetic]
  cases word? n with
  | some w => exact .pure trivial
  | none => exact .fail trivial

theorem apply_inStep (op : BinaryOp) (v w : Value) :
    l.InStep env depth (ofExcept (op.apply v w)) (ofExcept (op.apply v w)) l.Within := by
  unfold BinaryOp.apply
  split
  · exact .pure trivial
  · cases op with
    | add | sub | mul => exact arithmetic_inStep _ _
    | lt | eq => exact .pure trivial
  · exact .fail trivial
  · exact .fail trivial

/-- A merged list has the cells of its sources. -/
theorem callBuiltin_inStep (b : Builtin) {args : List Value} (hargs : ∀ v ∈ args, l.Within v) :
    l.InStep env depth (callBuiltin b args) (callBuiltin b args) l.Within := by
  unfold callBuiltin
  split
  · rename_i first second routing
    split
    · rename_i m
      split
      · rename_i n
        split
        · refine .bind .stamp fun _ _ => .pure fun c hc => ?_
          rcases List.mem_append.1 hc with hc | hc
          · exact hargs (.cellList m) (by simp) c hc
          · exact hargs (.cellList n) (by simp) c hc
        · exact .fail trivial
      · exact .fail trivial
    · exact .fail trivial
  · exact .fail trivial

/-- A function that is made has the cells of the visible variables. -/
theorem makeClosure_inStep (hsees : l.Sees env) (params : Slice VarId) {body : ExprId}
    (name : Option VarId) (hbody : ∀ vs, p.arena.vars? params = some vs → l.nodes body) :
    l.InStep env depth (makeClosure p params body name) (makeClosure p params body name)
      l.Within := by
  refine .bind (.require fun _ h => h) fun vs hvs h h' hh => ?_
  have hmade : ∀ stamp, l.Within (.function ⟨stamp, name, vs, body, env.capture⟩) := by
    refine fun stamp => ⟨hbody vs hvs, fun v c hc => hsees v c ?_⟩
    rwa [← Environment.find?_capture]
  exact InStep.bind .stamp (fun stamp _ => .pure (hmade stamp)) h h' hh

theorem makeCellList_inStep (hsees : l.Sees env) (vars : Slice VarId) :
    l.InStep env depth (makeCellList p vars) (makeCellList p vars) l.Within := by
  refine .bind (.require fun _ h => h) fun vs _ => ?_
  refine .bind (.mapM fun v _ => lookup_inStep hsees v) fun cells hcells => ?_
  refine .bind .stamp fun _ _ => .pure fun c hc => hcells c ?_
  simpa [CellList.leaves] using hc

section
variable {ev ev' : ExprId → EvalM Value} (hev : l.Evaluate ev ev') (hsees : l.Sees env)
include hev hsees

theorem evalBool_inStep {id : ExprId} (hid : l.nodes id) :
    l.InStep env depth (evalBool ev id) (evalBool ev' id) fun _ => True := by
  refine .bind (hev hid hsees) fun v _ => ?_
  cases v with
  | bool b => exact .pure trivial
  | _ => exact .fail trivial

theorem evalCell_inStep {id : ExprId} (hid : l.nodes id) :
    l.InStep env depth (evalCell ev id) (evalCell ev' id) l.cells := by
  refine .bind (hev hid hsees) fun v hv => ?_
  cases v with
  | cell c => exact .pure hv
  | _ => exact .fail trivial

theorem evalTarget_inStep {id : ExprId} (hid : l.nodes id) :
    l.InStep env depth (evalTarget p ev id) (evalTarget p ev' id) l.cells := by
  refine .bind (.require fun _ h => h) fun node hnode => ?_
  have hbelow := below hid hnode fun _ => false
  cases hkind : node.kind with
  | var v => exact lookup_inStep hsees v
  | content receiver =>
    rw [hkind] at hbelow
    exact evalCell_inStep hev hsees hbelow
  | _ => exact .fail trivial

theorem evalSequence_inStep {ids : List ExprId} (hids : ∀ id ∈ ids, l.nodes id) :
    l.InStep env depth (evalSequence ev ids) (evalSequence ev' ids) l.Within := by
  have hfold : ∀ v, l.Within v → l.InStep env depth (ids.foldlM (fun _ id => ev id) v)
      (ids.foldlM (fun _ id => ev' id) v) l.Within := by
    induction ids with
    | nil => exact fun v hv => .pure hv
    | cons id ids ih =>
      intro v _
      rw [List.foldlM_cons, List.foldlM_cons]
      exact .bind (hev (hids id List.mem_cons_self) hsees)
        (ih fun i hi => hids i (List.mem_cons_of_mem id hi))
  exact hfold .unit trivial

theorem evalBlock_inStep {locals : Slice VarId} {body : Slice ExprId}
    (hbody : ∀ vs, p.arena.vars? locals = some vs → ∀ ids, p.arena.exprs? body = some ids →
      ∀ id ∈ ids, l.nodes id) :
    l.InStep env depth (evalBlock p ev locals body) (evalBlock p ev' locals body) l.Within := by
  rw [evalBlock, evalBlock]
  cases hvs : p.arena.vars? locals with
  | none => exact fun _ _ hh => .fault hh
  | some vs =>
    refine InStep.scope (fun v => v) hsees (fun _ => trivial) fun env' hsees' => ?_
    exact .bind (.require fun _ h => h) fun ids hids =>
      evalSequence_inStep hev hsees' (hbody vs hvs ids hids)

theorem evalFilter_inStep {h : Handler} (hh : ∀ id ∈ h.exprs, l.nodes id) :
    l.InStep env depth (evalFilter ev h) (evalFilter ev' h) fun _ => True := by
  rw [evalFilter, evalFilter]
  cases hf : h.filter with
  | none => exact .pure trivial
  | some filter =>
    exact evalBool_inStep hev hsees (hh filter (List.mem_cons_of_mem _ (by simp [hf])))

theorem tryHandler_inStep {thrown : Value} (hthrown : l.Within thrown) {h : Handler}
    (hh : ∀ id ∈ h.exprs, l.nodes id) :
    l.InStep env depth (tryHandler ev thrown h) (tryHandler ev' thrown h)
      fun o => ∀ v, o = some v → l.Within v := by
  rw [tryHandler_eq, tryHandler_eq]
  refine .scope (fun v => v) hsees (fun _ => hthrown) fun env' hsees' => ?_
  refine .bind (evalFilter_inStep hev hsees' hh) fun b _ => ?_
  cases b with
  | false => exact .pure nofun
  | true =>
    refine .bind (hev (hh h.body List.mem_cons_self) hsees') fun v hv => ?_
    exact .pure fun w hw => Option.some.inj hw ▸ hv

theorem handle_inStep {thrown : Value} (hthrown : l.Within thrown) {hs : List Handler}
    (hhs : ∀ h ∈ hs, ∀ id ∈ h.exprs, l.nodes id) :
    l.InStep env depth (handle ev thrown hs) (handle ev' thrown hs) l.Within := by
  induction hs with
  | nil => exact .fail hthrown
  | cons h hs ih =>
    rw [handle, handle]
    refine .bind (tryHandler_inStep hev hsees hthrown (hhs h List.mem_cons_self)) fun o ho => ?_
    cases o with
    | none => exact ih fun h' hh' => hhs h' (List.mem_cons_of_mem h hh')
    | some v => exact .pure (ho v rfl)

/-- No handler takes the error of a call past the limit. -/
theorem evalAttempt_inStep {body : ExprId} {handlers : Slice Handler} (hbody : l.nodes body)
    (hhandlers : ∀ hs, p.arena.handlers? handlers = some hs →
      ∀ h ∈ hs, ∀ id ∈ h.exprs, l.nodes id) :
    l.InStep env depth (evalAttempt p ev body handlers) (evalAttempt p ev' body handlers)
      l.Within := by
  intro h h' hh
  rw [evalAttempt, evalAttempt]
  rcases (hev hbody hsees h h' hh).cases with ⟨v, h₁, h₁', hh₁, hv, hx, hy⟩ |
    ⟨e, h₁, h₁', hh₁, he, hx, hy⟩ | ⟨f, h₁, h₁', env', depth', hh₁, hx, hy⟩ | ⟨h₁, loose, hx⟩
  · rw [hx, hy]
    exact .ok hh₁ hv
  · rw [hx, hy]
    cases e with
    | thrown v =>
      exact InStep.bind (.require fun _ h => h)
        (fun hs hhs => handle_inStep hev hsees he (hhandlers hs hhs)) h₁ h₁' hh₁
    | _ => exact .error hh₁ he
  · rw [hx, hy]
    exact .fault hh₁
  · rw [hx]
    exact .limit loose

/-- A node of the region is evaluated alike if the nodes below are. -/
theorem kindCalling_inStep (hlimit : p.maxCallDepth < UInt64.size) {id : ExprId} {node : Node}
    (hid : l.nodes id) (hnode : p.arena.node? id = some node) :
    l.InStep env depth (evalKind p ev node.kind) (kindCalling l.call p ev' node.kind)
      l.Within := by
  have hbelow := below hid hnode fun _ => false
  have hread : ∀ {α : Type} {o : Option α} {post : α → Prop}, Promise.anything.Reads o post →
      ∀ x, o = some x → post x := by
    rintro α _ post ho x rfl
    exact ho
  cases hkind : node.kind with
  | unit | int | bool => exact .pure trivial
  | var v => exact .bind (lookup_inStep hsees v) fun c hc => .read hc
  | binary op left right =>
    rw [hkind] at hbelow
    refine .bind (hev hbelow.1 hsees) fun v _ => ?_
    exact .bind (hev hbelow.2 hsees) fun w _ => apply_inStep op v w
  | assign target value =>
    rw [hkind] at hbelow
    refine .bind (hev hbelow.2 hsees) fun v hv => ?_
    refine .bind (evalTarget_inStep hev hsees hbelow.1) fun c hc => ?_
    exact .bind (.write hc hv) fun _ _ => .pure hv
  | cond test yes no =>
    rw [hkind] at hbelow
    refine .bind (evalBool_inStep hev hsees hbelow.1) fun b _ => ?_
    cases b with
    | true => exact hev hbelow.2.1 hsees
    | false => exact hev hbelow.2.2 hsees
  | block locals body =>
    rw [hkind] at hbelow
    refine evalBlock_inStep hev hsees fun vs hvs ids hids => ?_
    exact hread (hread hbelow vs hvs) ids hids
  | lambda params body name =>
    rw [hkind] at hbelow
    refine makeClosure_inStep hsees params name fun vs hvs => ?_
    exact hread hbelow vs hvs
  | call callee args =>
    rw [hkind] at hbelow
    refine .bind (hev hbelow.1 hsees) fun callee hcallee => ?_
    refine .bind (.require fun _ h => h) fun ids hids => ?_
    refine .bind (.mapM fun id hid => hev (hread hbelow.2 ids hids id hid) hsees)
      fun args hargs => ?_
    cases callee with
    | function f => exact .call hlimit hev hcallee hargs
    | builtin b => exact callBuiltin_inStep b hargs
    | _ => exact .fail trivial
  | attempt body handlers =>
    rw [hkind] at hbelow
    exact evalAttempt_inStep hev hsees hbelow.1 fun hs hhs => hread hbelow.2 hs hhs
  | throw value =>
    rw [hkind] at hbelow
    exact .bind (hev hbelow hsees) fun v hv => .fail hv
  | constant k => exact .require fun v hv => l.constant hid ⟨node, k, hnode, hkind, hv⟩
  | content receiver =>
    rw [hkind] at hbelow
    exact .bind (evalCell_inStep hev hsees hbelow) fun c hc => .read hc
  | cellList vars => exact makeCellList_inStep hsees vars

end

/-! ## All levels -/

/-- The nodes of the region are evaluated in lockstep, however many levels there are. -/
theorem evalWithin_inStep (hlimit : p.maxCallDepth < UInt64.size) (levels : Nat) :
    l.Evaluate (p.evalWithin levels) (p.evalBy (kindCalling l.call p) levels) := by
  induction levels with
  | zero => exact fun _ _ => .fault .endless
  | succ levels ih =>
    intro env depth id hid hsees
    exact .bind (.require fun _ h => h) fun node hnode =>
      kindCalling_inStep ih hsees hlimit hid hnode

end

end Lockstep

end Quotation
