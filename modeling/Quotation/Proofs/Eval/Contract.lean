import Quotation.Proofs.Capture.Tree
import Quotation.Proofs.Eval.Run
import Quotation.Proofs.Order

/-!
# What an evaluation keeps

A `Promise` is a property of values together with the ways in which an evaluation may end besides a
value. `Promise.Keeps` says that an evaluation, in a given environment and so many calls deep, keeps
the promise: it leaves environment and depth as they are, ends in a permitted way, and only yields,
throws and stores values that have the property. The rules are the steps of the interpreter; they
are put together in `nestedKind_keeps`, one case for each kind of node.

A `Contract` adds which nodes may be evaluated where, and why every node that their evaluation comes
to may be evaluated there: `Contract.evalWithin_keeps`, by induction on the levels, and
`Contract.evalNested_keeps` where the calls are limited as well.
-/

namespace Quotation

open EvalM

/-- The variables of `S` are bound. -/
def Environment.Binds (env : Environment) (S : VarId → Bool) : Prop :=
  ∀ v, S v = true → (env.lookup v).isSome

/-- The variables that a scope defines are bound in it. -/
theorem Environment.Binds.under {env : Environment} {S : VarId → Bool} (h : env.Binds S)
    (next : Nat) (l : Label) : (env.push.bindFrom next l.declares).Binds (l.under S) := by
  intro v hv
  rw [lookup_bindFrom, Option.isSome_or, isSome_boundFrom, lookup_push]
  rcases Bool.or_eq_true_iff.1 hv with hdeclared | hS
  · rw [hdeclared, Bool.true_or]
  · rw [h v hS, Bool.or_true]

/-- `R` holds of what is below a branch, where the variables `S` are in scope around the branch. -/
def Branch.Below (R : (VarId → Bool) → ExprId → Prop) (S : VarId → Bool) : Branch → Prop
  | .expr id => R S id
  | .handler h => ∀ id ∈ h.exprs, R ((Label.handler h.caught).under S) id

/-! ## Promises -/

/-- A property of all values that an evaluation meets, and how it may end. -/
structure Promise where
  value : Value → Prop
  /-- A variable may be undefined. -/
  undefined : Prop
  /-- The evaluation may end in the fault. -/
  faults : Fault → Prop
  /-- Only functions can lack the property. -/
  plain : ∀ v : Value, (∀ f, v ≠ .function f) → value v

namespace Promise

section
variable (c : Promise)

def heap (h : Heap) : Prop := ∀ v ∈ h.cells, c.value v

def error : EvalError → Prop
  | .thrown v => c.value v
  | .undefinedVariable _ => c.undefined
  | _ => True

/-- The ways in which an evaluation may end. -/
inductive Ends (env : Environment) (depth : Nat) {α : Type} (post : α → Prop) :
    EStateM.Result Stop Machine α → Prop where
  | ok {v : α} {h : Heap} (heap : c.heap h) (value : post v) :
    Ends env depth post (.ok v ⟨h, env, depth⟩)
  | error {e : EvalError} {h : Heap} (heap : c.heap h) (error : c.error e) :
    Ends env depth post (.error (.error e) ⟨h, env, depth⟩)
  | fault {f : Fault} {m : Machine} (faults : c.faults f) :
    Ends env depth post (.error (.fault f) m)

/-- What is read satisfies `post`, and is there unless that fault is permitted. -/
def Reads {α : Type} (o : Option α) (post : α → Prop) : Prop :=
  match o with
  | some x => post x
  | none => c.faults .outOfBounds

/-- `x` keeps the promise, and what it yields satisfies `post`. -/
def Keeps {α : Type} (env : Environment) (depth : Nat) (x : EvalM α) (post : α → Prop) : Prop :=
  ∀ h, c.heap h → c.Ends env depth post (x ⟨h, env, depth⟩)

end

section
variable {c : Promise} {env : Environment} {depth : Nat} {α β : Type}

namespace Ends

variable {post : α → Prop} {r : EStateM.Result Stop Machine α}

theorem cases (h : c.Ends env depth post r) :
    (∃ v h, r = .ok v ⟨h, env, depth⟩ ∧ c.heap h ∧ post v) ∨
    (∃ e h, r = .error (.error e) ⟨h, env, depth⟩ ∧ c.heap h ∧ c.error e) ∨
    (∃ f m, r = .error (.fault f) m ∧ c.faults f) := by
  cases h with
  | ok heap value => exact .inl ⟨_, _, rfl, heap, value⟩
  | error heap error => exact .inr (.inl ⟨_, _, rfl, heap, error⟩)
  | fault faults => exact .inr (.inr ⟨_, _, rfl, faults⟩)

theorem permits {f : Fault} {m : Machine} (h : c.Ends env depth post (.error (.fault f) m)) :
    c.faults f := by
  cases h with
  | fault faults => exact faults

theorem staysIn (h : c.Ends env depth post r) : StaysIn env depth r := by
  cases h with
  | ok | error => exact ⟨rfl, rfl⟩
  | fault => trivial

theorem backIn (h : c.Ends env depth post r) (env' : Environment) (depth' : Nat) :
    c.Ends env' depth' post (backIn env' depth' r) := by
  cases h with
  | ok heap value => exact .ok heap value
  | error heap error => exact .error heap error
  | fault faults => exact .fault faults

end Ends

theorem heap_read {h : Heap} (hh : c.heap h) (cell : Cell) : c.value (h.read cell) := by
  rw [Heap.read]
  cases hv : h.cells[cell.index]? with
  | none => exact c.plain _ (by simp)
  | some v => exact hh v (Array.mem_of_getElem? hv)

theorem heap_write {h : Heap} (hh : c.heap h) {v : Value} (hv : c.value v) (cell : Cell) :
    c.heap (h.write cell v) := by
  intro u hu
  rcases Array.mem_or_eq_of_mem_setIfInBounds hu with hu | rfl
  · exact hh u hu
  · exact hv

theorem heap_append {h : Heap} (hh : c.heap h) {vs : List Value} (hvs : ∀ v ∈ vs, c.value v) :
    c.heap { h with cells := h.cells ++ vs } := by
  intro u hu
  have hmem : u ∈ h.cells ++ vs := hu
  rw [append_list_eq, Array.mem_append] at hmem
  rcases hmem with hmem | hmem
  · exact hh u hmem
  · exact hvs u (List.mem_toArray.1 hmem)

/-! ## Rules -/

namespace Keeps

variable {x : EvalM α} {post : α → Prop}

theorem pure {v : α} (hv : post v) : c.Keeps env depth (pure v) post := fun _ hh => .ok hh hv

theorem fail {e : EvalError} (he : c.error e) : c.Keeps env depth (fail e) post :=
  fun _ hh => .error hh he

theorem imp {post' : α → Prop} (hx : c.Keeps env depth x post) (h : ∀ v, post v → post' v) :
    c.Keeps env depth x post' := by
  intro heap hheap
  rcases (hx heap hheap).cases with
    ⟨v, h', hr, hh', hv⟩ | ⟨e, h', hr, hh', he⟩ | ⟨f, m, hr, hf⟩ <;> rw [hr]
  exacts [.ok hh' (h v hv), .error hh' he, .fault hf]

theorem bind {f : α → EvalM β} {post' : β → Prop} (hx : c.Keeps env depth x post)
    (hf : ∀ v, post v → c.Keeps env depth (f v) post') : c.Keeps env depth (x >>= f) post' := by
  intro heap hheap
  rcases (hx heap hheap).cases with ⟨v, h', hr, hh', hv⟩ | ⟨e, h', hr, hh', he⟩ | ⟨f, m, hr, hf⟩
  · rw [bind_ok hr]
    exact hf v hv h' hh'
  · rw [bind_error hr]
    exact .error hh' he
  · rw [bind_error hr]
    exact .fault hf

theorem read (cell : Cell) : c.Keeps env depth (readCell cell) c.value :=
  fun _ hh => .ok hh (heap_read hh cell)

theorem write (cell : Cell) {v : Value} (hv : c.value v) :
    c.Keeps env depth (writeCell cell v) fun _ => True :=
  fun _ hh => .ok (heap_write hh hv cell) trivial

theorem stamp : c.Keeps env depth newStamp fun _ => True := fun _ hh => .ok hh trivial

theorem mapM {f : α → EvalM β} {post : β → Prop} {xs : List α}
    (hf : ∀ x ∈ xs, c.Keeps env depth (f x) post) :
    c.Keeps env depth (xs.mapM f) fun ys => ∀ y ∈ ys, post y := by
  induction xs with
  | nil => exact .pure (by simp)
  | cons x xs ih =>
    rw [List.mapM_cons]
    refine .bind (hf x List.mem_cons_self) fun y hy => ?_
    refine .bind (ih fun z hz => hf z (List.mem_cons_of_mem x hz)) fun ys hys => ?_
    exact .pure (List.forall_mem_cons.2 ⟨hy, hys⟩)

/-- What is evaluated in a scope of its own is so under the variables that the scope defines. -/
theorem scope {ι : Type} (var : ι → VarId) {val : ι → Value} {xs : List ι}
    (hval : ∀ i ∈ xs, c.value (val i))
    (hx : ∀ next, c.Keeps (env.push.bindFrom next (xs.map var)) depth x post) :
    c.Keeps env depth (withScope do xs.forM fun i => define (var i) (val i); x) post := by
  intro heap hheap
  have hends := hx heap.cells.size _ (heap_append hheap (List.forall_mem_map.2 hval))
  rw [withScope_define heap env depth var val xs hends.staysIn]
  exact hends.backIn env depth

theorem call {p : Program} (hlimit : p.maxCallDepth < UInt64.size) {ev : ExprId → EvalM Value}
    {f : Closure} {args : List Value} (hargs : ∀ v ∈ args, c.value v)
    (htraced : c.Reads (p.tracedName? f) fun _ => True)
    (hbody : depth < p.maxCallDepth → ∀ next,
      c.Keeps (f.bodyEnv next) (depth + 1) (ev f.body) c.value) :
    c.Keeps env depth (callFunction p ev f args) c.value := by
  intro heap hheap
  by_cases hlen : args.length = f.params.length
  · by_cases hdepth : depth < p.maxCallDepth
    · cases hname : p.tracedName? f with
      | none =>
        rw [callFunction_undeclared heap env depth ev hlen hdepth hname]
        rw [hname] at htraced
        exact .fault htraced
      | some name =>
        have hends := hbody hdepth heap.cells.size _ (heap_append hheap hargs)
        have hsome := Option.isSome_of_eq_some hname
        rw [callFunction_eq heap env depth hlimit ev hlen hdepth hsome hends.staysIn]
        exact hends.backIn env depth
    · rw [callFunction_deep heap env depth ev hlen (Nat.le_of_not_lt hdepth)]
      exact .error hheap trivial
  · rw [callFunction_arity ev hlen]
    exact .error hheap trivial

end Keeps

end

/-! ## Nodes -/

section
variable (c : Promise)

/-- The variable is in scope; or it may be undefined, and then its name is read. -/
def Knows (a : Arena) (S : VarId → Bool) (v : VarId) : Prop :=
  S v = true ∨ c.undefined ∧ c.Reads (a.name? v) fun _ => True

/-- What it takes to evaluate a node of a kind where the variables `S` are in scope, if `R` is what
it takes for the nodes below. -/
def Fits (p : Program) (R : (VarId → Bool) → ExprId → Prop) (S : VarId → Bool) : Kind → Prop
  | .unit | .int _ | .bool _ => True
  | .var v => c.Knows p.arena S v
  | .binary _ left right => R S left ∧ R S right
  | .assign target value => R S target ∧ R S value
  | .cond test yes no => R S test ∧ R S yes ∧ R S no
  | .block locals body => c.Reads (p.arena.vars? locals) fun vs =>
    c.Reads (p.arena.exprs? body) fun ids => ∀ id ∈ ids, R ((Label.block vs).under S) id
  | .lambda params body name => c.Reads (p.arena.vars? params) fun vs =>
    R ((Label.lambda vs name).under S) body
  | .call callee args => R S callee ∧ c.Reads (p.arena.exprs? args) fun ids => ∀ id ∈ ids, R S id
  | .attempt body handlers => R S body ∧ c.Reads (p.arena.handlers? handlers) fun hs =>
    ∀ h ∈ hs, ∀ id ∈ h.exprs, R ((Label.handler h.caught).under S) id
  | .throw value => R S value
  | .constant k => c.Reads (p.pool.get? k) c.value
  | .content receiver => R S receiver
  | .cellList vars => c.Reads (p.arena.vars? vars) fun vs => ∀ v ∈ vs, c.Knows p.arena S v

end

section
variable {c : Promise} {p : Program} {ev : ExprId → EvalM Value} {env : Environment}
  {depth : Nat} {S : VarId → Bool} {id : ExprId}

theorem Reads.imp {α : Type} {o : Option α} {post post' : α → Prop} (h : c.Reads o post)
    (himp : ∀ x, post x → post' x) : c.Reads o post' := by
  cases o with
  | none => exact h
  | some x => exact himp x h

theorem Reads.of_some {α : Type} {o : Option α} {post : α → Prop}
    (hfaults : c.faults .outOfBounds) (h : ∀ x, o = some x → post x) : c.Reads o post := by
  cases o with
  | none => exact hfaults
  | some x => exact h x rfl

theorem Reads.and_eq {α : Type} {o : Option α} {post : α → Prop} (h : c.Reads o post) :
    c.Reads o fun x => o = some x ∧ post x := by
  cases o with
  | none => exact h
  | some x => exact ⟨rfl, h⟩

/-- What suffices in one scope suffices in a larger one, for any promise that permits as much. -/
theorem Fits.weaken {c' : Promise} {R R' : (VarId → Bool) → ExprId → Prop} {S' : VarId → Bool}
    {kind : Kind} (h : c.Fits p R S kind) (hfaults : c.faults .outOfBounds → c'.faults .outOfBounds)
    (hundefined : c.undefined → c'.undefined) (hS : ∀ v, S v = true → S' v = true)
    (hR : ∀ T T' id, (∀ v, T v = true → T' v = true) → R T id → R' T' id)
    (hconstant : ∀ k v, p.pool.get? k = some v → c.value v → c'.value v) :
    c'.Fits p R' S' kind := by
  have hreads : ∀ {α : Type} {o : Option α} {post post' : α → Prop}, c.Reads o post →
      (∀ x, o = some x → post x → post' x) → c'.Reads o post' := by
    intro α o post post' ho himp
    cases o with
    | none => exact hfaults ho
    | some x => exact himp x rfl ho
  have hknows : ∀ v, c.Knows p.arena S v → c'.Knows p.arena S' v := fun v hv =>
    hv.imp (hS v) fun ⟨hv, hname⟩ => ⟨hundefined hv, hreads hname fun _ _ => id⟩
  have hunder : ∀ (l : Label) id, R (l.under S) id → R' (l.under S') id := fun l id =>
    hR _ _ id fun v hv => Bool.or_eq_true_iff.2 ((Bool.or_eq_true_iff.1 hv).imp_right (hS v))
  have hsame : ∀ id, R S id → R' S' id := fun id => hR _ _ id hS
  cases kind with
  | unit | int | bool => trivial
  | var v => exact hknows v h
  | binary op left right => exact ⟨hsame _ h.1, hsame _ h.2⟩
  | assign target value => exact ⟨hsame _ h.1, hsame _ h.2⟩
  | cond test yes no => exact ⟨hsame _ h.1, hsame _ h.2.1, hsame _ h.2.2⟩
  | block locals body =>
    exact hreads h fun vs _ hvs => hreads hvs fun ids _ hids id hid =>
      hunder (.block vs) id (hids id hid)
  | lambda params body name => exact hreads h fun vs _ => hunder (.lambda vs name) body
  | call callee args =>
    exact ⟨hsame _ h.1, hreads h.2 fun ids _ hids id hid => hsame _ (hids id hid)⟩
  | attempt body handlers =>
    exact ⟨hsame _ h.1, hreads h.2 fun hs _ hhs x hx id hid =>
      hunder (.handler x.caught) id (hhs x hx id hid)⟩
  | throw value => exact hsame _ h
  | constant k => exact hreads h fun v hv => hconstant k v hv
  | content receiver => exact hsame _ h
  | cellList vars => exact hreads h fun vs _ hvs v hv => hknows v (hvs v hv)

theorem Keeps.reads {α : Type} {o : Option α} {post : α → Prop} (ho : c.Reads o post) :
    c.Keeps env depth (EvalM.require o) post := by
  cases o with
  | none => exact fun _ _ => .fault ho
  | some x => exact .pure ho

/-- A node whose label and branches can be read can be evaluated if its branches can, the variables
that it refers to are known, and the constant that it yields has the property. -/
theorem fits_of_view? {R : (VarId → Bool) → ExprId → Prop} {kind : Kind} {label : Label}
    {branches : List Branch} (hview : p.arena.view? p.pool kind = some (label, branches))
    (hbranches : ∀ b ∈ branches, b.Below R (label.under S))
    (hrefers : ∀ v ∈ label.refers, c.Knows p.arena S v)
    (hconstant : ∀ v, label = .constant v → c.value v) : c.Fits p R S kind := by
  cases kind with
  | unit | int | bool => trivial
  | var v =>
    obtain ⟨rfl, rfl⟩ := Prod.mk.inj (Option.some.inj hview)
    exact hrefers v (List.mem_singleton.2 rfl)
  | binary op left right =>
    obtain ⟨rfl, rfl⟩ := Prod.mk.inj (Option.some.inj hview)
    exact ⟨hbranches (.expr left) (by simp), hbranches (.expr right) (by simp)⟩
  | assign target value =>
    obtain ⟨rfl, rfl⟩ := Prod.mk.inj (Option.some.inj hview)
    exact ⟨hbranches (.expr target) (by simp), hbranches (.expr value) (by simp)⟩
  | cond test yes no =>
    obtain ⟨rfl, rfl⟩ := Prod.mk.inj (Option.some.inj hview)
    exact ⟨hbranches (.expr test) (by simp), hbranches (.expr yes) (by simp),
      hbranches (.expr no) (by simp)⟩
  | throw value =>
    obtain ⟨rfl, rfl⟩ := Prod.mk.inj (Option.some.inj hview)
    exact hbranches (.expr value) (by simp)
  | content receiver =>
    obtain ⟨rfl, rfl⟩ := Prod.mk.inj (Option.some.inj hview)
    exact hbranches (.expr receiver) (by simp)
  | block locals body =>
    obtain ⟨vs, ids, hvs, hids, rfl, rfl⟩ := view?_block.1 hview
    rw [Fits, hvs, Reads, hids]
    exact fun id hid => hbranches (.expr id) (List.mem_map_of_mem hid)
  | lambda params body name =>
    obtain ⟨vs, hvs, rfl, rfl⟩ := view?_lambda.1 hview
    rw [Fits, hvs]
    exact hbranches (.expr body) (by simp)
  | call callee args =>
    obtain ⟨ids, hids, rfl, rfl⟩ := view?_call.1 hview
    rw [Fits, hids]
    exact ⟨hbranches (.expr callee) List.mem_cons_self, fun id hid =>
      hbranches (.expr id) (List.mem_cons_of_mem _ (List.mem_map_of_mem hid))⟩
  | attempt body handlers =>
    obtain ⟨hs, hhs, rfl, rfl⟩ := view?_attempt.1 hview
    rw [Fits, hhs]
    exact ⟨hbranches (.expr body) List.mem_cons_self, fun h hh =>
      hbranches (.handler h) (List.mem_cons_of_mem _ (List.mem_map_of_mem hh))⟩
  | constant k =>
    obtain ⟨v, hv, rfl, rfl⟩ := view?_constant.1 hview
    rw [Fits, hv]
    exact hconstant v rfl
  | cellList vars =>
    obtain ⟨vs, hvs, rfl, rfl⟩ := view?_cellList.1 hview
    rw [Fits, hvs]
    exact hrefers

/-- Where undefined variables are permitted, and faults of reading, a node can be evaluated if its
children can, and the constant that it yields has the property. -/
theorem fits_of_children {R : ExprId → Prop} {kind : Kind} (hundefined : c.undefined)
    (hfaults : c.faults .outOfBounds) (hbelow : ∀ id ∈ p.arena.children kind, R id)
    (hconstant : ∀ k v, p.pool.get? k = some v → c.value v) : c.Fits p (fun _ => R) S kind := by
  have hknows : ∀ v, c.Knows p.arena S v := fun v =>
    .inr ⟨hundefined, .of_some hfaults fun _ _ => trivial⟩
  simp only [Arena.children] at hbelow
  cases kind with
  | unit | int | bool => trivial
  | var v => exact hknows v
  | constant k => exact .of_some hfaults fun v hv => hconstant k v hv
  | cellList vars => exact .of_some hfaults fun vs _ v _ => hknows v
  | throw value | content value =>
    exact hbelow value (by simp [Kind.references, Arena.targets?])
  | binary op left right | assign left right =>
    exact ⟨hbelow left (by simp [Kind.references, Arena.targets?]),
      hbelow right (by simp [Kind.references, Arena.targets?])⟩
  | cond test yes no =>
    exact ⟨hbelow test (by simp [Kind.references, Arena.targets?]),
      hbelow yes (by simp [Kind.references, Arena.targets?]),
      hbelow no (by simp [Kind.references, Arena.targets?])⟩
  | lambda params body name =>
    exact .of_some hfaults fun vs _ => hbelow body (by simp [Kind.references, Arena.targets?])
  | block locals body =>
    exact .of_some hfaults fun vs _ => .of_some hfaults fun ids hids id hid =>
      hbelow id (by simp [Kind.references, Arena.targets?, hids, hid])
  | call callee args =>
    exact ⟨hbelow callee (by simp [Kind.references, Arena.targets?]),
      .of_some hfaults fun ids hids id hid =>
        hbelow id (by simp [Kind.references, Arena.targets?, hids, hid])⟩
  | attempt body handlers =>
    refine ⟨hbelow body (by simp [Kind.references, Arena.targets?]),
      .of_some hfaults fun hs hhs h hh id hid => hbelow id ?_⟩
    simp only [Kind.references, Arena.targets?, hhs, List.flatMap_cons, List.mem_append]
    exact .inr (.inl (List.mem_flatMap.2 ⟨h, hh, hid⟩))

theorem lookup_keeps (hbinds : env.Binds S) {v : VarId} (hv : c.Knows p.arena S v) :
    c.Keeps env depth (lookup p v) fun _ => True := by
  intro heap hheap
  cases hcell : env.lookup v with
  | some cell =>
    rw [lookup_eq hcell]
    exact .ok hheap trivial
  | none =>
    rw [lookup_eq_of_none hcell]
    rcases hv with hv | ⟨hundefined, hname⟩
    · have hsome := hbinds v hv
      rw [hcell] at hsome
      cases hsome
    · refine Keeps.bind (.reads hname) (fun name _ => ?_) heap hheap
      exact .fail (e := .undefinedVariable name) hundefined

theorem evalBool_keeps (hev : c.Keeps env depth (ev id) c.value) :
    c.Keeps env depth (evalBool ev id) fun _ => True := by
  refine .bind hev fun v _ => ?_
  cases v with
  | bool b => exact .pure trivial
  | _ => exact .fail trivial

theorem evalCell_keeps (hev : c.Keeps env depth (ev id) c.value) :
    c.Keeps env depth (evalCell ev id) fun _ => True := by
  refine .bind hev fun v _ => ?_
  cases v with
  | cell cell => exact .pure trivial
  | _ => exact .fail trivial

theorem evalSequence_keeps {ids : List ExprId}
    (hev : ∀ id ∈ ids, c.Keeps env depth (ev id) c.value) :
    c.Keeps env depth (evalSequence ev ids) c.value := by
  have hfold : ∀ v, c.value v → c.Keeps env depth (ids.foldlM (fun _ id => ev id) v) c.value := by
    induction ids with
    | nil => exact fun v hv => .pure hv
    | cons id ids ih =>
      intro v _
      rw [List.foldlM_cons]
      exact .bind (hev id List.mem_cons_self) (ih fun i hi => hev i (List.mem_cons_of_mem id hi))
  exact hfold .unit (c.plain _ nofun)

theorem arithmetic_keeps (op : BinaryOp) (n : Int) :
    c.Keeps env depth (ofExcept (op.arithmetic n)) c.value := by
  rw [BinaryOp.arithmetic]
  cases word? n with
  | some w => exact .pure (c.plain _ nofun)
  | none => exact .fail trivial

theorem apply_keeps (op : BinaryOp) (left right : Value) :
    c.Keeps env depth (ofExcept (op.apply left right)) c.value := by
  unfold BinaryOp.apply
  split
  · exact .pure (c.plain _ nofun)
  · rename_i m n _
    cases op with
    | add | sub | mul => exact arithmetic_keeps _ _
    | lt | eq => exact .pure (c.plain _ nofun)
  · exact .fail trivial
  · exact .fail trivial

theorem callBuiltin_keeps (b : Builtin) (args : List Value) :
    c.Keeps env depth (callBuiltin b args) c.value := by
  unfold callBuiltin
  split
  · split
    · split
      · split
        · exact .bind .stamp fun _ _ => .pure (c.plain _ nofun)
        · exact .fail trivial
      · exact .fail trivial
    · exact .fail trivial
  · exact .fail trivial

theorem handle_keeps {thrown : Value} (hthrown : c.value thrown) {hs : List Handler}
    (hev : ∀ h ∈ hs, ∀ id ∈ h.exprs, ∀ next,
      c.Keeps (env.push.bindFrom next h.caught.toList) depth (ev id) c.value) :
    c.Keeps env depth (handle ev thrown hs) c.value := by
  induction hs with
  | nil => exact .fail hthrown
  | cons h hs ih =>
    have hbody : ∀ next,
        c.Keeps (env.push.bindFrom next h.caught.toList) depth (ev h.body) c.value :=
      hev h List.mem_cons_self h.body List.mem_cons_self
    have hfilter : ∀ next,
        c.Keeps (env.push.bindFrom next h.caught.toList) depth (evalFilter ev h) fun _ => True := by
      intro next
      rw [evalFilter]
      cases hf : h.filter with
      | none => exact .pure trivial
      | some filter =>
        have hmem : filter ∈ h.exprs := List.mem_cons_of_mem _ (by simp [hf])
        exact evalBool_keeps (hev h List.mem_cons_self filter hmem next)
    have htry : c.Keeps env depth (tryHandler ev thrown h)
        fun o => ∀ v, o = some v → c.value v := by
      rw [tryHandler_eq]
      refine .scope (fun v => v) (fun _ _ => hthrown) fun next => ?_
      rw [List.map_id']
      refine .bind (hfilter next) fun b _ => ?_
      cases b with
      | false => exact .pure nofun
      | true => exact .bind (hbody next) fun v hv => .pure fun w hw => Option.some.inj hw ▸ hv
    rw [handle]
    refine .bind htry fun o ho => ?_
    cases o with
    | none => exact ih fun h' hh' => hev h' (List.mem_cons_of_mem h hh')
    | some v => exact .pure (ho v rfl)

theorem evalBlock_keeps {locals : Slice VarId} {body : Slice ExprId}
    (hev : c.Reads (p.arena.vars? locals) fun vs => c.Reads (p.arena.exprs? body) fun ids =>
      ∀ id ∈ ids, ∀ next, c.Keeps (env.push.bindFrom next vs) depth (ev id) c.value) :
    c.Keeps env depth (evalBlock p ev locals body) c.value := by
  rw [evalBlock]
  cases hvs : p.arena.vars? locals with
  | none =>
    rw [hvs] at hev
    exact fun _ _ => .fault hev
  | some vs =>
    rw [hvs] at hev
    refine Keeps.scope (fun v => v) (fun _ _ => c.plain .unit nofun) fun next => ?_
    rw [List.map_id']
    cases hids : p.arena.exprs? body with
    | none =>
      rw [Reads, hids] at hev
      exact fun _ _ => .fault hev
    | some ids =>
      rw [Reads, hids] at hev
      exact evalSequence_keeps fun id hid => hev id hid next

theorem evalAttempt_keeps {body : ExprId} {handlers : Slice Handler}
    (hbody : c.Keeps env depth (ev body) c.value)
    (hhandlers : c.Reads (p.arena.handlers? handlers) fun hs => ∀ h ∈ hs, ∀ id ∈ h.exprs, ∀ next,
      c.Keeps (env.push.bindFrom next h.caught.toList) depth (ev id) c.value) :
    c.Keeps env depth (evalAttempt p ev body handlers) c.value := by
  intro heap hheap
  rw [evalAttempt]
  rcases (hbody heap hheap).cases with
    ⟨v, h, hr, hh, hv⟩ | ⟨e, h, hr, hh, he⟩ | ⟨f, m, hr, hf⟩
  · rw [hr]
    exact .ok hh hv
  · rw [hr]
    cases e with
    | thrown v => exact Keeps.bind (.reads hhandlers) (fun hs hhs => handle_keeps he hhs) h hh
    | _ => exact .error hh he
  · rw [hr]
    exact .fault hf

section
variable {R : (VarId → Bool) → ExprId → Prop} (hbinds : env.Binds S)
  (htarget : ∀ id, R S id → c.Reads (p.arena.node? id) fun node => c.Fits p R S node.kind)
  (hev : ∀ S env id, R S id → env.Binds S → c.Keeps env depth (ev id) c.value)
include hbinds htarget hev

theorem evalTarget_keeps (hid : R S id) :
    c.Keeps env depth (evalTarget p ev id) fun _ => True := by
  refine .bind (.reads (htarget id hid)) fun node hnode => ?_
  cases hkind : node.kind with
  | var v =>
    rw [hkind] at hnode
    exact lookup_keeps hbinds hnode
  | content receiver =>
    rw [hkind] at hnode
    exact evalCell_keeps (hev S env receiver hnode hbinds)
  | _ => exact .fail trivial

/-- A node keeps the promise if the nodes below it, the functions that it makes and the bodies of
the functions that it calls do. -/
theorem nestedKind_keeps {body : ExprId → EvalM Value} {kind : Kind} (hfits : c.Fits p R S kind)
    (hlimit : p.maxCallDepth < UInt64.size)
    (hmake : ∀ params body name vs, kind = .lambda params body name →
      p.arena.vars? params = some vs → R ((Label.lambda vs name).under S) body → ∀ stamp,
      c.value (.function ⟨stamp, name, vs, body, env.capture⟩))
    (htraced : ∀ f, c.value (.function f) → c.Reads (p.tracedName? f) fun _ => True)
    (hcall : ∀ f, c.value (.function f) → depth < p.maxCallDepth → ∀ next,
      c.Keeps (f.bodyEnv next) (depth + 1) (body f.body) c.value) :
    c.Keeps env depth (nestedKind p ev body kind) c.value := by
  cases kind with
  | unit => exact .pure (c.plain _ nofun)
  | int n => exact .pure (c.plain _ nofun)
  | bool b => exact .pure (c.plain _ nofun)
  | var v => exact .bind (lookup_keeps hbinds hfits) fun cell _ => .read cell
  | binary op left right =>
    refine .bind (hev _ _ _ hfits.1 hbinds) fun left _ => ?_
    exact .bind (hev _ _ _ hfits.2 hbinds) fun right _ => apply_keeps op left right
  | assign target value =>
    refine .bind (hev _ _ _ hfits.2 hbinds) fun value hvalue => ?_
    refine .bind (evalTarget_keeps hbinds htarget hev hfits.1) fun cell _ => ?_
    exact .bind (.write cell hvalue) fun _ _ => .pure hvalue
  | cond test yes no =>
    refine .bind (evalBool_keeps (hev _ _ _ hfits.1 hbinds)) fun b _ => ?_
    cases b with
    | true => exact hev _ _ _ hfits.2.1 hbinds
    | false => exact hev _ _ _ hfits.2.2 hbinds
  | block locals body =>
    refine evalBlock_keeps (hfits.imp fun vs hvs => hvs.imp fun ids hids id hid next => ?_)
    exact hev _ _ _ (hids id hid) (hbinds.under next (.block vs))
  | lambda params body name =>
    refine .bind (.reads hfits.and_eq) fun vs ⟨hvs, hbody⟩ => ?_
    intro heap hheap
    exact .ok hheap (hmake params body name vs rfl hvs hbody _)
  | call callee args =>
    refine .bind (hev _ _ _ hfits.1 hbinds) fun callee hcallee => ?_
    refine .bind (.reads hfits.2) fun ids hids => ?_
    refine .bind (.mapM fun id hid => hev _ _ _ (hids id hid) hbinds) fun args hargs => ?_
    cases callee with
    | function f => exact .call hlimit hargs (htraced f hcallee) (hcall f hcallee)
    | builtin b => exact callBuiltin_keeps b args
    | _ => exact .fail trivial
  | attempt body handlers =>
    refine evalAttempt_keeps (hev _ _ _ hfits.1 hbinds) (hfits.2.imp fun hs hhs => ?_)
    exact fun h hh id hid next =>
      hev _ _ _ (hhs h hh id hid) (hbinds.under next (.handler h.caught))
  | throw value => exact .bind (hev _ _ _ hfits hbinds) fun v hv => .fail hv
  | constant k => exact .reads hfits
  | content receiver =>
    exact .bind (evalCell_keeps (hev _ _ _ hfits hbinds)) fun cell _ => .read cell
  | cellList vars =>
    refine .bind (.reads hfits) fun vs hvs => ?_
    refine .bind (.mapM fun v hv => lookup_keeps hbinds (hvs v hv)) fun cells _ => ?_
    exact .bind .stamp fun _ _ => .pure (c.plain _ nofun)

end

end

end Promise

/-! ## Contracts -/

/-- A promise for the nodes that are `ready`: at most so many levels are left to evaluate the node
in, so many calls deep, where these variables are bound. -/
structure Contract (p : Program) extends Promise where
  ready : Nat → Nat → (VarId → Bool) → ExprId → Prop
  endless {depth S id} : ready 0 depth S id → faults .endless
  mono {levels depth S id} : ready levels depth S id → ready (levels + 1) depth S id
  node {levels depth S id} : ready (levels + 1) depth S id →
    toPromise.Reads (p.arena.node? id) fun node =>
      toPromise.Fits p (ready levels depth) S node.kind
  /-- A node that is ready may make a function over a ready body, wherever the other variables are
  bound. -/
  make {levels depth S id node params body name vs} {env : Environment} (stamp : Stamp) :
    ready (levels + 1) depth S id → p.arena.node? id = some node →
    node.kind = .lambda params body name → p.arena.vars? params = some vs →
    ready levels depth ((Label.lambda vs name).under S) body → env.Binds S →
    value (.function ⟨stamp, name, vs, body, env.capture⟩)
  /-- What the trace of a call shows of the function can be read. -/
  traced {f} : value (.function f) → toPromise.Reads (p.tracedName? f) fun _ => True
  /-- The body of a function is ready wherever the function may be called. -/
  call {levels depth S id f} : ready (levels + 1) depth S id → value (.function f) →
    depth < p.maxCallDepth → ∃ S', (Environment.ofCaptures f.captures).Binds S' ∧
      ready levels (depth + 1) ((Label.lambda f.params f.name).under S') f.body

namespace Contract

section
variable {p : Program} (c : Contract p) (hlimit : p.maxCallDepth < UInt64.size) {levels depth : Nat}
  {S : VarId → Bool} {id : ExprId} {env : Environment}
include hlimit

/-- What is ready is evaluated as promised if what is ready below it is, and the bodies of functions
one call deeper. -/
theorem step_keeps {ev body : ExprId → EvalM Value} (hready : c.ready (levels + 1) depth S id)
    (hbinds : env.Binds S)
    (hev : ∀ S env id, c.ready levels depth S id → env.Binds S →
      c.Keeps env depth (ev id) c.value)
    (hbody : depth < p.maxCallDepth → ∀ S env id, c.ready levels (depth + 1) S id →
      env.Binds S → c.Keeps env (depth + 1) (body id) c.value) :
    c.Keeps env depth (do nestedKind p ev body (← require (p.arena.node? id)).kind) c.value := by
  refine .bind (.reads (c.node hready).and_eq) fun node ⟨hnode, hfits⟩ => ?_
  refine Promise.nestedKind_keeps hbinds (fun id hid => c.node (c.mono hid)) hev hfits hlimit
    (fun params body name vs hkind hvs hbody stamp =>
      c.make stamp hready hnode hkind hvs hbody hbinds)
    (fun f => c.traced) fun f hf hdepth next => ?_
  obtain ⟨S', hS', hready'⟩ := c.call hready hf hdepth
  exact hbody hdepth _ _ _ hready' (hS'.under next (.lambda f.params f.name))

theorem evalWithin_keeps (hready : c.ready levels depth S id) (hbinds : env.Binds S) :
    c.Keeps env depth (p.evalWithin levels id) c.value := by
  induction levels generalizing depth S id env with
  | zero => exact fun _ _ => .fault (c.endless hready)
  | succ levels ih =>
    have hstep : p.evalWithin (levels + 1) id = (do
        nestedKind p (p.evalWithin levels) (p.evalWithin levels)
          (← require (p.arena.node? id)).kind) := by
      simp only [nestedKind_self]
      rfl
    rw [hstep]
    exact c.step_keeps hlimit hready hbinds (fun _ _ _ => ih) fun _ _ _ _ => ih

/-- So many calls as are left suffice. -/
theorem evalNested_keeps {calls : Nat} (hcalls : p.maxCallDepth ≤ depth + calls)
    (hready : c.ready levels depth S id) (hbinds : env.Binds S) :
    c.Keeps env depth (p.evalNested levels calls id) c.value := by
  induction levels generalizing calls depth S id env with
  | zero => exact fun _ _ => .fault (c.endless hready)
  | succ levels ih =>
    refine c.step_keeps hlimit hready hbinds (fun _ _ _ => ih hcalls) fun hdepth S env id => ?_
    cases calls with
    | zero => exact absurd hcalls (Nat.not_le_of_lt hdepth)
    | succ calls => exact ih (by omega)

end

end Contract

end Quotation
