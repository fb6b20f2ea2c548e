import Quotation.Proofs.Eval.Record

/-!
# What every record tells

A `RecordInvariant` states something about the record of an evaluation, what stops the evaluation,
and the heap that it leaves, under a contract. It is kept by what the interpreter does one after the
other, and by noting that an evaluation has begun and ended. `Tells` says that a recorded
computation keeps the promise of the contract and has a record of which the invariant holds; the
rules are the steps of the interpreter, put together in `RecordInvariant.evalKind_tells`, one case
for each kind of node, and in `RecordInvariant.recordedWithin_tells`, by induction on the levels.
What comes of it for an evaluation is `RecordInvariant.holds_log`.
-/

namespace Quotation

open EvalM (fail ofExcept require define readCell writeCell)

section
variable {α : Type}

/-- What an evaluation is stopped by, if it does not yield a value. -/
def stop? : EStateM.Result Stop Machine α → Option Stop
  | .ok _ _ => none
  | .error stop _ => some stop

/-- There is a value to go on with, if only a thrown one. -/
def GoesOn : Option Stop → Prop
  | none | some (.error (.thrown _)) => True
  | _ => False

@[simp] theorem stop?_backIn (env : Environment) (depth : Nat) (r : EStateM.Result Stop Machine α) :
    stop? (EvalM.backIn env depth r) = stop? r := by
  rcases r with _ | ⟨_ | _, _⟩ <;> rfl

@[simp] theorem finalHeap_backIn (env : Environment) (depth : Nat)
    (r : EStateM.Result Stop Machine α) : finalHeap (EvalM.backIn env depth r) = finalHeap r := by
  rcases r with _ | ⟨_ | _, _⟩ <;> rfl

end

/-- What is said of the records of all evaluations under the contract. -/
structure RecordInvariant {p : Program} (c : Contract p) where
  /-- These are the events of an evaluation that is so stopped, if at all, and leaves this heap. -/
  holds : List Event → Option Stop → Heap → Prop
  nothing (stop : Option Stop) (heap : Heap) : holds [] stop heap
  append {l l' : List Event} {stop stop' : Option Stop} {heap heap' : Heap} :
    holds l stop heap → GoesOn stop → holds l' stop' heap' → holds (l ++ l') stop' heap'
  wrote (cell : Cell) (v : Value) (heap : Heap) : holds [.wrote cell v] none heap
  /-- A function is made where such a node is ready. -/
  made {levels depth S id node params body name vs} : c.ready (levels + 1) depth S id →
    p.arena.node? id = some node → node.kind = .lambda params body name →
    p.arena.vars? params = some vs → ∀ stamp captures heap,
    holds [.made ⟨stamp, name, vs, body, captures⟩] none heap
  whole (id : ExprId) {l : List Event} {r : EStateM.Result Stop Machine Value} :
    holds l (stop? r) (finalHeap r) →
    holds (.began id :: (l ++ [.ended id r])) (stop? r) (finalHeap r)

namespace RecordInvariant

section
variable {p : Program} {c : Contract p} (i : RecordInvariant c)

/-- In this environment, so many calls deep, `x` keeps the promise and the invariant holds of its
record. -/
structure Tells (env : Environment) (depth : Nat) {α : Type} (x : Recorded α) (post : α → Prop) :
    Prop where
  keeps : c.Keeps env depth x.run post
  log : ∀ h, c.heap h → i.holds (x.log ⟨h, env, depth⟩) (stop? (x.run ⟨h, env, depth⟩))
    (finalHeap (x.run ⟨h, env, depth⟩))

end

section
variable {p : Program} {c : Contract p} {i : RecordInvariant c} {env : Environment} {depth : Nat}

/-! ## Rules -/

namespace Tells

variable {α β : Type} {x : Recorded α} {post : α → Prop}

theorem silent {x : EvalM α} (h : c.Keeps env depth x post) :
    i.Tells env depth (.silent x) post :=
  ⟨h, fun _ _ => i.nothing ..⟩

theorem pure {v : α} (hv : post v) : i.Tells env depth (pure v) post := silent (.pure hv)

theorem fail {e : EvalError} (he : c.error e) : i.Tells env depth (.silent (EvalM.fail e)) post :=
  silent (.fail he)

theorem noting {x : EvalM α} {events : α → List Event} {post' : α → Prop}
    (h : c.Keeps env depth x post)
    (hevents : ∀ v, post v → post' v ∧ ∀ heap, i.holds (events v) none heap) :
    i.Tells env depth (.noting x events) post' := by
  refine ⟨h.imp fun v hv => (hevents v hv).1, fun heap hheap => ?_⟩
  show i.holds _ (stop? (x _)) (finalHeap (x _))
  rcases (h heap hheap).cases with ⟨v, h', hr, -, hv⟩ | ⟨e, h', hr, -⟩ | ⟨f, m, hr, -⟩
  · rw [Recorded.log_noting_ok hr, hr]
    exact (hevents v hv).2 h'
  · rw [Recorded.log_noting_error hr]
    exact i.nothing ..
  · rw [Recorded.log_noting_error hr]
    exact i.nothing ..

theorem bind {f : α → Recorded β} {post' : β → Prop} (hx : i.Tells env depth x post)
    (hf : ∀ v, post v → i.Tells env depth (f v) post') : i.Tells env depth (x >>= f) post' := by
  refine ⟨.bind hx.keeps fun v hv => (hf v hv).keeps, fun heap hheap => ?_⟩
  have hlog := hx.log heap hheap
  rw [Recorded.run_bind]
  rcases (hx.keeps heap hheap).cases with
    ⟨v, h', hr, hh', hv⟩ | ⟨e, h', hr, -⟩ | ⟨f, m, hr, -⟩
  · rw [Recorded.log_bind_ok hr, EvalM.bind_ok hr]
    rw [hr] at hlog
    exact i.append hlog trivial ((hf v hv).log h' hh')
  · rw [Recorded.log_bind_error hr, EvalM.bind_error hr]
    rwa [hr] at hlog
  · rw [Recorded.log_bind_error hr, EvalM.bind_error hr]
    rwa [hr] at hlog

theorem scope {ι : Type} (var : ι → VarId) {val : ι → Value} {xs : List ι}
    (hval : ∀ i ∈ xs, c.value (val i))
    (hx : ∀ next, i.Tells (env.push.bindFrom next (xs.map var)) depth x post) :
    i.Tells env depth
      (Recorded.withScope do .silent (xs.forM fun i => define (var i) (val i)); x) post := by
  refine ⟨Promise.Keeps.scope var hval fun next => (hx next).keeps, fun heap hheap => ?_⟩
  have hheap' := Promise.heap_append hheap (List.forall_mem_map.2 hval)
  have hstays := ((hx heap.cells.size).keeps _ hheap').staysIn
  have hrun := EvalM.withScope_define heap env depth var val xs hstays
  have hlog := (hx heap.cells.size).log _ hheap'
  rw [Recorded.log_withScope_define]
  show i.holds _ (stop? (EvalM.withScope (do
    xs.forM fun i => define (var i) (val i)
    x.run) ⟨heap, env, depth⟩)) (finalHeap (EvalM.withScope (do
    xs.forM fun i => define (var i) (val i)
    x.run) ⟨heap, env, depth⟩))
  rw [hrun, stop?_backIn, finalHeap_backIn]
  exact hlog

theorem call (hlimit : p.maxCallDepth < UInt64.size) {ev : ExprId → Recorded Value} {f : Closure}
    {args : List Value} (hargs : ∀ v ∈ args, c.value v)
    (htraced : c.Reads (p.tracedName? f) fun _ => True)
    (hbody : depth < p.maxCallDepth → ∀ next,
      i.Tells (f.bodyEnv next) (depth + 1) (ev f.body) c.value) :
    i.Tells env depth (.callFunction p ev f args) c.value := by
  have hkeeps : c.Keeps env depth (Recorded.callFunction p ev f args).run c.value := by
    rw [Recorded.run_callFunction]
    exact .call hlimit hargs htraced fun hdepth next => (hbody hdepth next).keeps
  refine ⟨hkeeps, fun heap hheap => ?_⟩
  rw [Recorded.run_callFunction]
  by_cases hlen : args.length = f.params.length
  · by_cases hdepth : depth < p.maxCallDepth
    · cases hname : p.tracedName? f with
      | none =>
        rw [Recorded.log_callFunction_nil heap env depth ev fun _ _ => hname]
        exact i.nothing ..
      | some shown =>
        have hshown : (p.tracedName? f).isSome := hname ▸ rfl
        have hheap' := Promise.heap_append hheap hargs
        have htells := hbody hdepth heap.cells.size
        rw [Recorded.log_callFunction heap env depth hlimit ev hlen hdepth hshown,
          EvalM.callFunction_eq heap env depth hlimit _ hlen hdepth hshown
            (htells.keeps _ hheap').staysIn, stop?_backIn, finalHeap_backIn]
        exact htells.log _ hheap'
    · rw [Recorded.log_callFunction_nil heap env depth ev fun _ hlt => absurd hlt hdepth]
      exact i.nothing ..
  · rw [Recorded.log_callFunction_nil heap env depth ev fun heq => absurd heq hlen]
    exact i.nothing ..

theorem whole {x : Recorded Value} (id : ExprId) (hx : i.Tells env depth x c.value) :
    i.Tells env depth (.whole id x) c.value :=
  ⟨hx.keeps, fun heap hheap => i.whole id (hx.log heap hheap)⟩

/-- What is thrown is handed on, if it is a value that the promise is made of. -/
theorem catching {x : Recorded Value} {handle : Value → Recorded Value}
    (hx : i.Tells env depth x c.value)
    (hhandle : ∀ v, c.value v → i.Tells env depth (handle v) c.value) :
    i.Tells env depth (x.catching handle) c.value := by
  have hends : ∀ heap, c.heap heap →
      c.Ends env depth c.value ((x.catching handle).run ⟨heap, env, depth⟩) ∧
      i.holds ((x.catching handle).log ⟨heap, env, depth⟩)
        (stop? ((x.catching handle).run ⟨heap, env, depth⟩))
        (finalHeap ((x.catching handle).run ⟨heap, env, depth⟩)) := by
    intro heap hheap
    have hlog := hx.log heap hheap
    rw [Recorded.catching]
    dsimp only
    rcases (hx.keeps heap hheap).cases with
      ⟨v, h', hr, hh', hv⟩ | ⟨e, h', hr, hh', he⟩ | ⟨f, m, hr, hf⟩
    · rw [hr] at hlog ⊢
      exact ⟨.ok hh' hv, (List.append_nil _).symm ▸ hlog⟩
    · rw [hr] at hlog ⊢
      -- only after a throw is there more to come
      cases e with
      | thrown v =>
        exact ⟨(hhandle v he).keeps h' hh', i.append hlog trivial ((hhandle v he).log h' hh')⟩
      | _ => exact ⟨.error hh' he, (List.append_nil _).symm ▸ hlog⟩
    · rw [hr] at hlog ⊢
      exact ⟨.fault hf, (List.append_nil _).symm ▸ hlog⟩
  exact ⟨fun heap hheap => (hends heap hheap).1, fun heap hheap => (hends heap hheap).2⟩

end Tells

/-! ## Nodes -/

section
variable {ev : ExprId → Recorded Value} {id : ExprId}

theorem evalBool_tells (hev : i.Tells env depth (ev id) c.value) :
    i.Tells env depth (.evalBool ev id) fun _ => True := by
  refine .bind hev fun v _ => ?_
  cases v with
  | bool b => exact .pure trivial
  | _ => exact .fail trivial

theorem evalCell_tells (hev : i.Tells env depth (ev id) c.value) :
    i.Tells env depth (.evalCell ev id) fun _ => True := by
  refine .bind hev fun v _ => ?_
  cases v with
  | cell cell => exact .pure trivial
  | _ => exact .fail trivial

theorem evalSequence_tells {ids : List ExprId}
    (hev : ∀ id ∈ ids, i.Tells env depth (ev id) c.value) :
    i.Tells env depth (.evalSequence ev ids) c.value := by
  have hfold : ∀ v, c.value v →
      i.Tells env depth (ids.foldlM (fun _ id => ev id) v) c.value := by
    induction ids with
    | nil => exact fun v hv => .pure hv
    | cons id ids ih =>
      intro v _
      rw [List.foldlM_cons]
      exact .bind (hev id List.mem_cons_self) (ih fun j hj => hev j (List.mem_cons_of_mem id hj))
  exact hfold .unit (c.plain _ nofun)

theorem evalAll_tells {ids : List ExprId} (hev : ∀ id ∈ ids, i.Tells env depth (ev id) c.value) :
    i.Tells env depth (.evalAll ev ids) fun vs => ∀ v ∈ vs, c.value v := by
  induction ids with
  | nil => exact .pure (by simp)
  | cons id ids ih =>
    refine .bind (hev id List.mem_cons_self) fun v hv => ?_
    refine .bind (ih fun j hj => hev j (List.mem_cons_of_mem id hj)) fun vs hvs => ?_
    exact .pure (List.forall_mem_cons.2 ⟨hv, hvs⟩)

theorem handle_tells {thrown : Value} (hthrown : c.value thrown) {hs : List Handler}
    (hev : ∀ h ∈ hs, ∀ id ∈ h.exprs, ∀ next,
      i.Tells (env.push.bindFrom next h.caught.toList) depth (ev id) c.value) :
    i.Tells env depth (.handle ev thrown hs) c.value := by
  induction hs with
  | nil => exact .fail hthrown
  | cons h hs ih =>
    have hbody : ∀ next,
        i.Tells (env.push.bindFrom next h.caught.toList) depth (ev h.body) c.value :=
      hev h List.mem_cons_self h.body List.mem_cons_self
    have hfilter : ∀ next, i.Tells (env.push.bindFrom next h.caught.toList) depth
        (.evalFilter ev h) fun _ => True := by
      intro next
      rw [Recorded.evalFilter]
      cases hf : h.filter with
      | none => exact .pure trivial
      | some filter =>
        have hmem : filter ∈ h.exprs := List.mem_cons_of_mem _ (by simp [hf])
        exact evalBool_tells (hev h List.mem_cons_self filter hmem next)
    have htry : i.Tells env depth (.tryHandler ev thrown h)
        fun o => ∀ v, o = some v → c.value v := by
      rw [Recorded.tryHandler_eq]
      refine .scope (fun v => v) (fun _ _ => hthrown) fun next => ?_
      rw [List.map_id']
      refine .bind (hfilter next) fun b _ => ?_
      cases b with
      | false => exact .pure (by simp)
      | true => exact .bind (hbody next) fun v hv => .pure fun w hw => Option.some.inj hw ▸ hv
    rw [Recorded.handle]
    refine .bind htry fun o ho => ?_
    cases o with
    | none => exact ih fun h' hh' => hev h' (List.mem_cons_of_mem h hh')
    | some v => exact .pure (ho v rfl)

theorem evalBlock_tells {locals : Slice VarId} {body : Slice ExprId}
    (hev : c.Reads (p.arena.vars? locals) fun vs => c.Reads (p.arena.exprs? body) fun ids =>
      ∀ id ∈ ids, ∀ next, i.Tells (env.push.bindFrom next vs) depth (ev id) c.value) :
    i.Tells env depth (.evalBlock p ev locals body) c.value := by
  rw [Recorded.evalBlock]
  cases hvs : p.arena.vars? locals with
  | none =>
    rw [hvs] at hev
    exact ⟨fun _ _ => .fault hev, fun _ _ => i.nothing ..⟩
  | some vs =>
    rw [hvs] at hev
    refine Tells.scope (fun v => v) (fun _ _ => c.plain .unit (by simp)) fun next => ?_
    rw [List.map_id']
    refine .bind (.silent (.reads hev)) fun ids hids => ?_
    exact evalSequence_tells fun id hid => hids id hid next

section
variable {S : VarId → Bool} {R : (VarId → Bool) → ExprId → Prop} (hbinds : env.Binds S)
  (htarget : ∀ id, R S id → c.Reads (p.arena.node? id) fun node => c.Fits p R S node.kind)
  (hev : ∀ S env id, R S id → env.Binds S → i.Tells env depth (ev id) c.value)
include hbinds htarget hev

theorem evalTarget_tells (hid : R S id) :
    i.Tells env depth (.evalTarget p ev id) fun _ => True := by
  refine .bind (.silent (.reads (htarget id hid))) fun node hnode => ?_
  cases hkind : node.kind with
  | var v =>
    rw [hkind] at hnode
    exact .silent (Promise.lookup_keeps hbinds hnode)
  | content receiver =>
    rw [hkind] at hnode
    exact evalCell_tells (hev S env receiver hnode hbinds)
  | _ => exact .fail trivial

/-- A node is recorded as the invariant says if the nodes below it and the bodies of the functions
that it calls are, and the functions that it makes may be made. -/
theorem evalKind_tells {kind : Kind} (hfits : c.Fits p R S kind)
    (hlimit : p.maxCallDepth < UInt64.size)
    (hmake : ∀ params body name vs, kind = .lambda params body name →
      p.arena.vars? params = some vs → R ((Label.lambda vs name).under S) body → ∀ stamp,
      c.value (.function ⟨stamp, name, vs, body, env.capture⟩) ∧
        ∀ heap, i.holds [.made ⟨stamp, name, vs, body, env.capture⟩] none heap)
    (htraced : ∀ f, c.value (.function f) → c.Reads (p.tracedName? f) fun _ => True)
    (hcall : ∀ f, c.value (.function f) → depth < p.maxCallDepth → ∀ next,
      i.Tells (f.bodyEnv next) (depth + 1) (ev f.body) c.value) :
    i.Tells env depth (.evalKind p ev kind) c.value := by
  cases kind with
  | unit => exact .pure (c.plain _ nofun)
  | int n => exact .pure (c.plain _ nofun)
  | bool b => exact .pure (c.plain _ nofun)
  | var v => exact .silent (.bind (Promise.lookup_keeps hbinds hfits) fun cell _ => .read cell)
  | binary op left right =>
    refine .bind (hev _ _ _ hfits.1 hbinds) fun left _ => ?_
    refine .bind (hev _ _ _ hfits.2 hbinds) fun right _ => ?_
    exact .silent (Promise.apply_keeps op left right)
  | assign target value =>
    refine .bind (hev _ _ _ hfits.2 hbinds) fun value hvalue => ?_
    refine .bind (evalTarget_tells hbinds htarget hev hfits.1) fun cell _ => ?_
    have hwrite : i.Tells env depth (.noting (writeCell cell value) fun _ => [.wrote cell value])
        fun _ => True := .noting (.write cell hvalue) fun _ _ => ⟨trivial, i.wrote cell value⟩
    exact .bind hwrite fun _ _ => .pure hvalue
  | cond test yes no =>
    refine .bind (evalBool_tells (hev _ _ _ hfits.1 hbinds)) fun b _ => ?_
    cases b with
    | true => exact hev _ _ _ hfits.2.1 hbinds
    | false => exact hev _ _ _ hfits.2.2 hbinds
  | block locals body =>
    refine evalBlock_tells (hfits.imp fun vs hvs => hvs.imp fun ids hids id hid next => ?_)
    exact hev _ _ _ (hids id hid) (hbinds.under next (.block vs))
  | lambda params body name =>
    have hbody : c.Reads (p.arena.vars? params) fun vs => ∀ stamp,
        c.value (.function ⟨stamp, name, vs, body, env.capture⟩) ∧
          ∀ heap, i.holds [.made ⟨stamp, name, vs, body, env.capture⟩] none heap :=
      hfits.and_eq.imp fun vs ⟨hvs, hbody⟩ => hmake params body name vs rfl hvs hbody
    have hkeeps : c.Keeps env depth (makeClosure p params body name) fun v =>
        c.value v ∧ ∀ heap, i.holds (Recorded.madeBy v) none heap :=
      .bind (.reads hbody) fun vs hvs heap hheap => .ok hheap (hvs _)
    exact .noting hkeeps fun _ => id
  | call callee args =>
    refine .bind (hev _ _ _ hfits.1 hbinds) fun callee hcallee => ?_
    refine .bind (.silent (.reads hfits.2)) fun ids hids => ?_
    refine .bind (evalAll_tells fun id hid => hev _ _ _ (hids id hid) hbinds) fun args hargs => ?_
    cases callee with
    | function f => exact .call hlimit hargs (htraced f hcallee) (hcall f hcallee)
    | builtin b => exact .silent (Promise.callBuiltin_keeps b args)
    | _ => exact .fail trivial
  | attempt body handlers =>
    refine .catching (hev _ _ _ hfits.1 hbinds) fun v hv => ?_
    refine .bind (.silent (.reads hfits.2)) fun hs hhs => handle_tells hv fun h hh id hid next => ?_
    exact hev _ _ _ (hhs h hh id hid) (hbinds.under next (.handler h.caught))
  | throw value => exact .bind (hev _ _ _ hfits hbinds) fun v hv => .fail hv
  | constant k => exact .silent (.reads hfits)
  | content receiver =>
    exact .bind (evalCell_tells (hev _ _ _ hfits hbinds)) fun cell _ => .silent (.read cell)
  | cellList vars =>
    refine .silent (.bind (.reads hfits) fun vs hvs => ?_)
    refine .bind (.mapM fun v hv => Promise.lookup_keeps hbinds (hvs v hv)) fun cells _ => ?_
    exact .bind .stamp fun _ _ => .pure (c.plain _ nofun)

end

end

end

section
variable {p : Program} {c : Contract p} (i : RecordInvariant c)
  (hlimit : p.maxCallDepth < UInt64.size) {levels depth : Nat} {S : VarId → Bool} {id : ExprId}
  {env : Environment}
include hlimit

/-- What is ready is recorded as the invariant says. -/
theorem recordedWithin_tells (hready : c.ready levels depth S id) (hbinds : env.Binds S) :
    i.Tells env depth (p.recordedWithin levels id) c.value := by
  induction levels generalizing depth S id env with
  | zero => exact .whole id (.silent fun _ _ => .fault (c.endless hready))
  | succ levels ih =>
    refine .whole id (.bind (.silent (.reads (c.node hready).and_eq)) fun node ⟨hnode, hfits⟩ => ?_)
    refine evalKind_tells hbinds (fun id hid => c.node (c.mono hid)) (fun _ _ _ => ih) hfits hlimit
      (fun params body name vs hkind hvs hbody stamp => ?_) (fun f => c.traced)
      fun f hf hdepth next => ?_
    · exact ⟨c.make stamp hready hnode hkind hvs hbody hbinds,
        i.made hready hnode hkind hvs stamp _⟩
    · obtain ⟨S', hS', hready'⟩ := c.call hready hf hdepth
      exact ih hready' (hS'.under next (.lambda f.params f.name))

/-- The invariant holds of the record of the evaluation, what stops it, and what it leaves. -/
theorem holds_log {m : Machine} (hready : c.ready levels m.callDepth (fun _ => false) id)
    (hheap : c.heap m.heap) :
    i.holds ((p.recordedWithin levels id).log m) (stop? (p.evalWithin levels id m))
      (finalHeap (p.evalWithin levels id m)) := by
  have htells : i.Tells m.env m.callDepth (p.recordedWithin levels id) c.value :=
    i.recordedWithin_tells hlimit hready fun _ hv => absurd hv Bool.false_ne_true
  have hlog := htells.log m.heap hheap
  rwa [p.run_recordedWithin] at hlog

end

end RecordInvariant

end Quotation
