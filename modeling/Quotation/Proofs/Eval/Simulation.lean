import Quotation.Proofs.Capture.Materialize
import Quotation.Proofs.Eval.Alike
import Quotation.Proofs.Eval.Restore

/-!
# Alike fragments are evaluated alike

`Likeness.Kinds` and `Likeness.Nodes` say what two nodes have in common where they are evaluated
alike: they do the same with children that correspond, or the right one stands for a reference to
captured variables. `Likeness.Lawful` says that only such nodes correspond and that all constants
are known. The rules of `Likeness.Alike` are put together in `evalKind_alike`, one case for each
kind of node, and `Lawful.evaluate` goes on to all levels.

Both evaluations are watched: one of them stops before it compares two lists that are the same only
on the right (`Likeness.Guarded`).
-/

namespace Quotation

open EvalM

/-! ## What a variable of a list denotes -/

/-- For a variable of a list both sides have the cell that it denotes on the right. -/
theorem Shared.exists_denoted {frames : List Frame} {storages : List Storage} {S : VarId → Bool}
    {env env' : Environment} (h : Shared frames storages S env.lookup env'.lookup) {u v : VarId}
    (hu : S u = false) (hresolved : S v = false → (cellOf frames storages v).isSome) :
    ∃ c, env.lookup v = some c ∧ denoted frames storages S env' v = some c := by
  cases hS : S v with
  | true =>
    obtain ⟨c, hc⟩ := Option.isSome_iff_exists.1 (h.bound hu hS)
    exact ⟨c, hc, by rw [denoted_of_declared hS, ← h.declared hS, hc]⟩
  | false =>
    obtain ⟨c, hc⟩ := Option.isSome_iff_exists.1 (hresolved hS)
    exact ⟨c, h.captured hS hc, by rw [denoted_of_captured hS, hc]⟩

namespace Likeness

/-! ## Nodes -/

section
variable {p : Program} (l : Likeness p)

/-- Nodes of these kinds do the same with children that correspond. -/
inductive Kinds (S : VarId → Bool) : Kind → Kind → Prop where
  | unit : Kinds S .unit .unit
  | int (n : Int64) : Kinds S (.int n) (.int n)
  | bool (b : Bool) : Kinds S (.bool b) (.bool b)
  | var {v : VarId} (declared : S v = true) : Kinds S (.var v) (.var v)
  | binary (op : BinaryOp) {left right left' right' : ExprId} (hleft : l.node S left left')
    (hright : l.node S right right') : Kinds S (.binary op left right) (.binary op left' right')
  | assign {target value target' value' : ExprId} (htarget : l.node S target target')
    (hvalue : l.node S value value') : Kinds S (.assign target value) (.assign target' value')
  | cond {test yes no test' yes' no' : ExprId} (htest : l.node S test test')
    (hyes : l.node S yes yes') (hno : l.node S no no') :
    Kinds S (.cond test yes no) (.cond test' yes' no')
  | block {locals locals' : Slice VarId} {body body' : Slice ExprId}
    (vars : p.arena.vars? locals' = p.arena.vars? locals)
    (below : ∀ vs, p.arena.vars? locals = some vs →
      Option.Rel (List.Forall₂ (l.node ((Label.block vs).under S)))
        (p.arena.exprs? body) (p.arena.exprs? body')) :
    Kinds S (.block locals body) (.block locals' body')
  | lambda {params params' : Slice VarId} {body body' : ExprId} {name : Option VarId}
    (vars : p.arena.vars? params' = p.arena.vars? params)
    (below : ∀ vs, p.arena.vars? params = some vs →
      l.node ((Label.lambda vs name).under S) body body') :
    Kinds S (.lambda params body name) (.lambda params' body' name)
  | call {callee callee' : ExprId} {args args' : Slice ExprId} (hcallee : l.node S callee callee')
    (hargs : Option.Rel (List.Forall₂ (l.node S)) (p.arena.exprs? args) (p.arena.exprs? args')) :
    Kinds S (.call callee args) (.call callee' args')
  | attempt {body body' : ExprId} {handlers handlers' : Slice Handler}
    (hbody : l.node S body body')
    (hhandlers : Option.Rel
      (List.Forall₂ fun h k => RewrittenBranch l.node S (.handler h) (.handler k))
      (p.arena.handlers? handlers) (p.arena.handlers? handlers')) :
    Kinds S (.attempt body handlers) (.attempt body' handlers')
  | throw {value value' : ExprId} (hvalue : l.node S value value') :
    Kinds S (.throw value) (.throw value')
  | constant {k k' : ConstantId} (value : p.pool.get? k' = p.pool.get? k) :
    Kinds S (.constant k) (.constant k')
  | content {receiver receiver' : ExprId} (hreceiver : l.node S receiver receiver') :
    Kinds S (.content receiver) (.content receiver')
  | cellList {vars vars' : Slice VarId} (read : p.arena.vars? vars' = p.arena.vars? vars)
    (declared : ∀ vs, p.arena.vars? vars = some vs → ∀ v ∈ vs, S v = true) :
    Kinds S (.cellList vars) (.cellList vars')

/-- The node `id'` does the same as `id` with children that correspond, or it stands for a reference
to captured variables. -/
inductive Nodes (S : VarId → Bool) (id id' : ExprId) : Prop where
  | same (kinds : Option.Rel (fun n n' => l.Kinds S n.kind n'.kind)
      (p.arena.node? id) (p.arena.node? id'))
  | cell (loose : ¬l.exact) {v : VarId} {span : Span} {c : Cell}
    (node : p.arena.node? id = some ⟨.var v, span⟩) (free : S v = false)
    (resolved : cellOf l.frames l.storages v = some c)
    (tree : Represents p.arena p.pool 2 id' (cellTree span c))
  | list (loose : ¬l.exact) {slice : Slice VarId} {vars : List VarId} {span : Span} {stamp : Stamp}
    (node : p.arena.node? id = some ⟨.cellList slice, span⟩)
    (read : p.arena.vars? slice = some vars) (captured : ∃ v ∈ vars, S v = false)
    (resolved : ∀ v ∈ vars, S v = false → (cellOf l.frames l.storages v).isSome)
    (routable : Routable S vars)
    (tree : Represents p.arena p.pool 2 id' (listTree l.frames l.storages S stamp span vars))
    (stands : ∀ s cells m, l.base ≤ s → m.stamp = stamp →
      (∃ k, p.pool.get? k = some (.cellList m)) → l.stands (.direct s cells) m)

structure Lawful : Prop where
  node {S : VarId → Bool} {id id' : ExprId} : l.node S id id' → l.Nodes S id id'
  known {k : ConstantId} {v : Value} : p.pool.get? k = some v → l.Known v

/-- Nodes that correspond are evaluated alike where the declared variables have the same cells. -/
def Evaluate (ev ev' : ExprId → EvalM Value) : Prop :=
  ∀ {r : Renaming l.base} {env env' : Environment} {depth : Nat} {S : VarId → Bool}
    {id id' : ExprId}, l.node S id id' →
    Shared l.frames l.storages S env.lookup env'.lookup →
    l.Alike r env env' depth (ev id) (ev' id') l.Values

end

/-! ## What they do -/

section
variable {p : Program} {l : Likeness p} {r : Renaming l.base} {env env' : Environment}
  {depth : Nat} {S : VarId → Bool} {id id' : ExprId} {watch : Watch}

/-- A node of the same label whose branches correspond, and which refers to declared variables only,
does the same. -/
theorem kinds_of_view? {kind kind' : Kind} {label : Label} {branches branches' : List Branch}
    (hview : p.arena.view? p.pool kind = some (label, branches))
    (hview' : p.arena.view? p.pool kind' = some (label, branches'))
    (hrefers : ∀ v ∈ label.refers, S v = true)
    (hbranches : List.Forall₂ (RewrittenBranch l.node (label.under S)) branches branches') :
    l.Kinds S kind kind' := by
  have hkind := kind_of_view? hview
  have hkind' := kind_of_view? hview'
  cases label with
  | unit =>
    obtain ⟨rfl, -⟩ := hkind
    obtain ⟨rfl, -⟩ := hkind'
    exact .unit
  | int n =>
    obtain ⟨rfl, -⟩ := hkind
    obtain ⟨rfl, -⟩ := hkind'
    exact .int n
  | bool b =>
    obtain ⟨rfl, -⟩ := hkind
    obtain ⟨rfl, -⟩ := hkind'
    exact .bool b
  | var v =>
    obtain ⟨rfl, -⟩ := hkind
    obtain ⟨rfl, -⟩ := hkind'
    exact .var (hrefers v List.mem_cons_self)
  | binary op =>
    obtain ⟨left, right, rfl, rfl⟩ := hkind
    obtain ⟨left', right', rfl, rfl⟩ := hkind'
    obtain ⟨hleft, hbranches⟩ := List.forall₂_cons.1 hbranches
    obtain ⟨hright, -⟩ := List.forall₂_cons.1 hbranches
    exact .binary op hleft hright
  | assign =>
    obtain ⟨target, value, rfl, rfl⟩ := hkind
    obtain ⟨target', value', rfl, rfl⟩ := hkind'
    obtain ⟨htarget, hbranches⟩ := List.forall₂_cons.1 hbranches
    obtain ⟨hvalue, -⟩ := List.forall₂_cons.1 hbranches
    exact .assign htarget hvalue
  | cond =>
    obtain ⟨test, yes, no, rfl, rfl⟩ := hkind
    obtain ⟨test', yes', no', rfl, rfl⟩ := hkind'
    obtain ⟨htest, hbranches⟩ := List.forall₂_cons.1 hbranches
    obtain ⟨hyes, hbranches⟩ := List.forall₂_cons.1 hbranches
    obtain ⟨hno, -⟩ := List.forall₂_cons.1 hbranches
    exact .cond htest hyes hno
  | block vs =>
    obtain ⟨locals, body, ids, rfl, hvs, hids, rfl⟩ := hkind
    obtain ⟨locals', body', ids', rfl, hvs', hids', rfl⟩ := hkind'
    refine .block (hvs'.trans hvs.symm) fun ws hws => ?_
    obtain rfl := Option.some.inj (hvs.symm.trans hws)
    rw [hids, hids']
    exact .some (forall₂_rewrittenBranch_expr.1 hbranches)
  | lambda vs name =>
    obtain ⟨params, body, rfl, hvs, rfl⟩ := hkind
    obtain ⟨params', body', rfl, hvs', rfl⟩ := hkind'
    refine .lambda (hvs'.trans hvs.symm) fun ws hws => ?_
    obtain rfl := Option.some.inj (hvs.symm.trans hws)
    exact (List.forall₂_cons.1 hbranches).1
  | call =>
    obtain ⟨callee, args, ids, rfl, hids, rfl⟩ := hkind
    obtain ⟨callee', args', ids', rfl, hids', rfl⟩ := hkind'
    obtain ⟨hcallee, hargs⟩ := List.forall₂_cons.1 hbranches
    refine .call hcallee ?_
    rw [hids, hids']
    exact .some (forall₂_rewrittenBranch_expr.1 hargs)
  | attempt =>
    obtain ⟨body, handlers, hs, rfl, hhs, rfl⟩ := hkind
    obtain ⟨body', handlers', hs', rfl, hhs', rfl⟩ := hkind'
    obtain ⟨hbody, hhandlers⟩ := List.forall₂_cons.1 hbranches
    refine .attempt hbody ?_
    rw [hhs, hhs']
    exact .some (List.forall₂_map_right_iff.1 (List.forall₂_map_left_iff.1 hhandlers))
  | throw =>
    obtain ⟨value, rfl, rfl⟩ := hkind
    obtain ⟨value', rfl, rfl⟩ := hkind'
    exact .throw (List.forall₂_cons.1 hbranches).1
  | constant v =>
    obtain ⟨k, rfl, hk, -⟩ := hkind
    obtain ⟨k', rfl, hk', -⟩ := hkind'
    exact .constant (hk'.trans hk.symm)
  | content =>
    obtain ⟨receiver, rfl, rfl⟩ := hkind
    obtain ⟨receiver', rfl, rfl⟩ := hkind'
    exact .content (List.forall₂_cons.1 hbranches).1
  | cellList vs =>
    obtain ⟨vars, rfl, hvs, -⟩ := hkind
    obtain ⟨vars', rfl, hvs', -⟩ := hkind'
    refine .cellList (hvs'.trans hvs.symm) fun ws hws => ?_
    obtain rfl := Option.some.inj (hvs.symm.trans hws)
    exact hrefers
  | handler caught => exact hkind.elim

/-- What both sides read is the same. -/
theorem Alike.reads {α : Type} (o : Option α) :
    l.Alike r env env' depth (EvalM.require o) (EvalM.require o)
      fun _ x y => o = some x ∧ y = x := by
  cases o with
  | none => exact fun _ _ _ _ _ => .fault
  | some x => exact .pure fun _ _ => ⟨rfl, rfl⟩

theorem lookup_alike (hshared : Shared l.frames l.storages S env.lookup env'.lookup) {v : VarId}
    (hv : S v = true) :
    l.Alike r env env' depth (lookup p v) (lookup p v) fun _ c d => c = d := by
  intro r' hr h h' hh
  have hsame := hshared.declared hv
  cases hcell : env.lookup v with
  | some c =>
    rw [lookup_eq hcell, lookup_eq (hsame ▸ hcell)]
    exact .ok (.refl r') hh rfl
  | none =>
    rw [lookup_eq_of_none hcell, lookup_eq_of_none (hsame ▸ hcell)]
    refine Alike.bind (.reads _) (fun _ _ name _ hname => ?_) r' (.refl r') h h' hh
    rw [hname.2]
    exact .fail (.same nofun)

section
variable {ev ev' : ExprId → EvalM Value}

theorem evalBool_alike (hev : l.Alike r env env' depth (ev id) (ev' id') l.Values) :
    l.Alike r env env' depth (evalBool ev id) (evalBool ev' id') fun _ b c => b = c := by
  refine .bind hev fun r₁ _ v w hv => ?_
  cases hv with
  | bool b => exact .pure fun _ _ => rfl
  | _ => exact .fail (.same nofun)

theorem evalCell_alike (hev : l.Alike r env env' depth (ev id) (ev' id') l.Values) :
    l.Alike r env env' depth (evalCell ev id) (evalCell ev' id') fun _ c d => c = d := by
  refine .bind hev fun r₁ _ v w hv => ?_
  cases hv with
  | cell c => exact .pure fun _ _ => rfl
  | _ => exact .fail (.same nofun)

theorem evalSequence_alike {ids ids' : List ExprId}
    (hev : List.Forall₂ (fun id id' => ∀ r, l.Alike r env env' depth (ev id) (ev' id') l.Values)
      ids ids') :
    l.Alike r env env' depth (evalSequence ev ids) (evalSequence ev' ids') l.Values := by
  have hfold : ∀ r v w, l.Values r v w → l.Alike r env env' depth
      (ids.foldlM (fun _ id => ev id) v) (ids'.foldlM (fun _ id => ev' id) w) l.Values := by
    induction hev with
    | nil => exact fun r v w hv => .pure fun _ hr => hv.grows hr
    | cons hid _ ih =>
      intro r v w _
      rw [List.foldlM_cons, List.foldlM_cons]
      exact .bind (hid r) fun r₁ _ => ih r₁
  exact hfold r .unit .unit .unit

theorem arithmetic_alike (op : BinaryOp) (n : Int) :
    l.Alike r env env' depth (ofExcept (op.arithmetic n)) (ofExcept (op.arithmetic n))
      l.Values := by
  rw [BinaryOp.arithmetic]
  cases word? n with
  | some w => exact .pure fun _ _ => .int w
  | none => exact .fail (.same (by simp))

/-- Operators do the same with corresponding values, unless one side stops to compare them. -/
theorem apply_alike (hguarded : l.Guarded watch) {v w v' w' : Value} (hv : l.Values r v v')
    (hw : l.Values r w w') (op : BinaryOp) (hsure : op = .eq →
      v.watched watch.left w = false ∧ v'.watched watch.right w' = false) :
    l.Alike r env env' depth (ofExcept (op.apply v w)) (ofExcept (op.apply v' w')) l.Values := by
  by_cases heq : op = .eq
  · subst heq
    have hsame := hv.same hguarded hw (hsure rfl).1 (hsure rfl).2
    show l.Alike r env env' depth (Pure.pure (Value.bool (v.same w)))
      (Pure.pure (Value.bool (v'.same w'))) l.Values
    rw [hsame]
    exact .pure fun _ _ => .bool _
  · cases hv with
    | int m =>
      cases hw with
      | int n =>
        cases op with
        | add | sub | mul => exact arithmetic_alike _ _
        | lt => exact .pure fun _ _ => .bool _
        | eq => exact absurd rfl heq
      | _ => cases op <;> first | exact absurd rfl heq | exact .fail (.same nofun)
    | _ => cases op <;> first | exact absurd rfl heq | exact .fail (.same nofun)

/-- Lists that correspond are merged to lists that correspond. -/
theorem Lists.merged {m n m' n' : CellList} {s t : Stamp} (hm : l.Lists r m m')
    (hn : l.Lists r n n') (hs : s < r.left) (hst : r.map s = t) (ht : l.base ≤ t)
    (codes : Array Int64) : l.Lists r (.merged s m n codes) (.merged t m' n' codes) := by
  refine .new hs hst ht rfl fun i => ?_
  cases hraw : codes[i]? with
  | none => rw [CellList.locate_past hraw, CellList.locate_past hraw]
  | some raw =>
    cases hroute : Route.decode raw with
    | first j =>
      rw [CellList.locate_first hraw hroute, CellList.locate_first hraw hroute, hm.locate]
    | second j =>
      rw [CellList.locate_second hraw hroute, CellList.locate_second hraw hroute, hn.locate]

theorem callBuiltin_alike (b : Builtin) {args args' : List Value}
    (hargs : List.Forall₂ (l.Values r) args args') :
    l.Alike r env env' depth (callBuiltin b args) (callBuiltin b args') l.Values := by
  cases b with
  | mergeVariables =>
    obtain _ | ⟨hfirst, _ | ⟨hsecond, _ | ⟨hrouting, _ | ⟨_, hrest⟩⟩⟩⟩ := hargs
    · exact .fail (.same nofun)
    · exact .fail (.same nofun)
    · exact .fail (.same nofun)
    · cases hfirst with
      | cellList hm =>
        cases hsecond with
        | cellList hn =>
          cases hrouting with
          | routing codes =>
            refine .bind .stamp fun r₁ hr₁ s t hst => .pure fun r₂ hr₂ => .cellList ?_
            exact ((hm.grows hr₁).merged (hn.grows hr₁) hst.1 hst.2.1 hst.2.2 codes).grows hr₂
          | _ => exact .fail (.same nofun)
        | _ => exact .fail (.same nofun)
      | _ => exact .fail (.same nofun)
    · have hlen := hrest.length_eq
      show l.Alike r env env' depth (EvalM.fail (.arityMismatch _ _))
        (EvalM.fail (.arityMismatch _ _)) l.Values
      simp only [List.length_cons, hlen]
      exact .fail (.same nofun)

theorem callValue_alike (hlimit : p.maxCallDepth < UInt64.size) (hev : l.Evaluate ev ev')
    {callee callee' : Value} (hcallee : l.Values r callee callee') {args args' : List Value}
    (hargs : List.Forall₂ (l.Values r) args args') :
    l.Alike r env env' depth (callValue p ev callee args) (callValue p ev' callee' args')
      l.Values := by
  cases hcallee with
  | function hf =>
    rename_i f g
    refine .call hlimit hf.name hf.params hargs fun _ next => ?_
    obtain ⟨S, hbody, hshared⟩ := hf.body
    rw [← Environment.lookup_ofCaptures f.captures, ← Environment.lookup_ofCaptures] at hshared
    rw [Closure.bodyEnv, Closure.bodyEnv, hf.params]
    exact hev hbody (hshared.under next (.lambda f.params f.name))
  | builtin b => exact callBuiltin_alike b hargs
  | _ => exact .fail (.same nofun)

theorem handle_alike (hev : l.Evaluate ev ev')
    (hshared : Shared l.frames l.storages S env.lookup env'.lookup) {v w : Value}
    (hthrown : l.Values r v w) {hs ks : List Handler}
    (hhandlers : List.Forall₂ (fun h k => RewrittenBranch l.node S (.handler h) (.handler k))
      hs ks) :
    l.Alike r env env' depth (handle ev v hs) (handle ev' w ks) l.Values := by
  induction hhandlers generalizing r with
  | nil => exact .fail (.thrown hthrown)
  | cons hhandler _ ih =>
    rename_i h k hs ks _
    obtain ⟨hcaught, hexprs⟩ := hhandler
    obtain ⟨hbody, hfilter⟩ := List.forall₂_cons.1 hexprs
    have hunder := fun next => hshared.under next (.handler h.caught)
    have hfilters : ∀ next, l.Alike r (env.push.bindFrom next h.caught.toList)
        (env'.push.bindFrom next h.caught.toList) depth (evalFilter ev h) (evalFilter ev' k)
        fun _ b c => b = c := by
      intro next
      rw [evalFilter, evalFilter]
      cases hh : h.filter with
      | none =>
        rw [hh] at hfilter
        cases hk : k.filter with
        | none => exact .pure fun _ _ => rfl
        | some filter' =>
          rw [hk] at hfilter
          cases hfilter
      | some filter =>
        rw [hh] at hfilter
        cases hk : k.filter with
        | none =>
          rw [hk] at hfilter
          cases hfilter
        | some filter' =>
          rw [hk] at hfilter
          exact evalBool_alike (hev (List.forall₂_cons.1 hfilter).1 (hunder next))
    have htry : l.Alike r env env' depth (tryHandler ev v h) (tryHandler ev' w k)
        fun r' => Option.Rel (l.Values r') := by
      rw [tryHandler_eq, tryHandler_eq, hcaught]
      refine .scope (fun v => v) (fun _ => hthrown) fun next => ?_
      rw [List.map_id']
      refine .bind (hfilters next) fun r₁ _ b c hbc => ?_
      subst hbc
      cases b with
      | false => exact .pure fun _ _ => .none
      | true =>
        refine .bind (hev hbody (hunder next)) fun r₂ _ v w hv => ?_
        exact .pure fun _ hr => .some (hv.grows hr)
    rw [handle, handle]
    refine .bind htry fun r₁ hr₁ o o' ho => ?_
    cases ho with
    | none => exact ih (hthrown.grows hr₁)
    | some hv => exact .pure fun _ hr => hv.grows hr

theorem evalAttempt_alike (hev : l.Evaluate ev ev')
    (hshared : Shared l.frames l.storages S env.lookup env'.lookup) {body body' : ExprId}
    {handlers handlers' : Slice Handler} (hbody : l.node S body body')
    (hhandlers : Option.Rel
      (List.Forall₂ fun h k => RewrittenBranch l.node S (.handler h) (.handler k))
      (p.arena.handlers? handlers) (p.arena.handlers? handlers')) :
    l.Alike r env env' depth (evalAttempt p ev body handlers) (evalAttempt p ev' body' handlers')
      l.Values := by
  intro r' _ h h' hh
  rw [evalAttempt, evalAttempt]
  rcases (hev hbody hshared r' (.refl r') h h' hh).cases with
    ⟨r₁, v, w, h₁, h₁', hr₁, hh₁, hv, hx, hy⟩ | ⟨r₁, e, e', h₁, h₁', hr₁, hh₁, he, hx, hy⟩ |
    ⟨f, m, m', hx, hy⟩ | ⟨hloose, ⟨m, hx⟩ | ⟨m', hy⟩⟩
  · rw [hx, hy]
    exact .ok hr₁ hh₁ hv
  · rw [hx, hy]
    cases he with
    | thrown hv =>
      refine Ends.of_grows hr₁ (Alike.bind (.require hhandlers) (fun r₂ hr₂ hs ks hhs => ?_) r₁
        (.refl r₁) h₁ h₁' hh₁)
      exact handle_alike hev hshared (hv.grows hr₂) hhs
    | same he =>
      cases e with
      | thrown v => exact absurd rfl (he v)
      | _ => exact .error hr₁ hh₁ (.same he)
  · rw [hx, hy]
    exact .fault
  · rw [hx]
    exact .left hloose
  · rw [hy]
    exact .right hloose

theorem evalBlock_alike (hev : l.Evaluate ev ev')
    (hshared : Shared l.frames l.storages S env.lookup env'.lookup) {locals locals' : Slice VarId}
    {body body' : Slice ExprId} (hvars : p.arena.vars? locals' = p.arena.vars? locals)
    (hbelow : ∀ vs, p.arena.vars? locals = some vs →
      Option.Rel (List.Forall₂ (l.node ((Label.block vs).under S)))
        (p.arena.exprs? body) (p.arena.exprs? body')) :
    l.Alike r env env' depth (evalBlock p ev locals body) (evalBlock p ev' locals' body')
      l.Values := by
  rw [evalBlock, evalBlock, hvars]
  cases hvs : p.arena.vars? locals with
  | none => exact fun _ _ _ _ _ => .fault
  | some vs =>
    refine Alike.scope (fun v => v) (fun _ => .unit) fun next => ?_
    rw [List.map_id']
    refine .bind (.require (hbelow vs hvs)) fun r₁ _ ids ids' hids => ?_
    exact evalSequence_alike (hids.imp fun _ _ hid _ => hev hid (hshared.under next (.block vs)))

theorem makeClosure_alike (hshared : Shared l.frames l.storages S env.lookup env'.lookup)
    {params params' : Slice VarId} {body body' : ExprId} {name : Option VarId}
    (hvars : p.arena.vars? params' = p.arena.vars? params)
    (hbelow : ∀ vs, p.arena.vars? params = some vs →
      l.node ((Label.lambda vs name).under S) body body') :
    l.Alike r env env' depth (makeClosure p params body name) (makeClosure p params' body' name)
      l.Values := by
  rw [makeClosure, makeClosure, hvars]
  refine .bind (.reads _) fun r₁ _ vs ws hvs => ?_
  obtain ⟨hvs, rfl⟩ := hvs
  intro r₂ hr₂ h h' hh
  show l.Ends r₂ env env' depth l.Values
    ((do return .function ⟨← newStamp, name, ws, body, env.capture⟩ : EvalM Value) ⟨h, env, depth⟩)
    ((do return .function ⟨← newStamp, name, ws, body', env'.capture⟩ : EvalM Value)
      ⟨h', env', depth⟩)
  refine Alike.bind .stamp (fun r₃ _ s t hst => .pure fun r₄ hr₄ => .function ?_) r₂ (.refl r₂)
    h h' hh
  refine Functions.grows hr₄ ⟨hst.1, hst.2.1, fun _ => hst.2.2, rfl, rfl, S, hbelow ws hvs, ?_⟩
  show Shared l.frames l.storages S env.capture.find? env'.capture.find?
  rwa [funext env.find?_capture, funext env'.find?_capture]

theorem makeCellList_alike (hshared : Shared l.frames l.storages S env.lookup env'.lookup)
    {vars vars' : Slice VarId} (hvars : p.arena.vars? vars' = p.arena.vars? vars)
    (hdeclared : ∀ vs, p.arena.vars? vars = some vs → ∀ v ∈ vs, S v = true) :
    l.Alike r env env' depth (makeCellList p vars) (makeCellList p vars') l.Values := by
  rw [makeCellList, makeCellList, hvars]
  refine .bind (.reads _) fun r₁ _ vs ws hvs => ?_
  obtain ⟨hvs, rfl⟩ := hvs
  have hlookups : l.Alike r₁ env env' depth (ws.mapM (lookup p)) (ws.mapM (lookup p))
      fun _ => List.Forall₂ (· = ·) := by
    refine .mapM (R := fun v w => v = w ∧ S v = true)
      (List.forall₂_same.2 fun v hv => ⟨rfl, hdeclared ws hvs v hv⟩) (fun _ _ _ => id) ?_
    rintro v _ ⟨rfl, hv⟩
    exact lookup_alike hshared hv
  refine .bind hlookups fun r₂ _ cells cells' hcells => ?_
  obtain rfl := List.forall₂_eq_eq_eq ▸ hcells
  refine .bind .stamp fun r₃ _ s t hst => .pure fun r₄ hr₄ => .cellList (Lists.grows hr₄ ?_)
  exact .new hst.1 hst.2.1 hst.2.2 rfl fun _ => rfl

section
variable (hl : l.Lawful) (hev : l.Evaluate ev ev')
  (hshared : Shared l.frames l.storages S env.lookup env'.lookup)
include hl hev hshared

theorem evalTarget_alike
    (hloose : ¬l.exact → ∃ k, ∀ id, Agrees (· = .endless) (ev' id) (p.evalWithin (k + 1) id))
    (hid : l.node S id id') :
    l.Alike r env env' depth (evalTarget p ev id) (evalTarget p ev' id') fun _ c d => c = d := by
  cases hl.node hid with
  | same kinds =>
    refine .bind (.require kinds) ?_
    rintro r₁ - ⟨kind, span⟩ ⟨kind', span'⟩ hkinds
    have hkinds : l.Kinds S kind kind' := hkinds
    cases hkinds with
    | var hv => exact lookup_alike hshared hv
    | content hreceiver => exact evalCell_alike (hev hreceiver hshared)
    | _ => exact .fail (.same nofun)
  | cell loose node free resolved tree =>
    obtain ⟨k, hk⟩ := hloose loose
    intro r' _ h h' hh
    rcases evalTarget_agrees (.refl _ p) hk id' ⟨h', env', depth⟩ with ⟨f, m, hf, rfl⟩ | hsame
    · rw [hf]
      exact .right loose
    · rw [← hsame, evalTarget_cell k _ tree, evalTarget, node, bind_ok (require_some _ _)]
      show l.Ends r' env env' depth _ (lookup p _ ⟨h, env, depth⟩) _
      rw [lookup_eq (hshared.captured free resolved)]
      exact .ok (.refl r') hh rfl
  | list loose node _ _ _ _ tree _ =>
    intro r' _ h h' hh
    rw [evalTarget_listTree tree, evalTarget, node]
    exact .error (.refl r') hh (.same nofun)

theorem evalKind_alike (hguarded : l.Guarded watch) (hlimit : p.maxCallDepth < UInt64.size)
    (hloose : ¬l.exact → ∃ k, ∀ id, Agrees (· = .endless) (ev' id) (p.evalWithin (k + 1) id))
    {kind kind' : Kind} (hkinds : l.Kinds S kind kind') :
    l.Alike r env env' depth (watchedKind watch.left (throw (.fault .endless)) p ev kind)
      (watchedKind watch.right (throw (.fault .endless)) p ev' kind') l.Values := by
  cases hkinds with
  | unit => exact .pure fun _ _ => .unit
  | int n => exact .pure fun _ _ => .int n
  | bool b => exact .pure fun _ _ => .bool b
  | var hv =>
    refine .bind (lookup_alike hshared hv) fun r₁ _ c d hcd => ?_
    subst hcd
    exact .read c
  | binary op hleft hright =>
    cases op with
    | eq =>
      refine .bind (hev hleft hshared) fun r₁ _ v v' hv => ?_
      refine .bind (hev hright hshared) fun r₂ hr₂ w w' hw => ?_
      -- a side that stops may do so, because then not all faults are to correspond
      have hstops : ∀ {stops}, (watch = .none → stops = fun _ _ => false) → ∀ {v w : Value},
          v.watched stops w = true → ¬l.exact := by
        intro stops hnone v w hstops hexact
        rw [hnone (hguarded.sure hexact), v.watched_none] at hstops
        cases hstops
      cases hleft : v.watched watch.left w with
      | true => exact fun _ _ _ _ _ => .left (hstops (fun h => congrArg Watch.left h) hleft)
      | false =>
        cases hright : v'.watched watch.right w' with
        | true => exact fun _ _ _ _ _ => .right (hstops (fun h => congrArg Watch.right h) hright)
        | false => exact apply_alike hguarded (hv.grows hr₂) hw .eq fun _ => ⟨hleft, hright⟩
    | _ =>
      refine .bind (hev hleft hshared) fun r₁ _ v v' hv => ?_
      refine .bind (hev hright hshared) fun r₂ hr₂ w w' hw => ?_
      exact apply_alike hguarded (hv.grows hr₂) hw _ nofun
  | assign htarget hvalue =>
    refine .bind (hev hvalue hshared) fun r₁ hr₁ v w hv => ?_
    refine .bind (evalTarget_alike hl hev hshared hloose htarget) fun r₂ hr₂ c d hcd => ?_
    subst hcd
    refine .bind (.write c (hv.grows hr₂)) fun r₃ hr₃ _ _ _ => ?_
    exact .pure fun r₄ hr₄ => ((hv.grows hr₂).grows hr₃).grows hr₄
  | cond htest hyes hno =>
    refine .bind (evalBool_alike (hev htest hshared)) fun r₁ _ b c hbc => ?_
    subst hbc
    cases b with
    | true => exact hev hyes hshared
    | false => exact hev hno hshared
  | block hvars hbelow => exact evalBlock_alike hev hshared hvars hbelow
  | lambda hvars hbelow => exact makeClosure_alike hshared hvars hbelow
  | call hcallee hargs =>
    refine .bind (hev hcallee hshared) fun r₁ _ callee callee' hv => ?_
    refine .bind (.require hargs) fun r₂ hr₂ ids ids' hids => ?_
    refine .bind (.mapM hids (fun hr _ _ hw => hw.grows hr) fun _ _ hid => hev hid hshared)
      fun r₃ hr₃ args args' hvs => ?_
    exact callValue_alike hlimit hev ((hv.grows hr₂).grows hr₃) hvs
  | attempt hbody hhandlers => exact evalAttempt_alike hev hshared hbody hhandlers
  | throw hvalue => exact .bind (hev hvalue hshared) fun r₁ _ v w hv => .fail (.thrown hv)
  | constant hk =>
    rename_i k k'
    show l.Alike r env env' depth (EvalM.require (p.pool.get? k)) (EvalM.require (p.pool.get? k')) _
    rw [hk]
    intro r' hr h h' hh
    cases hv : p.pool.get? k with
    | none => exact .fault
    | some v => exact .ok (.refl r') hh (hl.known hv).values
  | content hreceiver =>
    refine .bind (evalCell_alike (hev hreceiver hshared)) fun r₁ _ c d hcd => ?_
    subst hcd
    exact .read c
  | cellList hvars hdeclared => exact makeCellList_alike hshared hvars hdeclared

end

end

/-! ## All levels -/

/-- A new list of some cells on the left and a list of the same cells on the right correspond: the
right one has a stamp that is not in use, or it is a list from before that is in the place of the
new one. -/
theorem Ends.newList {h h' : Heap} (hh : l.Heaps r h h') {cells : List Cell} {m : CellList}
    (hm : m.Lists cells) {stamp : Stamp} (hright : r.right ≤ stamp) (hlt : m.stamp < stamp)
    (hnew : l.base ≤ m.stamp → r.right ≤ m.stamp) (hold : m.stamp < l.base → l.lists m ∧
      l.stands (.direct h.nextStamp cells.toArray) m) :
    l.Ends r env env' depth l.Values
      (.ok (.cellList (.direct h.nextStamp cells.toArray))
        ⟨{ h with nextStamp := h.nextStamp + 1 }, env, depth⟩)
      (.ok (.cellList m) ⟨{ h' with nextStamp := stamp }, env', depth⟩) := by
  have hgrows : r.Grows (r.next m.stamp stamp hright hlt hnew) := Renaming.grows_next
  have hleft := CellList.lists_direct h.nextStamp cells
  refine .ok hgrows (hh.stamped hgrows (by rw [hh.left]; rfl) rfl) (.cellList ?_)
  refine ⟨?_, ?_, fun _ hlt => (hold hlt).2, fun hlt => (hold hlt).1, hm.1.trans hleft.1.symm,
    fun i => (hm.2 i).trans (hleft.2 i).symm⟩
  · rw [CellList.stamp, hh.left]
    exact Nat.lt_succ_self _
  · rw [CellList.stamp, hh.left]
    exact Renaming.next_map

/-- A list of variables and what takes its place are evaluated alike. -/
theorem list_alike (hl : l.Lawful) (hshared : Shared l.frames l.storages S env.lookup env'.lookup)
    {slice : Slice VarId} {vars : List VarId} {span : Span} {stamp : Stamp}
    (hread : p.arena.vars? slice = some vars) (hcaptured : ∃ v ∈ vars, S v = false)
    (hresolved : ∀ v ∈ vars, S v = false → (cellOf l.frames l.storages v).isSome)
    (hroutable : Routable S vars)
    (htree : Represents p.arena p.pool 2 id' (listTree l.frames l.storages S stamp span vars))
    (hstands : ∀ s cells m, l.base ≤ s → m.stamp = stamp →
      (∃ k, p.pool.get? k = some (.cellList m)) → l.stands (.direct s cells) m)
    (k : Nat) :
    l.Alike r env env' depth (makeCellList p slice) (p.evalWithin (k + 2) id') l.Values := by
  obtain ⟨u, -, hu⟩ := hcaptured
  have hdenoted := fun v hv => hshared.exists_denoted hu (hresolved v hv)
  have hbound : ∀ v ∈ vars, (env.lookup v).isSome := by
    intro v hv
    obtain ⟨c, hc, -⟩ := hdenoted v hv
    rw [hc]
    rfl
  have hsame : vars.filterMap env.lookup = vars.filterMap (denoted l.frames l.storages S env') :=
    List.filterMap_congr fun v hv => by
      obtain ⟨c, hc, hc'⟩ := hdenoted v hv
      rw [hc, hc']
  intro r' _ h h' hh
  rw [makeCellList_eq ⟨h, env, depth⟩ hread hbound]
  obtain ⟨m, stamp', heval, hlists, hstamp⟩ := evalWithin_listTree htree hroutable k
    ⟨h', env', depth⟩ fun v hv => by
      obtain ⟨c, -, hc⟩ := hdenoted v hv
      rw [hc]
      rfl
  rw [heval]
  rw [← hsame] at hlists
  -- it remains to say which stamp of the right side corresponds to the one given on the left
  rcases hstamp with ⟨-, ⟨c, hc⟩, hm, rfl⟩ | ⟨-, hm, rfl⟩
  · have hold : m.stamp < l.base := (hl.known hc).stamp
    refine Ends.newList hh hlists (Nat.le_of_eq hh.right.symm) ?_
      (fun hle => absurd hold (Nat.not_lt_of_le hle)) fun _ => ⟨(hl.known hc).list m rfl, ?_⟩
    · rw [hh.right]
      exact Nat.lt_of_lt_of_le hold r'.base_le_right
    · exact hstands _ _ m (hh.left ▸ r'.base_le_left) hm ⟨c, hc⟩
  · have hright : r'.right ≤ h'.nextStamp := Nat.le_of_eq hh.right.symm
    refine Ends.newList hh hlists (Nat.le_add_right_of_le hright) ?_ ?_ fun hlt => ?_
    · rw [hm]
      exact Nat.lt_succ_self _
    · rw [hm]
      exact fun _ => Nat.le_succ_of_le hright
    · rw [hm] at hlt
      exact absurd (Nat.lt_of_succ_lt hlt)
        (Nat.not_lt_of_le (Nat.le_trans r'.base_le_right hright))

/-- A right evaluation may stop where another one goes on, unless all faults are to correspond. -/
theorem Alike.of_agrees {x y y' : EvalM Value} (hloose : ¬l.exact)
    (h : l.Alike r env env' depth x y l.Values) (hy : Agrees (· = .endless) y' y) :
    l.Alike r env env' depth x y' l.Values := by
  intro r' hr h₁ h₁' hh
  rcases hy ⟨h₁', env', depth⟩ with ⟨f, m, hf, rfl⟩ | hsame
  · rw [hf]
    exact .right hloose
  · rw [← hsame]
    exact h r' hr h₁ h₁' hh

/-- Nodes that correspond are evaluated alike, with one more level on the right for what stands for
a reference. -/
theorem Lawful.evaluate (hl : l.Lawful) (hguarded : l.Guarded watch)
    (hlimit : p.maxCallDepth < UInt64.size) {slack : Nat} (hexact : l.exact → slack = 0)
    (hloose : ¬l.exact → 0 < slack) (levels : Nat) :
    l.Evaluate (p.evalWatched watch.left (throw (.fault .endless)) levels)
      (p.evalWatched watch.right (throw (.fault .endless)) (levels + slack)) := by
  induction levels with
  | zero =>
    intro r env env' depth S id id' _ _ r' _ h h' _
    by_cases he : l.exact
    · rw [hexact he]
      exact .fault
    · exact .left he
  | succ levels ih =>
    intro r env env' depth S id id' hid hshared
    have hmore : ¬l.exact → ∃ k, levels + slack = k + 1 := fun he =>
      ⟨levels + slack - 1, by have hslack := hloose he; omega⟩
    -- what the right evaluation does unless it stops
    have hright : ∀ levels id, Agrees (· = .endless)
        (p.evalWatched watch.right (throw (.fault .endless)) levels id)
        (p.evalWithin levels id) := by
      intro levels id
      rw [← p.evalWatched_none (throw (.fault .endless))]
      exact evalWatched_agrees p (fun _ _ h => Bool.noConfusion h) (Nat.le_refl levels) id
    rw [Nat.add_right_comm]
    cases hl.node hid with
    | same kinds =>
      refine .bind (.require kinds) fun r₁ _ n n' hkinds => ?_
      refine evalKind_alike hl ih hshared hguarded hlimit (fun he => ?_) hkinds
      obtain ⟨k, hk⟩ := hmore he
      exact ⟨k, hk ▸ hright _⟩
    | cell loose node free resolved tree =>
      obtain ⟨k, hk⟩ := hmore loose
      refine .of_agrees loose (fun r' _ h h' hh => ?_) (hright _ id')
      rw [hk, evalWithin_cell k _ tree, Program.evalWatched, Program.evalBy, node,
        bind_ok (require_some _ _)]
      show l.Ends r' env env' depth _ ((lookup p _ >>= readCell) ⟨h, env, depth⟩) _
      rw [bind_ok (lookup_eq (hshared.captured free resolved))]
      exact .ok (.refl r') hh (hh.read _)
    | list loose node read captured resolved routable tree stands =>
      obtain ⟨k, hk⟩ := hmore loose
      refine .of_agrees loose ?_ (hright _ id')
      rw [hk, Program.evalWatched, Program.evalBy, node]
      exact list_alike hl hshared read captured resolved routable tree stands k

end

end Likeness

end Quotation
