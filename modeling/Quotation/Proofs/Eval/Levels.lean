import Quotation.Proofs.Eval.Run
import Quotation.Proofs.Growth

/-!
# More levels and larger programs

An evaluation that ends within so many levels ends in the same way within more of them, and in any
program that the program is part of: each step of the interpreter keeps what the evaluation of its
children has come to, unless that is a fault (`nestedKind_agrees`), and only a fault comes of what
cannot be read. In the same program nothing but the want of levels makes a difference, also where
the calls are limited as well (`evalNested_agrees`).
-/

namespace Quotation

open EvalM

/-- Where `x` does not end in a fault of `cut`, `y` does the same. -/
def Agrees (cut : Fault → Prop) {α : Type} (x y : EvalM α) : Prop :=
  ∀ m, (∃ f m', x m = .error (.fault f) m' ∧ cut f) ∨ y m = x m

namespace Agrees

variable {cut : Fault → Prop} {α β : Type}

theorem refl (x : EvalM α) : Agrees cut x x := fun _ => .inr rfl

theorem fault {f : Fault} (hf : cut f) (y : EvalM α) : Agrees cut (throw (.fault f)) y :=
  fun m => .inl ⟨f, m, rfl, hf⟩

theorem bind {x y : EvalM α} {f g : α → EvalM β} (hx : Agrees cut x y)
    (hf : ∀ v, Agrees cut (f v) (g v)) : Agrees cut (x >>= f) (y >>= g) := by
  intro m
  rcases hx m with ⟨e, m', hr, he⟩ | hxy
  · exact .inl ⟨e, m', bind_error hr, he⟩
  · cases hr : x m with
    | ok v m' =>
      rw [bind_ok hr, bind_ok (hxy.trans hr)]
      exact hf v m'
    | error stop m' =>
      rw [bind_error hr, bind_error (hxy.trans hr)]
      exact .inr rfl

theorem mapM {f g : α → EvalM β} (hf : ∀ x, Agrees cut (f x) (g x)) (xs : List α) :
    Agrees cut (xs.mapM f) (xs.mapM g) := by
  induction xs with
  | nil => exact .refl _
  | cons x xs ih =>
    rw [List.mapM_cons, List.mapM_cons]
    exact .bind (hf x) fun y => .bind ih fun ys => .refl _

theorem ensuring {x y : EvalM α} (h : Agrees cut x y) (close : EvalM Unit) :
    Agrees cut (ensuring x close) (ensuring y close) := by
  intro m
  rcases h m with ⟨f, m', hr, hf⟩ | hxy
  · exact .inl ⟨f, m', by rw [EvalM.ensuring, hr], hf⟩
  · exact .inr (by rw [EvalM.ensuring, EvalM.ensuring, hxy])

theorem withScope {x y : EvalM α} (h : Agrees cut x y) : Agrees cut (withScope x) (withScope y) :=
  fun _ => h.ensuring _ _

end Agrees

/-- `p'` is `p` after entries may have been added to its arena and its pool. It traces calls only if
`p` does. -/
structure Program.PartOf (p p' : Program) : Prop where
  arena : p.arena.PartOf p'.arena
  pool : p.pool.Grows p'.pool
  maxCallDepth : p'.maxCallDepth = p.maxCallDepth
  traced : p'.tracing.calls = true → p.tracing.calls = true

theorem Program.PartOf.refl (p : Program) : p.PartOf p := ⟨.refl _, .refl _, rfl, id⟩

/-- What the trace of a call shows in the part can be shown. -/
theorem Program.PartOf.isSome_tracedName? {p p' : Program} (hp : p.PartOf p') {f : Closure}
    (h : (p.tracedName? f).isSome) : (p'.tracedName? f).isSome := by
  refine Option.isSome_iff_ne_none.2 fun hnone => ?_
  obtain ⟨htraced, v, hname, hv⟩ := Program.tracedName?_eq_none.1 hnone
  have hv' : p.arena.name? v = none := by
    cases hv' : p.arena.name? v with
    | none => rfl
    | some name => cases hv.symm.trans (hp.arena.name? hv')
  rw [Program.tracedName?_eq_none.2 ⟨hp.traced htraced, v, hname, hv'⟩] at h
  cases h

/-- `p'` reads whatever `p` reads, and more than that only if `cut` has the fault that this is. -/
structure Program.ReadIn (cut : Fault → Prop) (p p' : Program) : Prop where
  partOf : p.PartOf p'
  cut_or_eq : cut .outOfBounds ∨ p' = p

theorem Program.ReadIn.refl (cut : Fault → Prop) (p : Program) : p.ReadIn cut p :=
  ⟨.refl p, .inr rfl⟩

theorem Program.ReadIn.require {cut : Fault → Prop} {p p' : Program} (hp : p.ReadIn cut p')
    {α : Type} (o : Program → Option α) (ho : ∀ x, o p = some x → o p' = some x) :
    Agrees cut (EvalM.require (o p)) (EvalM.require (o p')) := by
  cases hx : o p with
  | some x => exact ho x hx ▸ .refl _
  | none =>
    rcases hp.cut_or_eq with hcut | rfl
    · exact .fault hcut _
    · exact hx ▸ .refl _

section
variable {cut : Fault → Prop} {p p' : Program} (hp : p.ReadIn cut p')
include hp

theorem lookup_agrees (v : VarId) : Agrees cut (lookup p v) (lookup p' v) := by
  refine .bind (.refl _) fun m => ?_
  cases m.env.lookup v with
  | some c => exact .refl _
  | none =>
    exact .bind (hp.require (·.arena.name? v) fun _ => hp.partOf.arena.name?) fun _ => .refl _

theorem traceCall_agrees (f : Closure) : Agrees cut (traceCall p f) (traceCall p' f) := by
  cases hname : p.tracedName? f with
  | some name =>
    have hsome : (p.tracedName? f).isSome := Option.isSome_of_eq_some hname
    intro m
    rw [traceCall_eq hsome, traceCall_eq (hp.partOf.isSome_tracedName? hsome)]
    exact .inr rfl
  | none =>
    rcases hp.cut_or_eq with hcut | rfl
    · rw [traceCall, hname]
      exact .bind (.fault hcut _) fun _ => .refl _
    · exact .refl _

theorem makeClosure_agrees (params : Slice VarId) (body : ExprId) (name : Option VarId) :
    Agrees cut (makeClosure p params body name) (makeClosure p' params body name) :=
  .bind (hp.require (·.arena.vars? params) fun _ => hp.partOf.arena.vars?) fun _ => .refl _

theorem makeCellList_agrees (vars : Slice VarId) :
    Agrees cut (makeCellList p vars) (makeCellList p' vars) :=
  .bind (hp.require (·.arena.vars? vars) fun _ => hp.partOf.arena.vars?) fun _ =>
    .bind (.mapM (lookup_agrees hp) _) fun _ => .refl _

end

section
variable {cut : Fault → Prop} {p p' : Program} {ev ev' body body' : ExprId → EvalM Value}
  (hp : p.ReadIn cut p') (hev : ∀ id, Agrees cut (ev id) (ev' id))
  (hbody : ∀ id, Agrees cut (body id) (body' id))
include hev

theorem evalBool_agrees (id : ExprId) : Agrees cut (evalBool ev id) (evalBool ev' id) :=
  .bind (hev id) fun _ => .refl _

theorem evalCell_agrees (id : ExprId) : Agrees cut (evalCell ev id) (evalCell ev' id) :=
  .bind (hev id) fun _ => .refl _

theorem evalSequence_agrees (ids : List ExprId) :
    Agrees cut (evalSequence ev ids) (evalSequence ev' ids) := by
  have hfold : ∀ v,
      Agrees cut (ids.foldlM (fun _ id => ev id) v) (ids.foldlM (fun _ id => ev' id) v) := by
    induction ids with
    | nil => exact fun v => .refl _
    | cons id ids ih =>
      intro v
      rw [List.foldlM_cons, List.foldlM_cons]
      exact .bind (hev id) ih
  exact hfold .unit

theorem handle_agrees (thrown : Value) (hs : List Handler) :
    Agrees cut (handle ev thrown hs) (handle ev' thrown hs) := by
  induction hs with
  | nil => exact .refl _
  | cons h hs ih =>
    have hfilter : Agrees cut (evalFilter ev h) (evalFilter ev' h) := by
      rw [evalFilter, evalFilter]
      cases h.filter with
      | none => exact .refl _
      | some filter => exact evalBool_agrees hev filter
    have htry : Agrees cut (tryHandler ev thrown h) (tryHandler ev' thrown h) := by
      refine .withScope (.bind (.refl _) fun _ => .bind hfilter fun b => ?_)
      cases b with
      | false => exact .refl _
      | true => exact .bind (hev h.body) fun _ => .refl _
    rw [handle, handle]
    refine .bind htry fun o => ?_
    cases o with
    | none => exact ih
    | some v => exact .refl _

include hp

omit hev in
include hbody in
theorem callFunction_agrees (f : Closure) (args : List Value) :
    Agrees cut (callFunction p body f args) (callFunction p' body' f args) := by
  rw [callFunction, callFunction, hp.partOf.maxCallDepth]
  split
  · exact .refl _
  · refine .bind (.refl _) fun caller => ?_
    split
    · exact .refl _
    · refine .bind (traceCall_agrees hp f) fun _ => .bind (.refl _) fun _ => ?_
      exact .ensuring (.bind (.refl _) fun _ => hbody f.body) _

theorem evalTarget_agrees (id : ExprId) :
    Agrees cut (evalTarget p ev id) (evalTarget p' ev' id) := by
  refine .bind (hp.require (·.arena.node? id) fun _ => hp.partOf.arena.node?) fun node => ?_
  cases node.kind with
  | var v => exact lookup_agrees hp v
  | content receiver => exact evalCell_agrees hev receiver
  | _ => exact .refl _

theorem evalAttempt_agrees (body : ExprId) (handlers : Slice Handler) :
    Agrees cut (evalAttempt p ev body handlers) (evalAttempt p' ev' body handlers) := by
  intro m
  rw [evalAttempt, evalAttempt]
  rcases hev body m with ⟨f, m', hr, hf⟩ | hbody
  · exact .inl ⟨f, m', by rw [hr], hf⟩
  · rw [hbody]
    split
    · exact (hp.require (·.arena.handlers? handlers) fun _ => hp.partOf.arena.handlers?).bind
        (handle_agrees hev _) _
    · exact .inr rfl

include hbody in
theorem nestedKind_agrees (kind : Kind) :
    Agrees cut (nestedKind p ev body kind) (nestedKind p' ev' body' kind) := by
  cases kind with
  | unit | int | bool => exact .refl _
  | var v => exact .bind (lookup_agrees hp v) fun _ => .refl _
  | lambda params body name => exact makeClosure_agrees hp params body name
  | constant k => exact hp.require (·.pool.get? k) fun _ => hp.partOf.pool.get?
  | cellList vars => exact makeCellList_agrees hp vars
  | binary op left right => exact .bind (hev left) fun _ => .bind (hev right) fun _ => .refl _
  | assign target value =>
    exact .bind (hev value) fun _ => .bind (evalTarget_agrees hp hev target) fun _ => .refl _
  | cond test yes no =>
    refine .bind (evalBool_agrees hev test) fun b => ?_
    cases b with
    | true => exact hev yes
    | false => exact hev no
  | block locals body =>
    refine .withScope (.bind (hp.require (·.arena.vars? locals) fun _ => hp.partOf.arena.vars?)
      fun _ => .bind (.refl _) fun _ =>
        .bind (hp.require (·.arena.exprs? body) fun _ => hp.partOf.arena.exprs?) ?_)
    exact fun ids => evalSequence_agrees hev ids
  | call callee args =>
    refine .bind (hev callee) fun callee =>
      .bind (hp.require (·.arena.exprs? args) fun _ => hp.partOf.arena.exprs?) fun ids =>
        .bind (.mapM hev ids) fun args => ?_
    cases callee with
    | function f => exact callFunction_agrees hp hbody f args
    | _ => exact .refl _
  | attempt body handlers => exact evalAttempt_agrees hp hev body handlers
  | throw value => exact .bind (hev value) fun _ => .refl _
  | content receiver => exact .bind (evalCell_agrees hev receiver) fun _ => .refl _

end

/-- More levels in a larger program lead to the same end. -/
theorem Program.ReadIn.evalWithin_agrees {cut : Fault → Prop} {p p' : Program}
    (hp : p.ReadIn cut p') (hcut : cut .endless) {levels levels' : Nat} (hle : levels ≤ levels')
    (id : ExprId) : Agrees cut (p.evalWithin levels id) (p'.evalWithin levels' id) := by
  induction levels generalizing levels' id with
  | zero => exact .fault hcut _
  | succ levels ih =>
    obtain ⟨levels', rfl⟩ : ∃ k, levels' = k + 1 := ⟨levels' - 1, by omega⟩
    refine .bind (hp.require (·.arena.node? id) fun _ => hp.partOf.arena.node?) fun node => ?_
    have hev : ∀ id, Agrees cut (p.evalWithin levels id) (p'.evalWithin levels' id) := fun id =>
      ih (by omega) id
    exact nestedKind_self p _ node.kind ▸ nestedKind_self p' _ node.kind ▸
      nestedKind_agrees hp hev hev node.kind

/-- More levels lead to the same end. -/
theorem evalWithin_agrees (p : Program) {levels levels' : Nat} (hle : levels ≤ levels')
    (id : ExprId) : Agrees (· = .endless) (p.evalWithin levels id) (p.evalWithin levels' id) :=
  (Program.ReadIn.refl (· = .endless) p).evalWithin_agrees rfl hle id

/-- Only the want of levels and calls makes a difference to the end. -/
theorem evalNested_agrees (p : Program) {levels levels' : Nat} (calls : Nat)
    (hle : levels ≤ levels') (id : ExprId) :
    Agrees (· = .endless) (p.evalNested levels calls id) (p.evalWithin levels' id) := by
  induction levels generalizing calls levels' id with
  | zero => exact fun m => .inl ⟨.endless, m, rfl, rfl⟩
  | succ levels ih =>
    obtain ⟨levels', rfl⟩ : ∃ k, levels' = k + 1 := ⟨levels' - 1, by omega⟩
    refine .bind (.refl _) fun node => ?_
    rw [← nestedKind_self p _ node.kind]
    refine nestedKind_agrees (.refl _ p) (fun id => ih calls (by omega) id) (fun id => ?_) node.kind
    cases calls with
    | zero => exact fun m => .inl ⟨.endless, m, rfl, rfl⟩
    | succ calls => exact ih calls (by omega) id

end Quotation
