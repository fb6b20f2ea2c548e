import Quotation.Proofs.Complete
import Mathlib.Logic.Hydra

/-!
# Validation by a list of pending nodes

Validation can be done by a loop: a pending node is taken, everything that it names is looked at
(`inspect`), and its children become pending in its place. A table is asked for its size before it
is read, so the reading never fails (`inspect_eq`).

If the pending nodes are a stack, the loop (`drain`) answers what `validate` answers
(`drain_validate`). If they are taken in any other order (`Turn`, `Ends`), the loop comes to an end
as well: a turn cuts a node off and grows its children, which is a move in the game of the hydra
(`turn_acc`). It accepts or rejects whatever the order is (`Ends.accepts_iff`), and it rejects with
some defect of some node (`Ends.defective`).
-/

namespace Quotation

/-! ## One node -/

section
variable (a : Arena) (constants : Nat) (id : ExprId)

def asserted (p : Prop) [Decidable p] (defect : Defect) : Except Fault Unit :=
  if p then .ok () else .error (.invalid id defect)

/-- What is read out of a table has to be there. -/
def entry {α : Type} : Option α → Except Fault α
  | some x => .ok x
  | none => .error .outOfBounds

def inspectVar (v : VarId) : Except Fault Unit :=
  asserted id (v.index < a.names.size) (.undeclared v a.names.size)

def inspectSlice {α : Type} (list : ListKind) (size : Nat) (s : Slice α) : Except Fault Unit :=
  asserted id (s.stop ≤ size) (.slice list s.start s.len size)

def inspectVars (s : Slice VarId) : Except Fault Unit := do
  inspectSlice id .vars a.varEntries.size s
  (← entry (a.vars? s)).forM (inspectVar a id)

def inspectHandler (h : Handler) : Except Fault (List ExprId) := do
  h.caught.forM (inspectVar a id)
  return h.exprs

/-- The children of a node of the kind, in the order in which they become pending. -/
def inspectKind : Kind → Except Fault (List ExprId)
  | .unit | .int _ | .bool _ => return []
  | .var v => do inspectVar a id v; return []
  | .constant c => do asserted id (c.index < constants) (.constant c constants); return []
  | .cellList vars => do inspectVars a id vars; return []
  | .binary _ left right => return [left, right]
  | .assign target value => return [target, value]
  | .cond test yes no => return [test, yes, no]
  | .block locals body => do
    inspectVars a id locals
    inspectSlice id .exprs a.exprEntries.size body
    entry (a.exprs? body)
  | .lambda params body _ => do inspectVars a id params; return [body]
  | .call callee args => do
    inspectSlice id .exprs a.exprEntries.size args
    return callee :: (← entry (a.exprs? args))
  | .attempt body handlers => do
    inspectSlice id .handlers a.handlerEntries.size handlers
    return body :: (← (← entry (a.handlers? handlers)).mapM (inspectHandler a id)).flatten
  | .throw value => return [value]
  | .content receiver => return [receiver]

def inspect : Except Fault (List ExprId) := do
  asserted id (id.index < a.size) (.node a.size)
  inspectKind a constants id (← entry (a.node? id)).kind

end

theorem mapError_bind {ε ε' α β : Type} {g : ε → ε'} {x : Except ε α} {k : α → Except ε β} :
    (x >>= k).mapError g = x.mapError g >>= fun y => (k y).mapError g := by
  cases x <;> rfl

theorem mapError_forM {ε ε' α : Type} {g : ε → ε'} {f : α → Except ε Unit} {xs : List α} :
    (xs.forM f).mapError g = xs.forM fun x => (f x).mapError g := by
  induction xs with
  | nil => rfl
  | cons x xs ih =>
    show (f x >>= fun _ => xs.forM f).mapError g = _
    rw [mapError_bind, ih]
    rfl

theorem mapError_mapM {ε ε' α β : Type} {g : ε → ε'} {f : α → Except ε β} {xs : List α} :
    (xs.mapM f).mapError g = xs.mapM fun x => (f x).mapError g := by
  induction xs with
  | nil => rfl
  | cons x xs ih =>
    simp only [List.mapM_cons, mapError_bind, ih]
    rfl

section
variable {a : Arena} {constants : Nat} {id : ExprId}

theorem inspectVar_eq {v : VarId} : inspectVar a id v = (checkVar a v).mapError (.invalid id) := by
  unfold inspectVar asserted checkVar
  split <;> rfl

theorem inspectSlice_eq {α : Type} {list : ListKind} {table : Array α} {s : Slice α} :
    (do inspectSlice id list table.size s; entry (s.read? table)) =
      (checkSlice list table s).mapError (.invalid id) := by
  unfold inspectSlice asserted checkSlice Slice.read?
  split <;> rfl

theorem inspectVars_eq {s : Slice VarId} :
    inspectVars a id s = (checkVars a s).mapError (.invalid id) := by
  rw [checkVars, mapError_bind, ← inspectSlice_eq]
  simp only [mapError_forM, ← inspectVar_eq, bind_assoc]
  rfl

theorem inspectHandler_eq {h : Handler} :
    inspectHandler a id h = (checkHandler a h).mapError (.invalid id) := by
  unfold inspectHandler checkHandler
  rw [mapError_bind]
  cases h.caught with
  | none => rfl
  | some v =>
    show (inspectVar a id v >>= _) = _
    rw [inspectVar_eq]
    rfl

theorem inspectKind_eq {kind : Kind} :
    inspectKind a constants id kind = (checkKind a constants kind).mapError (.invalid id) := by
  cases kind with
  | unit | int | bool | binary | assign | cond | throw | content => rfl
  | var v => simp only [inspectKind, checkKind, mapError_bind, inspectVar_eq]; rfl
  | constant c =>
    simp only [inspectKind, checkKind, asserted]
    split <;> rfl
  | cellList vars | lambda vars =>
    simp only [inspectKind, checkKind, mapError_bind, inspectVars_eq]
    rfl
  | block locals body =>
    simp only [inspectKind, checkKind, mapError_bind, inspectVars_eq, ← inspectSlice_eq]
    rfl
  | call callee args =>
    simp only [inspectKind, checkKind, mapError_bind, ← inspectSlice_eq, bind_assoc]
    rfl
  | attempt body handlers =>
    simp only [inspectKind, checkKind, mapError_bind, mapError_mapM, ← inspectSlice_eq, bind_assoc,
      ← inspectHandler_eq]
    rfl

/-- Looking at a node is checking it: nothing is read that is not there. -/
theorem inspect_eq :
    inspect a constants id = (checkNode a constants id).mapError (.invalid id) := by
  unfold inspect checkNode asserted
  split
  · rename_i hid
    have hnode : a.node? id = some a.nodes[id.index] := Array.getElem?_eq_getElem hid
    rw [hnode]
    exact inspectKind_eq
  · rename_i hid
    have hnode : a.node? id = none := Array.getElem?_eq_none (Nat.le_of_not_lt hid)
    rw [hnode]
    rfl

end

/-! ## All nodes -/

section
variable (a : Arena) (constants : Nat)

/-- One of the pending nodes is taken, and its children are pending in its place. -/
inductive Turn : Multiset ExprId → Multiset ExprId → Prop
  | take {id : ExprId} {cs : List ExprId} {rest : Multiset ExprId}
    (h : inspect a constants id = .ok cs) : Turn (id ::ₘ rest) (cs + rest)

/-- The loop may come to an end in this way: no node is pending, or one is taken that is broken. -/
inductive Ends : Multiset ExprId → Except Fault Unit → Prop
  | done : Ends 0 (.ok ())
  | broken {id : ExprId} {fault : Fault} {rest : Multiset ExprId}
    (h : inspect a constants id = .error fault) : Ends (id ::ₘ rest) (.error fault)
  | turn {pending later : Multiset ExprId} {v : Except Fault Unit}
    (h : Turn a constants pending later) (hv : Ends later v) : Ends pending v

/-- The loop with a stack of pending nodes, for at most so many turns. The children are pushed in
their order, so the last one is taken first. -/
def drain : Nat → List ExprId → Option (Except Fault Unit)
  | _, [] => some (.ok ())
  | 0, _ :: _ => none
  | turns + 1, id :: rest =>
    match inspect a constants id with
    | .ok cs => drain turns (cs.reverse ++ rest)
    | .error fault => some (.error fault)

end

section
variable {a : Arena} {constants : Nat} {root id : ExprId}

theorem inspect_eq_ok {pool : Pool} {cs : List ExprId} (h : inspect a pool.size id = .ok cs) :
    a.Complete pool (fun v => v.index < a.names.size) id ∧ ∀ c, c ∈ cs ↔ a.Child id c := by
  rw [inspect_eq, checkNode] at h
  cases hnode : a.node? id with
  | none => simp [hnode, Except.mapError] at h
  | some node =>
    cases hkind : checkKind a pool.size node.kind with
    | error defect => simp [hnode, hkind, Except.mapError] at h
    | ok _ =>
      obtain ⟨label, branches, hview, hlabel, hcaught, rfl⟩ := checkKind_eq_ok.1 hkind
      obtain rfl : _ = cs := by simpa [hnode, hkind, Except.mapError] using h
      exact ⟨Arena.complete_iff.2
        ⟨node, hnode, Arena.completeKind_iff.2 ⟨label, branches, hview, hlabel, hcaught⟩⟩,
        fun c => (Arena.child_iff hnode hview).symm⟩

theorem exists_inspect_eq_ok {pool : Pool}
    (h : a.Complete pool (fun v => v.index < a.names.size) id) :
    ∃ cs, inspect a pool.size id = .ok cs := by
  obtain ⟨node, hnode, hkind⟩ := Arena.complete_iff.1 h
  obtain ⟨label, branches, hview, hlabel, hcaught⟩ := Arena.completeKind_iff.1 hkind
  have hcs := checkKind_eq_ok.2 ⟨label, branches, hview, hlabel, hcaught, rfl⟩
  refine ⟨branches.flatMap Branch.exprs, ?_⟩
  rw [inspect_eq, checkNode, hnode]
  simp only [hcs, Except.mapError]

/-! ### Whatever is taken -/

/-- What becomes pending is reached from what was. -/
theorem Turn.reaches {pool : Pool} {pending later : Multiset ExprId}
    (h : Turn a pool.size pending later) {c : ExprId} (hc : c ∈ later) :
    ∃ p ∈ pending, a.Reaches p c := by
  cases h with
  | @take id cs rest h =>
    rcases Multiset.mem_add.1 hc with hc | hc
    · exact ⟨id, Multiset.mem_cons_self id rest, .single (((inspect_eq_ok h).2 c).1 hc)⟩
    · exact ⟨c, Multiset.mem_cons_of_mem hc, .refl⟩

/-- A turn cuts one node off and grows its children in its place, so this is the game of a hydra
that loses whatever is done. The nodes have to be reached from the root: a cycle elsewhere in the
arena would not grow less and less. -/
theorem turn_acc (pool : Pool) (h : a.AcyclicFrom root) :
    Acc (fun later pending => Turn a pool.size pending later) {root} := by
  let r : ExprId → ExprId → Prop := fun c id => a.Reaches root id ∧ a.Child id c
  have : Std.Irrefl r := ⟨fun id hid => h id hid.1 (.single hid.2)⟩
  have hacc : Acc r root := Subrelation.accessible (fun hc => hc.2) h.acc
  have hreached : ∀ p ∈ ({root} : Multiset ExprId), a.Reaches root p :=
    fun p hp => Multiset.mem_singleton.1 hp ▸ .refl
  have hcut := hacc.cutExpand
  generalize ({root} : Multiset ExprId) = pending at hcut hreached
  induction hcut with
  | intro pending _ ih =>
    refine .intro pending fun later hturn => ?_
    refine ih later ?_ fun c hc => ?_
    · cases hturn with
      | @take id cs rest h =>
        refine ⟨cs, id, fun c hc => ⟨hreached id (Multiset.mem_cons_self id rest),
          ((inspect_eq_ok h).2 c).1 hc⟩, ?_⟩
        rw [← Multiset.singleton_add]
        ac_rfl
    · obtain ⟨p, hp, hpc⟩ := hturn.reaches hc
      exact (hreached p hp).trans hpc

namespace Ends

variable {pending : Multiset ExprId} {v : Except Fault Unit} {fault : Fault}

theorem exists_of_acc (h : Acc (fun later pending => Turn a constants pending later) pending) :
    ∃ v, Ends a constants pending v := by
  induction h with
  | intro pending _ ih =>
    induction pending using Multiset.induction with
    | empty => exact ⟨_, .done⟩
    | cons id rest _ =>
      cases hid : inspect a constants id with
      | error fault => exact ⟨_, .broken hid⟩
      | ok cs =>
        obtain ⟨v, hv⟩ := ih _ (.take hid)
        exact ⟨v, .turn (.take hid) hv⟩

/-- The loop accepts exactly if all that is below the pending nodes is complete, whatever the order
in which they are taken. -/
theorem accepts_iff {pool : Pool} (h : Ends a pool.size pending v) : v = .ok () ↔
    ∀ p ∈ pending, ∀ id, a.Reaches p id → a.Complete pool (fun v => v.index < a.names.size) id := by
  induction h with
  | done => simp
  | @broken id fault rest hid =>
    refine ⟨nofun, fun hall => ?_⟩
    obtain ⟨cs, hcs⟩ := exists_inspect_eq_ok (hall id (Multiset.mem_cons_self id rest) id .refl)
    cases hid.symm.trans hcs
  | turn hturn _ ih =>
    rw [ih]
    constructor
    · intro hlater p hp id hid
      cases hturn with
      | @take p' cs rest hcs =>
        rcases Multiset.mem_cons.1 hp with rfl | hp
        · -- the node that is taken, or one below a child of it
          rcases Relation.ReflTransGen.cases_head hid with rfl | ⟨c, hc, hid⟩
          · exact (inspect_eq_ok hcs).1
          · exact hlater c (Multiset.mem_add.2 (.inl (((inspect_eq_ok hcs).2 c).2 hc))) id hid
        · exact hlater p (Multiset.mem_add.2 (.inr hp)) id hid
    · intro hall c hc id hid
      obtain ⟨p, hp, hpc⟩ := hturn.reaches hc
      exact hall p hp id (hpc.trans hid)

/-- The loop fails only at a node that is pending at some time and has a defect. In particular it
reads nothing that is not there. -/
theorem defective {pool : Pool} (h : Ends a pool.size pending (.error fault)) :
    ∃ p ∈ pending, ∃ id, a.Reaches p id ∧
      ∃ defect, checkNode a pool.size id = .error defect ∧ fault = .invalid id defect := by
  generalize hv : Except.error fault = v at h
  induction h with
  | done => cases hv
  | @broken id _ rest hid =>
    obtain rfl := Except.error.inj hv
    refine ⟨id, Multiset.mem_cons_self id rest, id, .refl, ?_⟩
    rw [inspect_eq] at hid
    cases hcheck : checkNode a pool.size id with
    | ok cs => simp [hcheck, Except.mapError] at hid
    | error defect =>
      rw [hcheck] at hid
      exact ⟨defect, rfl, (Except.error.inj hid).symm⟩
  | turn hturn _ ih =>
    obtain ⟨c, hc, id, hid, hdefect⟩ := ih hv
    obtain ⟨p, hp, hpc⟩ := hturn.reaches hc
    exact ⟨p, hp, id, hpc.trans hid, hdefect⟩

end Ends

/-! ### The last one first -/

/-- What the loop does after it has looked at some nodes: it goes on, or it has ended. -/
def resume (v : Except Fault Unit) (next : Option (Except Fault Unit)) :
    Option (Except Fault Unit) :=
  match v with
  | .ok () => next
  | .error fault => some (.error fault)

theorem drain_ends {turns : Nat} {stack : List ExprId} {v : Except Fault Unit}
    (h : drain a constants turns stack = some v) : Ends a constants stack v := by
  induction turns generalizing stack with
  | zero =>
    cases stack with
    | nil => exact Option.some.inj h ▸ .done
    | cons => cases h
  | succ turns ih =>
    cases stack with
    | nil => exact Option.some.inj h ▸ .done
    | cons id rest =>
      rw [drain] at h
      rw [← Multiset.cons_coe]
      cases hid : inspect a constants id with
      | error fault =>
        simp only [hid] at h
        exact Option.some.inj h ▸ .broken hid
      | ok cs =>
        simp only [hid] at h
        refine .turn (.take hid) ?_
        have hstack : (↑(cs.reverse ++ rest) : Multiset ExprId) = ↑cs + ↑rest := by
          rw [← Multiset.coe_add, Multiset.coe_reverse]
        exact hstack ▸ ih h

/-- A list on top of the stack is worked off before the rest if each of its nodes is. -/
theorem drain_append {f : ExprId → Except Fault Unit} {ids : List ExprId}
    (hids : ∀ id ∈ ids, f id ≠ .error .endless → ∃ turns, ∀ more rest,
      drain a constants (turns + more) (id :: rest) = resume (f id) (drain a constants more rest))
    (hends : ids.forM f ≠ .error .endless) :
    ∃ turns, ∀ more rest, drain a constants (turns + more) (ids ++ rest) =
      resume (ids.forM f) (drain a constants more rest) := by
  induction ids with
  | nil => exact ⟨0, fun more rest => by rw [Nat.zero_add]; rfl⟩
  | cons id ids ih =>
    have hcons : (id :: ids).forM f = f id >>= fun _ => ids.forM f := rfl
    rw [hcons] at hends ⊢
    cases hid : f id with
    | error fault =>
      rw [hid] at hends
      obtain ⟨turns, hturns⟩ := hids id List.mem_cons_self (hid ▸ hends)
      exact ⟨turns, fun more rest => by rw [List.cons_append, hturns, hid]; rfl⟩
    | ok =>
      rw [hid] at hends
      obtain ⟨turns, hturns⟩ := hids id List.mem_cons_self (by simp [hid])
      obtain ⟨turns', hturns'⟩ := ih (fun c hc => hids c (List.mem_cons_of_mem id hc)) hends
      refine ⟨turns + turns', fun more rest => ?_⟩
      rw [List.cons_append, Nat.add_assoc, hturns, hid]
      exact hturns' more rest

/-- With a node on top of the stack, the loop first does what validation from that node does. -/
theorem drain_validateWithin {n : Nat} (hends : validateWithin a constants n id ≠ .error .endless) :
    ∃ turns, ∀ more rest, drain a constants (turns + more) (id :: rest) =
      resume (validateWithin a constants n id) (drain a constants more rest) := by
  induction n generalizing id with
  | zero => exact absurd rfl hends
  | succ n ih =>
    rw [validateWithin] at hends ⊢
    have hinspect : inspect a constants id = _ := inspect_eq
    cases hcheck : checkNode a constants id with
    | error defect =>
      rw [hcheck] at hinspect
      refine ⟨1, fun more rest => ?_⟩
      rw [Nat.add_comm, drain, hinspect]
      rfl
    | ok cs =>
      rw [hcheck] at hinspect
      simp only [hcheck] at hends
      obtain ⟨turns, hturns⟩ := drain_append (fun c _ => ih) hends
      refine ⟨turns + 1, fun more rest => ?_⟩
      rw [Nat.add_right_comm, drain, hinspect]
      exact hturns more rest

/-- With a stack and enough turns, the loop answers what validation answers. -/
theorem drain_validate {pool : Pool} (hends : validate a pool root ≠ .error .endless) :
    ∃ turns, ∀ more, drain a pool.size (turns + more) [root] = some (validate a pool root) := by
  obtain ⟨turns, hturns⟩ := drain_validateWithin hends
  refine ⟨turns, fun more => ?_⟩
  rw [hturns, validate]
  cases validateWithin a pool.size (a.size + 1) root with
  | ok => cases more <;> rfl
  | error fault => rfl

/-- Of a fragment without a cycle, validation accepts those of which every node is complete. It is
the loop that takes the node last pushed, and this loop ends. It ends as well if the pending nodes
are taken in any other order, and with the same verdict; if it rejects, then with a defect that a
node of the fragment has, and never because of something that it reads itself. -/
theorem validate_accepts (h : a.AcyclicFrom root) (pool : Pool) :
    (∃ turns, ∀ more, drain a pool.size (turns + more) [root] = some (validate a pool root)) ∧
    (validate a pool root = .ok () ↔
      ∀ id, a.Reaches root id → a.Complete pool (fun v => v.index < a.names.size) id) ∧
    Acc (fun later pending => Turn a pool.size pending later) {root} ∧
    (∀ pending, Relation.ReflTransGen (Turn a pool.size) {root} pending →
      ∃ v, Ends a pool.size pending v) ∧
    Ends a pool.size {root} (validate a pool root) ∧
    (∀ v, Ends a pool.size {root} v → (v = .ok () ↔ validate a pool root = .ok ())) ∧
    ∀ fault, Ends a pool.size {root} (.error fault) → ∃ id defect, a.Reaches root id ∧
      checkNode a pool.size id = .error defect ∧ fault = .invalid id defect := by
  have hdrain := drain_validate (h.validate_ends pool)
  have hends : Ends a pool.size {root} (validate a pool root) := by
    obtain ⟨turns, hturns⟩ := hdrain
    exact drain_ends (hturns 0)
  have hacc := turn_acc pool h
  refine ⟨hdrain, ?_, hacc, fun pending hpending => ?_, hends, fun v hv => ?_, fun fault hv => ?_⟩
  · simpa using hends.accepts_iff
  · refine Ends.exists_of_acc ?_
    induction hpending with
    | refl => exact hacc
    | tail _ hturn ih => exact ih.inv hturn
  · rw [hv.accepts_iff, hends.accepts_iff]
  · obtain ⟨p, hp, id, hid, defect, hcheck, rfl⟩ := hv.defective
    exact ⟨id, defect, Multiset.mem_singleton.1 hp ▸ hid, hcheck, rfl⟩

/-- The first node refers to a later one, whose handler binds a variable that is not declared. -/
def undeclaredCaught : Arena where
  nodes := #[⟨.throw ⟨2⟩, .nowhere⟩, ⟨.var ⟨0⟩, .nowhere⟩, ⟨.attempt ⟨1⟩ ⟨0, 1⟩, .nowhere⟩]
  handlerEntries := #[⟨some ⟨7⟩, ⟨1⟩, none⟩]
  names := #["x"]

/-- Validation rejects the fragment, as does the loop after two turns, and in whatever order. -/
theorem validate_accepts_undeclaredCaught :
    undeclaredCaught.AcyclicFrom ⟨0⟩ ∧
    validate undeclaredCaught {} ⟨0⟩ = .error (.invalid ⟨2⟩ (.undeclared ⟨7⟩ 1)) ∧
    (∃ turns, drain undeclaredCaught 0 turns [⟨0⟩] =
      some (.error (.invalid ⟨2⟩ (.undeclared ⟨7⟩ 1)))) ∧
    (¬∀ id, undeclaredCaught.Reaches ⟨0⟩ id → undeclaredCaught.Complete {} (·.index < 1) id) ∧
    ∀ v, Ends undeclaredCaught 0 {⟨0⟩} v → v ≠ .ok () := by
  have hacyclic : undeclaredCaught.AcyclicFrom ⟨0⟩ :=
    .of_rank (r := fun id => [2, 0, 1][id.index]?.getD 0) (by decide +kernel) _
  have hvalid : validate undeclaredCaught {} ⟨0⟩ =
      .error (.invalid ⟨2⟩ (.undeclared ⟨7⟩ 1)) := by
    decide +kernel
  obtain ⟨⟨turns, hturns⟩, haccepts, -, -, -, hverdict, -⟩ := validate_accepts hacyclic {}
  rw [hvalid] at haccepts hverdict hturns
  refine ⟨hacyclic, hvalid, ⟨turns, hturns 0⟩, fun hall => ?_, fun v hv hok => ?_⟩
  · cases haccepts.2 hall
  · cases (hverdict v hv).1 hok

end

end Quotation
