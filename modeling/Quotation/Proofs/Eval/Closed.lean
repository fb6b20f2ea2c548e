import Quotation.Proofs.Capture.Rewritten
import Quotation.Proofs.Eval.Contract

/-!
# Closed fragments find all their variables

A fragment is closed under some variables if it refers only to them and to those that it declares
around the reference (`Program.Closed`); as far as it can be read, for it need not be valid. The
evaluation of a closed fragment never ends in an undefined variable, if every function in the pool
and the heap is closed under its parameters and what it has captured (`eval_defined`).
-/

namespace Quotation

/-- Only looks at the variables that are referred to. -/
def Promise.scoped : Promise := ⟨fun _ => True, False, fun _ => True, fun _ _ => trivial⟩

/-- The fragment of `id` refers only to variables of `S` and to those that it declares around the
reference: there are nodes, each with the variables declared around it, that lead only to such nodes
and refer only to what is declared around them. -/
def Program.Closed (p : Program) (S : VarId → Bool) (id : ExprId) : Prop :=
  ∃ R : (VarId → Bool) → ExprId → Prop, R S id ∧
    ∀ S id node, R S id → p.arena.node? id = some node → Promise.scoped.Fits p R S node.kind

/-- The function refers only to its parameters, to what it has captured, and to variables that are
declared in its body. -/
def Value.Closed (p : Program) : Value → Prop
  | .function f =>
    p.Closed ((Label.lambda f.params f.name).under fun v => (f.captures.find? v).isSome) f.body
  | _ => True

section
variable {p : Program} {S S' : VarId → Bool} {id : ExprId}

theorem Program.Closed.mono (h : p.Closed S id) (hS : ∀ v, S v = true → S' v = true) :
    p.Closed S' id := by
  obtain ⟨R, hid, hR⟩ := h
  refine ⟨fun T id => ∃ T₀, (∀ v, T₀ v = true → T v = true) ∧ R T₀ id, ⟨S, hS, hid⟩, ?_⟩
  rintro T id node ⟨T₀, hT, hid⟩ hnode
  exact (hR T₀ id node hid hnode).weaken (fun h => h) (fun h => h) hT
    (fun U U' id hU hid => ⟨U, hU, hid⟩) fun _ _ _ _ => trivial

/-- A valid fragment that captures nothing is closed under what is declared around it. -/
theorem Represents.closed {n : Nat} {t : Tree} (h : Represents p.arena p.pool n id t)
    (hnil : t.captures S = []) : p.Closed S id := by
  refine ⟨fun S id => ∃ n t, Represents p.arena p.pool n id t ∧ t.captures S = [],
    ⟨n, t, h, hnil⟩, ?_⟩
  rintro S id node ⟨n, t, h, hnil⟩ hnode
  obtain ⟨k, node', label, branches, -, hnode', hview, hrefers, hbelow⟩ := h.nothing_captured hnil
  obtain rfl := Option.some.inj (hnode.symm.trans hnode')
  refine Promise.fits_of_view? hview (fun b hb => ?_) (fun v hv => .inl (hrefers v hv))
    fun _ _ => trivial
  obtain ⟨t, ht, hnil⟩ := hbelow b hb
  cases b with
  | expr id => exact ⟨k, t, ht, hnil⟩
  | handler x =>
    intro id hid
    obtain ⟨u, hu, hnil⟩ := ht.nothing_captured hnil hid
    exact ⟨k, u, hu, hnil⟩

/-- No variable is undefined. -/
def Promise.closed (p : Program) : Promise where
  value := Value.Closed p
  undefined := False
  faults _ := True
  plain v hv := by
    cases v with
    | function f => exact absurd rfl (hv f)
    | _ => trivial

def Contract.closed (hp : ∀ k v, p.pool.get? k = some v → v.Closed p) : Contract p where
  toPromise := .closed p
  ready _ _ S id := p.Closed S id
  endless _ := trivial
  mono h := h
  node := by
    rintro levels depth S id ⟨R, hid, hR⟩
    cases hnode : p.arena.node? id with
    | none => trivial
    | some node =>
      refine (hR S id node hid hnode).weaken (fun h => h) (fun h => h) (fun _ hv => hv)
        (fun T T' id hT hid => ?_) fun k v hv _ => hp k v hv
      exact Program.Closed.mono ⟨R, hid, hR⟩ hT
  make := by
    intro levels depth S id node params body name vs env stamp _ _ _ _ hbody hbinds
    refine hbody.mono fun v hv => Bool.or_eq_true_iff.2 ?_
    refine (Bool.or_eq_true_iff.1 hv).imp_right fun hS => ?_
    show (env.capture.find? v).isSome
    rw [env.find?_capture]
    exact hbinds v hS
  traced _ := .of_some trivial fun _ _ => trivial
  call := by
    intro levels depth S id f _ hf _
    refine ⟨fun v => (f.captures.find? v).isSome, fun v hv => ?_, hf⟩
    rwa [Environment.lookup_ofCaptures]

/-- No variable is undefined in the evaluation of a closed fragment, if all functions that it may
call are closed. -/
theorem eval_defined (hlimit : p.maxCallDepth < UInt64.size)
    (hp : ∀ k v, p.pool.get? k = some v → v.Closed p) (hid : p.Closed S id) {m : Machine}
    (hbinds : m.env.Binds S) (hheap : ∀ v ∈ m.heap.cells, v.Closed p) (name : String)
    (m' : Machine) : p.eval id m ≠ .error (.error (.undefinedVariable name)) m' := by
  intro heval
  have hready : (Contract.closed hp).ready p.levels m.callDepth S id := hid
  have hkeeps := (Contract.closed hp).evalWithin_keeps hlimit hready hbinds m.heap hheap
  rcases hkeeps.cases with ⟨v, h, hr, -⟩ | ⟨e, h, hr, -, he⟩ | ⟨f, m', hr, -⟩
  · cases heval.symm.trans hr
  · obtain rfl := Stop.error.inj (EStateM.Result.error.inj (heval.symm.trans hr)).1
    exact he
  · cases heval.symm.trans hr

end

end Quotation
