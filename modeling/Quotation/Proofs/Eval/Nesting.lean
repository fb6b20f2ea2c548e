import Quotation.Proofs.Eval.Levels
import Quotation.Proofs.Eval.Restore

/-!
# Evaluation ends

`eval_ends`: if all that is reached from a fragment has only children with smaller indices, and so
have the bodies of all functions in the pool and the heap, then the evaluation of the fragment ends,
whatever functions call each other, and within a nesting that the number of nodes and the limit of
calls give.

Proof. For a node there are levels kept for the indices below it, and for all nodes in each call
that may still come (`Program.DescendsWithin`). A child has a smaller index and takes one level
(`DescendsWithin.child`). The body of a function may have any index, but it is one call deeper, and
gets the levels kept for that call (`DescendsWithin.call`). Functions that the evaluation itself
makes have bodies that descend as the fragment does, so all of the heap may be called at any time.
-/

namespace Quotation

/-- Whatever is reached from `root` has only children with smaller indices. -/
def Arena.Descends (a : Arena) (root : ExprId) : Prop :=
  ∀ id, Relation.ReflTransGen a.Child root id → ∀ c, a.Child id c → c.index < id.index

/-- If the value is a function, its body descends. -/
def Value.Descends (a : Arena) : Value → Prop
  | .function f => a.Descends f.body
  | _ => True

section
variable {a : Arena} {root : ExprId}

theorem Arena.Descends.child_lt (h : a.Descends root) {c : ExprId} (hc : a.Child root c) :
    c.index < root.index :=
  h root .refl c hc

theorem Arena.Descends.child (h : a.Descends root) {c : ExprId} (hc : a.Child root c) :
    a.Descends c :=
  fun id hid => h id (hid.head hc)

theorem Arena.descends_of_nodes
    (h : ∀ i (hi : i < a.nodes.size), ∀ c ∈ a.children a.nodes[i].kind, c.index < i)
    (root : ExprId) : a.Descends root := by
  rintro id - c ⟨node, hnode, hc⟩
  obtain ⟨hi, rfl⟩ := Array.getElem?_eq_some_iff.1 hnode
  exact h id.index hi c hc

end

/-! ## The contract -/

section
variable {p : Program}

/-- All functions have bodies that descend, and levels do not run out. -/
def Promise.descending (p : Program) : Promise where
  value := Value.Descends p.arena
  undefined := True
  faults f := f ≠ .endless
  plain v hv := by
    cases v with
    | function f => exact absurd rfl (hv f)
    | _ => trivial

/-- The fragment descends, and there are levels left for the indices below the node, and for all
nodes in each further call. A node that there is not takes one level. -/
def Program.DescendsWithin (p : Program) (levels depth : Nat) (id : ExprId) : Prop :=
  p.arena.Descends id ∧ ∃ n, 0 < n ∧ (id.index < p.arena.size → id.index < n) ∧
    n + (p.maxCallDepth - depth) * p.arena.size ≤ levels

namespace Program.DescendsWithin

variable {levels depth : Nat} {id : ExprId}

theorem mono (h : p.DescendsWithin levels depth id) : p.DescendsWithin (levels + 1) depth id := by
  obtain ⟨hid, n, hn, hlt, hle⟩ := h
  exact ⟨hid, n, hn, hlt, Nat.le_succ_of_le hle⟩

theorem not_zero : ¬p.DescendsWithin 0 depth id := by
  rintro ⟨-, n, hn, -, hle⟩
  omega

/-- A child takes a level less. -/
theorem child (h : p.DescendsWithin (levels + 1) depth id) {c : ExprId} (hc : p.arena.Child id c) :
    p.DescendsWithin levels depth c := by
  obtain ⟨hid, n, hn, hlt, hle⟩ := h
  have hchild := hid.child_lt hc
  have hn' : id.index < n := by
    obtain ⟨node, hnode, -⟩ := hc
    exact hlt (Arena.index_lt_of_node? hnode)
  exact ⟨hid.child hc, n - 1, by omega, fun _ => by omega, by omega⟩

/-- A call has enough levels left for the body of any function. -/
theorem call (h : p.DescendsWithin (levels + 1) depth id) (hsize : 0 < p.arena.size)
    (hdepth : depth < p.maxCallDepth) {body : ExprId} (hbody : p.arena.Descends body) :
    p.DescendsWithin levels (depth + 1) body := by
  obtain ⟨-, n, hn, -, hle⟩ := h
  have hcalls : p.maxCallDepth - depth = p.maxCallDepth - (depth + 1) + 1 := by omega
  rw [hcalls, Nat.succ_mul] at hle
  exact ⟨hbody, p.arena.size, hsize, fun hlt => hlt, by omega⟩

end Program.DescendsWithin

def Contract.descending (hsize : 0 < p.arena.size)
    (hpool : ∀ k v, p.pool.get? k = some v → v.Descends p.arena) : Contract p where
  toPromise := .descending p
  ready levels depth _ id := p.DescendsWithin levels depth id
  endless h := absurd h Program.DescendsWithin.not_zero
  mono h := h.mono
  node h := .of_some nofun fun node hnode =>
    Promise.fits_of_children trivial nofun (fun _ hc => h.child ⟨node, hnode, hc⟩) hpool
  make _ _ _ _ _ h _ := h.1
  traced _ := .of_some nofun fun _ _ => trivial
  call h hf hdepth := ⟨fun _ => false, nofun, h.call hsize hdepth hf⟩

/-- Evaluation ends, with no more than `(L + 1) * n` evaluations and `L` function bodies nested in
each other, where `L` is the limit of calls and `n` the number of nodes. There has to be a node at
all, since an index without one takes an evaluation as well. -/
theorem eval_ends (hlimit : p.maxCallDepth < UInt64.size) (hsize : 0 < p.arena.size)
    (hpool : ∀ k v, p.pool.get? k = some v → v.Descends p.arena) {root : ExprId}
    (hroot : p.arena.Descends root) {heap : Heap}
    (hheap : ∀ v ∈ heap.cells, v.Descends p.arena) (env : Environment) :
    (∀ m, p.eval root ⟨heap, env, 0⟩ ≠ .error (.fault .endless) m) ∧
    p.evalNested ((p.maxCallDepth + 1) * p.arena.size) p.maxCallDepth root ⟨heap, env, 0⟩ =
      p.eval root ⟨heap, env, 0⟩ := by
  have hready : p.DescendsWithin ((p.maxCallDepth + 1) * p.arena.size) 0 root :=
    ⟨hroot, p.arena.size, hsize, fun hlt => hlt, by rw [Nat.sub_zero, Nat.succ_mul]; omega⟩
  have hcalls : p.maxCallDepth ≤ 0 + p.maxCallDepth := by omega
  have hbinds : env.Binds fun _ => false := nofun
  have hends : ∀ m, p.evalNested ((p.maxCallDepth + 1) * p.arena.size) p.maxCallDepth root
      ⟨heap, env, 0⟩ ≠ .error (.fault .endless) m := by
    intro m hr
    have hkeeps := (Contract.descending hsize hpool).evalNested_keeps hlimit hcalls hready hbinds
      heap hheap
    rw [hr] at hkeeps
    exact hkeeps.permits rfl
  have hlevels : (p.maxCallDepth + 1) * p.arena.size ≤ p.levels := Nat.le_add_right _ _
  rcases evalNested_agrees p p.maxCallDepth hlevels root ⟨heap, env, 0⟩ with ⟨f, m, hr, rfl⟩ | hsame
  · exact absurd hr (hends m)
  · exact ⟨fun m hr => hends m (hsame.symm.trans hr), hsame.symm⟩

end

/-- The function that calls itself through its cell ends at the limit of three calls, also where the
heap holds the function already. -/
theorem eval_ends_endlessCall :
    ∃ m, Program.eval ⟨endlessCall, {}, 3⟩ ⟨4⟩ (.start ⟨#[.function ⟨0, none, [], ⟨1⟩, {}⟩], 1⟩) =
        .error (.error (.callDepthExceeded 3)) m ∧
      Program.evalNested ⟨endlessCall, {}, 3⟩ 20 3 ⟨4⟩
        (.start ⟨#[.function ⟨0, none, [], ⟨1⟩, {}⟩], 1⟩) =
          .error (.error (.callDepthExceeded 3)) m := by
  have hdescends : ∀ root, endlessCall.Descends root :=
    Arena.descends_of_nodes (by decide)
  have hheap : ∀ v ∈ (⟨#[Value.function ⟨0, none, [], ⟨1⟩, {}⟩], 1⟩ : Heap).cells,
      v.Descends endlessCall := by
    intro v hv
    obtain rfl := Array.mem_singleton.1 hv
    exact hdescends ⟨1⟩
  obtain ⟨m, hm⟩ : ∃ m, Program.eval ⟨endlessCall, {}, 3⟩ ⟨4⟩
      (.start ⟨#[.function ⟨0, none, [], ⟨1⟩, {}⟩], 1⟩) =
        .error (.error (.callDepthExceeded 3)) m := ⟨_, rfl⟩
  obtain ⟨-, hnested⟩ := eval_ends (p := ⟨endlessCall, {}, 3⟩) (by decide) (by decide)
    (fun k v hk => by simp [Pool.get?] at hk) (hdescends ⟨4⟩) hheap {}
  exact ⟨m, hm, hnested.trans hm⟩

end Quotation
