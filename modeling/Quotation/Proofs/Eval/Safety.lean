import Quotation.Proofs.Depth
import Quotation.Proofs.Eval.Contract
import Quotation.Proofs.Eval.Levels

/-!
# Valid fragments do not fault

If a fragment is valid, and so are the bodies of all functions in the pool and the heap, its
evaluation ends in a value or an error and not in a fault, and every function that it leaves in the
value, the error or the heap has a valid body again (`eval_safe`). The levels suffice: between two
calls the walk goes down a valid fragment, which is no deeper than there are nodes, and only so many
calls are nested.

This is so unless calls are traced. The trace of a call looks up the name that the function has for
itself, and validation does not look at that name: where it is undeclared, the call faults
(`eval_undeclaredName`). Tracing makes no other difference.
-/

namespace Quotation

/-- If the value is a function, its body is valid. -/
def Value.Valid (a : Arena) (pool : Pool) : Value → Prop
  | .function f => validate a pool f.body = .ok ()
  | _ => True

/-- Every function in the pool has a valid body. -/
def Program.Valid (p : Program) : Prop :=
  ∀ k v, p.pool.get? k = some v → v.Valid p.arena p.pool

/-- The functions that this node and all below it make have declared names, if any. -/
def Arena.NamesDeclared (a : Arena) (id : ExprId) : Prop :=
  ∀ d node params body name, Relation.ReflTransGen a.Child id d → a.node? d = some node →
    node.kind = .lambda params body (some name) → (a.name? name).isSome

/-- If the value is a function, its name is declared, and so are those of the functions that its
body makes. -/
def Value.NamesDeclared (a : Arena) : Value → Prop
  | .function f => (∀ v, f.name = some v → (a.name? v).isSome) ∧ a.NamesDeclared f.body
  | _ => True

/-- The names of all functions that an evaluation can come to are declared. -/
structure Program.NamesDeclared (p : Program) (heap : Heap) (root : ExprId) : Prop where
  root : p.arena.NamesDeclared root
  pool : ∀ k v, p.pool.get? k = some v → v.NamesDeclared p.arena
  heap : ∀ v ∈ heap.cells, v.NamesDeclared p.arena

/-- The program, without a trace of its calls. -/
def Program.untraced (p : Program) : Program := { p with tracing := .off }

/-- All functions have valid bodies, and declared names if they are all `named`. Nothing faults but
the trace of a call, and only if not all functions are. -/
def Promise.valid (p : Program) (named : Prop) : Promise where
  value v := v.Valid p.arena p.pool ∧ (named → v.NamesDeclared p.arena)
  undefined := True
  faults f := p.tracing.calls = true ∧ ¬named ∧ f = .outOfBounds
  plain v hv := by
    cases v with
    | function f => exact absurd rfl (hv f)
    | _ => exact ⟨trivial, fun _ => trivial⟩

section
variable {p : Program} {named : Prop}

theorem Arena.NamesDeclared.child {a : Arena} {id c : ExprId} (h : a.NamesDeclared id)
    (hc : a.Child id c) : a.NamesDeclared c :=
  fun d node params body name hd => h d node params body name (.head hc hd)

/-- The trace of a call reads a declared name. -/
theorem traced_valid {f : Closure} (h : (Promise.valid p named).value (.function f)) :
    (Promise.valid p named).Reads (p.tracedName? f) fun _ => True := by
  cases hread : p.tracedName? f with
  | some shown => trivial
  | none =>
    obtain ⟨htraced, v, hname, hv⟩ := Program.tracedName?_eq_none.1 hread
    refine ⟨htraced, fun hnamed => ?_, rfl⟩
    have hdeclared := (h.2 hnamed).1 v hname
    rw [hv] at hdeclared
    cases hdeclared

/-- At most so many levels are needed for a fragment that is `n` nodes deep, so many calls deep. -/
def Program.ValidWithin (p : Program) (levels depth : Nat) (id : ExprId) : Prop :=
  ∃ n, validateWithin p.arena p.pool.size n id = .ok () ∧
    n + (p.maxCallDepth - depth) * p.arena.size ≤ levels

theorem Program.not_validWithin_zero {depth : Nat} {id : ExprId} : ¬p.ValidWithin 0 depth id := by
  rintro ⟨n, hn, hle⟩
  obtain rfl : n = 0 := by omega
  cases hn

theorem Program.ValidWithin.mono {levels depth : Nat} {id : ExprId}
    (h : p.ValidWithin levels depth id) : p.ValidWithin (levels + 1) depth id := by
  obtain ⟨n, hn, hle⟩ := h
  exact ⟨n, hn, Nat.le_succ_of_le hle⟩

theorem Program.ValidWithin.node {levels depth : Nat} {id : ExprId}
    (h : p.ValidWithin (levels + 1) depth id) : ∃ node label branches,
      p.arena.node? id = some node ∧ p.arena.view? p.pool node.kind = some (label, branches) ∧
      label.Declared p.arena ∧
      ∀ b ∈ branches, ∀ c ∈ b.exprs, p.ValidWithin levels depth c := by
  obtain ⟨n, hn, hle⟩ := h
  cases n with
  | zero => cases hn
  | succ n =>
    obtain ⟨node, _, hnode, hkind, hcs⟩ := validateWithin_succ.1 hn
    obtain ⟨label, branches, hview, hdeclared, -, rfl⟩ := checkKind_eq_ok.1 hkind
    refine ⟨node, label, branches, hnode, hview, hdeclared, fun b hb c hc => ?_⟩
    exact ⟨n, hcs c (List.mem_flatMap.2 ⟨b, hb, hc⟩), by omega⟩

theorem Program.ValidWithin.validate {levels depth : Nat} {id : ExprId}
    (h : p.ValidWithin levels depth id) : validate p.arena p.pool id = .ok () :=
  have ⟨_, hn, _⟩ := h
  validateWithin_mono (Nat.le_succ _) (validateWithin_size hn)

/-- A call has enough levels left for the body of any function. -/
theorem Program.ValidWithin.call {levels depth : Nat} {id body : ExprId}
    (h : p.ValidWithin (levels + 1) depth id) (hdepth : depth < p.maxCallDepth)
    (hbody : Quotation.validate p.arena p.pool body = .ok ()) :
    p.ValidWithin levels (depth + 1) body := by
  obtain ⟨n, hn, hle⟩ := h
  obtain ⟨n, rfl⟩ : ∃ k, n = k + 1 := by
    cases n with
    | zero => cases hn
    | succ n => exact ⟨n, rfl⟩
  have hcalls : p.maxCallDepth - depth = p.maxCallDepth - (depth + 1) + 1 := by omega
  rw [hcalls, Nat.succ_mul] at hle
  exact ⟨p.arena.size, validateWithin_size hbody, by omega⟩

/-- A valid fragment whose functions are named, if they all are, is ready wherever enough levels are
left for it and for further calls. -/
def Program.Ready (p : Program) (named : Prop) (levels depth : Nat) (id : ExprId) : Prop :=
  p.ValidWithin levels depth id ∧ (named → p.arena.NamesDeclared id)

theorem Program.Ready.fits (hp : p.Valid)
    (hnames : named → ∀ k v, p.pool.get? k = some v → v.NamesDeclared p.arena) {levels depth : Nat}
    {id : ExprId} (h : p.Ready named (levels + 1) depth id) (S : VarId → Bool) :
    (Promise.valid p named).Reads (p.arena.node? id) fun node =>
      (Promise.valid p named).Fits p (fun _ => p.Ready named levels depth) S node.kind := by
  obtain ⟨node, label, branches, hnode, hview, hdeclared, hbelow⟩ := h.1.node
  rw [hnode]
  show (Promise.valid p named).Fits p (fun _ => p.Ready named levels depth) S node.kind
  have hchild : ∀ b ∈ branches, ∀ c ∈ b.exprs, p.Ready named levels depth c := fun b hb c hc =>
    ⟨hbelow b hb c hc, fun hnamed => (h.2 hnamed).child
      ((Arena.child_iff hnode hview).2 (List.mem_flatMap.2 ⟨b, hb, hc⟩))⟩
  refine Promise.fits_of_view? hview (fun b hb => ?_) (fun v hv => ?_) fun v hv => ?_
  · cases b with
    | expr id => exact hchild _ hb id List.mem_cons_self
    | handler h => exact hchild _ hb
  · refine .inr ⟨trivial, ?_⟩
    rw [Arena.name?, Array.getElem?_eq_getElem (hdeclared v (label.refers_subset_vars hv))]
    trivial
  · obtain ⟨k, -, hk, -⟩ := kind_of_view? (hv ▸ hview)
    exact ⟨hp k v hk, fun hnamed => hnames hnamed k v hk⟩

def Contract.valid (hp : p.Valid)
    (hnames : named → ∀ k v, p.pool.get? k = some v → v.NamesDeclared p.arena) : Contract p where
  toPromise := .valid p named
  ready levels depth _ id := p.Ready named levels depth id
  endless h := (p.not_validWithin_zero h.1).elim
  mono h := ⟨h.1.mono, h.2⟩
  node h := h.fits hp hnames _
  make := by
    rintro levels depth S id ⟨kind, span⟩ params body name vs env stamp h hnode hkind - hbody -
    refine ⟨hbody.1.validate, fun hnamed => ⟨?_, hbody.2 hnamed⟩⟩
    rintro v rfl
    exact h.2 hnamed _ _ _ _ v .refl hnode hkind
  traced := traced_valid
  call h hf hdepth := ⟨fun _ => false, nofun, h.1.call hdepth hf.1, fun hnamed => (hf.2 hnamed).2⟩

section
variable (hlimit : p.maxCallDepth < UInt64.size) (hp : p.Valid) {root : ExprId}
  (hroot : validate p.arena p.pool root = .ok ()) {m : Machine}
  (hheap : ∀ v ∈ m.heap.cells, v.Valid p.arena p.pool)
include hlimit hp hroot hheap

theorem eval_keeps : (Promise.valid p (p.NamesDeclared m.heap root)).Ends m.env m.callDepth
    (Promise.valid p (p.NamesDeclared m.heap root)).value (p.eval root m) := by
  have hready : p.ValidWithin p.levels m.callDepth root := by
    refine ⟨p.arena.size, validateWithin_size hroot, ?_⟩
    have hle : (p.maxCallDepth - m.callDepth) * p.arena.size ≤ p.maxCallDepth * p.arena.size :=
      Nat.mul_le_mul_right _ (Nat.sub_le ..)
    rw [Program.levels, Nat.succ_mul]
    omega
  have hpool : p.NamesDeclared m.heap root → ∀ k v, p.pool.get? k = some v →
      v.NamesDeclared p.arena := fun h => h.pool
  exact (Contract.valid hp hpool).evalWithin_keeps (S := fun _ => false) hlimit
    ⟨hready, fun h => h.root⟩ nofun m.heap fun v hv => ⟨hheap v hv, fun h => h.heap v hv⟩

/-- Nothing but the trace of a call faults, and only for want of a name. -/
theorem traced_of_eval_fault {f : Fault} {m' : Machine}
    (heval : p.eval root m = .error (.fault f) m') :
    p.tracing.calls = true ∧ ¬p.NamesDeclared m.heap root ∧ f = .outOfBounds := by
  have hkeeps := eval_keeps hlimit hp hroot hheap
  rw [heval] at hkeeps
  exact hkeeps.permits

end

/-- The evaluation of a valid fragment leaves only functions with valid bodies, and does not fault
unless calls are traced and a function may have an undeclared name: then the trace may fault, but
makes no other difference. -/
theorem eval_safe (hlimit : p.maxCallDepth < UInt64.size) (hp : p.Valid) {root : ExprId}
    (hroot : validate p.arena p.pool root = .ok ()) {m : Machine}
    (hheap : ∀ v ∈ m.heap.cells, v.Valid p.arena p.pool) :
    ((∃ v m', p.untraced.eval root m = .ok v m' ∧ v.Valid p.arena p.pool ∧
        ∀ u ∈ m'.heap.cells, u.Valid p.arena p.pool) ∨
      ∃ e m', p.untraced.eval root m = .error (.error e) m' ∧
        (∀ v, e = .thrown v → v.Valid p.arena p.pool) ∧
        ∀ u ∈ m'.heap.cells, u.Valid p.arena p.pool) ∧
    (p.eval root m = p.untraced.eval root m ∨
      p.tracing.calls = true ∧ ¬p.NamesDeclared m.heap root ∧
        ∃ m', p.eval root m = .error (.fault .outOfBounds) m') := by
  constructor
  · rcases (eval_keeps (p := p.untraced) hlimit hp hroot hheap).cases with
      ⟨v, h, hr, hh, hv⟩ | ⟨e, h, hr, hh, he⟩ | ⟨f, m, hr, hf⟩
    · exact .inl ⟨v, _, hr, hv.1, fun u hu => (hh u hu).1⟩
    · exact .inr ⟨e, _, hr, fun v hv => by subst hv; exact he.1, fun u hu => (hh u hu).1⟩
    · exact Bool.noConfusion hf.1
  · have hreads : p.ReadIn (fun _ => True) p.untraced :=
      ⟨⟨.refl _, .refl _, rfl, nofun⟩, .inl trivial⟩
    rcases hreads.evalWithin_agrees trivial (Nat.le_refl p.levels) root m with
      ⟨f, m', hf, -⟩ | hsame
    · obtain ⟨htraced, hnames, rfl⟩ := traced_of_eval_fault hlimit hp hroot hheap hf
      exact .inr ⟨htraced, hnames, m', hf⟩
    · exact .inl hsame.symm

end

/-- A function of `x` that answers `x` is a constant, and is called with another such function. -/
def functionCall : Program where
  arena := {
    nodes := #[⟨.var ⟨0⟩, ⟨1, 2⟩⟩, ⟨.lambda ⟨0, 1⟩ ⟨0⟩ none, ⟨0, 3⟩⟩, ⟨.constant ⟨0⟩, ⟨4, 5⟩⟩,
      ⟨.call ⟨2⟩ ⟨0, 1⟩, ⟨0, 5⟩⟩]
    exprEntries := #[⟨1⟩]
    varEntries := #[⟨0⟩]
    names := #["x"] }
  pool := ⟨#[.function ⟨0, none, [⟨0⟩], ⟨0⟩, {}⟩]⟩
  maxCallDepth := defaultCallDepth

/-- Traced, the call answers a function whose body is valid, and so is the body of the one in the
heap. -/
theorem eval_safe_functionCall :
    defaultCallDepth < UInt64.size ∧
    ∃ f m, { functionCall with tracing := .on }.eval ⟨3⟩
        (.start ⟨#[.function ⟨0, none, [⟨0⟩], ⟨0⟩, {}⟩], 1⟩) = .ok (.function f) m ∧
      validate functionCall.arena functionCall.pool f.body = .ok () ∧
      ∀ u ∈ m.heap.cells, u.Valid functionCall.arena functionCall.pool := by
  have hp : functionCall.Valid := by
    intro k v hk
    obtain ⟨hlt, rfl⟩ := Array.getElem?_eq_some_iff.1 hk
    have hzero : k = ⟨0⟩ := congrArg ConstantId.mk (Nat.lt_one_iff.1 hlt)
    subst hzero
    rfl
  have hheap : ∀ v ∈ #[Value.function ⟨0, none, [⟨0⟩], ⟨0⟩, {}⟩],
      v.Valid functionCall.arena functionCall.pool := by
    intro v hv
    obtain rfl := Array.mem_singleton.1 hv
    rfl
  obtain ⟨f, m, heval⟩ : ∃ f m, { functionCall with tracing := .on }.eval ⟨3⟩
      (.start ⟨#[.function ⟨0, none, [⟨0⟩], ⟨0⟩, {}⟩], 1⟩) = .ok (.function f) m := ⟨_, _, rfl⟩
  have hroot : validate functionCall.arena functionCall.pool ⟨3⟩ = .ok () := rfl
  obtain ⟨hsafe, hsame⟩ := eval_safe (p := { functionCall with tracing := .on }) (by decide) hp
    hroot (m := .start ⟨#[.function ⟨0, none, [⟨0⟩], ⟨0⟩, {}⟩], 1⟩) hheap
  rcases hsame with hsame | ⟨-, -, m', hfault⟩
  · rcases hsafe with ⟨v, m', hr, hv, hh⟩ | ⟨e, m', hr, -⟩
    · obtain ⟨rfl, rfl⟩ := EStateM.Result.ok.inj (heval.symm.trans (hsame.trans hr))
      exact ⟨by decide, f, m, heval, hv, hh⟩
    · cases heval.symm.trans (hsame.trans hr)
  · cases heval.symm.trans hfault

/-- The call of a function of nothing that has an undeclared name for itself. -/
def undeclaredCall : Program where
  arena := { nodes := #[⟨.unit, .nowhere⟩, ⟨.lambda ⟨0, 0⟩ ⟨0⟩ (some ⟨7⟩), .nowhere⟩,
    ⟨.call ⟨1⟩ ⟨0, 0⟩, .nowhere⟩] }
  pool := {}
  maxCallDepth := defaultCallDepth
  tracing := .on

/-- The call is valid, and reads past the names if it is traced. -/
theorem eval_undeclaredName :
    undeclaredCall.Valid ∧ validate undeclaredCall.arena undeclaredCall.pool ⟨2⟩ = .ok () ∧
      (∃ m, undeclaredCall.eval ⟨2⟩ (.start {}) = .error (.fault .outOfBounds) m) ∧
      ∃ m, undeclaredCall.untraced.eval ⟨2⟩ (.start {}) = .ok .unit m :=
  ⟨(fun _ _ hk => nomatch hk), rfl, ⟨_, rfl⟩, ⟨_, rfl⟩⟩

end Quotation
