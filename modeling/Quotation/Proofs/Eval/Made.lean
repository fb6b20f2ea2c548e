import Quotation.Proofs.Eval.RecordInvariant
import Quotation.Proofs.Eval.Safety
import Quotation.Proofs.Intact

/-!
# The variables of the functions that are made

An evaluation does not leave a region of nodes with all their children, if the functions of the pool
and the heap do not (`Contract.within`), and then every function that is made is made by a node of
the region (`made_of_region`).

Valid fragments are such a region, so the parameters of every function that is made are declared.
The name that a function has for itself is not validated, so a valid fragment can make a function
with an undeclared name (`made_undeclaredName`). The fragments in which all names are declared are
another region, and make no such function (`made_declared`).
-/

namespace Quotation

section
variable {p : Program}

/-- The bodies of functions are in the region. -/
def Promise.within (region : ExprId → Prop) : Promise where
  value v := ∀ f, v = .function f → region f.body
  undefined := True
  faults _ := True
  plain _ hv f hf := absurd hf (hv f)

/-- A region of nodes with all their children, which the functions of the pool do not leave. -/
structure Program.Region (p : Program) (region : ExprId → Prop) : Prop where
  child {id c : ExprId} : region id → p.arena.Child id c → region c
  pool {k : ConstantId} {f : Closure} : p.pool.get? k = some (.function f) → region f.body

/-- Nothing is evaluated outside of the region. -/
def Contract.within {region : ExprId → Prop} (hregion : p.Region region) : Contract p where
  toPromise := .within region
  ready _ _ _ id := region id
  endless _ := trivial
  mono := id
  node {_ _ S id} hid := .of_some trivial fun node hnode =>
    Promise.fits_of_children trivial trivial (fun _ hc => hregion.child hid ⟨node, hnode, hc⟩)
      fun _ _ hv _ hf => hregion.pool (hf ▸ hv)
  make _ _ _ _ _ hbody _ f hf := by
    cases hf
    exact hbody
  traced _ := .of_some trivial fun _ _ => trivial
  call _ hf _ := ⟨fun _ => false, nofun, hf _ rfl⟩

/-- Every function that is made has the property, if the nodes that are ready make no others. -/
def RecordInvariant.making {c : Contract p} (property : Closure → Prop)
    (hmade : ∀ {levels depth S id node params body name vs}, c.ready (levels + 1) depth S id →
      p.arena.node? id = some node → node.kind = .lambda params body name →
      p.arena.vars? params = some vs → ∀ stamp captures,
      property ⟨stamp, name, vs, body, captures⟩) : RecordInvariant c where
  holds l _ _ := ∀ f, .made f ∈ l → property f
  nothing _ _ := nofun
  append h _ h' f hf := (List.mem_append.1 hf).elim (h f) (h' f)
  wrote _ _ _ f hf := by
    cases List.mem_singleton.1 hf
  made hready hnode hkind hvs stamp captures heap f hf := by
    cases List.mem_singleton.1 hf
    exact hmade hready hnode hkind hvs stamp captures
  whole id _ _ h f hf := by
    rcases List.mem_cons.1 hf with hf | hf
    · cases hf
    · rcases List.mem_append.1 hf with hf | hf
      · exact h f hf
      · cases List.mem_singleton.1 hf

/-- What holds of all functions that the nodes of a region make holds of every function that is
made, on a heap whose functions do not leave the region. -/
theorem made_of_region (hlimit : p.maxCallDepth < UInt64.size) {region : ExprId → Prop}
    (hregion : p.Region region) (property : Closure → Prop)
    (hmade : ∀ {id node params body name vs}, region id → p.arena.node? id = some node →
      node.kind = .lambda params body name → p.arena.vars? params = some vs → ∀ stamp captures,
      property ⟨stamp, name, vs, body, captures⟩)
    (levels : Nat) {root : ExprId} (hroot : region root) {m : Machine}
    (hheap : ∀ f, .function f ∈ m.heap.cells → region f.body) {f : Closure}
    (hf : .made f ∈ (p.recordedWithin levels root).log m) : property f :=
  (RecordInvariant.making (c := .within hregion) property hmade).holds_log hlimit hroot
    (fun _ hv f hf => hheap f (hf ▸ hv)) f hf

/-! ## Declared variables -/

/-- What is below a valid fragment is valid. -/
theorem Program.Valid.region (hp : p.Valid) :
    p.Region fun id => validate p.arena p.pool id = .ok () where
  child hid hc := validate_iff_intact.2 ((validate_iff_intact.1 hid).child hc)
  pool hk := hp _ _ hk

theorem params_declared_of_validate {id body : ExprId} {node : Node} {params : Slice VarId}
    {name : Option VarId} {vs : List VarId} (h : validate p.arena p.pool id = .ok ())
    (hnode : p.arena.node? id = some node) (hkind : node.kind = .lambda params body name)
    (hvs : p.arena.vars? params = some vs) : ∀ v ∈ vs, (p.arena.name? v).isSome := by
  intro v hv
  cases validate_iff_intact.1 h with
  | node hnode' hview hlabel =>
    obtain rfl := Option.some.inj (hnode.symm.trans hnode')
    rw [hkind] at hview
    obtain ⟨_, hvs', rfl, -⟩ := view?_lambda.1 hview
    obtain rfl := Option.some.inj (hvs.symm.trans hvs')
    rw [Arena.name?, Array.getElem?_eq_getElem (hlabel v hv)]
    rfl

/-- The parameters of every function that a valid fragment makes are declared, and its name is if
the names of all functions in the fragment and in the bodies that it can come to are. -/
theorem made_declared (hlimit : p.maxCallDepth < UInt64.size) (hp : p.Valid) (levels : Nat)
    {root : ExprId} (hroot : validate p.arena p.pool root = .ok ()) {m : Machine}
    (hheap : ∀ v ∈ m.heap.cells, v.Valid p.arena p.pool) :
    (∀ f, .made f ∈ (p.recordedWithin levels root).log m →
      ∀ v ∈ f.params, (p.arena.name? v).isSome) ∧
    (p.arena.NamesDeclared root →
      (∀ k f, p.pool.get? k = some (.function f) → p.arena.NamesDeclared f.body) →
      (∀ f, .function f ∈ m.heap.cells → p.arena.NamesDeclared f.body) →
      ∀ f, .made f ∈ (p.recordedWithin levels root).log m →
        ∀ v, f.name = some v → (p.arena.name? v).isSome) := by
  constructor
  · intro f hf
    exact made_of_region hlimit hp.region (fun f => ∀ v ∈ f.params, (p.arena.name? v).isSome)
      (fun h hnode hkind hvs _ _ => params_declared_of_validate h hnode hkind hvs)
      levels hroot (fun f hf => hheap _ hf) hf
  · intro hnames hpool hcells f hf
    have hregion : p.Region p.arena.NamesDeclared :=
      ⟨fun hid hc => hid.child hc, hpool _ _⟩
    refine made_of_region hlimit hregion (fun f => ∀ v, f.name = some v → (p.arena.name? v).isSome)
      (fun hid hnode hkind _ _ _ v hv => ?_) levels hnames hcells hf
    obtain rfl := hv
    exact hid _ _ _ _ v .refl hnode hkind

end

/-- The identity, as a function with a name for itself. -/
def namedIdentity (name : VarId) : Program where
  arena := {
    nodes := #[⟨.var ⟨0⟩, ⟨0, 1⟩⟩, ⟨.lambda ⟨0, 1⟩ ⟨0⟩ (some name), ⟨0, 3⟩⟩]
    varEntries := #[⟨0⟩]
    names := #["x", "f"] }
  pool := {}
  maxCallDepth := defaultCallDepth

/-- Parameter and name of the function that is made are declared. -/
theorem made_declared_namedIdentity :
    defaultCallDepth < UInt64.size ∧ (namedIdentity ⟨1⟩).Valid ∧
    validate (namedIdentity ⟨1⟩).arena (namedIdentity ⟨1⟩).pool ⟨1⟩ = .ok () ∧
    ∃ f, .made f ∈ ((namedIdentity ⟨1⟩).recordedWithin 1 ⟨1⟩).log (.start {}) ∧
      (∀ v ∈ f.params, ((namedIdentity ⟨1⟩).arena.name? v).isSome) ∧
      f.name = some ⟨1⟩ ∧ ((namedIdentity ⟨1⟩).arena.name? ⟨1⟩).isSome := by
  have hp : (namedIdentity ⟨1⟩).Valid := fun _ _ hk => nomatch hk
  have hvalid : validate (namedIdentity ⟨1⟩).arena (namedIdentity ⟨1⟩).pool ⟨1⟩ = .ok () := rfl
  have hmade : .made ⟨0, some ⟨1⟩, [⟨0⟩], ⟨0⟩, {}⟩ ∈
      ((namedIdentity ⟨1⟩).recordedWithin 1 ⟨1⟩).log (.start {}) := .tail _ (.head _)
  have hnames : (namedIdentity ⟨1⟩).arena.NamesDeclared ⟨1⟩ := by
    intro d node params body name _ hnode hkind
    have hmem : node ∈ (namedIdentity ⟨1⟩).arena.nodes := Array.mem_of_getElem? hnode
    simp only [namedIdentity, List.mem_toArray, List.mem_cons, List.not_mem_nil, or_false] at hmem
    rcases hmem with rfl | rfl <;> cases hkind
    rfl
  obtain ⟨hparams, hname⟩ := made_declared (by decide) hp 1 hvalid (m := .start {}) nofun
  exact ⟨by decide, hp, hvalid, _, hmade, hparams _ hmade, rfl,
    hname hnames (fun _ _ hk => nomatch hk) nofun _ hmade _ rfl⟩

/-- A valid fragment that makes a function under an undeclared name. -/
theorem made_undeclaredName :
    (namedIdentity ⟨7⟩).Valid ∧
    validate (namedIdentity ⟨7⟩).arena (namedIdentity ⟨7⟩).pool ⟨1⟩ = .ok () ∧
    ∃ f m, (namedIdentity ⟨7⟩).eval ⟨1⟩ (.start {}) = .ok (.function f) m ∧
      .made f ∈
        ((namedIdentity ⟨7⟩).recordedWithin (namedIdentity ⟨7⟩).levels ⟨1⟩).log (.start {}) ∧
      f.name = some ⟨7⟩ ∧ (namedIdentity ⟨7⟩).arena.name? ⟨7⟩ = none :=
  ⟨(fun _ _ hk => nomatch hk), rfl, _, _, rfl, .tail _ (.head _), rfl, rfl⟩

end Quotation
