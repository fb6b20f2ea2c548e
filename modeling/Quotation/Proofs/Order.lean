import Quotation.Proofs.Represents
import Mathlib.Logic.Relation

/-!
# Children before parents

A node refers to other nodes by index, or to all of them in a slice of a table (`Reference`). In an
arena that is `Arena.Ordered` every reference lies in its table, and every child of a node has a
smaller index than the node. So no node is below itself (`Ordered.acyclic`). One arena builds to
another (`Arena.BuildsTo`) by additions that refer only to what there is already; they keep the
order (`Addition.ordered`).
-/

namespace Quotation

/-! ## Slices -/

theorem Slice.mem_of_read? {α : Type} {s : Slice α} {table : Array α} {l : List α} {x : α}
    (h : s.read? table = some l) (hx : x ∈ l) : x ∈ table := by
  unfold Slice.read? at h
  split at h
  · obtain rfl := Option.some.inj h
    obtain ⟨k, hk, rfl⟩ := Array.mem_extract_iff_getElem.1 (Array.mem_toList_iff.1 hx)
    exact Array.getElem_mem _
  · cases h

theorem Slice.stop_le_of_read? {α : Type} {s : Slice α} {table : Array α} {l : List α}
    (h : s.read? table = some l) : s.stop ≤ table.size := by
  unfold Slice.read? at h
  split at h
  · assumption
  · cases h

theorem Slice.exists_read? {α : Type} {s : Slice α} {table : Array α} (h : s.stop ≤ table.size) :
    ∃ l, s.read? table = some l :=
  ⟨_, if_pos h⟩

/-! ## References -/

/-- How a node refers to its children. -/
inductive Reference where
  | expr (id : ExprId)
  | exprs (s : Slice ExprId)
  | handlers (s : Slice Handler)
  deriving DecidableEq, Repr

def Kind.references : Kind → List Reference
  | .unit | .int _ | .bool _ | .var _ | .constant _ | .cellList _ => []
  | .binary _ left right => [.expr left, .expr right]
  | .assign target value => [.expr target, .expr value]
  | .cond test yes no => [.expr test, .expr yes, .expr no]
  | .block _ body => [.exprs body]
  | .lambda _ body _ => [.expr body]
  | .call callee args => [.expr callee, .exprs args]
  | .attempt body handlers => [.expr body, .handlers handlers]
  | .throw value => [.expr value]
  | .content receiver => [.expr receiver]

namespace Arena

/-- The nodes that are referred to, if the reference lies in its table. -/
def targets? (a : Arena) : Reference → Option (List ExprId)
  | .expr id => some [id]
  | .exprs s => a.exprs? s
  | .handlers s => (a.handlers? s).map (·.flatMap Handler.exprs)

/-- The children of a node of a kind: those that it names itself, those in its list, and the bodies
and filters of its handlers. -/
def children (a : Arena) (kind : Kind) : List ExprId :=
  kind.references.flatMap fun r => (a.targets? r).getD []

/-- `c` is a child of the node of `id`. -/
def Child (a : Arena) (id c : ExprId) : Prop :=
  ∃ node, a.node? id = some node ∧ c ∈ a.children node.kind

/-- The reference lies in its table, and refers to nodes with indices below `n`. -/
def Below (a : Arena) (n : Nat) (r : Reference) : Prop :=
  ∃ ids, a.targets? r = some ids ∧ ∀ c ∈ ids, c.index < n

/-- The reference lies in its table. A single node has to be one of the arena. -/
def Has (a : Arena) : Reference → Prop
  | .expr id => id.index < a.size
  | .exprs s => s.stop ≤ a.exprEntries.size
  | .handlers s => s.stop ≤ a.handlerEntries.size

instance (a : Arena) (r : Reference) : Decidable (a.Has r) :=
  match r with
  | .expr id => inferInstanceAs (Decidable (id.index < a.size))
  | .exprs s => inferInstanceAs (Decidable (s.stop ≤ a.exprEntries.size))
  | .handlers s => inferInstanceAs (Decidable (s.stop ≤ a.handlerEntries.size))

/-- Children come before their parents, and what stands in a list is there. -/
structure Ordered (a : Arena) : Prop where
  nodes : ∀ id node, a.node? id = some node → ∀ r ∈ node.kind.references, a.Below id.index r
  exprEntries : ∀ c ∈ a.exprEntries, c.index < a.size
  handlerEntries : ∀ h ∈ a.handlerEntries, ∀ c ∈ h.exprs, c.index < a.size

end Arena

section
variable {a b : Arena} {n : Nat} {r : Reference}

theorem Arena.below_expr {id : ExprId} : a.Below n (.expr id) ↔ id.index < n := by
  simp [Arena.Below, Arena.targets?]

theorem Arena.PartOf.targets? (h : a.PartOf b) {ids : List ExprId}
    (hr : a.targets? r = some ids) : b.targets? r = some ids := by
  cases r with
  | expr id => exact hr
  | exprs s => exact h.exprs? hr
  | handlers s =>
    obtain ⟨hs, hhs, hids⟩ := Option.map_eq_some_iff.1 hr
    exact Option.map_eq_some_iff.2 ⟨hs, h.handlers? hhs, hids⟩

theorem Arena.Below.grows (h : a.Below n r) (hab : a.PartOf b) : b.Below n r := by
  obtain ⟨ids, hids, hlt⟩ := h
  exact ⟨ids, hab.targets? hids, hlt⟩

theorem Arena.Has.grows (h : a.Has r) (hab : a.PartOf b) : b.Has r := by
  cases r with
  | expr id => exact Nat.lt_of_lt_of_le h hab.size_le
  | exprs s => exact Nat.le_trans h hab.exprEntries.size_le
  | handlers s => exact Nat.le_trans h hab.handlerEntries.size_le

theorem Arena.Below.has (h : a.Below n r) (hn : n ≤ a.size) : a.Has r := by
  obtain ⟨ids, hids, hlt⟩ := h
  cases r with
  | expr id => exact Nat.lt_of_lt_of_le (Arena.below_expr.1 ⟨ids, hids, hlt⟩) hn
  | exprs s => exact Slice.stop_le_of_read? hids
  | handlers s =>
    obtain ⟨hs, hhs, -⟩ := Option.map_eq_some_iff.1 hids
    exact Slice.stop_le_of_read? hhs

/-- What a label has below it are the children. -/
theorem Arena.children_of_view? {pool : Pool} {kind : Kind} {label : Label}
    {branches : List Branch} (hview : a.view? pool kind = some (label, branches)) :
    a.children kind = branches.flatMap Branch.exprs := by
  cases kind with
  | block locals body =>
    obtain ⟨vs, ids, -, hids, -, rfl⟩ := view?_block.1 hview
    simp [Arena.children, Kind.references, Arena.targets?, hids]
  | lambda params body name =>
    obtain ⟨vs, -, -, rfl⟩ := view?_lambda.1 hview
    simp [Arena.children, Kind.references, Arena.targets?, Branch.exprs]
  | call callee args =>
    obtain ⟨ids, hids, -, rfl⟩ := view?_call.1 hview
    simp [Arena.children, Kind.references, Arena.targets?, Branch.exprs, hids]
  | attempt body handlers =>
    obtain ⟨hs, hhs, -, rfl⟩ := view?_attempt.1 hview
    simp [Arena.children, Kind.references, Arena.targets?, Branch.exprs, hhs, List.flatMap_map]
  | constant k =>
    obtain ⟨v, -, -, rfl⟩ := view?_constant.1 hview
    rfl
  | cellList vars =>
    obtain ⟨vs, -, -, rfl⟩ := view?_cellList.1 hview
    rfl
  | _ =>
    obtain ⟨rfl, rfl⟩ := Prod.mk.inj (Option.some.inj hview)
    rfl

theorem Arena.child_iff {pool : Pool} {id c : ExprId} {node : Node} {label : Label}
    {branches : List Branch} (hnode : a.node? id = some node)
    (hview : a.view? pool node.kind = some (label, branches)) :
    a.Child id c ↔ c ∈ branches.flatMap Branch.exprs := by
  rw [← children_of_view? hview]
  constructor
  · rintro ⟨node', hnode', hc⟩
    obtain rfl := Option.some.inj (hnode.symm.trans hnode')
    exact hc
  · exact fun hc => ⟨node, hnode, hc⟩

/-- No node is below itself if every child has a lower rank than its parent. -/
theorem Arena.acyclic_of_rank {r : ExprId → Nat} (h : ∀ id c, a.Child id c → r c < r id)
    (id : ExprId) : ¬Relation.TransGen a.Child id id := by
  have hlt : ∀ {c}, Relation.TransGen a.Child id c → r c < r id := fun hc => by
    induction hc with
    | single hc => exact h _ _ hc
    | tail _ hc ih => exact Nat.lt_trans (h _ _ hc) ih
  exact fun hcycle => Nat.lt_irrefl _ (hlt hcycle)

end

namespace Arena.Ordered

variable {a b : Arena}

/-- In an ordered arena, whatever lies in its table refers to nodes of the arena. -/
theorem below_of_has (ha : a.Ordered) {r : Reference} (hr : a.Has r) : a.Below a.size r := by
  cases r with
  | expr id => exact below_expr.2 hr
  | exprs s =>
    obtain ⟨ids, hids⟩ := Slice.exists_read? hr
    exact ⟨ids, hids, fun c hc => ha.exprEntries c (Slice.mem_of_read? hids hc)⟩
  | handlers s =>
    obtain ⟨hs, hhs⟩ := Slice.exists_read? hr
    refine ⟨_, Option.map_eq_some_iff.2 ⟨hs, hhs, rfl⟩, fun c hc => ?_⟩
    obtain ⟨h, hh, hc⟩ := List.mem_flatMap.1 hc
    exact ha.handlerEntries h (Slice.mem_of_read? hhs hh) c hc

/-! ## The order -/

theorem child_lt (ha : a.Ordered) {id c : ExprId} (h : a.Child id c) : c.index < id.index := by
  obtain ⟨node, hnode, hc⟩ := h
  obtain ⟨r, hr, hc⟩ := List.mem_flatMap.1 hc
  obtain ⟨ids, hids, hlt⟩ := ha.nodes id node hnode r hr
  rw [hids] at hc
  exact hlt c hc

/-- No node is below itself. -/
theorem acyclic (ha : a.Ordered) (id : ExprId) : ¬Relation.TransGen a.Child id id :=
  acyclic_of_rank (r := ExprId.index) (fun _ _ => ha.child_lt) id

theorem empty : ({} : Arena).Ordered where
  nodes id node h := by simp [Arena.node?] at h
  exprEntries c hc := absurd hc (Array.not_mem_empty c)
  handlerEntries h hh := absurd hh (Array.not_mem_empty h)

/-- The tables of lists may grow by entries for nodes of the arena. -/
theorem addEntries (ha : a.Ordered) (hab : a.PartOf b) (hnodes : b.nodes = a.nodes)
    (hexprs : ∀ c ∈ b.exprEntries, c.index < a.size)
    (hhandlers : ∀ h ∈ b.handlerEntries, ∀ c ∈ h.exprs, c.index < a.size) : b.Ordered := by
  have hsize : b.size = a.size := congrArg Array.size hnodes
  refine ⟨fun id node hnode r hr => ?_, hsize ▸ hexprs, hsize ▸ hhandlers⟩
  rw [Arena.node?, hnodes] at hnode
  exact (ha.nodes id node hnode r hr).grows hab

end Arena.Ordered

/-! ## Building in order -/

namespace Arena

/-- One entry or list is added, and refers only to nodes and slices that are there. -/
inductive Addition (a : Arena) : Arena → Prop
  | declare (name : String) : Addition a { a with names := a.names.push name }
  | node {kind : Kind} (span : Span) (h : ∀ r ∈ kind.references, a.Has r) :
    Addition a { a with nodes := a.nodes.push ⟨kind, span⟩ }
  | exprs {ids : List ExprId} (h : ∀ c ∈ ids, a.Has (.expr c)) :
    Addition a { a with exprEntries := a.exprEntries ++ ids }
  | vars (vs : List VarId) : Addition a { a with varEntries := a.varEntries ++ vs }
  | handlers {hs : List Handler} (h : ∀ x ∈ hs, ∀ c ∈ x.exprs, a.Has (.expr c)) :
    Addition a { a with handlerEntries := a.handlerEntries ++ hs }

/-- `b` is reached from `a` by additions. -/
def BuildsTo : Arena → Arena → Prop := Relation.ReflTransGen Addition

variable {a b c : Arena}

namespace Addition

theorem partOf (h : a.Addition b) : a.PartOf b := by
  cases h with
  | declare name => exact ⟨.refl _, .refl _, .refl _, .refl _, .push _ _⟩
  | node span => exact ⟨.push _ _, .refl _, .refl _, .refl _, .refl _⟩
  | exprs => exact ⟨.refl _, .append _ _, .refl _, .refl _, .refl _⟩
  | vars vs => exact ⟨.refl _, .refl _, .append _ _, .refl _, .refl _⟩
  | handlers => exact ⟨.refl _, .refl _, .refl _, .append _ _, .refl _⟩

theorem ordered (h : a.Addition b) (ha : a.Ordered) : b.Ordered := by
  have hpart := h.partOf
  cases h with
  | declare name => exact ha.addEntries hpart rfl ha.exprEntries ha.handlerEntries
  | vars vs => exact ha.addEntries hpart rfl ha.exprEntries ha.handlerEntries
  | @exprs ids hids =>
    refine ha.addEntries hpart rfl (fun c hc => ?_) ha.handlerEntries
    rcases Array.mem_append.1 (append_list_eq a.exprEntries ids ▸ hc) with hc | hc
    · exact ha.exprEntries c hc
    · exact hids c (List.mem_toArray.1 hc)
  | @handlers hs hhs =>
    refine ha.addEntries hpart rfl ha.exprEntries fun h hh => ?_
    rcases Array.mem_append.1 (append_list_eq a.handlerEntries hs ▸ hh) with hh | hh
    · exact ha.handlerEntries h hh
    · exact hhs h (List.mem_toArray.1 hh)
  | @node kind span hrefs =>
    refine ⟨fun id node hnode r hr => ?_, fun c hc => ?_, fun h hh c hc => ?_⟩
    · rw [Arena.node?, Array.getElem?_push] at hnode
      split at hnode
      · rename_i hid
        obtain rfl := Option.some.inj hnode
        exact hid ▸ (ha.below_of_has (hrefs r hr)).grows hpart
      · exact (ha.nodes id node hnode r hr).grows hpart
    · exact Nat.lt_of_lt_of_le (ha.exprEntries c hc) hpart.size_le
    · exact Nat.lt_of_lt_of_le (ha.handlerEntries h hh c hc) hpart.size_le

end Addition

namespace BuildsTo

theorem refl (a : Arena) : a.BuildsTo a := Relation.ReflTransGen.refl

theorem trans (h : a.BuildsTo b) (h' : b.BuildsTo c) : a.BuildsTo c :=
  Relation.ReflTransGen.trans h h'

theorem single (h : a.Addition b) : a.BuildsTo b := Relation.ReflTransGen.single h

theorem partOf (h : a.BuildsTo b) : a.PartOf b := by
  induction h with
  | refl => exact .refl a
  | tail _ h ih => exact ih.trans h.partOf

theorem ordered (h : a.BuildsTo b) (ha : a.Ordered) : b.Ordered := by
  induction h with
  | refl => exact ha
  | tail _ h ih => exact h.ordered ih

end BuildsTo

end Arena

end Quotation
