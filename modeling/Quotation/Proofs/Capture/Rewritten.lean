import Quotation.Proofs.Capture.Tree
import Quotation.Proofs.Represents

/-!
# What a node is answered with

Quoting answers a node below which nothing is captured with that node, and any other with a new one:
an access to a cell, a list of cells, or a node of the same label whose children have been answered
in turn. `Rewritten` says so of a node and its answer all the way down, where both are looked up in
the arena that has been reached in the end. It stays true while that arena grows
(`Rewritten.grows`).
-/

namespace Quotation

/-- Nodes whose captured variables are all below them. -/
def Label.isReference : Label → Bool
  | .var _ | .cellList _ => true
  | _ => false

theorem Label.refers_eq_nil {l : Label} (h : l.isReference = false) : l.refers = [] := by
  cases l <;> first | rfl | cases h

/-- A branch answered by `R`. What is below a handler is under the variable that it catches. -/
def RewrittenBranch (R : (VarId → Bool) → ExprId → ExprId → Prop) (declared : VarId → Bool) :
    Branch → Branch → Prop
  | .expr id, .expr r => R declared id r
  | .handler h, .handler k => k.caught = h.caught ∧
      List.Forall₂ (R ((Label.handler h.caught).under declared)) h.exprs k.exprs
  | _, _ => False

section
variable (a : Arena) (pool : Pool) (frames : List Frame) (storages : List Storage) (first : Stamp)

/-- The three ways in which `r` takes the place of a node with captured variables. -/
inductive Renewed (R : (VarId → Bool) → ExprId → ExprId → Prop) (declared : VarId → Bool)
    (id r : ExprId) : Prop where
  | cell {v : VarId} {span : Span} {c : Cell} (node : a.node? id = some ⟨.var v, span⟩)
    (free : declared v = false) (resolved : cellOf frames storages v = some c)
    (tree : Represents a pool 2 r (cellTree span c))
  | list {slice : Slice VarId} {vars : List VarId} {span : Span} {stamp : Stamp}
    (node : a.node? id = some ⟨.cellList slice, span⟩) (read : a.vars? slice = some vars)
    (resolved : ∀ v ∈ vars, declared v = false → (cellOf frames storages v).isSome)
    (routable : Routable declared vars) (stamped : first ≤ stamp)
    (tree : Represents a pool 2 r (listTree frames storages declared stamp span vars))
  | inner {kind kind' : Kind} {span : Span} {label : Label} {branches branches' : List Branch}
    (node : a.node? id = some ⟨kind, span⟩) (view : a.view? pool kind = some (label, branches))
    (inner : label.isReference = false) (node' : a.node? r = some ⟨kind', span⟩)
    (view' : a.view? pool kind' = some (label, branches'))
    (below : List.Forall₂ (RewrittenBranch R (label.under declared)) branches branches')

variable (size : Nat)

/-- The node of `id`, where `declared` are the variables declared around it, is answered with `r`. A
new node has an index from `size` on, and a new list a stamp from `first` on. -/
def Rewritten : Nat → (VarId → Bool) → ExprId → ExprId → Prop
  | 0, _, _, _ => False
  | n + 1, declared, id, r => ∃ t, Represents a pool (n + 1) id t ∧
      (t.captures declared = [] → r = id) ∧
      (t.captures declared ≠ [] →
        size ≤ r.index ∧ Renewed a pool frames storages first (Rewritten n) declared id r)

end

variable {a a' : Arena} {pool pool' : Pool} {frames : List Frame} {storages : List Storage}
  {size size' n : Nat} {first first' : Stamp} {declared : VarId → Bool}

theorem forall₂_rewrittenBranch_expr {R : (VarId → Bool) → ExprId → ExprId → Prop}
    {ids rs : List ExprId} :
    List.Forall₂ (RewrittenBranch R declared) (ids.map .expr) (rs.map .expr) ↔
      List.Forall₂ (R declared) ids rs :=
  List.forall₂_map_left_iff.trans List.forall₂_map_right_iff

/-! ## While the arena grows -/

theorem RewrittenBranch.imp {R R' : (VarId → Bool) → ExprId → ExprId → Prop}
    (hR : ∀ declared id r, R declared id r → R' declared id r) {b b' : Branch}
    (h : RewrittenBranch R declared b b') : RewrittenBranch R' declared b b' := by
  cases b with
  | expr id =>
    cases b' with
    | expr r => exact hR _ _ _ h
    | handler k => exact h.elim
  | handler x =>
    cases b' with
    | expr r => exact h.elim
    | handler k => exact ⟨h.1, h.2.imp (hR _)⟩

theorem Renewed.grows (ha : a.Grows a') (hp : pool.Grows pool') (hfirst : first' ≤ first)
    {R R' : (VarId → Bool) → ExprId → ExprId → Prop}
    (hR : ∀ declared id r, R declared id r → R' declared id r) {id r : ExprId}
    (h : Renewed a pool frames storages first R declared id r) :
    Renewed a' pool' frames storages first' R' declared id r := by
  cases h with
  | cell node free resolved tree =>
    exact .cell (ha.node? node) free resolved (tree.grows ha hp (Nat.le_refl 2))
  | list node read resolved routable stamped tree =>
    exact .list (ha.node? node) (ha.vars? read) resolved routable (Nat.le_trans hfirst stamped)
      (tree.grows ha hp (Nat.le_refl 2))
  | inner node view inner node' view' below =>
    exact .inner (ha.node? node) (view?_grows ha hp view) inner (ha.node? node')
      (view?_grows ha hp view') (below.imp fun _ _ => RewrittenBranch.imp hR)

theorem Rewritten.grows (ha : a.Grows a') (hp : pool.Grows pool') (hsize : size' ≤ size)
    (hfirst : first' ≤ first) {id r : ExprId}
    (h : Rewritten a pool frames storages first size n declared id r) :
    Rewritten a' pool' frames storages first' size' n declared id r := by
  induction n generalizing declared id r with
  | zero => exact h.elim
  | succ n ih =>
    obtain ⟨t, ht, hsame, hnew⟩ := h
    refine ⟨t, ht.grows ha hp (Nat.le_refl _), hsame, fun hne => ?_⟩
    obtain ⟨hle, hrenewed⟩ := hnew hne
    exact ⟨Nat.le_trans hsize hle, hrenewed.grows ha hp hfirst fun _ _ _ => ih⟩

/-! ## Where nothing is captured -/

theorem capturesAll_eq_nil {ts : List Tree} :
    capturesAll declared ts = [] ↔ ∀ t ∈ ts, t.captures declared = [] := by
  induction ts with
  | nil => simp [capturesAll]
  | cons t ts ih => simp [capturesAll, ih]

/-- Where nothing is captured, a node refers to declared variables only, and nothing is captured
below it. -/
theorem Represents.nothing_captured {id : ExprId} {t : Tree} (ht : Represents a pool n id t)
    (hnil : t.captures declared = []) :
    ∃ k node label branches, n = k + 1 ∧ a.node? id = some node ∧
      a.view? pool node.kind = some (label, branches) ∧
      (∀ v ∈ label.refers, declared v = true) ∧
      ∀ b ∈ branches, ∃ t, RepresentsBranch a (Represents a pool k) b t ∧
        t.captures (label.under declared) = [] := by
  cases n with
  | zero => exact ht.elim
  | succ k =>
    obtain ⟨node, label, branches, ts, hnode, hview, -, hts, rfl⟩ := ht
    obtain ⟨hrefers, hbelow⟩ := List.append_eq_nil_iff.1 hnil
    refine ⟨k, node, label, branches, rfl, hnode, hview, fun v hv => ?_, fun b hb => ?_⟩
    · simpa using List.filter_eq_nil_iff.1 hrefers v hv
    · obtain ⟨t, ht, hbt⟩ := forall₂_mem hts hb
      exact ⟨t, hbt, capturesAll_eq_nil.1 hbelow t ht⟩

theorem RepresentsBranch.nothing_captured {h : Handler} {t : Tree}
    (ht : RepresentsBranch a (Represents a pool n) (.handler h) t)
    (hnil : t.captures declared = []) {id : ExprId} (hid : id ∈ h.exprs) :
    ∃ u, Represents a pool n id u ∧ u.captures ((Label.handler h.caught).under declared) = [] := by
  obtain ⟨-, ts, hts, rfl⟩ := ht
  obtain ⟨u, hu, hidu⟩ := forall₂_mem hts hid
  exact ⟨u, hidu, capturesAll_eq_nil.1 (List.append_eq_nil_iff.1 hnil).2 u hu⟩

theorem Rewritten.same {id : ExprId} {t : Tree} (ht : Represents a pool n id t)
    (hnil : t.captures declared = []) :
    Rewritten a pool frames storages first size n declared id id := by
  cases n with
  | zero => exact ht.elim
  | succ n => exact ⟨t, ht, fun _ => rfl, fun hne => absurd hnil hne⟩

theorem RewrittenBranch.same {b : Branch} {t : Tree}
    (ht : RepresentsBranch a (Represents a pool n) b t) (hnil : t.captures declared = []) :
    RewrittenBranch (Rewritten a pool frames storages first size n) declared b b := by
  cases b with
  | expr id => exact Rewritten.same ht hnil
  | handler h =>
    refine ⟨rfl, List.forall₂_same.2 fun id hid => ?_⟩
    obtain ⟨u, hu, hnil⟩ := ht.nothing_captured hnil hid
    exact .same hu hnil

end Quotation
