import Quotation.Proofs.Order
import Mathlib.Data.Finset.Card
import Mathlib.Data.Finset.Range

/-!
# Fragments without a cycle

Nodes may be added raw, with any index in them, so an arena may hold cycles. A fragment without one
(`Arena.AcyclicFrom`) is finite on every way down: what holds of a node with one more level than it
holds of all its children holds of the root with as many levels as there are nodes, and one more for
an index that leads nowhere (`AcyclicFrom.climb`). Two consequences are that the children of the
fragment can be taken in a well-founded order (`AcyclicFrom.acc`), and that validation ends on it,
however broken its references are (`AcyclicFrom.validate_ends`).
-/

namespace Quotation

namespace Arena

/-- Some way down leads from the one node to the other. -/
def Reaches (a : Arena) : ExprId → ExprId → Prop := Relation.ReflTransGen a.Child

/-- No node from `root` down is below itself. -/
def AcyclicFrom (a : Arena) (root : ExprId) : Prop :=
  ∀ id, a.Reaches root id → ¬Relation.TransGen a.Child id id

variable {a b : Arena} {root id c : ExprId}

theorem Child.index_lt (h : a.Child id c) : id.index < a.size := by
  obtain ⟨node, hnode, -⟩ := h
  exact index_lt_of_node? hnode

theorem Child.partOf (h : a.Child id c) (hab : a.PartOf b) : b.Child id c := by
  obtain ⟨node, hnode, hc⟩ := h
  obtain ⟨r, hr, hc⟩ := List.mem_flatMap.1 hc
  refine ⟨node, hab.node? hnode, List.mem_flatMap.2 ⟨r, hr, ?_⟩⟩
  cases hids : a.targets? r with
  | none => simp [hids] at hc
  | some ids => rwa [hab.targets? hids, ← hids]

theorem Ordered.acyclicFrom (ha : a.Ordered) (root : ExprId) : a.AcyclicFrom root :=
  fun id _ => ha.acyclic id

namespace AcyclicFrom

theorem of_rank {r : ExprId → Nat}
    (h : ∀ i, (hi : i < a.nodes.size) → ∀ c ∈ a.children a.nodes[i].kind, r c < r ⟨i⟩)
    (root : ExprId) : a.AcyclicFrom root := by
  refine fun id _ => acyclic_of_rank (r := r) (fun id c hc => ?_) id
  obtain ⟨node, hnode, hc⟩ := hc
  obtain ⟨hi, rfl⟩ := Array.getElem?_eq_some_iff.1 hnode
  exact h id.index hi c hc

theorem of_partOf (h : b.AcyclicFrom root) (hab : a.PartOf b) : a.AcyclicFrom root :=
  fun id hid hcycle => h id (Relation.ReflTransGen.mono (fun _ _ hc => Child.partOf hc hab) _ _ hid)
    (Relation.TransGen.mono (fun _ _ hc => Child.partOf hc hab) _ _ hcycle)

/-! ## Levels -/

section
variable {P : Nat → ExprId → Prop}
  (hstep : ∀ n id, a.Reaches root id → (∀ c, a.Child id c → P n c) → P (n + 1) id)

include hstep

/-- Where it does not hold with so many levels, as many nodes lie on some way down. -/
theorem nodes_of_not (h : a.AcyclicFrom root) {n : Nat} (hid : a.Reaches root id)
    (hnot : ¬P n id) :
    ∃ s : Finset Nat, s.card = n ∧ ∀ i ∈ s, i < a.size ∧ a.Reaches id ⟨i⟩ := by
  induction n generalizing id with
  | zero => exact ⟨∅, rfl, by simp⟩
  | succ n ih =>
    obtain ⟨c, hc, hnot⟩ : ∃ c, a.Child id c ∧ ¬P n c := by
      by_contra hall
      push Not at hall
      exact hnot (hstep n id hid hall)
    obtain ⟨s, hcard, hs⟩ := ih (hid.tail hc) hnot
    -- the node is not among those from its child on, or it would be below itself
    have hnew : id.index ∉ s := fun hmem => h id hid (.head' hc (hs _ hmem).2)
    refine ⟨insert id.index s, by rw [Finset.card_insert_of_notMem hnew, hcard], fun i hi => ?_⟩
    rcases Finset.mem_insert.1 hi with rfl | hi
    · exact ⟨hc.index_lt, .refl⟩
    · exact ⟨(hs i hi).1, .head hc (hs i hi).2⟩

theorem climb (h : a.AcyclicFrom root) : P (a.size + 1) root := by
  by_contra hnot
  obtain ⟨s, hcard, hs⟩ := h.nodes_of_not hstep .refl hnot
  have hle : s.card ≤ (Finset.range a.size).card :=
    Finset.card_le_card fun i hi => Finset.mem_range.2 (hs i hi).1
  rw [hcard, Finset.card_range] at hle
  exact absurd hle (Nat.not_succ_le_self a.size)

end

/-- The way down from the root is well-founded. -/
theorem acc (h : a.AcyclicFrom root) : Acc (fun c id => a.Child id c) root :=
  h.climb (P := fun _ => Acc _) fun _ _ _ hc => .intro _ hc

/-! ## Validation -/

theorem validate_ends (h : a.AcyclicFrom root) (pool : Pool) :
    validate a pool root ≠ .error .endless := by
  refine h.climb (P := fun n id => validateWithin a pool.size n id ≠ .error .endless)
    fun n id _ ih hend => ?_
  rw [validateWithin, checkNode] at hend
  cases hnode : a.node? id with
  | none => simp [hnode] at hend
  | some node =>
    cases hkind : checkKind a pool.size node.kind with
    | error defect => simp [hnode, hkind] at hend
    | ok cs =>
      simp only [hnode, hkind] at hend
      obtain ⟨c, hc, hcend⟩ := exists_of_forM_eq_error hend
      obtain ⟨label, branches, hview, -, -, rfl⟩ := checkKind_eq_ok.1 hkind
      exact ih c ((child_iff hnode hview).2 (List.mem_reverse.1 hc)) hcend

end AcyclicFrom

/-- In an ordered arena validation goes down to smaller indices, whatever the root is. -/
theorem Ordered.validate_ends (ha : a.Ordered) (pool : Pool) (root : ExprId) :
    validate a pool root ≠ .error .endless :=
  (ha.acyclicFrom root).validate_ends pool

end Arena

end Quotation
