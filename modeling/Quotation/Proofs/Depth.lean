import Quotation.Proofs.Represents
import Mathlib.Data.Fintype.Card

/-!
# How deep a fragment is

On the way down through a valid fragment no node comes twice, so the fragment is at most as deep as
the arena has nodes (`validateWithin_size`).
-/

namespace Quotation

variable {a : Arena} {pool : Pool} {constants n : Nat} {id : ExprId}

theorem validateWithin_mono {m : Nat} (hle : n ≤ m) (h : validateWithin a constants n id = .ok ()) :
    validateWithin a constants m id = .ok () := by
  induction n generalizing m id with
  | zero => cases h
  | succ n ih =>
    obtain ⟨m, rfl⟩ : ∃ k, m = k + 1 := ⟨m - 1, by omega⟩
    rw [validateWithin_succ] at h ⊢
    obtain ⟨node, cs, hnode, hkind, hcs⟩ := h
    exact ⟨node, cs, hnode, hkind, fun c hc => ih (by omega) (hcs c hc)⟩

/-- The fragment of `id` is exactly `n + 1` nodes deep. -/
def Deep (a : Arena) (constants n : Nat) (id : ExprId) : Prop :=
  validateWithin a constants (n + 1) id = .ok () ∧ validateWithin a constants n id ≠ .ok ()

namespace Deep

theorem unique {m : Nat} (h : Deep a constants n id) (h' : Deep a constants m id) : n = m := by
  by_contra hne
  rcases Nat.lt_or_gt_of_ne hne with hlt | hlt
  · exact h'.2 (validateWithin_mono hlt h.1)
  · exact h.2 (validateWithin_mono hlt h'.1)

theorem index_lt (h : Deep a constants n id) : id.index < a.size := by
  obtain ⟨node, cs, hnode, -⟩ := validateWithin_succ.1 h.1
  exact (Array.getElem?_eq_some_iff.1 hnode).1

/-- Some way down leads to a node of each smaller depth. -/
theorem below (h : Deep a constants n id) {m : Nat} (hm : m ≤ n) : ∃ c, Deep a constants m c := by
  induction n generalizing id with
  | zero =>
    obtain rfl := Nat.le_zero.1 hm
    exact ⟨id, h⟩
  | succ n ih =>
    rcases Nat.lt_or_ge m (n + 1) with hlt | hge
    · obtain ⟨node, cs, hnode, hkind, hcs⟩ := validateWithin_succ.1 h.1
      obtain ⟨c, hc, hnot⟩ : ∃ c ∈ cs, validateWithin a constants n c ≠ .ok () := by
        by_contra hall
        push Not at hall
        exact h.2 (validateWithin_succ.2 ⟨node, cs, hnode, hkind, hall⟩)
      exact ih ⟨hcs c hc, hnot⟩ (by omega)
    · obtain rfl : m = n + 1 := by omega
      exact ⟨id, h⟩

/-- The nodes of each depth are different, so there are at least as many nodes as depths. -/
theorem lt_size (h : Deep a constants n id) : n < a.size := by
  choose c hc using fun m : Fin (n + 1) => h.below (Nat.le_of_lt_succ m.isLt)
  have hinj : Function.Injective fun m => (⟨(c m).index, (hc m).index_lt⟩ : Fin a.size) := by
    intro m m' hmm
    have hid : c m = c m' := congrArg ExprId.mk (Fin.mk.inj hmm)
    exact Fin.ext ((hc m).unique (hid ▸ hc m'))
  have hle := Fintype.card_le_of_injective _ hinj
  rw [Fintype.card_fin, Fintype.card_fin] at hle
  exact Nat.lt_of_succ_le hle

end Deep

theorem validateWithin_size (h : validateWithin a constants n id = .ok ()) :
    validateWithin a constants a.size id = .ok () := by
  induction n with
  | zero => cases h
  | succ n ih =>
    by_cases hn : validateWithin a constants n id = .ok ()
    · exact ih hn
    · exact validateWithin_mono (Deep.lt_size ⟨h, hn⟩) h

end Quotation
