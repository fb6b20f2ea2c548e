import Quotation.Proofs.Complete

/-!
# Fragments that unfold

A fragment unfolds to a tree exactly if it is intact (`Intact.of_unfoldWithin`,
`Intact.exists_unfold`), and `unfold` goes down far enough for every such fragment: if any number of
levels is enough, then so is one more than there are nodes (`unfold_of_within`).
-/

namespace Quotation

variable {a b : Arena} {pool pool' : Pool} {id root : ExprId} {t : Tree} {m n : Nat}

theorem unfoldBranch_handler {f : ExprId → Option Tree} {h : Handler} :
    unfoldBranch f (.handler h) = some t ↔ ∃ ts, List.Forall₂ (fun c u => f c = some u) h.exprs ts ∧
      t = .node (.handler h.caught) .nowhere ts := by
  simp only [unfoldBranch, Option.bind_eq_bind, Option.bind_eq_some_iff, mapM_eq_some_iff,
    Option.pure_def, Option.some.injEq, @eq_comm _ _ t]

theorem unfoldBranch_mono {f g : ExprId → Option Tree} {x : Branch}
    (hfg : ∀ id t, f id = some t → g id = some t) (hx : unfoldBranch f x = some t) :
    unfoldBranch g x = some t := by
  cases x with
  | expr id => exact hfg id t hx
  | handler h =>
    obtain ⟨ts, hts, rfl⟩ := unfoldBranch_handler.1 hx
    exact unfoldBranch_handler.2 ⟨ts, hts.imp hfg, rfl⟩

/-- A branch has a tree if all nodes that it leads to have. -/
theorem exists_unfoldBranch {f : ExprId → Option Tree} {x : Branch}
    (h : ∀ c ∈ x.exprs, ∃ t, f c = some t) : ∃ t, unfoldBranch f x = some t := by
  cases x with
  | expr id => exact h id List.mem_cons_self
  | handler x =>
    obtain ⟨ts, hts⟩ := exists_forall₂ h
    exact ⟨_, unfoldBranch_handler.2 ⟨ts, hts, rfl⟩⟩

/-- A fragment keeps its tree while arena and pool grow, and at any larger depth. -/
theorem unfoldWithin_grows (hab : a.PartOf b) (hp : pool.Grows pool') (hmn : m ≤ n)
    (ht : unfoldWithin a pool m id = some t) : unfoldWithin b pool' n id = some t := by
  induction m generalizing n id t with
  | zero => cases ht
  | succ m ih =>
    obtain ⟨n, rfl⟩ := Nat.exists_eq_add_of_le' (Nat.lt_of_lt_of_le (Nat.zero_lt_succ m) hmn)
    obtain ⟨node, label, branches, ts, hnode, hview, hts, rfl⟩ := unfoldWithin_succ.1 ht
    refine unfoldWithin_succ.2 ⟨node, label, branches, ts, hab.node? hnode,
      view?_partOf hab hp hview, hts.imp fun _ _ => unfoldBranch_mono fun _ _ => ih (by omega), rfl⟩

theorem Intact.of_unfoldWithin (h : unfoldWithin a pool n id = some t) :
    Intact a pool (fun _ => True) id := by
  induction n generalizing id t with
  | zero => cases h
  | succ n ih =>
    obtain ⟨node, label, branches, ts, hnode, hview, hts, -⟩ := unfoldWithin_succ.1 h
    refine .node hnode hview (fun _ _ => trivial) (fun _ _ _ _ => trivial) fun c hc => ?_
    obtain ⟨x, hx, hc⟩ := List.mem_flatMap.1 hc
    obtain ⟨u, -, hu⟩ := forall₂_mem hts hx
    cases x with
    | expr id =>
      obtain rfl := List.mem_singleton.1 hc
      exact ih hu
    | handler h =>
      obtain ⟨us, hus, -⟩ := unfoldBranch_handler.1 hu
      obtain ⟨w, -, hw⟩ := forall₂_mem hus hc
      exact ih hw

theorem Intact.exists_unfold {declared : VarId → Prop} (h : Intact a pool declared root) :
    ∃ t, unfold a pool root = some t := by
  refine h.acyclicFrom.climb (P := fun n id => ∃ t, unfoldWithin a pool n id = some t)
    fun n id hid hbelow => ?_
  cases h.reaches hid with
  | @node _ node label branches hnode hview _ _ _ =>
    have hbranch : ∀ x ∈ branches, ∃ t, unfoldBranch (unfoldWithin a pool n) x = some t :=
      fun x hx => exists_unfoldBranch fun c hc =>
        hbelow c ((Arena.child_iff hnode hview).2 (List.mem_flatMap.2 ⟨x, hx, hc⟩))
    obtain ⟨ts, hts⟩ := exists_forall₂ hbranch
    exact ⟨_, unfoldWithin_succ.2 ⟨node, label, branches, ts, hnode, hview, hts, rfl⟩⟩

/-- No depth shows more than `unfold` does. -/
theorem unfold_of_within (h : unfoldWithin a pool n root = some t) :
    unfold a pool root = some t := by
  obtain ⟨u, hu⟩ := (Intact.of_unfoldWithin h).exists_unfold
  rcases Nat.le_total n (a.size + 1) with hle | hle
  · exact unfoldWithin_grows (.refl a) (.refl pool) hle h
  · exact hu.trans ((unfoldWithin_grows (.refl a) (.refl pool) hle hu).symm.trans h)

end Quotation
