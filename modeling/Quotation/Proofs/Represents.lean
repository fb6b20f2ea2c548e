import Quotation.Proofs.Tree

/-!
# Valid fragments have trees

Validation and unfolding walk a fragment in the same way: `checkKind_eq_ok` says that checking a
kind is reading its label and its branches, and `represents_iff` that `Represents` is validation and
unfolding in one. So a fragment that validation accepts has a tree (`exists_represents`), and it
keeps it while the arena and the pool grow (`Represents.grows`).
-/

namespace Quotation

/-! ## Results and options -/

theorem mapM_eq_some_iff {α β : Type} {f : α → Option β} {xs : List α} {ys : List β} :
    xs.mapM f = some ys ↔ List.Forall₂ (fun x y => f x = some y) xs ys := by
  induction xs generalizing ys with
  | nil => simp [eq_comm]
  | cons x xs ih =>
    rw [List.mapM_cons, List.forall₂_cons_left_iff]
    simp only [Option.bind_eq_bind, Option.bind_eq_some_iff, Option.pure_def, Option.some.injEq, ih]
    constructor
    · rintro ⟨y, hy, zs, hzs, rfl⟩
      exact ⟨y, zs, hy, hzs, rfl⟩
    · rintro ⟨y, zs, hy, hzs, rfl⟩
      exact ⟨y, hy, zs, hzs, rfl⟩

theorem except_bind_eq_ok {ε α β : Type} {x : Except ε α} {k : α → Except ε β} {b : β} :
    x >>= k = .ok b ↔ ∃ y, x = .ok y ∧ k y = .ok b := by
  cases x <;> simp [bind, Except.bind]

theorem except_then_eq_ok {ε β : Type} {x : Except ε Unit} {k : Unit → Except ε β} {b : β} :
    x >>= k = .ok b ↔ x = .ok () ∧ k () = .ok b := by
  cases x <;> simp [bind, Except.bind]

theorem except_map_eq_ok {ε α β : Type} {x : Except ε α} {f : α → β} {b : β} :
    x.map f = .ok b ↔ ∃ y, x = .ok y ∧ f y = b := by
  cases x <;> simp [Except.map]

theorem except_isOk_iff {ε α : Type} {x : Except ε α} : x.isOk ↔ ∃ y, x = .ok y := by
  cases x <;> simp [Except.isOk, Except.toBool]

@[simp] theorem except_pure_eq_ok {ε α : Type} {x y : α} :
    (pure x : Except ε α) = .ok y ↔ x = y := by
  simp [pure, Except.pure]

@[simp] theorem except_ok_eq_pure {ε α : Type} {x y : α} :
    (.ok x : Except ε α) = pure y ↔ x = y := by
  simp [pure, Except.pure]

theorem forM_eq_ok {α ε : Type} {f : α → Except ε Unit} {xs : List α} :
    xs.forM f = .ok () ↔ ∀ x ∈ xs, f x = .ok () := by
  induction xs with
  | nil => simp
  | cons x xs ih =>
    have hcons : (x :: xs).forM f = f x >>= fun _ => xs.forM f := rfl
    rw [List.forall_mem_cons, ← ih, hcons, except_then_eq_ok]

theorem exists_of_forM_eq_error {α ε : Type} {f : α → Except ε Unit} {xs : List α} {e : ε}
    (h : xs.forM f = .error e) : ∃ x ∈ xs, f x = .error e := by
  induction xs with
  | nil => cases h
  | cons x xs ih =>
    have hcons : (x :: xs).forM f = f x >>= fun _ => xs.forM f := rfl
    rw [hcons] at h
    cases hx : f x with
    | error e' =>
      rw [hx] at h
      obtain rfl := Except.error.inj h
      exact ⟨x, List.mem_cons_self, hx⟩
    | ok u =>
      rw [hx] at h
      obtain ⟨y, hy, hye⟩ := ih h
      exact ⟨y, List.mem_cons_of_mem x hy, hye⟩

theorem exists_forall₂ {α β : Type} {R : α → β → Prop} {xs : List α} (h : ∀ x ∈ xs, ∃ y, R x y) :
    ∃ ys, List.Forall₂ R xs ys := by
  induction xs with
  | nil => exact ⟨[], .nil⟩
  | cons x xs ih =>
    obtain ⟨y, hy⟩ := h x List.mem_cons_self
    obtain ⟨ys, hys⟩ := ih fun z hz => h z (List.mem_cons_of_mem x hz)
    exact ⟨y :: ys, .cons hy hys⟩

theorem forall₂_getElem? {α β : Type} {R : α → β → Prop} {xs : List α} {ys : List β}
    (h : List.Forall₂ R xs ys) {i : Nat} {x : α} (hx : xs[i]? = some x) :
    ∃ y, ys[i]? = some y ∧ R x y := by
  induction h generalizing i with
  | nil => cases hx
  | cons hxy _ ih =>
    cases i with
    | zero =>
      obtain rfl := Option.some.inj hx
      exact ⟨_, rfl, hxy⟩
    | succ i => exact ih hx

theorem forall₂_mem {α β : Type} {R : α → β → Prop} {xs : List α} {ys : List β}
    (h : List.Forall₂ R xs ys) {x : α} (hx : x ∈ xs) : ∃ y ∈ ys, R x y := by
  obtain ⟨i, hi⟩ := List.mem_iff_getElem?.1 hx
  obtain ⟨y, hy, hxy⟩ := forall₂_getElem? h hi
  exact ⟨y, List.mem_of_getElem? hy, hxy⟩

section

variable {a : Arena} {pool : Pool}

/-! ## One node -/

theorem checkVar_eq_ok {v : VarId} : checkVar a v = .ok () ↔ v.index < a.names.size := by
  unfold checkVar
  split <;> simp_all

theorem checkSlice_eq_ok {α : Type} {list : ListKind} {table : Array α} {s : Slice α}
    {l : List α} :
    checkSlice list table s = .ok l ↔ s.read? table = some l := by
  unfold checkSlice
  split <;> simp_all

theorem checkVars_eq_ok {s : Slice VarId} :
    checkVars a s = .ok () ↔ ∃ l, a.vars? s = some l ∧ ∀ v ∈ l, v.index < a.names.size := by
  simp only [checkVars, except_bind_eq_ok, checkSlice_eq_ok, forM_eq_ok, checkVar_eq_ok,
    Arena.vars?]

theorem checkHandler_eq_ok {h : Handler} {cs : List ExprId} :
    checkHandler a h = .ok cs ↔ (Label.handler h.caught).Declared a ∧ h.exprs = cs := by
  cases hc : h.caught <;>
    simp [checkHandler, except_then_eq_ok, checkVar_eq_ok, hc, Label.Declared, Label.vars,
      Handler.exprs, -bind_pure_comp]

theorem checkHandlers_eq_ok {hs : List Handler} {cs : List (List ExprId)} :
    hs.mapM (checkHandler a) = .ok cs ↔
      (∀ h ∈ hs, (Label.handler h.caught).Declared a) ∧ hs.map Handler.exprs = cs := by
  induction hs generalizing cs with
  | nil => simp
  | cons h hs ih =>
    simp only [List.mapM_cons, except_bind_eq_ok, checkHandler_eq_ok, ih, List.forall_mem_cons,
      except_pure_eq_ok]
    constructor
    · rintro ⟨c, ⟨hh, rfl⟩, cs, ⟨hhs, rfl⟩, rfl⟩
      exact ⟨⟨hh, hhs⟩, rfl⟩
    · rintro ⟨⟨hh, hhs⟩, rfl⟩
      exact ⟨_, ⟨hh, rfl⟩, _, ⟨hhs, rfl⟩, rfl⟩

@[simp] theorem flatMap_exprs_expr (ids : List ExprId) :
    (ids.map Branch.expr).flatMap Branch.exprs = ids := by
  simp [List.flatMap_map, Branch.exprs]

@[simp] theorem flatMap_exprs_handler (hs : List Handler) :
    (hs.map Branch.handler).flatMap Branch.exprs = (hs.map Handler.exprs).flatten := by
  rw [List.flatMap_map]
  rfl

/-- Checking a kind is reading its label and branches and looking at the variables in them. -/
theorem checkKind_eq_ok {kind : Kind} {cs : List ExprId} :
    checkKind a pool.size kind = .ok cs ↔ ∃ label branches,
      a.view? pool kind = some (label, branches) ∧ label.Declared a ∧
      (∀ h, .handler h ∈ branches → (Label.handler h.caught).Declared a) ∧
      branches.flatMap Branch.exprs = cs := by
  cases kind with
  | unit | int | bool | binary | assign | cond | throw | content =>
    simp [checkKind, Arena.view?, Label.Declared, Label.vars, Branch.exprs]
  | var =>
    simp [checkKind, Arena.view?, Label.Declared, Label.vars, except_then_eq_ok, checkVar_eq_ok,
      -bind_pure_comp]
  | block locals body =>
    simp only [checkKind, Arena.view?, except_then_eq_ok, checkVars_eq_ok, checkSlice_eq_ok,
      Arena.exprs?, Option.bind_eq_bind, Option.bind_eq_some_iff, Option.pure_def,
      Option.some.injEq, Prod.mk.injEq]
    constructor
    · rintro ⟨⟨vs, hvs, hdecl⟩, hcs⟩
      exact ⟨_, _, ⟨vs, hvs, cs, hcs, rfl, rfl⟩, hdecl, by simp, by simp⟩
    · rintro ⟨_, _, ⟨vs, hvs, ids, hids, rfl, rfl⟩, hdecl, -, rfl⟩
      exact ⟨⟨vs, hvs, hdecl⟩, by simpa using hids⟩
  | lambda params body name =>
    simp only [checkKind, Arena.view?, except_then_eq_ok, checkVars_eq_ok, except_pure_eq_ok,
      Option.bind_eq_bind, Option.bind_eq_some_iff, Option.pure_def, Option.some.injEq,
      Prod.mk.injEq]
    constructor
    · rintro ⟨⟨vs, hvs, hdecl⟩, rfl⟩
      exact ⟨_, _, ⟨vs, hvs, rfl, rfl⟩, hdecl, by simp, by simp [Branch.exprs]⟩
    · rintro ⟨_, _, ⟨vs, hvs, rfl, rfl⟩, hdecl, -, rfl⟩
      exact ⟨⟨vs, hvs, hdecl⟩, by simp [Branch.exprs]⟩
  | call callee args =>
    simp only [checkKind, Arena.view?, except_bind_eq_ok, checkSlice_eq_ok, except_pure_eq_ok,
      Arena.exprs?, Option.bind_eq_bind, Option.bind_eq_some_iff, Option.pure_def,
      Option.some.injEq, Prod.mk.injEq]
    constructor
    · rintro ⟨ids, hids, rfl⟩
      exact ⟨_, _, ⟨ids, hids, rfl, rfl⟩, by simp [Label.Declared, Label.vars], by simp,
        by simp [Branch.exprs]⟩
    · rintro ⟨_, _, ⟨ids, hids, rfl, rfl⟩, -, -, rfl⟩
      exact ⟨ids, hids, by simp [Branch.exprs]⟩
  | attempt body handlers =>
    simp only [checkKind, Arena.view?, except_bind_eq_ok, checkSlice_eq_ok, except_pure_eq_ok,
      checkHandlers_eq_ok, Arena.handlers?, Option.bind_eq_bind, Option.bind_eq_some_iff,
      Option.pure_def, Option.some.injEq, Prod.mk.injEq]
    constructor
    · rintro ⟨hs, hhs, _, ⟨hdecl, rfl⟩, rfl⟩
      exact ⟨_, _, ⟨hs, hhs, rfl, rfl⟩, by simp [Label.Declared, Label.vars], by simpa using hdecl,
        by simp [Branch.exprs]⟩
    · rintro ⟨_, _, ⟨hs, hhs, rfl, rfl⟩, -, hdecl, rfl⟩
      exact ⟨hs, hhs, _, ⟨by simpa using hdecl, rfl⟩, by simp [Branch.exprs]⟩
  | constant c =>
    simp only [checkKind, Arena.view?, Option.bind_eq_bind, Option.bind_eq_some_iff,
      Option.pure_def, Option.some.injEq, Prod.mk.injEq]
    split
    · rename_i hc
      have hv : pool.get? c = some pool.values[c.index] := Array.getElem?_eq_getElem hc
      simp [hv, Label.Declared, Label.vars]
    · rename_i hc
      have hv : pool.get? c = none := Array.getElem?_eq_none (Nat.le_of_not_lt hc)
      simp [hv, throw, throwThe, MonadExceptOf.throw]
  | cellList vars =>
    simp only [checkKind, Arena.view?, except_then_eq_ok, checkVars_eq_ok, except_pure_eq_ok,
      Option.bind_eq_bind, Option.bind_eq_some_iff, Option.pure_def, Option.some.injEq,
      Prod.mk.injEq]
    constructor
    · rintro ⟨⟨vs, hvs, hdecl⟩, rfl⟩
      exact ⟨_, _, ⟨vs, hvs, rfl, rfl⟩, hdecl, by simp, by simp⟩
    · rintro ⟨_, _, ⟨vs, hvs, rfl, rfl⟩, hdecl, -, rfl⟩
      exact ⟨⟨vs, hvs, hdecl⟩, by simp⟩

/-! ## All nodes -/

theorem validateWithin_succ {k n : Nat} {id : ExprId} :
    validateWithin a k (n + 1) id = .ok () ↔ ∃ node cs, a.node? id = some node ∧
      checkKind a k node.kind = .ok cs ∧ ∀ c ∈ cs, validateWithin a k n c = .ok () := by
  rw [validateWithin, checkNode]
  cases hnode : a.node? id with
  | none => simp
  | some node =>
    cases hkind : checkKind a k node.kind with
    | error defect => simp [hkind]
    | ok cs =>
      simp only [hkind, forM_eq_ok, List.mem_reverse]
      constructor
      · intro h
        exact ⟨node, cs, rfl, hkind, h⟩
      · rintro ⟨_, _, ⟨⟩, hkind', h⟩
        rw [hkind] at hkind'
        exact Except.ok.inj hkind' ▸ h

theorem unfoldWithin_succ {n : Nat} {id : ExprId} {t : Tree} :
    unfoldWithin a pool (n + 1) id = some t ↔ ∃ node label branches ts,
      a.node? id = some node ∧ a.view? pool node.kind = some (label, branches) ∧
      List.Forall₂ (fun b t => unfoldBranch (unfoldWithin a pool n) b = some t) branches ts ∧
      t = .node label node.span ts := by
  rw [unfoldWithin]
  simp only [Option.bind_eq_bind, Option.bind_eq_some_iff, mapM_eq_some_iff, Option.pure_def,
    Option.some.injEq, Prod.exists]
  constructor
  · rintro ⟨node, hnode, label, branches, hview, ts, hts, rfl⟩
    exact ⟨node, label, branches, ts, hnode, hview, hts, rfl⟩
  · rintro ⟨node, label, branches, ts, hnode, hview, hts, rfl⟩
    exact ⟨node, hnode, label, branches, hview, ts, hts, rfl⟩

theorem representsBranch_iff {n : Nat}
    (ih : ∀ id t, Represents a pool n id t ↔
      validateWithin a pool.size n id = .ok () ∧ unfoldWithin a pool n id = some t)
    {b : Branch} {t : Tree} :
    RepresentsBranch a (Represents a pool n) b t ↔
      (∀ h, b = .handler h → (Label.handler h.caught).Declared a) ∧
      (∀ c ∈ b.exprs, validateWithin a pool.size n c = .ok ()) ∧
      unfoldBranch (unfoldWithin a pool n) b = some t := by
  have hall : ∀ ids ts, List.Forall₂ (Represents a pool n) ids ts ↔
      (∀ c ∈ ids, validateWithin a pool.size n c = .ok ()) ∧
      List.Forall₂ (fun id t => unfoldWithin a pool n id = some t) ids ts := by
    intro ids ts
    simp only [funext₂ fun id t => propext (ih id t), List.forall₂_and_left]
  cases b with
  | expr id => simp [RepresentsBranch, Branch.exprs, unfoldBranch, ih]
  | handler h =>
    simp only [RepresentsBranch, Branch.exprs, unfoldBranch, hall, Branch.handler.injEq, forall_eq',
      Option.bind_eq_bind, Option.bind_eq_some_iff, mapM_eq_some_iff, Option.pure_def,
      Option.some.injEq]
    constructor
    · rintro ⟨hdecl, ts, ⟨hvalid, hts⟩, rfl⟩
      exact ⟨hdecl, hvalid, ts, hts, rfl⟩
    · rintro ⟨hdecl, hvalid, ts, hts, rfl⟩
      exact ⟨hdecl, ts, ⟨hvalid, hts⟩, rfl⟩

/-- A fragment has a tree in the sense of `Represents` exactly if it is valid and unfolds to it. -/
theorem represents_iff {n : Nat} {id : ExprId} {t : Tree} :
    Represents a pool n id t ↔
      validateWithin a pool.size n id = .ok () ∧ unfoldWithin a pool n id = some t := by
  induction n generalizing id t with
  | zero => simp [Represents, unfoldWithin]
  | succ n ih =>
    have hbranches : ∀ branches ts,
        List.Forall₂ (RepresentsBranch a (Represents a pool n)) branches ts ↔
          (∀ h, .handler h ∈ branches → (Label.handler h.caught).Declared a) ∧
          (∀ c ∈ branches.flatMap Branch.exprs, validateWithin a pool.size n c = .ok ()) ∧
          List.Forall₂ (fun b t => unfoldBranch (unfoldWithin a pool n) b = some t)
            branches ts := by
      intro branches ts
      have hbranch : RepresentsBranch a (Represents a pool n) = _ :=
        funext₂ fun _ _ => propext (representsBranch_iff fun _ _ => ih)
      simp only [hbranch, List.forall₂_and_left, List.mem_flatMap]
      grind
    rw [validateWithin_succ, unfoldWithin_succ, Represents]
    simp only [hbranches, checkKind_eq_ok]
    constructor
    · rintro ⟨node, label, branches, ts, hnode, hview, hdecl, ⟨hh, hvalid, hts⟩, rfl⟩
      exact ⟨⟨node, _, hnode, ⟨label, branches, hview, hdecl, hh, rfl⟩, hvalid⟩,
        node, label, branches, ts, hnode, hview, hts, rfl⟩
    · rintro ⟨⟨node, _, hnode, ⟨label, branches, hview, hdecl, hh, rfl⟩, hvalid⟩,
        node', label', branches', ts, hnode', hview', hts, rfl⟩
      obtain rfl := Option.some.inj (hnode.symm.trans hnode')
      obtain ⟨rfl, rfl⟩ := Prod.mk.inj (Option.some.inj (hview.symm.trans hview'))
      exact ⟨node, label, branches, ts, hnode, hview, hdecl, ⟨hh, hvalid, hts⟩, rfl⟩

theorem Represents.unique {n : Nat} {id : ExprId} {t u : Tree} (ht : Represents a pool n id t)
    (hu : Represents a pool n id u) : t = u :=
  Option.some.inj ((represents_iff.1 ht).2.symm.trans (represents_iff.1 hu).2)

/-- A fragment that validation accepts has a tree. -/
theorem exists_represents {n : Nat} {id : ExprId} (h : validateWithin a pool.size n id = .ok ()) :
    ∃ t, Represents a pool n id t := by
  induction n generalizing id with
  | zero => cases h
  | succ n ih =>
    obtain ⟨node, _, hnode, hkind, hvalid⟩ := validateWithin_succ.1 h
    obtain ⟨label, branches, hview, hdecl, hh, rfl⟩ := checkKind_eq_ok.1 hkind
    have hbranch : ∀ b ∈ branches, ∃ t, RepresentsBranch a (Represents a pool n) b t := by
      intro b hb
      have hbvalid : ∀ c ∈ b.exprs, ∃ t, Represents a pool n c t := fun c hc =>
        ih (hvalid c (List.mem_flatMap.2 ⟨b, hb, hc⟩))
      cases b with
      | expr id => exact hbvalid id List.mem_cons_self
      | handler h =>
        obtain ⟨ts, hts⟩ := exists_forall₂ hbvalid
        exact ⟨_, hh h hb, ts, hts, rfl⟩
    obtain ⟨ts, hts⟩ := exists_forall₂ hbranch
    exact ⟨_, node, label, branches, ts, hnode, hview, hdecl, hts, rfl⟩

/-! ## Growing -/

theorem view?_partOf {b : Arena} {pool' : Pool} (h : a.PartOf b) (hp : pool.Grows pool')
    {kind : Kind} {x : Label × List Branch} (hx : a.view? pool kind = some x) :
    b.view? pool' kind = some x := by
  cases kind with
  | unit | int | bool | var | binary | assign | cond | throw | content => exact hx
  | block locals body =>
    simp only [Arena.view?, Option.bind_eq_bind, Option.bind_eq_some_iff] at hx ⊢
    obtain ⟨vs, hvs, ids, hids, hx⟩ := hx
    exact ⟨vs, h.vars? hvs, ids, h.exprs? hids, hx⟩
  | lambda params body name =>
    simp only [Arena.view?, Option.bind_eq_bind, Option.bind_eq_some_iff] at hx ⊢
    obtain ⟨vs, hvs, hx⟩ := hx
    exact ⟨vs, h.vars? hvs, hx⟩
  | call callee args =>
    simp only [Arena.view?, Option.bind_eq_bind, Option.bind_eq_some_iff] at hx ⊢
    obtain ⟨ids, hids, hx⟩ := hx
    exact ⟨ids, h.exprs? hids, hx⟩
  | attempt body handlers =>
    simp only [Arena.view?, Option.bind_eq_bind, Option.bind_eq_some_iff] at hx ⊢
    obtain ⟨hs, hhs, hx⟩ := hx
    exact ⟨hs, h.handlers? hhs, hx⟩
  | constant c =>
    simp only [Arena.view?, Option.bind_eq_bind, Option.bind_eq_some_iff] at hx ⊢
    obtain ⟨v, hv, hx⟩ := hx
    exact ⟨v, hp.get? hv, hx⟩
  | cellList vars =>
    simp only [Arena.view?, Option.bind_eq_bind, Option.bind_eq_some_iff] at hx ⊢
    obtain ⟨vs, hvs, hx⟩ := hx
    exact ⟨vs, h.vars? hvs, hx⟩

theorem view?_grows {b : Arena} {pool' : Pool} (h : a.Grows b) (hp : pool.Grows pool')
    {kind : Kind} {x : Label × List Branch} (hx : a.view? pool kind = some x) :
    b.view? pool' kind = some x :=
  view?_partOf h.partOf hp hx

theorem Label.Declared.grows {b : Arena} (h : a.Grows b) {l : Label} (hl : l.Declared a) :
    l.Declared b := by
  intro v hv
  rw [h.names]
  exact hl v hv

theorem RepresentsBranch.grows {b : Arena} (h : a.Grows b) {R R' : ExprId → Tree → Prop}
    (hR : ∀ id t, R id t → R' id t) {x : Branch} {t : Tree} (hx : RepresentsBranch a R x t) :
    RepresentsBranch b R' x t := by
  cases x with
  | expr id => exact hR id t hx
  | handler x =>
    obtain ⟨hdecl, ts, hts, rfl⟩ := hx
    exact ⟨hdecl.grows h, ts, hts.imp hR, rfl⟩

/-- A fragment keeps its tree while the arena and the pool grow, and at any larger depth. -/
theorem Represents.grows {b : Arena} {pool' : Pool} (h : a.Grows b) (hp : pool.Grows pool')
    {m n : Nat} (hmn : m ≤ n) {id : ExprId} {t : Tree} (ht : Represents a pool m id t) :
    Represents b pool' n id t := by
  induction m generalizing n id t with
  | zero => exact ht.elim
  | succ m ih =>
    obtain ⟨n, rfl⟩ := Nat.exists_eq_add_of_le' (Nat.lt_of_lt_of_le (Nat.zero_lt_succ m) hmn)
    obtain ⟨node, label, branches, ts, hnode, hview, hdecl, hts, rfl⟩ := ht
    refine ⟨node, label, branches, ts, h.node? hnode, view?_grows h hp hview, hdecl.grows h,
      hts.imp fun _ _ => ?_, rfl⟩
    exact RepresentsBranch.grows h fun _ _ => ih (by omega)

end

end Quotation
