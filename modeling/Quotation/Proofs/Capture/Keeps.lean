import Quotation.Proofs.Acyclic
import Quotation.Proofs.Pass
import Quotation.Proofs.Capture.Quote

/-!
# Quoting builds in order

Whatever the chain is, and whether or not the fragment is valid, quoting only adds to the arena and
the pool (`quote_grows`). What it adds to an ordered arena refers to nodes that it has just built or
been given (`quote_builds`), and the walk ends (`quote_ends`).
-/

namespace Quotation

open QuoteM

variable {frames : List Frame} {storages : List Storage} {d : Demand Quoting} {w : Arena}

/-- The pool of the state has been reached from `base`. -/
def Quoting.grownFrom (base : Pool) : Invariant Quoting :=
  ⟨fun q _ => base.Grows q.pool, fun _ h => h⟩

/-- What is asked of the state is no more than that the pool has grown. -/
def Demand.AsksGrowth (d : Demand Quoting) : Prop :=
  ∀ q q' a, q.pool.Grows q'.pool → d.state.holds q a → d.state.holds q' a

theorem Demand.AsksGrowth.same (hd : d.AsksGrowth) {q q' : Quoting} {a : Arena}
    (hq : d.state.holds q a) (hpool : q'.pool = q.pool) : d.state.holds q' a :=
  hd q q' a (hpool ▸ .refl q.pool) hq

section
variable (hd : d.AsksGrowth)

include hd

theorem pushConstant_keeps (v : Value) : Keeps d w (pushConstant v) fun _ _ => True := by
  intro s a _ hs _
  refine Runs.bind (Runs.get (Runs.bind (Runs.ofExcept ?_)))
  unfold Pool.push
  by_cases hlt : s.pool.values.size < indexLimit
  · rw [if_pos hlt]
    exact Runs.bind (Runs.modify (Runs.pure
      ⟨.refl a, hd _ _ a (Extends.push _ _) hs, fun _ => .refl a, trivial⟩))
  · rw [if_neg hlt]
    exact fun _ => nofun

theorem newStamp_keeps : Keeps d w newStamp fun _ _ => True :=
  fun _ a _ hs _ => ⟨.refl a, hd.same hs rfl, fun _ => .refl a, trivial⟩

theorem cellConstant_keeps (v : VarId) (c : Cell) :
    Keeps d w (cellConstant v c) fun _ _ => True := by
  refine .bind .get fun q w₁ _ _ => ?_
  cases q.cellConstants.lookup v with
  | some k => exact .pure fun _ _ => trivial
  | none =>
    refine .bind (pushConstant_keeps hd _) fun k w₂ _ _ => ?_
    exact .bind (.modify fun _ _ hs => hd.same hs rfl) fun _ _ _ _ => .pure fun _ _ => trivial

theorem mergeConstant_keeps : Keeps d w mergeConstant fun _ _ => True := by
  refine .bind .get fun q w₁ _ _ => ?_
  cases q.mergeConstant with
  | some k => exact .pure fun _ _ => trivial
  | none =>
    refine .bind (pushConstant_keeps hd _) fun k w₂ _ _ => ?_
    exact .bind (.modify fun _ _ hs => hd.same hs rfl) fun _ _ _ _ => .pure fun _ _ => trivial

omit hd in
theorem constant_keeps (k : ConstantId) (span : Span) :
    Keeps d w (liftM (Builder.add (.constant k) span)) fun a id => d.orders → a.Has (.expr id) :=
  .add fun _ => by simp [Kind.references]

omit hd in
theorem captured_keeps (v : VarId) : Keeps d w (captured frames storages v) fun _ _ => True := by
  refine .bind .get fun q w₁ _ _ => ?_
  split
  · exact .pure fun _ _ => trivial
  · split
    · exact .pure fun _ _ => trivial
    · exact .bind .arena fun _ _ _ _ => .bind .present fun _ _ _ _ => .fault nofun

omit hd in
theorem traceCapture_keeps [Tracing] (v : VarId) : Keeps d w (traceCapture v) fun _ _ => True :=
  fun _ a _ hs _ => Runs.traceCapture ⟨.refl a, hs, fun _ => .refl a, trivial⟩ fun _ _ => by simp

theorem quoteVar_keeps [Tracing] {id : ExprId} (span : Span) (v : VarId)
    (hid : d.orders → w.Has (.expr id)) :
    Keeps d w (quoteVar frames storages id span v) fun a r => d.orders → a.Has (.expr r) := by
  refine .bind (captured_keeps v) fun cell w₁ h₁ _ => ?_
  cases cell with
  | none => exact .pure fun a ha o => (hid o).grows (h₁.trans ha)
  | some c =>
    refine .bind (cellConstant_keeps hd v c) fun k w₂ _ _ => ?_
    refine .bind (constant_keeps k span) fun receiver w₃ _ hreceiver => ?_
    refine .bind (traceCapture_keeps v) fun _ w₄ h₄ _ => ?_
    exact .add fun o => by simpa [Kind.references] using (hreceiver o).grows h₄

omit hd in
theorem Parted.add_ne_endless (p : Parted) (v : VarId) (c : Option Cell) :
    p.add v c ≠ .error .endless := by
  intro h
  cases c <;> simp only [Parted.add, Route.encode] at h <;> split at h <;> cases h

omit hd in
theorem part_keeps (vs : List VarId) : Keeps d w (part frames storages vs) fun _ _ => True :=
  .foldlM fun p v _ => .bind (captured_keeps v) fun c _ _ _ => .ofExcept (p.add_ne_endless v c)

theorem boundList_keeps (span : Span) (parted : Parted) :
    Keeps d w (boundList span parted) fun a id => d.orders → a.Has (.expr id) :=
  .bind (newStamp_keeps hd) fun _ _ _ _ => .bind (pushConstant_keeps hd _) fun k _ _ _ =>
    constant_keeps k span

theorem mergeCall_keeps (span : Span) (parted : Parted) {bound : ExprId}
    (hbound : d.orders → w.Has (.expr bound)) :
    Keeps d w (mergeCall span parted bound) fun a id => d.orders → a.Has (.expr id) := by
  refine .bind .addVars fun vars w₁ h₁ _ => ?_
  refine .bind (.add fun _ => by simp [Kind.references]) fun free w₂ h₂ hfree => ?_
  refine .bind (pushConstant_keeps hd _) fun k w₃ h₃ _ => ?_
  refine .bind (constant_keeps k span) fun routing w₄ h₄ hrouting => ?_
  refine .bind (mergeConstant_keeps hd) fun k' w₅ h₅ _ => ?_
  refine .bind (constant_keeps k' span) fun callee w₆ h₆ hcallee => ?_
  have h₅₆ := h₅.trans h₆
  have h₂₆ := h₃.trans (h₄.trans h₅₆)
  refine .bind (.addExprs fun o => ?_) fun args w₇ h₇ hargs => .add fun o => ?_
  · simpa using ⟨(hfree o).grows h₂₆, (hbound o).grows (h₁.trans (h₂.trans h₂₆)),
      (hrouting o).grows h₅₆⟩
  · simpa [Kind.references] using ⟨(hcallee o).grows h₇, hargs o⟩

theorem quoteCellList_keeps {id : ExprId} (span : Span) (vars : Slice VarId)
    (hid : d.orders → w.Has (.expr id)) :
    Keeps d w (quoteCellList frames storages id span vars)
      fun a r => d.orders → a.Has (.expr r) := by
  refine .bind .vars fun vs w₁ h₁ _ => ?_
  refine .bind (part_keeps vs) fun parted w₂ h₂ _ => ?_
  split
  · exact .pure fun a ha o => (hid o).grows (h₁.trans (h₂.trans ha))
  · refine .bind (boundList_keeps hd span parted) fun bound w₃ h₃ hbound => ?_
    split
    · exact .pure fun a ha o => (hbound o).grows ha
    · exact mergeCall_keeps hd span parted hbound

omit hd in
theorem exit_ne_endless (o : OpenScopes) : o.exit ≠ .error .endless := by
  obtain ⟨_ | _⟩ := o <;> exact nofun

theorem declaring_keeps {α : Type} {post : Arena → α → Prop} (vs : List VarId) {act : QuoteM α}
    (hact : Keeps d w act post) : Keeps d w (declaring vs act) post := by
  intro s a ha hs ho
  have hrun := hact { s with opened := s.opened.enter vs } a ha (hd.same hs rfl) ho
  refine Runs.bind (Runs.modify (hrun.seq fun r s' a' h => ?_))
  refine Runs.bind (Runs.get (Runs.bind (Runs.ofExcept ?_)))
  obtain ⟨hpart, hs', hrest⟩ := h
  cases hexit : s'.opened.exit with
  | ok opened =>
    exact Runs.bind (Runs.modify (Runs.pure ⟨hpart, hd.same hs' rfl, hrest⟩))
  | error f => exact fun _ hf => exit_ne_endless _ (hf ▸ hexit)

theorem quoteDeclaring_keeps {post : Arena → ExprId → Prop} (vars : Slice VarId)
    {down : QuoteM ExprId} (hdown : Keeps d w down post) :
    Keeps d w (quoteDeclaring vars down) post := by
  unfold quoteDeclaring
  split
  · exact hdown
  · exact .bind .vars fun vs w₁ h₁ _ => declaring_keeps hd vs (hdown.later h₁)

theorem quotePass_follows [Tracing] : (quotePass frames storages).Follows d w where
  onNode id hid down hdown := by
    refine .bind .node fun node w₁ h₁ _ => ?_
    have hid₁ : d.orders → w₁.Has (.expr id) := fun o => (hid (d.ends_of_orders o)).grows h₁
    have hdown₁ := hdown.later h₁
    split
    · exact quoteVar_keeps hd _ _ hid₁
    · exact quoteCellList_keeps hd _ _ hid₁
    · exact quoteDeclaring_keeps hd _ hdown₁
    · exact quoteDeclaring_keeps hd _ hdown₁
    · exact hdown₁
  onHandler h _ down hdown := by
    cases hcaught : h.caught with
    | none => simpa only [quotePass, hcaught] using hdown
    | some v => simpa only [quotePass, hcaught] using declaring_keeps hd [v] hdown

end

/-! ## The whole fragment -/

section
variable {arena : Arena} {pool : Pool} {stamp : Stamp} {root : ExprId} {q : Quoted}

theorem Quoted.ofRun_eq_endless {x : Except Fault ((ExprId × Quoting) × Arena)}
    (h : ofRun x = .error .endless) :
    x = .error .endless ∨ ∃ r s a, x = .ok ((r, s), a) ∧ validate a s.pool r = .error .endless := by
  cases x with
  | error f => exact .inl (congrArg _ (Except.error.inj h))
  | ok y =>
    obtain ⟨⟨r, s⟩, a⟩ := y
    simp only [ofRun] at h
    split at h
    · cases h
    · cases hvalid : validate a s.pool r with
      | error f =>
        rw [hvalid] at h
        exact .inr ⟨r, s, a, rfl, hvalid.trans (congrArg _ (Except.error.inj h))⟩
      | ok _ =>
        rw [hvalid] at h
        cases h

/-- A root outside the arena is not visited. -/
theorem quotePass_run_outside [Tracing] (hroot : arena.node? root = none) (s : Quoting) :
    (quotePass frames storages).run root s arena = .error .outOfBounds := by
  obtain ⟨n, hn⟩ : ∃ n, Pass.levels arena = n + 1 := ⟨arena.size + (indexLimit - 1), rfl⟩
  have hread : Builder.node root arena = .error .outOfBounds := by
    show Builder.require (arena.node? root) arena = _
    rw [hroot]
    rfl
  have hrun : Runs ((quotePass frames storages).run root) s arena (fun _ _ _ => False)
      (· = .outOfBounds) := by
    refine Runs.bind (Runs.arena ?_)
    rw [hn, Pass.runWithin]
    exact Runs.bind (Runs.lift (by rw [hread]))
  rcases hrun.cases with ⟨_, _, _, -, h⟩ | ⟨_, hrun, rfl⟩
  · exact h.elim
  · exact hrun

/-- Quoting only adds to the arena and the pool. -/
theorem quote_grows [Tracing] (hq : quote frames storages arena pool stamp root = .ok q) :
    arena.PartOf q.arena ∧ pool.Grows q.pool := by
  rw [quote_eq] at hq
  obtain ⟨s, hrun, hpool, -⟩ := Quoted.ofRun_eq_ok hq
  have hasks : (Demand.growth (Quoting.grownFrom pool)).AsksGrowth :=
    fun _ _ _ hgrows h => h.trans hgrows
  have hkeeps : Keeps _ arena ((quotePass frames storages).run root) _ :=
    (quotePass_follows hasks).run_keeps False.elim False.elim
  have hstart : (Quoting.grownFrom pool).holds { pool, nextStamp := stamp } arena := .refl pool
  obtain ⟨hpart, hfrom, -⟩ := hkeeps.of_ok hstart False.elim hrun
  exact ⟨hpart, hpool ▸ hfrom⟩

/-- Quoting a node of an ordered arena builds in order, and ends. -/
theorem quote_keeps [Tracing] (frames : List Frame) (storages : List Storage) (ho : arena.Ordered)
    (hroot : arena.Has (.expr root)) :
    Keeps (.order .trivial) arena ((quotePass frames storages).run root)
      fun a r => True → a.Has (.expr r) :=
  (quotePass_follows fun _ _ _ _ h => h).run_keeps (fun _ => ho) fun _ => hroot

/-- What quoting adds comes after what it refers to. -/
theorem quote_builds [Tracing] (ho : arena.Ordered)
    (hq : quote frames storages arena pool stamp root = .ok q) : arena.BuildsTo q.arena := by
  rw [quote_eq] at hq
  obtain ⟨s, hrun, -⟩ := Quoted.ofRun_eq_ok hq
  cases hroot : arena.node? root with
  | none => cases (quotePass_run_outside hroot _).symm.trans hrun
  | some node =>
    have hkeeps := quote_keeps frames storages ho (Arena.index_lt_of_node? hroot)
    obtain ⟨-, -, hbuilds, -⟩ := hkeeps.of_ok trivial (fun _ => ho) hrun
    exact hbuilds trivial

theorem quote_ends [Tracing] (ho : arena.Ordered) :
    quote frames storages arena pool stamp root ≠ .error .endless := by
  rw [quote_eq]
  intro hend
  cases hroot : arena.node? root with
  | none =>
    rw [quotePass_run_outside hroot] at hend
    cases hend
  | some node =>
    have hkeeps := quote_keeps frames storages ho (Arena.index_lt_of_node? hroot)
    rcases Quoted.ofRun_eq_endless hend with hrun | ⟨r, s, a, hrun, hvalid⟩
    · exact hkeeps.ne_endless trivial (fun _ => ho) trivial hrun
    · obtain ⟨-, -, hbuilds, -⟩ := hkeeps.of_ok trivial (fun _ => ho) hrun
      exact ((hbuilds trivial).ordered ho).validate_ends s.pool r hvalid

end

end Quotation
