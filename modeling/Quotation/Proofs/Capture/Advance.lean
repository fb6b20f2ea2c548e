import Mathlib.Tactic.SplitIfs
import Quotation.Proofs.Capture.Run
import Quotation.Proofs.Capture.Tree
import Quotation.Proofs.Represents

/-!
# How the state of quoting advances

Whatever quoting does, arena and pool grow, the open scopes are what they were, and the constants
that it remembers are the right ones (`Quoting.Sound`). `Advances` says so of two points of a walk,
together with the stamps used and the entries added in between. If the tables have `Room` for these
entries, then the only fault is that a variable has no cell, and it is the first such variable that
takes the `Blame`.
-/

namespace Quotation

/-! ## Tables -/

def tableSize (pool : Pool) (a : Arena) : Table → Nat
  | .expressions => a.nodes.size
  | .names => a.names.size
  | .exprEntries => a.exprEntries.size
  | .varEntries => a.varEntries.size
  | .handlers => a.handlerEntries.size
  | .constants => pool.values.size

/-- The tables have room for so many more entries. -/
def Room (pool : Pool) (a : Arena) (cost : Table → Nat) : Prop :=
  ∀ table, tableSize pool a table + cost table ≤ indexLimit

/-- So many entries in one table. -/
def entries (table : Table) (count : Nat) (table' : Table) : Nat :=
  if table' = table then count else 0

theorem Room.mono {pool : Pool} {a : Arena} {cost cost' : Table → Nat} (h : Room pool a cost)
    (hle : ∀ table, cost' table ≤ cost table) : Room pool a cost' := fun table => by
  have := h table
  have := hle table
  omega

section
variable (frames : List Frame) (storages : List Storage)

/-! ## States -/

/-- The remembered constants are what they are remembered for. -/
structure Quoting.Sound (s : Quoting) : Prop where
  cells : ∀ v k, s.cellConstants.lookup v = some k →
    ∃ c, cellOf frames storages v = some c ∧ s.pool.get? k = some (.cell c)
  merge : ∀ k, s.mergeConstant = some k → s.pool.get? k = some (.builtin .mergeVariables)

/-- From `s` and `a` on, quoting has used `lists` stamps and added at most `cost` entries. -/
structure Advances (s : Quoting) (a : Arena) (s' : Quoting) (a' : Arena) (lists : Nat)
    (cost : Table → Nat) : Prop where
  arena : a.Grows a'
  pool : s.pool.Grows s'.pool
  opened : s'.opened = s.opened
  sound : s'.Sound frames storages
  stamp : s'.nextStamp = s.nextStamp + lists
  size : ∀ table, tableSize s'.pool a' table ≤ tableSize s.pool a table + cost table

/-- The fault is that of the first of the variables that has no cell. -/
def Blame (vs : List VarId) (a : Arena) (f : Fault) : Prop :=
  ∃ v why name, firstUnresolved frames storages vs = some (v, why) ∧ a.name? v = some name ∧
    f = .unresolved name v why

end

variable {frames : List Frame} {storages : List Storage} {s s' s'' : Quoting} {a a' a'' : Arena}
  {lists lists' : Nat} {cost cost' : Table → Nat}

/-- A state is sound if it remembers the same over a larger pool. -/
theorem Quoting.Sound.grows (h : s.Sound frames storages) (hpool : s.pool.Grows s'.pool)
    (hcells : s'.cellConstants = s.cellConstants) (hmerge : s'.mergeConstant = s.mergeConstant) :
    s'.Sound frames storages where
  cells v k hk := by
    obtain ⟨c, hc, hget⟩ := h.cells v k (hcells ▸ hk)
    exact ⟨c, hc, hpool.get? hget⟩
  merge k hk := hpool.get? (h.merge k (hmerge ▸ hk))

namespace Advances

theorem refl (hs : s.Sound frames storages) :
    Advances frames storages s a s a 0 (fun _ => 0) :=
  ⟨.refl _, .refl _, rfl, hs, rfl, fun _ => Nat.le_refl _⟩

theorem trans (h : Advances frames storages s a s' a' lists cost)
    (h' : Advances frames storages s' a' s'' a'' lists' cost') :
    Advances frames storages s a s'' a'' (lists + lists')
      (fun table => cost table + cost' table) where
  arena := h.arena.trans h'.arena
  pool := h.pool.trans h'.pool
  opened := h'.opened.trans h.opened
  sound := h'.sound
  stamp := by rw [h'.stamp, h.stamp, Nat.add_assoc]
  size table := by
    have := h.size table
    have := h'.size table
    omega

theorem mono (h : Advances frames storages s a s' a' lists cost)
    (hle : ∀ table, cost table ≤ cost' table) :
    Advances frames storages s a s' a' lists cost' :=
  { h with size := fun table => Nat.le_trans (h.size table) (Nat.add_le_add_left (hle table) _) }

theorem represents (h : Advances frames storages s a s' a' lists cost) {n : Nat} {id : ExprId}
    {t : Tree} (ht : Represents a s.pool n id t) : Represents a' s'.pool n id t :=
  ht.grows h.arena h.pool (Nat.le_refl n)

/-- A table is not full as long as less has been added than there is room for. -/
theorem size_lt (h : Advances frames storages s a s' a' lists cost) (hroom : Room s.pool a cost')
    {t : Table} (hlt : cost t < cost' t) : tableSize s'.pool a' t < indexLimit := by
  have := h.size t
  have := hroom t
  omega

/-- There is room for what comes next. -/
theorem room (h : Advances frames storages s a s' a' lists cost)
    (hroom : Room s.pool a (fun table => cost table + cost' table)) : Room s'.pool a' cost' :=
  fun table => by
    have := h.size table
    have : tableSize s.pool a table + (cost table + cost' table) ≤ indexLimit := hroom table
    omega

theorem ofGrows (hs : s.Sound frames storages) (h : a.Grows a')
    (hsize : ∀ table, tableSize s.pool a' table ≤ tableSize s.pool a table + cost table) :
    Advances frames storages s a s a' 0 cost :=
  ⟨h, .refl _, rfl, hs, rfl, hsize⟩

theorem stamped (hs : s.Sound frames storages) :
    Advances frames storages s a { s with nextStamp := s.nextStamp + 1 } a 1 (fun _ => 0) :=
  ⟨.refl _, .refl _, rfl, hs.grows (.refl _) rfl rfl, rfl, fun _ => Nat.le_refl _⟩

/-- The state may remember more. -/
theorem remember (h : Advances frames storages s a s' a' lists cost) (hpool : s''.pool = s'.pool)
    (hopened : s''.opened = s'.opened) (hstamp : s''.nextStamp = s'.nextStamp)
    (hsound : s''.Sound frames storages) : Advances frames storages s a s'' a' lists cost where
  arena := h.arena
  pool := hpool ▸ h.pool
  opened := hopened.trans h.opened
  sound := hsound
  stamp := hstamp.trans h.stamp
  size := hpool ▸ h.size

end Advances

/-! ## Operations

What each operation that adds to a table leaves, and when its table is full. -/

section
variable {bad : Fault → Prop}

theorem node_runs (hs : s.Sound frames storages) {kind : Kind} {span : Span}
    {post : ExprId → Quoting → Arena → Prop}
    (h : ∀ r a', Advances frames storages s a s a' 0 (entries .expressions 1) →
      a.size ≤ r.index → a'.node? r = some ⟨kind, span⟩ →
      (∀ n label branches ts, a.view? s.pool kind = some (label, branches) → label.Declared a →
        List.Forall₂ (RepresentsBranch a (Represents a s.pool n)) branches ts →
        Represents a' s.pool (n + 1) r (.node label span ts)) → post r s a')
    (hfull : ∀ f, indexLimit ≤ tableSize s.pool a .expressions → bad f) :
    Runs (liftM (Builder.add kind span)) s a post bad := by
  have hgrows : a.Grows { a with nodes := a.nodes.push ⟨kind, span⟩ } :=
    ⟨.push _ _, .refl _, .refl _, .refl _, rfl⟩
  refine Runs.add (h _ _ (.ofGrows hs hgrows fun table => ?_) (Nat.le_refl _)
    (by simp [Arena.node?]) ?_) (hfull _)
  · cases table <;> simp [tableSize, entries]
  · intro n label branches ts hview hdecl hts
    refine ⟨⟨kind, span⟩, label, branches, ts, by simp [Arena.node?],
      view?_grows hgrows (.refl _) hview, hdecl.grows hgrows, hts.imp fun _ _ => ?_, rfl⟩
    exact RepresentsBranch.grows hgrows fun _ _ =>
      Represents.grows hgrows (.refl _) (Nat.le_refl n)

theorem exprList_runs (hs : s.Sound frames storages) {l : List ExprId}
    {post : Slice ExprId → Quoting → Arena → Prop}
    (h : ∀ slice a', Advances frames storages s a s a' 0 (entries .exprEntries l.length) →
      a'.exprs? slice = some l → post slice s a')
    (hfull : ∀ f, indexLimit ≤ tableSize s.pool a .exprEntries ∨ sliceLimit ≤ l.length → bad f) :
    Runs (liftM (Builder.addExprs l)) s a post bad := by
  refine Runs.addExprs (h _ _ (.ofGrows hs ⟨.refl _, .append _ _, .refl _, .refl _, rfl⟩
    fun table => ?_) (Slice.read?_append _ _)) (fun hle => hfull _ (.inl hle))
    fun hle => hfull _ (.inr hle)
  cases table <;> simp [tableSize, entries, append_list_eq]

theorem varList_runs (hs : s.Sound frames storages) {l : List VarId}
    {post : Slice VarId → Quoting → Arena → Prop}
    (h : ∀ slice a', Advances frames storages s a s a' 0 (entries .varEntries l.length) →
      a'.vars? slice = some l → post slice s a')
    (hfull : ∀ f, indexLimit ≤ tableSize s.pool a .varEntries ∨ sliceLimit ≤ l.length → bad f) :
    Runs (liftM (Builder.addVars l)) s a post bad := by
  refine Runs.addVars (h _ _ (.ofGrows hs ⟨.refl _, .refl _, .append _ _, .refl _, rfl⟩
    fun table => ?_) (Slice.read?_append _ _)) (fun hle => hfull _ (.inl hle))
    fun hle => hfull _ (.inr hle)
  cases table <;> simp [tableSize, entries, append_list_eq]

theorem handlerList_runs (hs : s.Sound frames storages) {l : List Handler}
    {post : Slice Handler → Quoting → Arena → Prop}
    (h : ∀ slice a', Advances frames storages s a s a' 0 (entries .handlers l.length) →
      a'.handlers? slice = some l → post slice s a')
    (hfull : ∀ f, indexLimit ≤ tableSize s.pool a .handlers ∨ sliceLimit ≤ l.length → bad f) :
    Runs (liftM (Builder.addHandlers l)) s a post bad := by
  refine Runs.addHandlers (h _ _ (.ofGrows hs ⟨.refl _, .refl _, .refl _, .append _ _, rfl⟩
    fun table => ?_) (Slice.read?_append _ _)) (fun hle => hfull _ (.inl hle))
    fun hle => hfull _ (.inr hle)
  cases table <;> simp [tableSize, entries, append_list_eq]

theorem pushConstant_runs (hs : s.Sound frames storages) {v : Value}
    {post : ConstantId → Quoting → Arena → Prop}
    (h : ∀ k s', Advances frames storages s a s' a 0 (entries .constants 1) →
      s'.pool.get? k = some v → post k s' a)
    (hfull : ∀ f, indexLimit ≤ tableSize s.pool a .constants → bad f) :
    Runs (QuoteM.pushConstant v) s a post bad := by
  refine Runs.pushConstant (h _ _ ?_ (by simp [Pool.get?])) (hfull _)
  refine ⟨.refl _, Extends.push _ _, rfl, hs.grows (Extends.push _ _) rfl rfl, rfl,
    fun table => ?_⟩
  cases table <;> simp [tableSize, entries]

theorem newStamp_runs (hs : s.Sound frames storages) {post : Stamp → Quoting → Arena → Prop}
    (h : ∀ s', Advances frames storages s a s' a 1 (fun _ => 0) → post s.nextStamp s' a) :
    Runs QuoteM.newStamp s a post bad :=
  Runs.newStamp (h _ (.stamped hs))

/-- A node that holds a constant. -/
theorem constant_runs (hs : s.Sound frames storages) {k : ConstantId} {v : Value}
    (hk : s.pool.get? k = some v) {span : Span} {post : ExprId → Quoting → Arena → Prop}
    (h : ∀ r a', Advances frames storages s a s a' 0 (entries .expressions 1) →
      a.size ≤ r.index → (∀ n, Represents a' s.pool (n + 1) r (constantTree span v)) →
      post r s a')
    (hfull : ∀ f, indexLimit ≤ tableSize s.pool a .expressions → bad f) :
    Runs (liftM (Builder.add (.constant k) span)) s a post bad := by
  refine node_runs hs (fun r a' hadv hr _ hrep => h r a' hadv hr fun n => ?_) hfull
  exact hrep n (.constant v) [] [] (by simp [Arena.view?, hk])
    (by simp [Label.Declared, Label.vars]) .nil

end

end Quotation
