import Quotation.Proofs.Acyclic

/-!
# Intact fragments

A fragment is `Intact` in an arena if everything that it refers to exists there, down to the last
node. A fragment that validation accepts is intact, and no other is (`validate_iff_intact`).

Validation may also be asked about a part of the arena. Of a fragment that is intact in the whole it
can only report a reference to what the part lacks (`Intact.validate_part`): it goes down the same
way as in the whole, and stops early if at all. It comes to an end, since no node of an intact
fragment is below itself (`Intact.acyclicFrom`).
-/

namespace Quotation

section
variable (a : Arena) (pool : Pool) (declared : VarId → Prop)

/-- From `id` down all nodes, lists and constants exist, and all variables are `declared`. -/
inductive Intact : ExprId → Prop
  | node {id : ExprId} {node : Node} {label : Label} {branches : List Branch}
    (hnode : a.node? id = some node) (hview : a.view? pool node.kind = some (label, branches))
    (hlabel : ∀ v ∈ label.vars, declared v)
    (hcaught : ∀ h, .handler h ∈ branches → ∀ v ∈ (Label.handler h.caught).vars, declared v)
    (hbelow : ∀ c ∈ branches.flatMap Branch.exprs, Intact c) : Intact id

end

/-- How long the table is that the slices of such lists index. -/
def Arena.listSize (a : Arena) : ListKind → Nat
  | .exprs => a.exprEntries.size
  | .vars => a.varEntries.size
  | .handlers => a.handlerEntries.size

/-- What the node of `id` names is not there in `a` and `pool`. It is there in `b` and `pool'`, or
is a `declared` variable. -/
def Defect.SuppliedBy (a b : Arena) (pool pool' : Pool) (declared : VarId → Prop) (id : ExprId) :
    Defect → Prop
  | .node _ => a.size ≤ id.index ∧ id.index < b.size
  | .constant c _ => pool.size ≤ c.index ∧ c.index < pool'.size
  | .undeclared v _ => a.names.size ≤ v.index ∧ declared v
  | .slice list start len _ => a.listSize list < start + len ∧ start + len ≤ b.listSize list

variable {a b : Arena} {pool pool' : Pool} {declared declared' : VarId → Prop} {id root : ExprId}

namespace Intact

theorem mono (h : Intact a pool declared id) (hab : a.PartOf b)
    (hdecl : ∀ v, declared v → declared' v) : Intact b pool declared' id := by
  induction h with
  | node hnode hview hlabel hcaught _ ih =>
    exact .node (hab.node? hnode) (view?_partOf hab (.refl pool) hview)
      (fun v hv => hdecl v (hlabel v hv)) (fun x hx v hv => hdecl v (hcaught x hx v hv)) ih

theorem of_validateWithin {n : Nat} (h : validateWithin a pool.size n id = .ok ()) :
    Intact a pool (fun v => v.index < a.names.size) id := by
  induction n generalizing id with
  | zero => cases h
  | succ n ih =>
    obtain ⟨node, cs, hnode, hkind, hcs⟩ := validateWithin_succ.1 h
    obtain ⟨label, branches, hview, hlabel, hcaught, rfl⟩ := checkKind_eq_ok.1 hkind
    exact .node hnode hview hlabel hcaught fun c hc => ih (hcs c hc)

/-! ## The way down -/

theorem child (h : Intact a pool declared id) {c : ExprId} (hc : a.Child id c) :
    Intact a pool declared c := by
  cases h with
  | node hnode hview _ _ hbelow => exact hbelow c ((Arena.child_iff hnode hview).1 hc)

/-- The first step of a way back to the node leads to a node that is below itself as well. -/
theorem acyclic (h : Intact a pool declared id) : ¬Relation.TransGen a.Child id id := by
  induction h with
  | node hnode hview _ _ _ ih =>
    intro hcycle
    obtain ⟨c, hchild, hback⟩ := Relation.TransGen.head'_iff.1 hcycle
    exact ih c ((Arena.child_iff hnode hview).1 hchild) (.tail' hback hchild)

theorem reaches (h : Intact a pool declared root) (hid : a.Reaches root id) :
    Intact a pool declared id := by
  induction hid with
  | refl => exact h
  | tail _ hc ih => exact ih.child hc

theorem acyclicFrom (h : Intact a pool declared root) : a.AcyclicFrom root :=
  fun _ hid => (h.reaches hid).acyclic

end Intact

/-! ## One node -/

section
variable {defect : Defect}

theorem except_bind_eq_error {ε α β : Type} {x : Except ε α} {k : α → Except ε β} {e : ε} :
    x >>= k = .error e ↔ x = .error e ∨ ∃ y, x = .ok y ∧ k y = .error e := by
  cases x <;> simp [bind, Except.bind]

theorem exists_of_mapM_eq_error {α β ε : Type} {f : α → Except ε β} {xs : List α} {e : ε}
    (h : xs.mapM f = .error e) : ∃ x ∈ xs, f x = .error e := by
  induction xs with
  | nil => cases h
  | cons x xs ih =>
    rw [List.mapM_cons] at h
    rcases except_bind_eq_error.1 h with hx | ⟨y, -, h⟩
    · exact ⟨x, List.mem_cons_self, hx⟩
    · rcases except_bind_eq_error.1 h with hxs | ⟨ys, -, h⟩
      · obtain ⟨z, hz, hze⟩ := ih hxs
        exact ⟨z, List.mem_cons_of_mem x hz, hze⟩
      · cases h

theorem checkVar_supplied {v : VarId} (h : checkVar a v = .error defect) (hv : declared v) :
    defect.SuppliedBy a b pool pool' declared id := by
  unfold checkVar at h
  split at h
  · cases h
  · rename_i hlt
    obtain rfl := Except.error.inj h
    exact ⟨Nat.le_of_not_lt hlt, hv⟩

theorem checkSlice_eq_error {α : Type} {list : ListKind} {table : Array α} {s : Slice α}
    (h : checkSlice list table s = .error defect) :
    defect = .slice list s.start s.len table.size ∧ table.size < s.stop := by
  unfold checkSlice at h
  split at h
  · cases h
  · rename_i hread
    refine ⟨(Except.error.inj h).symm, Nat.lt_of_not_le fun hle => ?_⟩
    obtain ⟨l, hl⟩ := Slice.exists_read? hle
    cases hread.symm.trans hl

theorem checkVars_supplied (hab : a.PartOf b) {s : Slice VarId} {vs : List VarId}
    (h : checkVars a s = .error defect) (hvs : b.vars? s = some vs) (hdecl : ∀ v ∈ vs, declared v) :
    defect.SuppliedBy a b pool pool' declared id := by
  rcases except_bind_eq_error.1 h with h | ⟨l, hl, h⟩
  · obtain ⟨rfl, hlt⟩ := checkSlice_eq_error h
    exact ⟨hlt, Slice.stop_le_of_read? hvs⟩
  · obtain ⟨v, hv, h⟩ := exists_of_forM_eq_error h
    have hl : b.vars? s = some l := hab.vars? (checkSlice_eq_ok.1 hl)
    obtain rfl := Option.some.inj (hl.symm.trans hvs)
    exact checkVar_supplied h (hdecl v hv)

theorem checkHandler_supplied {h : Handler} (herr : checkHandler a h = .error defect)
    (hdecl : ∀ v ∈ (Label.handler h.caught).vars, declared v) :
    defect.SuppliedBy a b pool pool' declared id := by
  rcases except_bind_eq_error.1 herr with herr | ⟨_, -, herr⟩
  · cases hcaught : h.caught with
    | none => rw [hcaught] at herr; cases herr
    | some v =>
      rw [hcaught] at herr
      exact checkVar_supplied herr (hdecl v (by simp [Label.vars, hcaught]))
  · cases herr

/-- What a kind lacks in a part of the arena, the arena supplies. -/
theorem checkKind_supplied (hab : a.PartOf b) {kind : Kind} {label : Label}
    {branches : List Branch} (herr : checkKind a pool.size kind = .error defect)
    (hview : b.view? pool' kind = some (label, branches)) (hlabel : ∀ v ∈ label.vars, declared v)
    (hcaught : ∀ h, .handler h ∈ branches → ∀ v ∈ (Label.handler h.caught).vars, declared v) :
    defect.SuppliedBy a b pool pool' declared id := by
  cases kind with
  | unit | int | bool | binary | assign | cond | throw | content => cases herr
  | var v =>
    obtain ⟨rfl, rfl⟩ := Prod.mk.inj (Option.some.inj hview)
    rcases except_bind_eq_error.1 herr with herr | ⟨_, -, herr⟩
    · exact checkVar_supplied herr (hlabel v (by simp [Label.vars]))
    · cases herr
  | constant c =>
    obtain ⟨value, hvalue, rfl, rfl⟩ := view?_constant.1 hview
    simp only [checkKind] at herr
    split at herr
    · cases herr
    · rename_i hlt
      obtain rfl := Except.error.inj herr
      exact ⟨Nat.le_of_not_lt hlt, (Array.getElem?_eq_some_iff.1 hvalue).1⟩
  | cellList vars =>
    obtain ⟨vs, hvs, rfl, rfl⟩ := view?_cellList.1 hview
    rcases except_bind_eq_error.1 herr with herr | ⟨_, -, herr⟩
    · exact checkVars_supplied hab herr hvs hlabel
    · cases herr
  | lambda params body name =>
    obtain ⟨vs, hvs, rfl, rfl⟩ := view?_lambda.1 hview
    rcases except_bind_eq_error.1 herr with herr | ⟨_, -, herr⟩
    · exact checkVars_supplied hab herr hvs hlabel
    · cases herr
  | block locals body =>
    obtain ⟨vs, ids, hvs, hids, rfl, rfl⟩ := view?_block.1 hview
    rcases except_bind_eq_error.1 herr with herr | ⟨_, -, herr⟩
    · exact checkVars_supplied hab herr hvs hlabel
    · obtain ⟨rfl, hlt⟩ := checkSlice_eq_error herr
      exact ⟨hlt, Slice.stop_le_of_read? hids⟩
  | call callee args =>
    obtain ⟨ids, hids, rfl, rfl⟩ := view?_call.1 hview
    rcases except_bind_eq_error.1 herr with herr | ⟨_, -, herr⟩
    · obtain ⟨rfl, hlt⟩ := checkSlice_eq_error herr
      exact ⟨hlt, Slice.stop_le_of_read? hids⟩
    · cases herr
  | attempt body handlers =>
    obtain ⟨hs, hhs, rfl, rfl⟩ := view?_attempt.1 hview
    rcases except_bind_eq_error.1 herr with herr | ⟨l, hl, herr⟩
    · obtain ⟨rfl, hlt⟩ := checkSlice_eq_error herr
      exact ⟨hlt, Slice.stop_le_of_read? hhs⟩
    · have hl : b.handlers? handlers = some l := hab.handlers? (checkSlice_eq_ok.1 hl)
      obtain rfl := Option.some.inj (hl.symm.trans hhs)
      rcases except_bind_eq_error.1 herr with herr | ⟨_, -, herr⟩
      · obtain ⟨x, hx, herr⟩ := exists_of_mapM_eq_error herr
        exact checkHandler_supplied herr (hcaught x (by simpa using hx))
      · cases herr

end

/-! ## All nodes -/

section
variable {n : Nat}

/-- An unfinished validation of a part has stopped at a reference that the part lacks, or at a child
with one level less. -/
theorem Intact.validateWithin_succ_eq_error (h : Intact b pool' declared id) (hab : a.PartOf b)
    (hp : pool.Grows pool') {f : Fault} (herr : validateWithin a pool.size (n + 1) id = .error f) :
    (∃ defect, f = .invalid id defect ∧ defect.SuppliedBy a b pool pool' declared id) ∨
      ∃ c, b.Child id c ∧ validateWithin a pool.size n c = .error f := by
  cases h with
  | @node _ node label branches hnode hview hlabel hcaught _ =>
    rw [validateWithin, checkNode] at herr
    cases hread : a.node? id with
    | none =>
      rw [hread] at herr
      refine .inl ⟨_, (Except.error.inj herr).symm, ?_, Arena.index_lt_of_node? hnode⟩
      exact Array.getElem?_eq_none_iff.1 hread
    | some node' =>
      obtain rfl := Option.some.inj ((hab.node? hread).symm.trans hnode)
      simp only [hread] at herr
      cases hkind : checkKind a pool.size node'.kind with
      | error defect =>
        rw [hkind] at herr
        exact .inl ⟨defect, (Except.error.inj herr).symm,
          checkKind_supplied hab hkind hview hlabel hcaught⟩
      | ok cs =>
        rw [hkind] at herr
        obtain ⟨label', branches', hview', -, -, rfl⟩ := checkKind_eq_ok.1 hkind
        obtain ⟨c, hc, hcerr⟩ := exists_of_forM_eq_error herr
        have hview' := view?_partOf hab hp hview'
        exact .inr ⟨c, (Arena.child_iff hnode hview').2 (List.mem_reverse.1 hc), hcerr⟩

theorem Intact.validateWithin_part (h : Intact b pool' declared id) (hab : a.PartOf b)
    (hp : pool.Grows pool') {f : Fault} (herr : validateWithin a pool.size n id = .error f) :
    f = .endless ∨ ∃ c defect, f = .invalid c defect ∧
      defect.SuppliedBy a b pool pool' declared c := by
  induction n generalizing id with
  | zero => exact .inl (Except.error.inj herr).symm
  | succ n ih =>
    rcases h.validateWithin_succ_eq_error hab hp herr with ⟨defect, rfl, hdefect⟩ | ⟨c, hc, herr⟩
    · exact .inr ⟨id, defect, rfl, hdefect⟩
    · exact ih (h.child hc) herr

/-- Validation of a part accepts the fragment, or reports what the part lacks. -/
theorem Intact.validate_part (h : Intact b pool' declared root) (hab : a.PartOf b)
    (hp : pool.Grows pool') : validate a pool root = .ok () ∨
      ∃ c defect, validate a pool root = .error (.invalid c defect) ∧
        defect.SuppliedBy a b pool pool' declared c := by
  cases hvalid : validate a pool root with
  | ok _ => exact .inl rfl
  | error f =>
    rcases h.validateWithin_part hab hp hvalid with rfl | ⟨c, defect, rfl, hdefect⟩
    · exact absurd hvalid ((h.acyclicFrom.of_partOf hab).validate_ends pool)
    · exact .inr ⟨c, defect, rfl, hdefect⟩

theorem Defect.SuppliedBy.imp {defect : Defect}
    (h : defect.SuppliedBy a b pool pool' declared id)
    (hdecl : ∀ v, a.names.size ≤ v.index → declared v → declared' v) :
    defect.SuppliedBy a b pool pool' declared' id := by
  cases defect with
  | undeclared v count => exact ⟨h.1, hdecl v h.1 h.2⟩
  | _ => exact h

/-- Nothing is missing from an arena that it has itself. -/
theorem Defect.not_supplied_self {defect : Defect} :
    ¬defect.SuppliedBy a a pool pool (fun v => v.index < a.names.size) id := by
  cases defect <;> simp only [Defect.SuppliedBy] <;> omega

/-- Validation accepts the intact fragments. -/
theorem validate_iff_intact :
    validate a pool root = .ok () ↔ Intact a pool (fun v => v.index < a.names.size) root := by
  constructor
  · exact .of_validateWithin
  · intro h
    rcases h.validate_part (.refl a) (.refl pool) with hvalid | ⟨c, defect, -, hdefect⟩
    · exact hvalid
    · exact absurd hdefect Defect.not_supplied_self

end

end Quotation
