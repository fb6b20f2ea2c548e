import Quotation.Proofs.Intact

/-!
# Complete nodes

A node is complete (`Arena.Complete`) if it exists and everything that it names by itself does: the
entries of its lists, its constant, and the variables that it refers to, lists, declares or binds in
a handler. Nothing is said of its children but that the lists of them can be read. It is enough that
its label and its branches can be read, and that the variables there are declared
(`Arena.completeKind_iff`); so each node of an intact fragment is complete (`Intact.complete`).
-/

namespace Quotation

/-! ## What a node names -/

namespace Kind

def exprSlices : Kind → List (Slice ExprId)
  | block _ body => [body]
  | call _ args => [args]
  | _ => []

def varSlices : Kind → List (Slice VarId)
  | block locals _ => [locals]
  | lambda params _ _ => [params]
  | cellList vars => [vars]
  | _ => []

def handlerSlices : Kind → List (Slice Handler)
  | attempt _ handlers => [handlers]
  | _ => []

def constants : Kind → List ConstantId
  | constant c => [c]
  | _ => []

/-- The variable that a node of the kind refers to by itself. -/
def vars : Kind → List VarId
  | var v => [v]
  | _ => []

end Kind

namespace Arena

section
variable (a : Arena) (pool : Pool) (declared : VarId → Prop)

/-- The variables that a node of the kind names, but for the name of a function. -/
def varsNamed (kind : Kind) : List VarId :=
  kind.vars ++ kind.varSlices.flatMap (fun s => (a.vars? s).getD []) ++
    kind.handlerSlices.flatMap fun s => ((a.handlers? s).getD []).filterMap Handler.caught

/-- Whatever a node of the kind names exists, and its variables are `declared`. -/
structure CompleteKind (kind : Kind) : Prop where
  exprs : ∀ s ∈ kind.exprSlices, s.stop ≤ a.exprEntries.size
  vars : ∀ s ∈ kind.varSlices, s.stop ≤ a.varEntries.size
  handlers : ∀ s ∈ kind.handlerSlices, s.stop ≤ a.handlerEntries.size
  constants : ∀ c ∈ kind.constants, c.index < pool.size
  declared : ∀ v ∈ a.varsNamed kind, declared v

/-- There is a node of `id`, and whatever it names exists. -/
def Complete (id : ExprId) : Prop :=
  id.index < a.size ∧ ∀ node, a.node? id = some node → a.CompleteKind pool declared node.kind

end

variable {a : Arena} {pool : Pool} {declared : VarId → Prop} {id : ExprId}

theorem complete_iff : a.Complete pool declared id ↔
    ∃ node, a.node? id = some node ∧ a.CompleteKind pool declared node.kind := by
  constructor
  · rintro ⟨hid, hkind⟩
    have hnode : a.node? id = some a.nodes[id.index] := Array.getElem?_eq_getElem hid
    exact ⟨_, hnode, hkind _ hnode⟩
  · rintro ⟨node, hnode, hkind⟩
    refine ⟨index_lt_of_node? hnode, fun node' hnode' => ?_⟩
    obtain rfl := Option.some.inj (hnode.symm.trans hnode')
    exact hkind

/-! ## What can be read -/

theorem exists_read?_iff {α : Type} {s : Slice α} {table : Array α} :
    (∃ l, s.read? table = some l) ↔ s.stop ≤ table.size :=
  ⟨fun ⟨_, hl⟩ => Slice.stop_le_of_read? hl, Slice.exists_read?⟩

theorem exists_get?_iff {c : ConstantId} : (∃ v, pool.get? c = some v) ↔ c.index < pool.size :=
  ⟨fun ⟨_, hv⟩ => (Array.getElem?_eq_some_iff.1 hv).1, fun h => ⟨_, Array.getElem?_eq_getElem h⟩⟩

/-- The label and the branches of a kind can be read if its slices and its constant can be. -/
theorem exists_view?_iff {kind : Kind} :
    (∃ label branches, a.view? pool kind = some (label, branches)) ↔
      (∀ s ∈ kind.exprSlices, s.stop ≤ a.exprEntries.size) ∧
      (∀ s ∈ kind.varSlices, s.stop ≤ a.varEntries.size) ∧
      (∀ s ∈ kind.handlerSlices, s.stop ≤ a.handlerEntries.size) ∧
      ∀ c ∈ kind.constants, c.index < pool.size := by
  cases kind with
  | block locals body =>
    simp only [view?_block, Kind.exprSlices, Kind.varSlices, Kind.handlerSlices, Kind.constants,
      ← exists_read?_iff, List.forall_mem_singleton, List.not_mem_nil, false_imp_iff, forall_const,
      and_true, exprs?, vars?]
    constructor
    · rintro ⟨_, _, vs, ids, hvs, hids, -⟩
      exact ⟨⟨ids, hids⟩, vs, hvs⟩
    · rintro ⟨⟨ids, hids⟩, vs, hvs⟩
      exact ⟨_, _, vs, ids, hvs, hids, rfl, rfl⟩
  | lambda params body name =>
    simp [view?_lambda, Kind.exprSlices, Kind.varSlices, Kind.handlerSlices, Kind.constants,
      ← exists_read?_iff, vars?]
  | call callee args =>
    simp [view?_call, Kind.exprSlices, Kind.varSlices, Kind.handlerSlices, Kind.constants,
      ← exists_read?_iff, exprs?]
  | attempt body handlers =>
    simp [view?_attempt, Kind.exprSlices, Kind.varSlices, Kind.handlerSlices, Kind.constants,
      ← exists_read?_iff, handlers?]
  | constant c =>
    simp [view?_constant, Kind.exprSlices, Kind.varSlices, Kind.handlerSlices, Kind.constants,
      ← exists_get?_iff]
  | cellList vars =>
    simp [view?_cellList, Kind.exprSlices, Kind.varSlices, Kind.handlerSlices, Kind.constants,
      ← exists_read?_iff, vars?]
  | _ => simp [view?, Kind.exprSlices, Kind.varSlices, Kind.handlerSlices, Kind.constants]

/-- The variables that a kind names are those of its label and those that its handlers bind. -/
theorem mem_varsNamed {kind : Kind} {label : Label} {branches : List Branch} {v : VarId}
    (hview : a.view? pool kind = some (label, branches)) : v ∈ a.varsNamed kind ↔
      v ∈ label.vars ∨ ∃ h, .handler h ∈ branches ∧ v ∈ (Label.handler h.caught).vars := by
  cases kind with
  | block locals body =>
    obtain ⟨vs, ids, hvs, -, rfl, rfl⟩ := view?_block.1 hview
    simp [varsNamed, Kind.vars, Kind.varSlices, Kind.handlerSlices, hvs, Label.vars]
  | lambda params body name =>
    obtain ⟨vs, hvs, rfl, rfl⟩ := view?_lambda.1 hview
    simp [varsNamed, Kind.vars, Kind.varSlices, Kind.handlerSlices, hvs, Label.vars]
  | cellList vars =>
    obtain ⟨vs, hvs, rfl, rfl⟩ := view?_cellList.1 hview
    simp [varsNamed, Kind.vars, Kind.varSlices, Kind.handlerSlices, hvs, Label.vars]
  | call callee args =>
    obtain ⟨ids, -, rfl, rfl⟩ := view?_call.1 hview
    simp [varsNamed, Kind.vars, Kind.varSlices, Kind.handlerSlices, Label.vars]
  | attempt body handlers =>
    obtain ⟨hs, hhs, rfl, rfl⟩ := view?_attempt.1 hview
    simp [varsNamed, Kind.vars, Kind.varSlices, Kind.handlerSlices, hhs, Label.vars]
  | constant c =>
    obtain ⟨value, -, rfl, rfl⟩ := view?_constant.1 hview
    simp [varsNamed, Kind.vars, Kind.varSlices, Kind.handlerSlices, Label.vars]
  | _ =>
    obtain ⟨rfl, rfl⟩ := Prod.mk.inj (Option.some.inj hview)
    simp [varsNamed, Kind.vars, Kind.varSlices, Kind.handlerSlices, Label.vars]

theorem completeKind_iff {kind : Kind} : a.CompleteKind pool declared kind ↔ ∃ label branches,
    a.view? pool kind = some (label, branches) ∧ (∀ v ∈ label.vars, declared v) ∧
      ∀ h, .handler h ∈ branches → ∀ v ∈ (Label.handler h.caught).vars, declared v := by
  constructor
  · rintro ⟨hexprs, hvars, hhandlers, hconstants, hdecl⟩
    obtain ⟨label, branches, hview⟩ := exists_view?_iff.2 ⟨hexprs, hvars, hhandlers, hconstants⟩
    exact ⟨label, branches, hview, fun v hv => hdecl v ((mem_varsNamed hview).2 (.inl hv)),
      fun h hh v hv => hdecl v ((mem_varsNamed hview).2 (.inr ⟨h, hh, hv⟩))⟩
  · rintro ⟨label, branches, hview, hlabel, hcaught⟩
    obtain ⟨hexprs, hvars, hhandlers, hconstants⟩ := exists_view?_iff.1 ⟨label, branches, hview⟩
    refine ⟨hexprs, hvars, hhandlers, hconstants, fun v hv => ?_⟩
    rcases (mem_varsNamed hview).1 hv with hv | ⟨h, hh, hv⟩
    · exact hlabel v hv
    · exact hcaught h hh v hv

end Arena

/-! ## Fragments -/

theorem Intact.complete {a : Arena} {pool : Pool} {declared : VarId → Prop} {id : ExprId}
    (h : Intact a pool declared id) : a.Complete pool declared id := by
  cases h with
  | node hnode hview hlabel hcaught _ =>
    exact Arena.complete_iff.2
      ⟨_, hnode, Arena.completeKind_iff.2 ⟨_, _, hview, hlabel, hcaught⟩⟩

end Quotation
