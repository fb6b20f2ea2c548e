import Quotation.Arena.Build
import Quotation.Proofs.Order

/-!
# Building

What each operation that adds to an arena has added when it succeeds: the former arena is part of
the new one, the answer denotes what was stored, and the arena has been built in order if only what
it has is referred to. A `Form` is what one of the builders is given, a kind with its lists written
out; `Form.build_ok` says the same of all of them.
-/

namespace Quotation

variable {a a' : Arena}

/-! ## One table -/

theorem bind_eq_ok {τ α β : Type} {x : StateT τ (Except Fault) α}
    {f : α → StateT τ (Except Fault) β} {t t' : τ} {r : β} :
    (x >>= f) t = .ok (r, t') ↔ ∃ v t₁, x t = .ok (v, t₁) ∧ f v t₁ = .ok (r, t') := by
  show (x t).bind (fun v => f v.1 v.2) = _ ↔ _
  cases x t with
  | error e => simp [Except.bind]
  | ok v =>
    obtain ⟨v, t₁⟩ := v
    simp [Except.bind]

namespace Builder

theorem node_ok {id : ExprId} {node : Node} (h : Builder.node id a = .ok (node, a')) :
    a.node? id = some node ∧ a' = a := by
  obtain ⟨b, a₁, hget, h⟩ := bind_eq_ok.1 h
  obtain ⟨rfl, rfl⟩ := Prod.mk.inj (Except.ok.inj hget)
  cases hnode : a.node? id with
  | none => rw [hnode] at h; cases h
  | some node' =>
    rw [hnode] at h
    obtain ⟨rfl, rfl⟩ := Prod.mk.inj (Except.ok.inj h)
    exact ⟨rfl, rfl⟩

theorem add_ok {kind : Kind} {span : Span} {id : ExprId} (h : add kind span a = .ok (id, a')) :
    a.PartOf a' ∧ a'.node? id = some ⟨kind, span⟩ ∧
      ((∀ r ∈ kind.references, a.Has r) → a.BuildsTo a') := by
  rw [add_eq] at h
  split at h
  · obtain ⟨rfl, rfl⟩ := Prod.mk.inj (Except.ok.inj h)
    exact ⟨⟨.push _ _, .refl _, .refl _, .refl _, .refl _⟩, by simp [Arena.node?],
      fun hrefs => .single (.node span hrefs)⟩
  · cases h

theorem add_ends {kind : Kind} {span : Span} : add kind span a ≠ .error .endless := by
  rw [add_eq]
  split <;> exact nofun

theorem declare_ok {name : String} {v : VarId} (h : declare name a = .ok (v, a')) :
    a'.name? v = some name ∧ a.BuildsTo a' := by
  unfold declare nextIndex at h
  split at h
  · obtain ⟨rfl, rfl⟩ := Prod.mk.inj (Except.ok.inj h)
    exact ⟨by simp [Arena.name?], .single (.declare name)⟩
  · cases h

section
variable {α : Type} {table : Table} {list : ListKind} {size length : Nat} {grown : Arena}

theorem store_ok {s : Slice α}
    (h : ((nextSlice table list size length).bind fun s => .ok (s, grown)) = .ok (s, a')) :
    s = ⟨size, length⟩ ∧ a' = grown := by
  rw [nextSlice_eq] at h
  split at h
  · split at h
    · obtain ⟨rfl, rfl⟩ := Prod.mk.inj (Except.ok.inj h)
      exact ⟨rfl, rfl⟩
    · cases h
  · cases h

theorem store_ends : ((nextSlice table list size length).bind fun s : Slice α => .ok (s, grown)) ≠
    .error .endless := by
  rw [nextSlice_eq]
  split
  · split <;> exact nofun
  · exact nofun

end

theorem addExprs_ok {ids : List ExprId} {s : Slice ExprId} (h : addExprs ids a = .ok (s, a')) :
    a.PartOf a' ∧ a'.exprs? s = some ids ∧
      ((∀ c ∈ ids, a.Has (.expr c)) → a.BuildsTo a') := by
  obtain ⟨rfl, rfl⟩ := store_ok h
  exact ⟨⟨.refl _, .append _ _, .refl _, .refl _, .refl _⟩, Slice.read?_append _ _,
    fun hids => .single (.exprs hids)⟩

theorem addHandlers_ok {hs : List Handler} {s : Slice Handler}
    (h : addHandlers hs a = .ok (s, a')) :
    a.PartOf a' ∧ a'.handlers? s = some hs ∧
      ((∀ x ∈ hs, ∀ c ∈ x.exprs, a.Has (.expr c)) → a.BuildsTo a') := by
  obtain ⟨rfl, rfl⟩ := store_ok h
  exact ⟨⟨.refl _, .refl _, .refl _, .append _ _, .refl _⟩, Slice.read?_append _ _,
    fun hhs => .single (.handlers hhs)⟩

theorem addVars_ok {vs : List VarId} {s : Slice VarId} (h : addVars vs a = .ok (s, a')) :
    a'.vars? s = some vs ∧ a.BuildsTo a' := by
  obtain ⟨rfl, rfl⟩ := store_ok h
  exact ⟨Slice.read?_append _ _, .single (.vars vs)⟩

end Builder

theorem Arena.has_exprs {s : Slice ExprId} {ids : List ExprId} (h : a.exprs? s = some ids) :
    a.Has (.exprs s) :=
  Slice.stop_le_of_read? h

theorem Arena.has_handlers {s : Slice Handler} {hs : List Handler} (h : a.handlers? s = some hs) :
    a.Has (.handlers s) :=
  Slice.stop_le_of_read? h

/-! ## Forms -/

/-- A node with its lists written out. -/
inductive Form where
  | unit
  | int (n : Int64)
  | bool (b : Bool)
  | var (v : VarId)
  | binary (op : BinaryOp) (left right : ExprId)
  | assign (target value : ExprId)
  | cond (test yes no : ExprId)
  | block (locals : List VarId) (body : List ExprId)
  | lambda (name : Option VarId) (params : List VarId) (body : ExprId)
  | call (callee : ExprId) (args : List ExprId)
  | attempt (body : ExprId) (handlers : List Handler)
  | throw (value : ExprId)
  | constant (c : ConstantId)
  | content (receiver : ExprId)
  | cellList (vars : List VarId)
  deriving DecidableEq, Repr

namespace Form

/-- The builder for a node of the form. -/
def build : Form → Builder ExprId
  | unit => Builder.unit
  | int n => Builder.int n
  | bool b => Builder.bool b
  | var v => Builder.var v
  | binary op left right => Builder.binary op left right
  | assign target value => Builder.assign target value
  | cond test yes no => Builder.cond test yes no
  | block locals body => Builder.block locals body
  | lambda name params body => Builder.namedLambda name params body
  | call callee args => Builder.call callee args
  | attempt body handlers => Builder.attempt body handlers
  | throw value => Builder.throw value
  | constant c => Builder.constant c
  | content receiver => Builder.content receiver
  | cellList vars => Builder.cellList vars

/-- The form that is stored: the locals of a block are a set. -/
def stored : Form → Form
  | block locals body => block locals.eraseDups body
  | form => form

/-- The nodes that a node of the form is built from. -/
def exprs : Form → List ExprId
  | unit | int _ | bool _ | var _ | constant _ | cellList _ => []
  | binary _ left right => [left, right]
  | assign target value => [target, value]
  | cond test yes no => [test, yes, no]
  | block _ body => body
  | lambda _ _ body => [body]
  | call callee args => callee :: args
  | attempt body handlers => body :: handlers.flatMap Handler.exprs
  | throw value => [value]
  | content receiver => [receiver]

end Form

/-- The form of a kind, if its lists lie in their tables. -/
def Arena.form? (a : Arena) : Kind → Option Form
  | .unit => some .unit
  | .int n => some (.int n)
  | .bool b => some (.bool b)
  | .var v => some (.var v)
  | .binary op left right => some (.binary op left right)
  | .assign target value => some (.assign target value)
  | .cond test yes no => some (.cond test yes no)
  | .block locals body => do return .block (← a.vars? locals) (← a.exprs? body)
  | .lambda params body name => do return .lambda name (← a.vars? params) body
  | .call callee args => do return .call callee (← a.exprs? args)
  | .attempt body handlers => do return .attempt body (← a.handlers? handlers)
  | .throw value => some (.throw value)
  | .constant c => some (.constant c)
  | .content receiver => some (.content receiver)
  | .cellList vars => do return .cellList (← a.vars? vars)

/-- What has been built is a node of the form, and it is built in order from nodes of the arena. -/
theorem Form.build_ok {form : Form} {id : ExprId} (h : form.build a = .ok (id, a')) :
    a.PartOf a' ∧
      (∃ kind, a'.node? id = some ⟨kind, .nowhere⟩ ∧ a'.form? kind = some form.stored) ∧
      ((∀ c ∈ form.exprs, a.Has (.expr c)) → a.BuildsTo a') := by
  cases form with
  | block locals body =>
    obtain ⟨s, a₁, h₁, h⟩ := bind_eq_ok.1 h
    obtain ⟨t, a₂, h₂, h⟩ := bind_eq_ok.1 h
    obtain ⟨hs, hb₁⟩ := Builder.addVars_ok h₁
    obtain ⟨hp₂, ht, hb₂⟩ := Builder.addExprs_ok h₂
    obtain ⟨hp₃, hnode, hb₃⟩ := Builder.add_ok h
    have hp₁ := hb₁.partOf
    refine ⟨hp₁.trans (hp₂.trans hp₃), ⟨_, hnode, ?_⟩, fun hc => ?_⟩
    · simp [Arena.form?, Form.stored, (hp₂.trans hp₃).vars? hs, hp₃.exprs? ht]
    · refine hb₁.trans ((hb₂ fun c hcb => (hc c hcb).grows hp₁).trans (hb₃ ?_))
      simpa [Kind.references] using Arena.has_exprs ht
  | lambda name params body =>
    obtain ⟨s, a₁, h₁, h⟩ := bind_eq_ok.1 h
    obtain ⟨hs, hb₁⟩ := Builder.addVars_ok h₁
    obtain ⟨hp₂, hnode, hb₂⟩ := Builder.add_ok h
    refine ⟨hb₁.partOf.trans hp₂, ⟨_, hnode, ?_⟩, fun hc => hb₁.trans (hb₂ ?_)⟩
    · simp [Arena.form?, Form.stored, hp₂.vars? hs]
    · simpa [Kind.references, Form.exprs] using (hc body List.mem_cons_self).grows hb₁.partOf
  | call callee args =>
    obtain ⟨s, a₁, h₁, h⟩ := bind_eq_ok.1 h
    obtain ⟨hp₁, hs, hb₁⟩ := Builder.addExprs_ok h₁
    obtain ⟨hp₂, hnode, hb₂⟩ := Builder.add_ok h
    refine ⟨hp₁.trans hp₂, ⟨_, hnode, ?_⟩, fun hc => ?_⟩
    · simp [Arena.form?, Form.stored, hp₂.exprs? hs]
    · obtain ⟨hcallee, hargs⟩ := List.forall_mem_cons.1 hc
      refine (hb₁ hargs).trans (hb₂ ?_)
      simpa [Kind.references] using ⟨hcallee.grows hp₁, Arena.has_exprs hs⟩
  | attempt body handlers =>
    obtain ⟨s, a₁, h₁, h⟩ := bind_eq_ok.1 h
    obtain ⟨hp₁, hs, hb₁⟩ := Builder.addHandlers_ok h₁
    obtain ⟨hp₂, hnode, hb₂⟩ := Builder.add_ok h
    refine ⟨hp₁.trans hp₂, ⟨_, hnode, ?_⟩, fun hc => ?_⟩
    · simp [Arena.form?, Form.stored, hp₂.handlers? hs]
    · obtain ⟨hbody, hhs⟩ := List.forall_mem_cons.1 hc
      refine (hb₁ fun x hx c hcx => hhs c (List.mem_flatMap.2 ⟨x, hx, hcx⟩)).trans (hb₂ ?_)
      simpa [Kind.references] using ⟨hbody.grows hp₁, Arena.has_handlers hs⟩
  | cellList vars =>
    obtain ⟨s, a₁, h₁, h⟩ := bind_eq_ok.1 h
    obtain ⟨hs, hb₁⟩ := Builder.addVars_ok h₁
    obtain ⟨hp₂, hnode, hb₂⟩ := Builder.add_ok h
    refine ⟨hb₁.partOf.trans hp₂, ⟨_, hnode, ?_⟩, fun _ => hb₁.trans (hb₂ ?_)⟩
    · simp [Arena.form?, Form.stored, hp₂.vars? hs]
    · simp [Kind.references]
  | unit | int | bool | var | constant =>
    obtain ⟨hp, hnode, hb⟩ := Builder.add_ok h
    exact ⟨hp, ⟨_, hnode, rfl⟩, fun _ => hb (by simp [Kind.references])⟩
  | binary | assign | cond | throw | content =>
    obtain ⟨hp, hnode, hb⟩ := Builder.add_ok h
    exact ⟨hp, ⟨_, hnode, rfl⟩, fun hc => hb (by simpa [Kind.references, Form.exprs] using hc)⟩

/-- A node is copied with its children, and with another span. -/
theorem Builder.respan_ok {id r : ExprId} {span : Span} (h : respan id span a = .ok (r, a')) :
    a.PartOf a' ∧
      (∃ node, a.node? id = some node ∧ a'.node? r = some ⟨node.kind, span⟩) ∧
      (a.Ordered → a.BuildsTo a') := by
  obtain ⟨node, a₁, h₁, hadd⟩ := bind_eq_ok.1 h
  obtain ⟨hnode, rfl⟩ := node_ok h₁
  obtain ⟨hp, hr, hb⟩ := add_ok hadd
  refine ⟨hp, ⟨node, hnode, hr⟩, fun ho => hb fun x hx => ?_⟩
  exact (ho.nodes id node hnode x hx).has (Nat.le_of_lt (Arena.index_lt_of_node? hnode))

end Quotation
