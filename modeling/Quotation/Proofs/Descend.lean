import Quotation.Proofs.Capture.Advance

/-!
# One level of a pass

A pass that descends from a node visits its branches from left to right, stores the list of the
answers if it has one and some answer is a change, and answers with a kind of the same label over
the answers. `Descent` says what a proof about this owes: an invariant of the branches that have
been visited and their answers, which every visit keeps, and what storing a list makes of it.
`Descent.runs` is then the one place that looks at each kind of node; `descendHandler_runs` does the
same for the branches of a handler.
-/

namespace Quotation

variable {σ : Type}

/-- The kind without its children: operator, variables and name are left. -/
def Kind.bare : Kind → Kind
  | .binary op _ _ => .binary op ⟨0⟩ ⟨0⟩
  | .assign _ _ => .assign ⟨0⟩ ⟨0⟩
  | .cond _ _ _ => .cond ⟨0⟩ ⟨0⟩ ⟨0⟩
  | .block locals _ => .block locals .empty
  | .lambda params _ name => .lambda params ⟨0⟩ name
  | .call _ _ => .call ⟨0⟩ .empty
  | .attempt _ _ => .attempt ⟨0⟩ .empty
  | .throw _ => .throw ⟨0⟩
  | .content _ => .content ⟨0⟩
  | kind => kind

/-! ## The entries of a list -/

theorem listCost_block (vars : List VarId) (k : Nat) :
    (Label.block vars).listCost k = entries .exprEntries k := by
  funext table
  cases table <;> rfl

theorem listCost_call (k : Nat) : Label.call.listCost (k + 1) = entries .exprEntries k := by
  funext table
  cases table <;> rfl

theorem listCost_attempt (k : Nat) : Label.attempt.listCost (k + 1) = entries .handlers k := by
  funext table
  cases table <;> rfl

theorem listCost_le (label : Label) (k : Nat) (table : Table) :
    label.listCost k table ≤ label.listLength k := by
  cases label <;> cases table <;> simp [Label.listCost, Label.listLength]

/-! ## Lists of branches -/

section
variable {α : Type} {act : α → PassM σ α} {branch : α → Branch} {branches : List Branch}
  {I : List Branch → List Branch → σ → Arena → Prop} {bad : Fault → Prop} {s : σ} {a : Arena}

/-- An invariant that every visit keeps holds after the rest of the branches has been visited. -/
theorem visits_mapM
    (hact : ∀ {done rest answers x s a}, I done answers s a → branches = done ++ branch x :: rest →
      Runs (act x) s a (fun x' => I (done ++ [branch x]) (answers ++ [branch x'])) bad)
    {xs : List α} {done answers : List Branch} (h : I done answers s a)
    (hsplit : branches = done ++ xs.map branch) :
    Runs (xs.mapM act) s a
      (fun xs' s' a' => xs'.length = xs.length ∧ I branches (answers ++ xs'.map branch) s' a')
      bad := by
  induction xs generalizing done answers s a with
  | nil =>
    rw [List.map_nil, List.append_nil] at hsplit
    subst hsplit
    exact Runs.pure ⟨rfl, by simpa using h⟩
  | cons x xs ih =>
    rw [List.mapM_cons]
    refine (hact h hsplit).seq fun x' s₁ a₁ h₁ => ?_
    refine (ih h₁ (by simpa using hsplit)).seq fun xs' s₂ a₂ ⟨hlength, h₂⟩ => ?_
    exact Runs.pure ⟨by simp [hlength], by simpa using h₂⟩

/-- The list is stored again if it has changed. -/
theorem visits_relist [DecidableEq α] {read : Arena → Slice α → Option (List α)}
    {store : List α → Builder (Slice α)} {Q : List Branch → σ → Arena → Prop}
    (hbranch : Function.Injective branch)
    (hact : ∀ {done rest answers x s a}, I done answers s a → branches = done ++ branch x :: rest →
      Runs (act x) s a (fun x' => I (done ++ [branch x]) (answers ++ [branch x'])) bad)
    {slice : Slice α} {xs : List α} {done answers : List Branch} (h : I done answers s a)
    (hsplit : branches = done ++ xs.map branch) (hlength : answers.length = done.length)
    (hkeep : ∀ {answers s a}, I branches answers s a → Q answers s a ∧ read a slice = some xs)
    (hstore : ∀ {xs' s a}, I branches (answers ++ xs'.map branch) s a →
      answers ++ xs'.map branch ≠ branches → 0 < xs'.length → xs'.length = xs.length →
      Runs (liftM (store xs')) s a
        (fun slice' s' a' => Q (answers ++ xs'.map branch) s' a' ∧ read a' slice' = some xs') bad) :
    Runs (do
        let after ← xs.mapM act
        if after == xs then return slice else liftM (store after)) s a
      (fun slice' s' a' => ∃ xs', Q (answers ++ xs'.map branch) s' a' ∧ read a' slice' = some xs' ∧
        (answers ++ xs'.map branch = branches → slice' = slice)) bad := by
  refine (visits_mapM hact h hsplit).seq fun xs' s₁ a₁ ⟨hlen, h₁⟩ => ?_
  split
  · rename_i heq
    obtain rfl := eq_of_beq heq
    exact Runs.pure ⟨xs', (hkeep h₁).1, (hkeep h₁).2, fun _ => rfl⟩
  · rename_i hne
    have hchanged : answers ++ xs'.map branch ≠ branches := by
      rw [hsplit]
      intro heq
      obtain rfl := List.map_injective_iff.2 hbranch (List.append_inj_right heq hlength)
      exact hne (beq_self_eq_true xs')
    have hpos : 0 < xs'.length := by
      refine List.length_pos_iff.2 fun hnil => hne ?_
      subst hnil
      rw [List.length_eq_zero_iff.1 hlen.symm]
      rfl
    exact (hstore h₁ hchanged hpos hlen).imp
      fun _ _ _ ⟨hq, hread⟩ => ⟨xs', hq, hread, fun heq => absurd heq hchanged⟩

end

/-! ## Nodes -/

section
variable {visit : ExprId → PassM σ ExprId} {visitHandler : Handler → PassM σ Handler}
  {label : Label} {branches : List Branch} {s : σ} {a : Arena}
  {I : List Branch → List Branch → σ → Arena → Prop} {Q : List Branch → σ → Arena → Prop}
  {bad : Fault → Prop}

/-- `I` holds of the branches that have been visited, their answers, and the state and the arena
after that; `Q` holds of the answers for all branches once their list has been stored. -/
structure Descent (visit : ExprId → PassM σ ExprId) (visitHandler : Handler → PassM σ Handler)
    (label : Label) (branches : List Branch) (s : σ) (a : Arena)
    (I : List Branch → List Branch → σ → Arena → Prop) (Q : List Branch → σ → Arena → Prop)
    (bad : Fault → Prop) : Prop where
  start : I [] [] s a
  partOf : ∀ {done answers s' a'}, I done answers s' a' → a.PartOf a'
  stored : ∀ {answers s' a'}, Q answers s' a' → a.PartOf a'
  expr : ∀ {done rest answers id s' a'}, I done answers s' a' →
    branches = done ++ .expr id :: rest →
    Runs (visit id) s' a' (fun r => I (done ++ [.expr id]) (answers ++ [.expr r])) bad
  handler : ∀ {done rest answers h s' a'}, I done answers s' a' →
    branches = done ++ .handler h :: rest →
    Runs (visitHandler h) s' a' (fun r => I (done ++ [.handler h]) (answers ++ [.handler r])) bad
  /-- There is no list, or it has not changed. -/
  keep : ∀ {answers s' a'}, I branches answers s' a' → Q answers s' a'
  exprs : ∀ {pre answers ids s' a'}, I branches answers s' a' → answers ≠ branches →
    answers = pre ++ ids.map .expr → 0 < ids.length →
    label.listCost branches.length = entries .exprEntries ids.length →
    Runs (liftM (Builder.addExprs ids)) s' a'
      (fun slice s'' a'' => Q answers s'' a'' ∧ a''.exprs? slice = some ids) bad
  handlers : ∀ {pre answers hs s' a'}, I branches answers s' a' → answers ≠ branches →
    answers = pre ++ hs.map .handler → 0 < hs.length →
    label.listCost branches.length = entries .handlers hs.length →
    Runs (liftM (Builder.addHandlers hs)) s' a'
      (fun slice s'' a'' => Q answers s'' a'' ∧ a''.handlers? slice = some hs) bad

namespace Descent

variable (h : Descent visit visitHandler label branches s a I Q bad) {done answers : List Branch}
  {s₁ : σ} {a₁ : Arena}

include h

theorem exprs_runs {slice : Slice ExprId} {ids : List ExprId} (hI : I done answers s₁ a₁)
    (hids : a.exprs? slice = some ids) (hsplit : branches = done ++ ids.map .expr)
    (hlength : answers.length = done.length)
    (hcost : label.listCost branches.length = entries .exprEntries ids.length) :
    Runs (descendExprs visit slice) s₁ a₁ (fun slice' s' a' => ∃ ids',
      Q (answers ++ ids'.map .expr) s' a' ∧ a'.exprs? slice' = some ids' ∧
      (answers ++ ids'.map .expr = branches → slice' = slice)) bad :=
  Runs.bind (Runs.exprs ((h.partOf hI).exprs? hids)
    (visits_relist (fun _ _ => Branch.expr.inj) h.expr hI hsplit hlength
      (fun hI' => ⟨h.keep hI', (h.partOf hI').exprs? hids⟩)
      fun hI' hne hpos hlen => h.exprs hI' hne rfl hpos (hlen ▸ hcost)))

theorem handlers_runs {slice : Slice Handler} {hs : List Handler} (hI : I done answers s₁ a₁)
    (hhs : a.handlers? slice = some hs) (hsplit : branches = done ++ hs.map .handler)
    (hlength : answers.length = done.length)
    (hcost : label.listCost branches.length = entries .handlers hs.length) :
    Runs (descendHandlers visitHandler slice) s₁ a₁ (fun slice' s' a' => ∃ hs',
      Q (answers ++ hs'.map .handler) s' a' ∧ a'.handlers? slice' = some hs' ∧
      (answers ++ hs'.map .handler = branches → slice' = slice)) bad :=
  Runs.bind (Runs.handlers ((h.partOf hI).handlers? hhs)
    (visits_relist (fun _ _ => Branch.handler.inj) h.handler hI hsplit hlength
      (fun hI' => ⟨h.keep hI', (h.partOf hI').handlers? hhs⟩)
      fun hI' hne hpos hlen => h.handlers hI' hne rfl hpos (hlen ▸ hcost)))

/-- What has become of a node of the kind: a kind of the same label over the answers. -/
theorem runs {pool : Pool} {kind : Kind} (hview : a.view? pool kind = some (label, branches)) :
    Runs (descendKind visit visitHandler kind) s a (fun kind' s' a' => ∃ answers,
      Q answers s' a' ∧ a'.view? pool kind' = some (label, answers) ∧
      (answers = branches → kind' = kind) ∧ kind'.bare = kind.bare) bad := by
  cases kind with
  | unit | int | bool | var =>
    obtain ⟨rfl, rfl⟩ := Prod.mk.inj (Option.some.inj hview)
    exact Runs.pure ⟨[], h.keep h.start, rfl, fun _ => rfl, rfl⟩
  | throw id | content id =>
    obtain ⟨rfl, rfl⟩ := Prod.mk.inj (Option.some.inj hview)
    refine (h.expr h.start rfl).seq fun r s₁ a₁ h₁ => Runs.pure ?_
    exact ⟨[.expr r], h.keep h₁, rfl, fun heq => by cases heq; rfl, rfl⟩
  | binary op left right | assign left right =>
    obtain ⟨rfl, rfl⟩ := Prod.mk.inj (Option.some.inj hview)
    refine (h.expr h.start rfl).seq fun r s₁ a₁ h₁ => ?_
    refine (h.expr h₁ rfl).seq fun r' s₂ a₂ h₂ => Runs.pure ?_
    exact ⟨[.expr r, .expr r'], h.keep h₂, rfl, fun heq => by cases heq; rfl, rfl⟩
  | cond test yes no =>
    obtain ⟨rfl, rfl⟩ := Prod.mk.inj (Option.some.inj hview)
    refine (h.expr h.start rfl).seq fun r s₁ a₁ h₁ => ?_
    refine (h.expr h₁ rfl).seq fun r' s₂ a₂ h₂ => ?_
    refine (h.expr h₂ rfl).seq fun r'' s₃ a₃ h₃ => Runs.pure ?_
    exact ⟨[.expr r, .expr r', .expr r''], h.keep h₃, rfl, fun heq => by cases heq; rfl, rfl⟩
  | block locals body =>
    obtain ⟨vs, ids, hvs, hids, rfl, rfl⟩ := view?_block.1 hview
    have hcost : (Label.block vs).listCost (ids.map Branch.expr).length =
        entries .exprEntries ids.length := by
      rw [List.length_map, listCost_block]
    refine (h.exprs_runs h.start hids rfl rfl hcost).seq
      fun slice s₁ a₁ ⟨ids', h₁, hids', hsame⟩ => Runs.pure ?_
    refine ⟨_, h₁, view?_block.2 ⟨vs, ids', (h.stored h₁).vars? hvs, hids', rfl, rfl⟩,
      fun heq => ?_, rfl⟩
    rw [hsame heq]
  | lambda params body name =>
    obtain ⟨vs, hvs, rfl, rfl⟩ := view?_lambda.1 hview
    refine (h.expr h.start rfl).seq fun r s₁ a₁ h₁ => Runs.pure ?_
    exact ⟨[.expr r], h.keep h₁, view?_lambda.2 ⟨vs, (h.partOf h₁).vars? hvs, rfl, rfl⟩,
      fun heq => by cases heq; rfl, rfl⟩
  | call callee args =>
    obtain ⟨ids, hids, rfl, rfl⟩ := view?_call.1 hview
    have hcost : Label.call.listCost (Branch.expr callee :: ids.map Branch.expr).length =
        entries .exprEntries ids.length := by
      rw [List.length_cons, List.length_map, listCost_call]
    refine (h.expr h.start rfl).seq fun r s₁ a₁ h₁ => ?_
    refine (h.exprs_runs h₁ hids rfl rfl hcost).seq
      fun slice s₂ a₂ ⟨ids', h₂, hids', hsame⟩ => Runs.pure ?_
    refine ⟨_, h₂, view?_call.2 ⟨ids', hids', rfl, rfl⟩, fun heq => ?_, rfl⟩
    rw [hsame heq, Branch.expr.inj (List.cons.inj heq).1]
  | attempt body handlers =>
    obtain ⟨hs, hhs, rfl, rfl⟩ := view?_attempt.1 hview
    have hcost : Label.attempt.listCost (Branch.expr body :: hs.map Branch.handler).length =
        entries .handlers hs.length := by
      rw [List.length_cons, List.length_map, listCost_attempt]
    refine (h.expr h.start rfl).seq fun r s₁ a₁ h₁ => ?_
    refine (h.handlers_runs h₁ hhs rfl rfl hcost).seq
      fun slice s₂ a₂ ⟨hs', h₂, hhs', hsame⟩ => Runs.pure ?_
    refine ⟨_, h₂, view?_attempt.2 ⟨hs', hhs', rfl, rfl⟩, fun heq => ?_, rfl⟩
    rw [hsame heq, Branch.expr.inj (List.cons.inj heq).1]
  | constant c =>
    obtain ⟨v, hv, rfl, rfl⟩ := view?_constant.1 hview
    exact Runs.pure ⟨[], h.keep h.start, hview, fun _ => rfl, rfl⟩
  | cellList vars =>
    obtain ⟨vs, hvs, rfl, rfl⟩ := view?_cellList.1 hview
    exact Runs.pure ⟨[], h.keep h.start, hview, fun _ => rfl, rfl⟩

end Descent

/-- The branches of a handler are visited, and it catches what it did. -/
theorem descendHandler_runs {h : Handler} (hstart : I [] [] s a)
    (hexpr : ∀ {done rest answers id s' a'}, I done answers s' a' →
      h.exprs.map .expr = done ++ .expr id :: rest →
      Runs (visit id) s' a' (fun r => I (done ++ [.expr id]) (answers ++ [.expr r])) bad) :
    Runs (descendHandler visit h) s a
      (fun h' s' a' => I (h.exprs.map .expr) (h'.exprs.map .expr) s' a' ∧ h'.caught = h.caught ∧
        (h'.exprs = h.exprs → h' = h)) bad := by
  obtain ⟨caught, body, filter⟩ := h
  refine (hexpr hstart rfl).seq fun body' s₁ a₁ h₁ => ?_
  cases filter with
  | none =>
    exact Runs.bind (Runs.pure (Runs.pure ⟨h₁, rfl, fun heq => by cases heq; rfl⟩))
  | some filter =>
    refine Runs.bind (Runs.map ((hexpr h₁ rfl).imp fun filter' s₂ a₂ h₂ => Runs.pure ?_))
    exact ⟨h₂, rfl, fun heq => by cases heq; rfl⟩

end

end Quotation
