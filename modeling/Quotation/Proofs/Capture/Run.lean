import Quotation.Capture.Quote
import Quotation.Proofs.Growth

/-!
# Runs of a pass

`Runs x s a post bad` says what comes of running a step `x` of a pass from the state `s` and the
arena `a`: `post` of an answer, with the state and the arena after it, and `bad` of a fault. There
is one rule for each operation. The rules of the operations that add to a table ask for `bad` only
of the fault that the table is full, or the list too long.
-/

namespace Quotation

variable {σ α β : Type}

/-- What comes of running `x`: an answer with `post`, or a fault with `bad`. -/
def Runs (x : PassM σ α) (s : σ) (a : Arena) (post : α → σ → Arena → Prop)
    (bad : Fault → Prop) : Prop :=
  match x s a with
  | .ok ((r, s'), a') => post r s' a'
  | .error f => bad f

/-- A pass has more levels than there are nodes. -/
theorem Pass.size_lt_levels (a : Arena) : a.size < levels a := by
  have hpos : 0 < indexLimit := by simp [indexLimit, UInt32.size]
  unfold levels
  omega

namespace Runs

variable {x : PassM σ α} {s : σ} {a : Arena} {post post' : α → σ → Arena → Prop}
  {bad bad' : Fault → Prop}

/-! ## The monad -/

theorem pure {r : α} (h : post r s a) : Runs (Pure.pure r) s a post bad := h

theorem bind {k : α → PassM σ β} {post : β → σ → Arena → Prop}
    (h : Runs x s a (fun r s' a' => Runs (k r) s' a' post bad) bad) :
    Runs (x >>= k) s a post bad := by
  have hrun : (x >>= k) s a = (x s a).bind fun r => k r.1.1 r.1.2 r.2 := rfl
  unfold Runs at h ⊢
  rw [hrun]
  cases hx : x s a <;> rw [hx] at h <;> exact h

theorem cases (h : Runs x s a post bad) :
    (∃ r s' a', x s a = .ok ((r, s'), a') ∧ post r s' a') ∨ ∃ f, x s a = .error f ∧ bad f := by
  unfold Runs at h
  split at h
  · exact .inl ⟨_, _, _, by assumption, h⟩
  · exact .inr ⟨_, by assumption, h⟩

theorem of_ok {r : α} {s' : σ} {a' : Arena} (h : Runs x s a post bad)
    (hx : x s a = .ok ((r, s'), a')) : post r s' a' := by
  unfold Runs at h
  rwa [hx] at h

theorem mono (h : Runs x s a post bad) (hpost : ∀ r s' a', post r s' a' → post' r s' a')
    (hbad : ∀ f, bad f → bad' f) : Runs x s a post' bad' := by
  unfold Runs at h ⊢
  split at h
  · exact hpost _ _ _ h
  · exact hbad _ h

theorem imp (h : Runs x s a post bad) (hpost : ∀ r s' a', post r s' a' → post' r s' a') :
    Runs x s a post' bad :=
  h.mono hpost fun _ hf => hf

/-- What follows is owed only for the answers that the first step can give. -/
theorem seq {k : α → PassM σ β} {next : β → σ → Arena → Prop} (h : Runs x s a post bad)
    (hk : ∀ r s' a', post r s' a' → Runs (k r) s' a' next bad) : Runs (x >>= k) s a next bad :=
  bind (h.imp hk)

theorem and (h : Runs x s a post bad) (h' : Runs x s a post' bad') :
    Runs x s a (fun r s' a' => post r s' a' ∧ post' r s' a') fun f => bad f ∧ bad' f := by
  unfold Runs at h h' ⊢
  cases hx : x s a <;> rw [hx] at h h' <;> exact ⟨h, h'⟩

theorem map {g : α → β} {post : β → σ → Arena → Prop}
    (h : Runs x s a (fun r => post (g r)) bad) : Runs (g <$> x) s a post bad := by
  rw [map_eq_pure_bind]
  exact bind h

theorem fault {f : Fault} (h : bad f) : Runs (throw f : PassM σ α) s a post bad := h

theorem get {post : σ → σ → Arena → Prop} (h : post s s a) :
    Runs (MonadState.get : PassM σ σ) s a post bad := h

theorem arena {post : Arena → σ → Arena → Prop} (h : post a s a) :
    Runs (getThe Arena : PassM σ Arena) s a post bad := h

theorem modify {g : σ → σ} {post : Unit → σ → Arena → Prop} (h : post () (g s) a) :
    Runs (modify g : PassM σ Unit) s a post bad := h

theorem lift {y : Builder α} (h : match y a with
      | .ok (r, a') => post r s a'
      | .error f => bad f) :
    Runs (liftM y) s a post bad := by
  have hrun : (liftM y : PassM σ α) s a = (y a).bind fun r => .ok ((r.1, s), r.2) := rfl
  unfold Runs
  rw [hrun]
  cases hy : y a <;> rw [hy] at h <;> exact h

theorem ofExcept {y : Except Fault α} (h : match y with
      | .ok r => post r s a
      | .error f => bad f) :
    Runs (liftM y) s a post bad := by
  have hrun : (liftM y : PassM σ α) s a = y.bind fun r => .ok ((r, s), a) := by cases y <;> rfl
  unfold Runs
  rw [hrun]
  cases y <;> exact h

/-- A run goes down as many levels as there are in the arena where it begins. -/
theorem run {p : Pass σ} {root : ExprId} {post : ExprId → σ → Arena → Prop}
    (h : Runs (p.runWithin (Pass.levels a) root) s a post bad) :
    Runs (p.run root) s a post bad :=
  bind (arena h)

/-! ## Reading -/

theorem require {r : Option α} {v : α} (hr : r = some v) (h : post v s a) :
    Runs (liftM (Builder.require r)) s a post bad := by
  subst hr
  exact h

theorem node {id : ExprId} {n : Node} {post : Node → σ → Arena → Prop} (hn : a.node? id = some n)
    (h : post n s a) : Runs (liftM (Builder.node id)) s a post bad := by
  show Runs (liftM (Builder.require (a.node? id))) s a post bad
  exact require hn h

theorem exprs {sl : Slice ExprId} {l : List ExprId} {post : List ExprId → σ → Arena → Prop}
    (hl : a.exprs? sl = some l) (h : post l s a) :
    Runs (liftM (Builder.exprs sl)) s a post bad := by
  show Runs (liftM (Builder.require (a.exprs? sl))) s a post bad
  exact require hl h

theorem vars {sl : Slice VarId} {l : List VarId} {post : List VarId → σ → Arena → Prop}
    (hl : a.vars? sl = some l) (h : post l s a) :
    Runs (liftM (Builder.vars sl)) s a post bad := by
  show Runs (liftM (Builder.require (a.vars? sl))) s a post bad
  exact require hl h

theorem handlers {sl : Slice Handler} {l : List Handler}
    {post : List Handler → σ → Arena → Prop} (hl : a.handlers? sl = some l) (h : post l s a) :
    Runs (liftM (Builder.handlers sl)) s a post bad := by
  show Runs (liftM (Builder.require (a.handlers? sl))) s a post bad
  exact require hl h

/-! ## Adding -/

theorem add {kind : Kind} {span : Span} {post : ExprId → σ → Arena → Prop}
    (h : post ⟨a.nodes.size⟩ s { a with nodes := a.nodes.push ⟨kind, span⟩ })
    (hfull : indexLimit ≤ a.nodes.size → bad (.tableFull .expressions a.nodes.size)) :
    Runs (liftM (Builder.add kind span)) s a post bad := by
  refine lift ?_
  rw [Builder.add_eq]
  by_cases hlt : a.nodes.size < indexLimit
  · rw [if_pos hlt]
    exact h
  · rw [if_neg hlt]
    exact hfull (Nat.le_of_not_lt hlt)

/-- Storing a list fails only if the table is full or the list too long for a slice. -/
theorem store {y : Builder (Slice β)} {table : Table} {list : ListKind} {size length : Nat}
    {a' : Arena} {post : Slice β → σ → Arena → Prop}
    (hy : y a = (nextSlice table list size length).bind fun slice => .ok (slice, a'))
    (h : post ⟨size, length⟩ s a') (hfull : indexLimit ≤ size → bad (.tableFull table size))
    (hlong : sliceLimit ≤ length → bad (.listTooLong list length)) :
    Runs (liftM y) s a post bad := by
  refine lift ?_
  rw [hy, nextSlice_eq]
  by_cases hsize : size < indexLimit
  · by_cases hlength : length < sliceLimit
    · rw [if_pos hsize, if_pos hlength]
      exact h
    · rw [if_pos hsize, if_neg hlength]
      exact hlong (Nat.le_of_not_lt hlength)
  · rw [if_neg hsize]
    exact hfull (Nat.le_of_not_lt hsize)

theorem addExprs {l : List ExprId} {post : Slice ExprId → σ → Arena → Prop}
    (h : post ⟨a.exprEntries.size, l.length⟩ s { a with exprEntries := a.exprEntries ++ l })
    (hfull : indexLimit ≤ a.exprEntries.size → bad (.tableFull .exprEntries a.exprEntries.size))
    (hlong : sliceLimit ≤ l.length → bad (.listTooLong .exprs l.length)) :
    Runs (liftM (Builder.addExprs l)) s a post bad :=
  store rfl h hfull hlong

theorem addVars {l : List VarId} {post : Slice VarId → σ → Arena → Prop}
    (h : post ⟨a.varEntries.size, l.length⟩ s { a with varEntries := a.varEntries ++ l })
    (hfull : indexLimit ≤ a.varEntries.size → bad (.tableFull .varEntries a.varEntries.size))
    (hlong : sliceLimit ≤ l.length → bad (.listTooLong .vars l.length)) :
    Runs (liftM (Builder.addVars l)) s a post bad :=
  store rfl h hfull hlong

theorem addHandlers {l : List Handler} {post : Slice Handler → σ → Arena → Prop}
    (h : post ⟨a.handlerEntries.size, l.length⟩ s
      { a with handlerEntries := a.handlerEntries ++ l })
    (hfull : indexLimit ≤ a.handlerEntries.size → bad (.tableFull .handlers a.handlerEntries.size))
    (hlong : sliceLimit ≤ l.length → bad (.listTooLong .handlers l.length)) :
    Runs (liftM (Builder.addHandlers l)) s a post bad :=
  store rfl h hfull hlong

/-! ## Constants -/

theorem pushConstant {v : Value} {s : Quoting} {post : ConstantId → Quoting → Arena → Prop}
    (h : post ⟨s.pool.values.size⟩
      { s with pool := { s.pool with values := s.pool.values.push v } } a)
    (hfull : indexLimit ≤ s.pool.values.size → bad (.tableFull .constants s.pool.values.size)) :
    Runs (QuoteM.pushConstant v) s a post bad := by
  refine bind (get (bind (ofExcept ?_)))
  unfold Pool.push
  by_cases hlt : s.pool.values.size < indexLimit
  · rw [if_pos hlt]
    exact bind (modify (pure h))
  · rw [if_neg hlt]
    exact hfull (Nat.le_of_not_lt hlt)

theorem newStamp {s : Quoting} {post : Stamp → Quoting → Arena → Prop}
    (h : post s.nextStamp { s with nextStamp := s.nextStamp + 1 } a) :
    Runs QuoteM.newStamp s a post bad := h

/-- A trace fails only for want of a name. -/
theorem traceCapture [Tracing] {v : VarId} {s : Quoting} {post : Unit → Quoting → Arena → Prop}
    (h : post () s a) (hunnamed : a.name? v = none → bad .outOfBounds) :
    Runs (Quotation.traceCapture v) s a post bad := by
  unfold Quotation.traceCapture
  split
  · refine bind (arena (bind ?_))
    cases hname : a.name? v with
    | none => exact fault (hunnamed hname)
    | some name => exact require rfl (pure h)
  · exact pure h

end Runs

end Quotation
