import Quotation.Pass.Rules
import Quotation.Proofs.Capture.Run
import Mathlib.Data.List.Forall2

/-!
# What a step of a pass yields

`Yields w x post` says of a step `x` of a pass that it declares no variable, and that its answer
satisfies `post` in the arena that it leaves, wherever the arena has grown from `w`. Nothing is said
of a step that does not succeed. There is one rule for each operation. What was known of `w` or an
arena between two steps is still known after them, since arenas grow.
-/

namespace Quotation

variable {σ α β : Type}

def Yields (w : Arena) (x : PassM σ α) (post : Arena → α → Prop) : Prop :=
  ∀ s a, w.Grows a → Runs x s a (fun r _ a' => a.Grows a' ∧ post a' r) fun _ => True

namespace Yields

variable {w : Arena} {x : PassM σ α} {post post' : Arena → α → Prop}

/-! ## The monad -/

theorem imp (h : Yields w x post) (hpost : ∀ a r, w.Grows a → post a r → post' a r) :
    Yields w x post' := by
  intro s a ha
  refine (h s a ha).mono (fun r _ a' hr => ?_) fun _ _ => trivial
  exact ⟨hr.1, hpost a' r (ha.trans hr.1) hr.2⟩

theorem later {w' : Arena} (h : Yields w x post) (hw : w.Grows w') : Yields w' x post :=
  fun s a ha => h s a (hw.trans ha)

theorem pure {r : α} (h : ∀ a, w.Grows a → post a r) : Yields w (pure r : PassM σ α) post :=
  fun _ a ha => Runs.pure ⟨.refl a, h a ha⟩

theorem bind {k : α → PassM σ β} {post' : Arena → β → Prop} (hx : Yields w x post)
    (hk : ∀ r w', w.Grows w' → post w' r → Yields w' (k r) post') : Yields w (x >>= k) post' := by
  intro s a ha
  refine Runs.bind ((hx s a ha).mono (fun r s' a' hr => ?_) fun _ _ => trivial)
  have hrest := hk r a' (ha.trans hr.1) hr.2 s' a' (.refl a')
  exact hrest.mono (fun _ _ _ h => ⟨hr.1.trans h.1, h.2⟩) fun _ h => h

theorem fault {f : Fault} : Yields w (throw f : PassM σ α) post :=
  fun _ _ _ => Runs.fault trivial

theorem get : Yields w (MonadState.get : PassM σ σ) fun _ _ => True :=
  fun _ a _ => Runs.get ⟨.refl a, trivial⟩

theorem modify {g : σ → σ} : Yields w (modify g : PassM σ Unit) fun _ _ => True :=
  fun _ a _ => Runs.modify ⟨.refl a, trivial⟩

theorem ofExcept {y : Except Fault α} : Yields w (liftM y : PassM σ α) fun _ r => y = .ok r := by
  intro s a _
  refine Runs.ofExcept ?_
  cases y with
  | ok r => exact ⟨.refl a, rfl⟩
  | error f => trivial

/-- The answers stand in `R` to the elements, in order. -/
theorem mapM {act : α → PassM σ β} {R : Arena → α → β → Prop} {xs : List α}
    (hgrows : ∀ (a b : Arena) (x : α) (y : β), a.Grows b → R a x y → R b x y)
    (h : ∀ x ∈ xs, Yields w (act x) fun a y => R a x y) :
    Yields w (xs.mapM act) fun a ys => List.Forall₂ (R a) xs ys := by
  induction xs generalizing w with
  | nil => exact .pure fun _ _ => .nil
  | cons x xs ih =>
    rw [List.mapM_cons]
    refine .bind (h x List.mem_cons_self) fun y w₁ h₁ hy => ?_
    refine .bind (ih fun z hz => (h z (List.mem_cons_of_mem x hz)).later h₁) fun ys w₂ h₂ hys => ?_
    refine .pure fun a ha => ?_
    exact .cons (hgrows _ _ _ _ (h₂.trans ha) hy) (hys.imp fun _ _ => hgrows _ _ _ _ ha)

/-! ## Reading -/

theorem arena : Yields w (getThe Arena : PassM σ Arena) fun _ _ => True :=
  fun _ a _ => Runs.arena ⟨.refl a, trivial⟩

theorem present {o : Option α} :
    Yields w (liftM (Builder.require o) : PassM σ α) fun _ _ => True := by
  cases o with
  | none => exact .fault
  | some v => exact .pure fun _ _ => trivial

theorem require {o : Arena → Option α} :
    Yields w (do Builder.require (o (← getThe Arena)) : PassM σ α) fun a v => o a = some v := by
  intro s a _
  refine Runs.bind (Runs.arena ?_)
  cases hv : o a with
  | none => trivial
  | some v => exact ⟨.refl a, hv⟩

theorem node {id : ExprId} :
    Yields w (liftM (Builder.node id) : PassM σ Node)
      fun a node => a.node? id = some node :=
  require

theorem exprs {s : Slice ExprId} :
    Yields w (liftM (Builder.exprs s) : PassM σ (List ExprId))
      fun a ids => a.exprs? s = some ids :=
  require

theorem handlers {s : Slice Handler} :
    Yields w (liftM (Builder.handlers s) : PassM σ (List Handler))
      fun a hs => a.handlers? s = some hs :=
  require

theorem vars {s : Slice VarId} :
    Yields w (liftM (Builder.vars s) : PassM σ (List VarId))
      fun a vs => a.vars? s = some vs :=
  require

/-! ## Adding -/

theorem add {kind : Kind} {span : Span} :
    Yields w (liftM (Builder.add kind span) : PassM σ ExprId)
      fun a id => a.node? id = some ⟨kind, span⟩ := by
  intro s a _
  refine Runs.add ⟨⟨.push _ _, .refl _, .refl _, .refl _, rfl⟩, ?_⟩ fun _ => trivial
  simp [Arena.node?]

theorem addExprs {ids : List ExprId} :
    Yields w (liftM (Builder.addExprs ids) : PassM σ (Slice ExprId))
      fun a s => a.exprs? s = some ids := by
  intro s a _
  refine Runs.addExprs ⟨⟨.refl _, .append _ _, .refl _, .refl _, rfl⟩, ?_⟩
    (fun _ => trivial) fun _ => trivial
  exact Slice.read?_append _ _

theorem addHandlers {hs : List Handler} :
    Yields w (liftM (Builder.addHandlers hs) : PassM σ (Slice Handler))
      fun a s => a.handlers? s = some hs := by
  intro s a _
  refine Runs.addHandlers ⟨⟨.refl _, .refl _, .refl _, .append _ _, rfl⟩, ?_⟩
    (fun _ => trivial) fun _ => trivial
  exact Slice.read?_append _ _

theorem addVars {vs : List VarId} :
    Yields w (liftM (Builder.addVars vs) : PassM σ (Slice VarId))
      fun a s => a.vars? s = some vs := by
  intro s a _
  refine Runs.addVars ⟨⟨.refl _, .refl _, .append _ _, .refl _, rfl⟩, ?_⟩
    (fun _ => trivial) fun _ => trivial
  exact Slice.read?_append _ _

/-! ## What has been yielded -/

theorem of_ok {s s' : σ} {a a' : Arena} {r : α} (h : Yields a x post)
    (hx : x s a = .ok ((r, s'), a')) : a.Grows a' ∧ post a' r :=
  (h s a (.refl a)).of_ok hx

end Yields

end Quotation
