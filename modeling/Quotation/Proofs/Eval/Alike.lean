import Quotation.Proofs.Eval.Likeness

/-!
# Evaluations that end alike

`Likeness.Alike` says that two evaluations, each in its environment and both so many calls deep, end
alike wherever they start from corresponding heaps: both with what corresponds or with the same
fault, unless one of them was `.endless`. The rules are the steps that the two sides take together.
Scopes and calls give new cells to the same variables on both sides, so what is evaluated in them is
evaluated alike again.
-/

namespace Quotation

open EvalM

namespace Likeness

/-! ## Ending alike -/

section
variable {p : Program} (l : Likeness p)

/-- Both evaluations end with what corresponds under a renaming that has grown from `r`, or with the
same fault. Unless all faults are to correspond, one of them may also be `.endless`. -/
inductive Ends (r : Renaming l.base) (env env' : Environment) (depth : Nat) {α β : Type}
    (post : Renaming l.base → α → β → Prop) :
    EStateM.Result Stop Machine α → EStateM.Result Stop Machine β → Prop where
  | ok {r' : Renaming l.base} {v : α} {w : β} {h h' : Heap} (grows : r.Grows r')
    (heaps : l.Heaps r' h h') (value : post r' v w) :
    Ends r env env' depth post (.ok v ⟨h, env, depth⟩) (.ok w ⟨h', env', depth⟩)
  | error {r' : Renaming l.base} {e e' : EvalError} {h h' : Heap} (grows : r.Grows r')
    (heaps : l.Heaps r' h h') (error : l.Errors r' e e') :
    Ends r env env' depth post (.error (.error e) ⟨h, env, depth⟩)
      (.error (.error e') ⟨h', env', depth⟩)
  | fault {f : Fault} {m m' : Machine} :
    Ends r env env' depth post (.error (.fault f) m) (.error (.fault f) m')
  | left {m : Machine} {result : EStateM.Result Stop Machine β} (loose : ¬l.exact) :
    Ends r env env' depth post (.error (.fault .endless) m) result
  | right {m : Machine} {result : EStateM.Result Stop Machine α} (loose : ¬l.exact) :
    Ends r env env' depth post result (.error (.fault .endless) m)

/-- From corresponding heaps, in these environments, so many calls deep, `x` and `y` end alike. -/
def Alike (r : Renaming l.base) (env env' : Environment) (depth : Nat) {α β : Type} (x : EvalM α)
    (y : EvalM β) (post : Renaming l.base → α → β → Prop) : Prop :=
  ∀ r', r.Grows r' → ∀ h h', l.Heaps r' h h' →
    l.Ends r' env env' depth post (x ⟨h, env, depth⟩) (y ⟨h', env', depth⟩)

end

section
variable {p : Program} {l : Likeness p} {r r' : Renaming l.base} {env env' : Environment}
  {depth : Nat} {α β γ δ : Type} {post : Renaming l.base → α → β → Prop}
  {post' : Renaming l.base → γ → δ → Prop}

namespace Ends

variable {a : EStateM.Result Stop Machine α} {b : EStateM.Result Stop Machine β}

theorem cases (h : l.Ends r env env' depth post a b) :
    (∃ r' v w h h', r.Grows r' ∧ l.Heaps r' h h' ∧ post r' v w ∧ a = .ok v ⟨h, env, depth⟩ ∧
      b = .ok w ⟨h', env', depth⟩) ∨
    (∃ r' e e' h h', r.Grows r' ∧ l.Heaps r' h h' ∧ l.Errors r' e e' ∧
      a = .error (.error e) ⟨h, env, depth⟩ ∧ b = .error (.error e') ⟨h', env', depth⟩) ∨
    (∃ f m m', a = .error (.fault f) m ∧ b = .error (.fault f) m') ∨
    ¬l.exact ∧
      ((∃ m, a = .error (.fault .endless) m) ∨ ∃ m, b = .error (.fault .endless) m) := by
  cases h with
  | ok grows heaps value => exact .inl ⟨_, _, _, _, _, grows, heaps, value, rfl, rfl⟩
  | error grows heaps error => exact .inr (.inl ⟨_, _, _, _, _, grows, heaps, error, rfl, rfl⟩)
  | fault => exact .inr (.inr (.inl ⟨_, _, _, rfl, rfl⟩))
  | left loose => exact .inr (.inr (.inr ⟨loose, .inl ⟨_, rfl⟩⟩))
  | right loose => exact .inr (.inr (.inr ⟨loose, .inr ⟨_, rfl⟩⟩))

theorem of_grows (hr : r.Grows r') (h : l.Ends r' env env' depth post a b) :
    l.Ends r env env' depth post a b := by
  cases h with
  | ok grows heaps value => exact .ok (hr.trans grows) heaps value
  | error grows heaps error => exact .error (hr.trans grows) heaps error
  | fault => exact .fault
  | left loose => exact .left loose
  | right loose => exact .right loose

/-- What comes back to an environment on each side, after it has stayed in its own, ends alike. -/
theorem back {env₁ env₁' : Environment} {depth₁ : Nat} {a₁ : EStateM.Result Stop Machine α}
    {b₁ : EStateM.Result Stop Machine β} (h : l.Ends r env₁ env₁' depth₁ post a₁ b₁)
    (ha : StaysIn env₁ depth₁ a₁ → a = backIn env depth a₁)
    (hb : StaysIn env₁' depth₁ b₁ → b = backIn env' depth b₁) :
    l.Ends r env env' depth post a b := by
  cases h with
  | ok grows heaps value =>
    rw [ha ⟨rfl, rfl⟩, hb ⟨rfl, rfl⟩]
    exact .ok grows heaps value
  | error grows heaps error =>
    rw [ha ⟨rfl, rfl⟩, hb ⟨rfl, rfl⟩]
    exact .error grows heaps error
  | fault =>
    rw [ha trivial, hb trivial]
    exact .fault
  | left loose =>
    rw [ha trivial]
    exact .left loose
  | right loose =>
    rw [hb trivial]
    exact .right loose

end Ends

/-! ## Rules -/

namespace Alike

theorem grows {x : EvalM α} {y : EvalM β} (h : l.Alike r env env' depth x y post)
    (hr : r.Grows r') : l.Alike r' env env' depth x y post :=
  fun r'' hr' => h r'' (hr.trans hr')

theorem pure {v : α} {w : β} (hv : ∀ r', r.Grows r' → post r' v w) :
    l.Alike r env env' depth (pure v) (pure w) post :=
  fun r' hr _ _ hh => .ok (.refl r') hh (hv r' hr)

theorem fail {e e' : EvalError} (he : l.Errors r e e') :
    l.Alike r env env' depth (fail e) (fail e') post :=
  fun r' hr _ _ hh => .error (.refl r') hh (he.grows hr)

theorem bind {x : EvalM α} {y : EvalM β} {f : α → EvalM γ} {g : β → EvalM δ}
    (hx : l.Alike r env env' depth x y post)
    (hf : ∀ r', r.Grows r' → ∀ v w, post r' v w → l.Alike r' env env' depth (f v) (g w) post') :
    l.Alike r env env' depth (x >>= f) (y >>= g) post' := by
  intro r₁ hr₁ h h' hh
  rcases (hx r₁ hr₁ h h' hh).cases with ⟨r₂, v, w, h₂, h₂', hr₂, hh₂, hv, hx, hy⟩ |
    ⟨r₂, e, e', h₂, h₂', hr₂, hh₂, he, hx, hy⟩ | ⟨fault, m, m', hx, hy⟩ |
    ⟨hloose, ⟨m, hx⟩ | ⟨m', hy⟩⟩
  · rw [bind_ok hx, bind_ok hy]
    exact (hf r₂ (hr₁.trans hr₂) v w hv r₂ (.refl r₂) h₂ h₂' hh₂).of_grows hr₂
  · rw [bind_error hx, bind_error hy]
    exact .error hr₂ hh₂ he
  · rw [bind_error hx, bind_error hy]
    exact .fault
  · rw [bind_error hx]
    exact .left hloose
  · rw [bind_error hy]
    exact .right hloose

theorem require {R : α → β → Prop} {o : Option α} {o' : Option β} (h : Option.Rel R o o') :
    l.Alike r env env' depth (require o) (require o') fun _ => R := by
  cases h with
  | some h => exact .pure fun _ _ => h
  | none => exact fun _ _ _ _ _ => .fault

theorem read (c : Cell) : l.Alike r env env' depth (readCell c) (readCell c) l.Values :=
  fun r' _ _ _ hh => .ok (.refl r') hh (hh.read c)

theorem write (c : Cell) {v w : Value} (hv : l.Values r v w) :
    l.Alike r env env' depth (writeCell c v) (writeCell c w) fun _ _ _ => True :=
  fun r' hr _ _ hh => .ok (.refl r') (hh.write (hv.grows hr) c) trivial

/-- Both sides give a stamp, and the one corresponds to the other. -/
theorem stamp : l.Alike r env env' depth newStamp newStamp fun r' s t =>
    s < r'.left ∧ r'.map s = t ∧ l.base ≤ t := by
  intro r' hr h h' hh
  have hgrows : r'.Grows (r'.next r'.right (r'.right + 1) (Nat.le_succ _) (Nat.lt_succ_self _)
    fun _ => Nat.le_refl _) := Renaming.grows_next
  refine .ok (v := h.nextStamp) (w := h'.nextStamp) hgrows (hh.stamped hgrows ?_ ?_) ?_
  · rw [hh.left]
    rfl
  · rw [hh.right]
    rfl
  · rw [hh.left, hh.right]
    exact ⟨Nat.lt_succ_self _, Renaming.next_map, r'.base_le_right⟩

theorem mapM {R : α → β → Prop} {f : α → EvalM γ} {g : β → EvalM δ} {xs : List α} {ys : List β}
    (h : List.Forall₂ R xs ys)
    (hpost : ∀ {r r'}, r.Grows r' → ∀ v w, post' r v w → post' r' v w)
    (hf : ∀ x y, R x y → l.Alike r env env' depth (f x) (g y) post') :
    l.Alike r env env' depth (xs.mapM f) (ys.mapM g) fun r' => List.Forall₂ (post' r') := by
  induction h with
  | nil => exact .pure fun _ _ => .nil
  | cons hxy _ ih =>
    rw [List.mapM_cons, List.mapM_cons]
    refine .bind (hf _ _ hxy) fun r₁ hr₁ v w hv => .bind (ih.grows hr₁) fun r₂ hr₂ vs ws hvs => ?_
    exact .pure fun r' hr => .cons (hpost (hr₂.trans hr) v w hv) (hvs.imp (hpost hr))

/-- A scope that defines the same variables on both sides gives them the same new cells. -/
theorem scope {ι : Type} (var : ι → VarId) {val val' : ι → Value} {xs : List ι} {x : EvalM α}
    {y : EvalM β} (hval : ∀ i, l.Values r (val i) (val' i))
    (hx : ∀ next, l.Alike r (env.push.bindFrom next (xs.map var))
      (env'.push.bindFrom next (xs.map var)) depth x y post) :
    l.Alike r env env' depth
      (withScope do xs.forM fun i => define (var i) (val i); x)
      (withScope do xs.forM fun i => define (var i) (val' i); y) post := by
  intro r' hr h h' hh
  have hvals : List.Forall₂ (l.Values r') (xs.map val) (xs.map val') :=
    List.forall₂_map_left_iff.2 (List.forall₂_map_right_iff.2
      (List.forall₂_same.2 fun i _ => (hval i).grows hr))
  have hends := hx h.cells.size r' hr _ _ (hh.append hvals)
  rw [← hh.size] at hends
  refine hends.back (fun hstays => ?_) fun hstays => ?_
  · rw [hh.size] at hstays ⊢
    exact withScope_define h env depth var val xs hstays
  · exact withScope_define h' env' depth var val' xs hstays

/-- Functions of the same name and parameters are called alike if their bodies are evaluated
alike. -/
theorem call (hlimit : p.maxCallDepth < UInt64.size) {ev ev' : ExprId → EvalM Value} {f g : Closure}
    {args args' : List Value} (hname : g.name = f.name) (hparams : g.params = f.params)
    (hargs : List.Forall₂ (l.Values r) args args')
    (hbody : depth < p.maxCallDepth → ∀ next, l.Alike r (f.bodyEnv next) (g.bodyEnv next)
      (depth + 1) (ev f.body) (ev' g.body) l.Values) :
    l.Alike r env env' depth (callFunction p ev f args) (callFunction p ev' g args') l.Values := by
  intro r' hr h h' hh
  have hcount := hargs.length_eq
  by_cases hlen : args.length = f.params.length
  · by_cases hdepth : depth < p.maxCallDepth
    · have hlen' : args'.length = g.params.length := by rw [← hcount, hlen, hparams]
      have htraced := Program.tracedName?_congr (p := p) hname
      cases hread : p.tracedName? f with
      | none =>
        rw [callFunction_undeclared h env depth ev hlen hdepth hread,
          callFunction_undeclared h' env' depth ev' hlen' hdepth (htraced.trans hread)]
        exact .fault
      | some shown =>
        have hshown : (p.tracedName? f).isSome := hread ▸ rfl
        have hends := hbody hdepth h.cells.size r' hr _ _
          (hh.append (hargs.imp fun _ _ hv => hv.grows hr))
        refine hends.back (fun hstays => ?_) fun hstays => ?_
        · exact callFunction_eq h env depth hlimit ev hlen hdepth hshown hstays
        · rw [← hh.size] at hstays ⊢
          exact callFunction_eq h' env' depth hlimit ev' hlen' hdepth (htraced ▸ hshown) hstays
    · have hdeep := Nat.le_of_not_lt hdepth
      rw [callFunction_deep h env depth ev hlen hdeep,
        callFunction_deep h' env' depth ev' (by rw [← hcount, hlen, hparams]) hdeep]
      exact .error (.refl r') hh (.same nofun)
  · rw [callFunction_arity ev hlen, callFunction_arity ev' (by rwa [← hcount, hparams]), hparams,
      ← hcount]
    exact .error (.refl r') hh (.same nofun)

end Alike

end

end Likeness

end Quotation
