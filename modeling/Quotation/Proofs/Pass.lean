import Quotation.Pass.Rules
import Quotation.Proofs.Build
import Quotation.Proofs.Capture.Run

/-!
# What a pass leaves behind

`Keeps d w x post` says of a step `x` of a pass that it only adds to the arenas that have grown from
`w`, and meets the demand `d`: that it ends, or also that it builds in order. Its rules have the
arena that was there before a step as an arena that the present one has grown from, so that whatever
was known of the former still is. A walk keeps what its hooks keep (`Pass.Follows.run_keeps`), by
induction on the levels: it visits nodes of the arena in which it has begun, where children come
before their parents, so the index of a node is as many levels as it takes.
-/

namespace Quotation

variable {σ α β : Type}

/-! ## Demands -/

/-- What a pass relies on in its state, which may speak of nodes that are there. -/
structure Invariant (σ : Type) where
  holds : σ → Arena → Prop
  grows : ∀ {s : σ} {a b : Arena}, a.PartOf b → holds s a → holds s b

/-- Nothing is relied on. -/
def Invariant.trivial : Invariant σ := ⟨fun _ _ => True, fun _ h => h⟩

/-- What is asked of the steps of a pass, besides that they only add to the arena. -/
structure Demand (σ : Type) where
  state : Invariant σ
  /-- They do not run out of levels. -/
  ends : Prop
  /-- They build on an ordered arena in order, and answer with nodes that are there. -/
  orders : Prop
  ends_of_orders : orders → ends

namespace Demand

/-- Nothing more is asked. -/
def growth (P : Invariant σ) : Demand σ := ⟨P, False, False, id⟩

def ending (P : Invariant σ) : Demand σ := ⟨P, True, False, False.elim⟩

def order (P : Invariant σ) : Demand σ := ⟨P, True, True, id⟩

end Demand

/-- In an arena that has grown from `w`, `x` only adds to the arena and meets the demand, and its
answer satisfies `post`. -/
def Keeps (d : Demand σ) (w : Arena) (x : PassM σ α) (post : Arena → α → Prop) : Prop :=
  ∀ s a, w.PartOf a → d.state.holds s a → (d.orders → a.Ordered) →
    Runs x s a
      (fun r s' a' =>
        a.PartOf a' ∧ d.state.holds s' a' ∧ (d.orders → a.BuildsTo a') ∧ post a' r)
      (fun f => d.ends → f ≠ .endless)

variable {d : Demand σ} {w : Arena}

namespace Keeps

variable {x : PassM σ α} {post post' : Arena → α → Prop}

/-! ## The monad -/

theorem imp (h : Keeps d w x post) (hpost : ∀ a r, w.PartOf a → post a r → post' a r) :
    Keeps d w x post' :=
  fun s a ha hs ho => (h s a ha hs ho).imp
    fun r _ a' ⟨hp, hs', hb, hr⟩ => ⟨hp, hs', hb, hpost a' r (ha.trans hp) hr⟩

theorem later {w' : Arena} (h : Keeps d w x post) (hw : w.PartOf w') : Keeps d w' x post :=
  fun s a ha => h s a (hw.trans ha)

theorem pure {r : α} (h : ∀ a, w.PartOf a → post a r) : Keeps d w (pure r) post :=
  fun _ a ha hs _ => Runs.pure ⟨.refl a, hs, fun _ => .refl a, h a ha⟩

theorem bind {k : α → PassM σ β} {post' : Arena → β → Prop} (hx : Keeps d w x post)
    (hk : ∀ r w', w.PartOf w' → post w' r → Keeps d w' (k r) post') :
    Keeps d w (x >>= k) post' := by
  intro s a ha hs ho
  refine (hx s a ha hs ho).seq fun r s' a' ⟨hp, hs', hb, hr⟩ => ?_
  have ho' : d.orders → a'.Ordered := fun o => (hb o).ordered (ho o)
  exact (hk r a' (ha.trans hp) hr s' a' (.refl a') hs' ho').imp
    fun r' s'' a'' ⟨hp', hs'', hb', hr'⟩ =>
      ⟨hp.trans hp', hs'', fun o => (hb o).trans (hb' o), hr'⟩

theorem map {g : α → β} {post' : Arena → β → Prop} (hx : Keeps d w x post)
    (hg : ∀ a r, w.PartOf a → post a r → post' a (g r)) : Keeps d w (g <$> x) post' :=
  fun s a ha hs ho => Runs.map ((hx s a ha hs ho).imp
    fun r _ a' ⟨hp, hs', hb, hr⟩ => ⟨hp, hs', hb, hg a' r (ha.trans hp) hr⟩)

theorem fault {f : Fault} (hf : f ≠ .endless) : Keeps d w (throw f : PassM σ α) post :=
  fun _ _ _ _ _ => Runs.fault fun _ => hf

theorem get : Keeps d w (MonadState.get : PassM σ σ) fun _ _ => True :=
  fun _ a _ hs _ => Runs.get ⟨.refl a, hs, fun _ => .refl a, trivial⟩

theorem modify {g : σ → σ} (hg : ∀ s a, d.state.holds s a → d.state.holds (g s) a) :
    Keeps d w (modify g : PassM σ Unit) fun _ _ => True :=
  fun s a _ hs _ => Runs.modify ⟨.refl a, hg s a hs, fun _ => .refl a, trivial⟩

theorem ofExcept {y : Except Fault α} (hend : y ≠ .error .endless) :
    Keeps d w (liftM y) fun _ _ => True := by
  refine fun s a _ hs _ => Runs.ofExcept ?_
  cases y with
  | ok r => exact ⟨.refl a, hs, fun _ => .refl a, trivial⟩
  | error f => exact fun _ hf => hend (hf ▸ rfl)

theorem mapM {act : α → PassM σ β} {post : Arena → β → Prop} {xs : List α}
    (hgrows : ∀ (a b : Arena) (r : β), a.PartOf b → post a r → post b r)
    (h : ∀ x ∈ xs, Keeps d w (act x) post) :
    Keeps d w (xs.mapM act) fun a ys => ∀ y ∈ ys, post a y := by
  induction xs generalizing w with
  | nil => exact .pure fun _ _ => by simp
  | cons x xs ih =>
    rw [List.mapM_cons]
    refine .bind (h x List.mem_cons_self) fun y w₁ h₁ hy => ?_
    refine .bind (ih fun z hz => (h z (List.mem_cons_of_mem x hz)).later h₁) fun ys w₂ h₂ hys => ?_
    exact .pure fun a ha => List.forall_mem_cons.2
      ⟨hgrows _ _ _ (h₂.trans ha) hy, fun z hz => hgrows _ _ _ ha (hys z hz)⟩

theorem foldlM {f : β → α → PassM σ β} {xs : List α} {y : β}
    (h : ∀ y, ∀ x ∈ xs, Keeps d w (f y x) fun _ _ => True) :
    Keeps d w (xs.foldlM f y) fun _ _ => True := by
  induction xs generalizing w y with
  | nil => exact .pure fun _ _ => trivial
  | cons x xs ih =>
    rw [List.foldlM_cons]
    exact .bind (h y x List.mem_cons_self) fun y' w₁ h₁ _ =>
      ih fun y z hz => (h y z (List.mem_cons_of_mem x hz)).later h₁

/-! ## Reading -/

theorem arena : Keeps d w (getThe Arena : PassM σ Arena) fun _ _ => True :=
  fun _ a _ hs _ => Runs.arena ⟨.refl a, hs, fun _ => .refl a, trivial⟩

theorem present {o : Option α} : Keeps d w (liftM (Builder.require o)) fun _ _ => True := by
  cases o with
  | none => exact .fault nofun
  | some v => exact .pure fun _ _ => trivial

theorem require {o : Arena → Option α} :
    Keeps d w (do Builder.require (o (← getThe Arena)))
      fun a v => o a = some v ∧ (d.orders → a.Ordered) := by
  intro s a _ hs ho
  refine Runs.bind (Runs.arena ?_)
  cases hv : o a with
  | none => exact fun _ => nofun
  | some v => exact ⟨.refl a, hs, fun _ => .refl a, hv, ho⟩

theorem node {id : ExprId} : Keeps d w (liftM (Builder.node id))
    fun a node => a.node? id = some node ∧ (d.orders → a.Ordered) :=
  require

theorem exprs {s : Slice ExprId} :
    Keeps d w (liftM (Builder.exprs s)) fun a ids => a.exprs? s = some ids :=
  require.imp fun _ _ _ h => h.1

theorem handlers {s : Slice Handler} :
    Keeps d w (liftM (Builder.handlers s)) fun a hs => a.handlers? s = some hs :=
  require.imp fun _ _ _ h => h.1

theorem vars {s : Slice VarId} :
    Keeps d w (liftM (Builder.vars s)) fun a vs => a.vars? s = some vs :=
  require.imp fun _ _ _ h => h.1

/-! ## Adding -/

theorem lift {y : Builder α} (hends : ∀ a, y a ≠ .error .endless)
    (hpart : ∀ a r a', y a = .ok (r, a') → a.PartOf a')
    (h : d.orders → ∀ a r a', w.PartOf a → y a = .ok (r, a') → a.BuildsTo a' ∧ post a' r) :
    Keeps d w (liftM y) fun a r => d.orders → post a r := by
  refine fun s a ha hs ho => Runs.lift ?_
  cases hy : y a with
  | ok r =>
    have hp := hpart a _ _ hy
    exact ⟨hp, d.state.grows hp hs, fun o => (h o a _ _ ha hy).1, fun o => (h o a _ _ ha hy).2⟩
  | error f => exact fun _ hf => hends a (hf ▸ hy)

theorem add {kind : Kind} {span : Span} (h : d.orders → ∀ r ∈ kind.references, w.Has r) :
    Keeps d w (liftM (Builder.add kind span)) fun a id => d.orders → a.Has (.expr id) := by
  refine .lift (fun _ => Builder.add_ends) (fun _ _ _ hy => (Builder.add_ok hy).1)
    fun o a id a' ha hy => ?_
  obtain ⟨-, hnode, hbuilds⟩ := Builder.add_ok hy
  exact ⟨hbuilds fun r hr => (h o r hr).grows ha, Arena.index_lt_of_node? hnode⟩

theorem addExprs {ids : List ExprId} (h : d.orders → ∀ c ∈ ids, w.Has (.expr c)) :
    Keeps d w (liftM (Builder.addExprs ids)) fun a s => d.orders → a.Has (.exprs s) := by
  refine .lift (fun _ => Builder.store_ends) (fun _ _ _ hy => (Builder.addExprs_ok hy).1)
    fun o a s a' ha hy => ?_
  obtain ⟨-, hs, hbuilds⟩ := Builder.addExprs_ok hy
  exact ⟨hbuilds fun c hc => (h o c hc).grows ha, Arena.has_exprs hs⟩

theorem addHandlers {hs : List Handler}
    (h : d.orders → ∀ x ∈ hs, ∀ c ∈ x.exprs, w.Has (.expr c)) :
    Keeps d w (liftM (Builder.addHandlers hs)) fun a s => d.orders → a.Has (.handlers s) := by
  refine .lift (fun _ => Builder.store_ends) (fun _ _ _ hy => (Builder.addHandlers_ok hy).1)
    fun o a s a' ha hy => ?_
  obtain ⟨-, hs', hbuilds⟩ := Builder.addHandlers_ok hy
  exact ⟨hbuilds fun x hx c hc => (h o x hx c hc).grows ha, Arena.has_handlers hs'⟩

theorem addVars {vs : List VarId} :
    Keeps d w (liftM (Builder.addVars vs)) fun _ _ => True :=
  imp (.lift (fun _ => Builder.store_ends) (fun _ _ _ hy => (Builder.addVars_ok hy).2.partOf)
    fun _ _ _ _ _ hy => ⟨(Builder.addVars_ok hy).2, trivial⟩) fun _ _ _ _ => trivial

/-! ## What has been kept -/

variable {s s' : σ} {a' : Arena} {r : α}

theorem of_ok (h : Keeps d w x post) (hs : d.state.holds s w) (ho : d.orders → w.Ordered)
    (hx : x s w = .ok ((r, s'), a')) :
    w.PartOf a' ∧ d.state.holds s' a' ∧ (d.orders → w.BuildsTo a') ∧ post a' r := by
  rcases (h s w (.refl w) hs ho).cases with ⟨r₁, s₁, a₁, hx₁, hkept⟩ | ⟨f, hx₁, -⟩
  · obtain ⟨⟨rfl, rfl⟩, rfl⟩ := by simpa using hx.symm.trans hx₁
    exact hkept
  · cases hx.symm.trans hx₁

theorem ne_endless (h : Keeps d w x post) (hs : d.state.holds s w) (ho : d.orders → w.Ordered)
    (hends : d.ends) : x s w ≠ .error .endless := by
  intro hx
  rcases (h s w (.refl w) hs ho).cases with ⟨r₁, s₁, a₁, hx₁, -⟩ | ⟨f, hx₁, hf⟩
  · cases hx.symm.trans hx₁
  · exact hf hends (Except.error.inj (hx₁.symm.trans hx))

end Keeps

/-! ## One level -/

/-- Nodes with indices below `n` are visited. -/
def VisitsBelow (d : Demand σ) (visit : ExprId → PassM σ ExprId) (n : Nat) (w : Arena) : Prop :=
  ∀ c, (d.ends → c.index < n) → Keeps d w (visit c) fun a r => d.orders → a.Has (.expr r)

/-- Handlers of nodes with indices below `n` are visited. -/
def HandlesBelow (d : Demand σ) (visitHandler : Handler → PassM σ Handler) (n : Nat)
    (w : Arena) : Prop :=
  ∀ h, (d.ends → ∀ c ∈ h.exprs, c.index < n) →
    Keeps d w (visitHandler h) fun a h' => d.orders → ∀ c ∈ h'.exprs, a.Has (.expr c)

section
variable {visit : ExprId → PassM σ ExprId} {visitHandler : Handler → PassM σ Handler} {n : Nat}

theorem VisitsBelow.later (h : VisitsBelow d visit n w) {w' : Arena} (hw : w.PartOf w') :
    VisitsBelow d visit n w' := fun c hc => (h c hc).later hw

theorem HandlesBelow.later (h : HandlesBelow d visitHandler n w) {w' : Arena}
    (hw : w.PartOf w') : HandlesBelow d visitHandler n w' := fun x hx => (h x hx).later hw

/-- A list is read, visited, and stored again if it has changed. -/
theorem relist_keeps [BEq β] {s : Slice β} {read : PassM σ (List β)} {act : β → PassM σ β}
    {store : List β → Builder (Slice β)} {ready : β → Prop} {done : Arena → β → Prop}
    {stored : Arena → Slice β → Prop}
    (hread : Keeps d w read fun _ xs => ∀ x ∈ xs, ready x)
    (hact : ∀ x, ready x → Keeps d w (act x) done)
    (hdone : ∀ (a b : Arena) (x : β), a.PartOf b → done a x → done b x)
    (hs : ∀ a, w.PartOf a → stored a s)
    (hstore : ∀ w' xs, (∀ x ∈ xs, done w' x) → Keeps d w' (liftM (store xs)) stored) :
    Keeps d w (do
      let before ← read
      let after ← before.mapM act
      if after == before then return s else liftM (store after)) stored := by
  refine .bind hread fun before w₁ h₁ hbefore => ?_
  refine .bind (.mapM hdone fun x hx => (hact x (hbefore x hx)).later h₁)
    fun after w₂ h₂ hafter => ?_
  split
  · exact .pure fun a ha => hs a (h₁.trans (h₂.trans ha))
  · exact hstore w₂ after hafter

theorem descendExprs_keeps (hv : VisitsBelow d visit n w) {s : Slice ExprId}
    (hn : d.ends → n ≤ w.size) (hs : d.ends → w.Below n (.exprs s)) :
    Keeps d w (descendExprs visit s) fun a s' => d.orders → a.Has (.exprs s') := by
  have hread : Keeps d w (liftM (Builder.exprs s)) fun _ ids => ∀ c ∈ ids, d.ends → c.index < n :=
    Keeps.exprs.imp fun a ids ha hids c hc e => by
      obtain ⟨ids', hids', hlt⟩ := (hs e).grows ha
      exact hlt c (Option.some.inj (hids.symm.trans hids') ▸ hc)
  exact relist_keeps hread hv (fun _ _ _ h hr o => (hr o).grows h)
    (fun _ ha o => ((hs (d.ends_of_orders o)).has (hn (d.ends_of_orders o))).grows ha)
    fun _ _ h => .addExprs fun o c hc => h c hc o

theorem descendHandlers_keeps (hvh : HandlesBelow d visitHandler n w) {s : Slice Handler}
    (hn : d.ends → n ≤ w.size) (hs : d.ends → w.Below n (.handlers s)) :
    Keeps d w (descendHandlers visitHandler s) fun a s' => d.orders → a.Has (.handlers s') := by
  have hread : Keeps d w (liftM (Builder.handlers s)) fun _ hs =>
      ∀ h ∈ hs, d.ends → ∀ c ∈ h.exprs, c.index < n :=
    Keeps.handlers.imp fun a l ha hl h hh e c hc => by
      obtain ⟨ids, hids, hlt⟩ := (hs e).grows ha
      obtain ⟨l', hl', rfl⟩ := Option.map_eq_some_iff.1 hids
      obtain rfl := Option.some.inj (hl.symm.trans hl')
      exact hlt c (List.mem_flatMap.2 ⟨h, hh, hc⟩)
  exact relist_keeps hread hvh (fun _ _ _ h hr o c hc => (hr o c hc).grows h)
    (fun _ ha o => ((hs (d.ends_of_orders o)).has (hn (d.ends_of_orders o))).grows ha)
    fun _ _ h => .addHandlers fun o x hx => h x hx o

theorem descendHandler_keeps {h : Handler}
    (hv : ∀ c ∈ h.exprs, Keeps d w (visit c) fun a r => d.orders → a.Has (.expr r)) :
    Keeps d w (descendHandler visit h)
      fun a h' => d.orders → ∀ c ∈ h'.exprs, a.Has (.expr c) := by
  obtain ⟨caught, body, filter⟩ := h
  have hfilter : Keeps d w (filter.mapM visit)
      fun a filter' => d.orders → ∀ c ∈ filter', a.Has (.expr c) := by
    cases filter with
    | none => exact .pure fun _ _ _ => by simp
    | some filter =>
      exact .map (hv filter (by simp [Handler.exprs])) fun _ _ _ h o => by simpa using h o
  refine .bind (hv body List.mem_cons_self) fun body' w₁ h₁ hbody => ?_
  refine .bind (hfilter.later h₁) fun filter' w₂ h₂ hfilter' => .pure fun a ha o => ?_
  exact List.forall_mem_cons.2 ⟨(hbody o).grows (h₂.trans ha), fun c hc =>
    (hfilter' o c (Option.mem_toList.1 hc)).grows ha⟩

/-- Every child of the new kind is there. -/
theorem descendKind_keeps (hv : VisitsBelow d visit n w) (hvh : HandlesBelow d visitHandler n w)
    (hn : d.ends → n ≤ w.size) {kind : Kind}
    (hrefs : d.ends → ∀ r ∈ kind.references, w.Below n r) :
    Keeps d w (descendKind visit visitHandler kind)
      fun a kind' => d.orders → ∀ r ∈ kind'.references, a.Has r := by
  -- a child that the kind names itself, visited after the arena has grown to `w'`
  have child : ∀ {c w'}, .expr c ∈ kind.references → w.PartOf w' →
      Keeps d w' (visit c) fun a r => d.orders → a.Has (.expr r) := fun hc hw =>
    hv.later hw _ fun e => Arena.below_expr.1 (hrefs e _ hc)
  cases kind with
  | unit | int | bool | var | constant | cellList =>
    exact .pure fun _ _ _ => by simp [Kind.references]
  | throw c | content c =>
    refine .bind (child (by simp [Kind.references]) (.refl w)) fun c' w₁ h₁ hc => ?_
    exact .pure fun a ha o => by simpa [Kind.references] using (hc o).grows ha
  | lambda params body name =>
    refine .bind (child (by simp [Kind.references]) (.refl w)) fun c' w₁ h₁ hc => ?_
    exact .pure fun a ha o => by simpa [Kind.references] using (hc o).grows ha
  | binary op left right | assign left right =>
    refine .bind (child (by simp [Kind.references]) (.refl w)) fun left' w₁ h₁ hleft => ?_
    refine .bind (child (by simp [Kind.references]) h₁) fun right' w₂ h₂ hright => ?_
    exact .pure fun a ha o => by
      simpa [Kind.references] using ⟨(hleft o).grows (h₂.trans ha), (hright o).grows ha⟩
  | cond test yes no =>
    refine .bind (child (by simp [Kind.references]) (.refl w)) fun test' w₁ h₁ htest => ?_
    refine .bind (child (by simp [Kind.references]) h₁) fun yes' w₂ h₂ hyes => ?_
    refine .bind (child (by simp [Kind.references]) (h₁.trans h₂)) fun no' w₃ h₃ hno => ?_
    exact .pure fun a ha o => by
      simpa [Kind.references] using ⟨(htest o).grows (h₂.trans (h₃.trans ha)),
        (hyes o).grows (h₃.trans ha), (hno o).grows ha⟩
  | block locals body =>
    refine .bind (descendExprs_keeps hv hn fun e => hrefs e _ (by simp [Kind.references]))
      fun body' w₁ h₁ hbody => ?_
    exact .pure fun a ha o => by simpa [Kind.references] using (hbody o).grows ha
  | call callee args =>
    refine .bind (child (by simp [Kind.references]) (.refl w)) fun callee' w₁ h₁ hcallee => ?_
    refine .bind (descendExprs_keeps (hv.later h₁) (fun e => Nat.le_trans (hn e) h₁.size_le)
      fun e => (hrefs e _ (by simp [Kind.references])).grows h₁) fun args' w₂ h₂ hargs => ?_
    exact .pure fun a ha o => by
      simpa [Kind.references] using ⟨(hcallee o).grows (h₂.trans ha), (hargs o).grows ha⟩
  | attempt body handlers =>
    refine .bind (child (by simp [Kind.references]) (.refl w)) fun body' w₁ h₁ hbody => ?_
    refine .bind (descendHandlers_keeps (hvh.later h₁) (fun e => Nat.le_trans (hn e) h₁.size_le)
      fun e => (hrefs e _ (by simp [Kind.references])).grows h₁) fun hs' w₂ h₂ hhs => ?_
    exact .pure fun a ha o => by
      simpa [Kind.references] using ⟨(hbody o).grows (h₂.trans ha), (hhs o).grows ha⟩

theorem descend_keeps {id : ExprId} (hw : d.ends → w.Ordered ∧ w.Has (.expr id))
    (hv : VisitsBelow d visit id.index w) (hvh : HandlesBelow d visitHandler id.index w) :
    Keeps d w (descend visit visitHandler id) fun a r => d.orders → a.Has (.expr r) := by
  refine .bind .node fun node w₁ h₁ ⟨hnode, _⟩ => ?_
  have hrefs : d.ends → ∀ r ∈ node.kind.references, w₁.Below id.index r := by
    intro e r hr
    obtain ⟨ho, hid⟩ := hw e
    have hread := h₁.node? (Array.getElem?_eq_getElem hid)
    obtain rfl := Option.some.inj (hnode.symm.trans hread)
    exact (ho.nodes id _ (Array.getElem?_eq_getElem hid) r hr).grows h₁
  refine .bind (descendKind_keeps (hv.later h₁) (hvh.later h₁)
    (fun _ => Nat.le_of_lt (Arena.index_lt_of_node? hnode)) hrefs) fun kind w₂ h₂ hkind => ?_
  split
  · have hid : w₁.Has (.expr id) := Arena.index_lt_of_node? hnode
    exact .pure fun a ha _ => hid.grows (h₂.trans ha)
  · exact .add hkind

end

/-! ## All levels -/

/-- The hooks of a pass meet a demand if they are given what meets it, wherever the arena has grown
from `b`. They are asked about nodes and handlers of `b`. -/
structure Pass.Follows (p : Pass σ) (d : Demand σ) (b : Arena) : Prop where
  onNode : ∀ id, (d.ends → b.Has (.expr id)) → ∀ down,
    Keeps d b down (fun a r => d.orders → a.Has (.expr r)) →
    Keeps d b (p.onNode id down) (fun a r => d.orders → a.Has (.expr r))
  onHandler : ∀ h, (d.ends → ∀ c ∈ h.exprs, b.Has (.expr c)) → ∀ down,
    Keeps d b down (fun a h' => d.orders → ∀ c ∈ h'.exprs, a.Has (.expr c)) →
    Keeps d b (p.onHandler h down) (fun a h' => d.orders → ∀ c ∈ h'.exprs, a.Has (.expr c))

namespace Pass.Follows

variable {p : Pass σ} {b : Arena}

/-- The index of a node is as many levels as it takes to visit what is below the node. -/
theorem runWithin_keeps (hp : p.Follows d b) (hb : d.ends → b.Ordered) {n : Nat} {id : ExprId}
    (hn : d.ends → id.index < n) (hid : d.ends → b.Has (.expr id)) :
    Keeps d b (p.runWithin n id) fun a r => d.orders → a.Has (.expr r) := by
  induction n generalizing id with
  | zero => exact fun _ _ _ _ _ => Runs.fault fun e => absurd (hn e) (Nat.not_lt_zero _)
  | succ n ih =>
    have hvisit : VisitsBelow d (p.runWithin n) id.index b := fun c hc =>
      ih (fun e => Nat.lt_of_lt_of_le (hc e) (Nat.le_of_lt_succ (hn e)))
        fun e => Nat.lt_trans (hc e) (hid e)
    refine hp.onNode id hid _ (descend_keeps (fun e => ⟨hb e, hid e⟩) hvisit fun h hh => ?_)
    exact hp.onHandler h (fun e c hc => Nat.lt_trans (hh e c hc) (hid e)) _
      (descendHandler_keeps fun c hc => hvisit c fun e => hh e c hc)

theorem run_keeps (hp : p.Follows d b) (hb : d.ends → b.Ordered) {root : ExprId}
    (hroot : d.ends → b.Has (.expr root)) :
    Keeps d b (p.run root) fun a r => d.orders → a.Has (.expr r) := by
  refine fun s a ha hs ho => Runs.bind (Runs.arena ?_)
  have hn : d.ends → root.index < levels a := fun e =>
    Nat.lt_of_lt_of_le ((hroot e).grows ha) (Nat.le_add_right _ _)
  exact hp.runWithin_keeps hb hn hroot s a ha hs ho

end Pass.Follows

/-! ## Passes that only add -/

section
variable {p : Pass σ}

/-- Whatever `x` answers, it has only added to the arena. -/
def PassM.Adds (x : PassM σ α) : Prop :=
  ∀ s a r s' a', x s a = .ok ((r, s'), a') → a.PartOf a'

/-- What the hooks do by themselves only adds to the arena. -/
structure Pass.Adds (p : Pass σ) : Prop where
  onNode : ∀ id down, PassM.Adds down → PassM.Adds (p.onNode id down)
  onHandler : ∀ h down, PassM.Adds down → PassM.Adds (p.onHandler h down)

theorem PassM.adds_iff_keeps {post : Arena → α → Prop} {x : PassM σ α}
    (hpost : ∀ a r, post a r) : PassM.Adds x ↔ Keeps (.growth .trivial) {} x post := by
  constructor
  · intro h s a _ _ _
    unfold Runs
    split
    · exact ⟨h _ _ _ _ _ (by assumption), trivial, False.elim, hpost _ _⟩
    · exact False.elim
  · exact fun h s a r s' a' hx => ((h.later (.empty a)).of_ok trivial False.elim hx).1

theorem Pass.adds_iff_follows : p.Adds ↔ p.Follows (.growth .trivial) {} := by
  have hpost : ∀ {τ : Type} {q : Arena → τ → Prop} (a : Arena) (r : τ), False → q a r := nofun
  constructor
  · exact fun h => ⟨
      fun id _ down hdown => (PassM.adds_iff_keeps hpost).1
        (h.onNode id down ((PassM.adds_iff_keeps hpost).2 hdown)),
      fun x _ down hdown => (PassM.adds_iff_keeps hpost).1
        (h.onHandler x down ((PassM.adds_iff_keeps hpost).2 hdown))⟩
  · exact fun h => ⟨
      fun id down hdown => (PassM.adds_iff_keeps hpost).2
        (h.onNode id False.elim down ((PassM.adds_iff_keeps hpost).1 hdown)),
      fun x down hdown => (PassM.adds_iff_keeps hpost).2
        (h.onHandler x False.elim down ((PassM.adds_iff_keeps hpost).1 hdown))⟩

theorem Pass.Adds.run (h : p.Adds) (root : ExprId) : PassM.Adds (p.run root) :=
  (PassM.adds_iff_keeps fun _ _ => False.elim).2
    ((Pass.adds_iff_follows.1 h).run_keeps False.elim False.elim)

end

/-! ## Passes by rules -/

/-- What takes the place of a node is there, or refers to what is there. -/
def Replacement.Within (a : Arena) : Replacement → Prop
  | .existing id => a.Has (.expr id)
  | .fresh kind _ => ∀ r ∈ kind.references, a.Has r

namespace Rules

variable {r : Rules} {d : Demand Unit} {b : Arena}

theorem follows (hr : d.orders → ∀ a, b.PartOf a → a.Ordered → ∀ id node rep,
      a.node? id = some node → r.replace id node = some rep → rep.Within a) :
    r.toPass.Follows d b where
  onNode id _ down hdown := by
    refine .bind .node fun node w₁ h₁ ⟨hnode, ho⟩ => ?_
    cases hrep : r.replace id node with
    | none => exact hdown.later h₁
    | some rep =>
      have hwithin : d.orders → rep.Within w₁ := fun o => hr o w₁ h₁ (ho o) id node rep hnode hrep
      cases rep with
      | existing id' =>
        have hid' : d.orders → w₁.Has (.expr id') := hwithin
        exact .pure fun _ hb o => (hid' o).grows hb
      | fresh kind span => exact .add hwithin
  onHandler h _ down hdown := by
    refine .bind hdown fun h' w₁ _ hh' => .pure fun a ha o => ?_
    cases r.keepsCaught <;> exact fun c hc => (hh' o c hc).grows ha

theorem adds (r : Rules) : r.toPass.Adds :=
  Pass.adds_iff_follows.2 (follows False.elim)

end Rules

end Quotation
