import Quotation.Proofs.Capture.Quote
import Quotation.Proofs.Plan

/-!
# Passes that map trees

A pass enacts a plan (`Pass.Enacts`) if its hooks make the replacements of the plan and otherwise do
what they are given. What such a pass makes of a fragment without a cycle has the `Plan.image` of
the fragment for its tree (`Pass.run_maps`).

`Mapped` says what has become of a list of branches: the trees of the answers are the images, the
answers are the branches themselves exactly if the plan alters nothing there, and every node that
has been added is either a replacement or as a node before it but for its children. It holds for one
branch after another (`Mapped.append`), for a node once it holds for its branches (`Mapped.kept`,
`Mapped.rebuilt`), and so for the fragment, level by level.

A pass by rules enacts the plan of its rules (`Rules.toPass_enacts`). Two of them replace nothing:
the identity answers with the root (`Rules.run_identity`), and stripping leaves all but the
variables of the handlers (`Rules.run_stripCaught`).
-/

namespace Quotation

variable {σ : Type}

/-! ## One more node -/

section
variable {b : Arena} {id : ExprId} {node new : Node}

theorem Arena.Grows.push (b : Arena) (node : Node) :
    b.Grows { b with nodes := b.nodes.push node } :=
  ⟨.push _ _, .refl _, .refl _, .refl _, rfl⟩

theorem Arena.node?_push :
    ({ b with nodes := b.nodes.push node } : Arena).node? ⟨b.nodes.size⟩ = some node := by
  simp [Arena.node?]

/-- What is there and was not before is the node that has been added. -/
theorem Arena.eq_of_node?_push
    (h : ({ b with nodes := b.nodes.push node } : Arena).node? id = some new)
    (hle : b.size ≤ id.index) : new = node := by
  have hlt : id.index < b.nodes.size + 1 := by
    simpa [Arena.size] using Arena.index_lt_of_node? h
  obtain ⟨i⟩ := id
  obtain rfl : i = b.nodes.size := Nat.le_antisymm (Nat.le_of_lt_succ hlt) hle
  exact Option.some.inj (h.symm.trans Arena.node?_push)

theorem Arena.push_ne {a : Arena} (hnode : a.node? id = some node) (hab : a.Grows b) :
    (⟨b.nodes.size⟩ : ExprId) ≠ id := by
  rintro rfl
  exact Nat.lt_irrefl _
    (Nat.lt_of_lt_of_le (Arena.index_lt_of_node? hnode) hab.nodes.size_le)

end

section
variable {plan : Plan} {a b b₁ b₂ : Arena} {pool : Pool} {id c root : ExprId} {node new : Node}
  {label : Label} {branches : List Branch} {n : Nat} {t : Tree}

/-! ## What has become of the branches -/

/-- The branches `bs` of nodes of `a`, at most `n` nodes deep, have been visited with the answers
`bs'`, and the arena has grown from `b` to `b'`. -/
structure Mapped (plan : Plan) (a : Arena) (pool : Pool) (n : Nat) (bs bs' : List Branch)
    (b b' : Arena) : Prop where
  grows : b.Grows b'
  trees : ∃ ts,
    List.Forall₂ (fun x t => unfoldBranch (plan.imageWithin a pool n) (plan.branch x) = some t)
      bs ts ∧
    List.Forall₂ (fun y t => unfoldBranch (unfoldWithin b' pool (n + (a.size + 1))) y = some t)
      bs' ts
  same : bs' = bs ↔ ∀ x ∈ bs, ¬plan.AltersBranch a x
  still : bs' = bs → b' = b
  made : ∀ id new, b'.node? id = some new → b.size ≤ id.index →
    ∃ c ∈ bs.flatMap Branch.exprs, plan.Makes a c new

namespace Mapped

variable {bs bs' cs cs' : List Branch}

theorem nil : Mapped plan a pool n [] [] b b where
  grows := .refl b
  trees := ⟨[], .nil, .nil⟩
  same := by simp
  still _ := rfl
  made _ _ hnew hle := absurd (Arena.index_lt_of_node? hnew) (Nat.not_lt.2 hle)

theorem length (h : Mapped plan a pool n bs bs' b b₁) : bs'.length = bs.length := by
  obtain ⟨ts, himage, htrees⟩ := h.trees
  rw [htrees.length_eq, himage.length_eq]

theorem append (h : Mapped plan a pool n bs bs' b b₁) (h' : Mapped plan a pool n cs cs' b₁ b₂) :
    Mapped plan a pool n (bs ++ cs) (bs' ++ cs') b b₂ where
  grows := h.grows.trans h'.grows
  trees := by
    obtain ⟨ts, himage, htrees⟩ := h.trees
    obtain ⟨us, himage', htrees'⟩ := h'.trees
    refine ⟨ts ++ us, List.rel_append himage himage', List.rel_append (htrees.imp fun y t => ?_)
      htrees'⟩
    exact unfoldBranch_mono fun _ _ =>
      unfoldWithin_grows h'.grows.partOf (.refl pool) (Nat.le_refl _)
  same := by
    rw [List.forall_mem_append, ← h.same, ← h'.same]
    exact ⟨fun heq => List.append_inj heq h.length, fun ⟨heq, heq'⟩ => heq ▸ heq' ▸ rfl⟩
  still heq := by
    obtain ⟨heq, heq'⟩ := List.append_inj heq h.length
    rw [h'.still heq', h.still heq]
  made id new hnew hle := by
    rw [List.flatMap_append]
    rcases Nat.lt_or_ge id.index b₁.size with hlt | hge
    · have hnew₁ : b₁.node? id = some b₁.nodes[id.index] := Array.getElem?_eq_getElem hlt
      obtain rfl := Option.some.inj ((h'.grows.node? hnew₁).symm.trans hnew)
      obtain ⟨c, hc, hmade⟩ := h.made id _ hnew₁ hle
      exact ⟨c, List.mem_append_left _ hc, hmade⟩
    · obtain ⟨c, hc, hmade⟩ := h'.made id new hnew hge
      exact ⟨c, List.mem_append_right _ hc, hmade⟩

/-- A list that has changed is stored. -/
theorem stored (h : Mapped plan a pool n bs bs' b b₁) (hne : bs' ≠ bs) (hgrows : b₁.Grows b₂)
    (hnodes : b₂.nodes = b₁.nodes) : Mapped plan a pool n bs bs' b b₂ where
  grows := h.grows.trans hgrows
  trees := by
    obtain ⟨ts, himage, htrees⟩ := h.trees
    exact ⟨ts, himage, htrees.imp fun _ _ => unfoldBranch_mono fun _ _ =>
      unfoldWithin_grows hgrows.partOf (.refl pool) (Nat.le_refl _)⟩
  same := h.same
  still heq := absurd heq hne
  made id new hnew := by
    rw [Arena.node?, hnodes] at hnew
    exact h.made id new hnew

/-- The variable of a handler is kept or dropped after its branches have been visited. -/
theorem handler {h h' : Handler}
    (hmap : Mapped plan a pool n (h.exprs.map .expr) (h'.exprs.map .expr) b b₁)
    (hsame : h'.exprs = h.exprs → h' = h) :
    Mapped plan a pool n [.handler h] [.handler { h' with caught := (plan.handler h).caught }]
      b b₁ where
  grows := hmap.grows
  trees := by
    obtain ⟨ts, himage, htrees⟩ := hmap.trees
    rw [List.forall₂_map_left_iff] at himage htrees
    refine ⟨[.node (.handler (plan.handler h).caught) .nowhere ts], .cons ?_ .nil, .cons ?_ .nil⟩
    · exact unfoldBranch_handler.2 ⟨ts, (plan.exprs_handler h).symm ▸ himage, rfl⟩
    · exact unfoldBranch_handler.2 ⟨ts, htrees, rfl⟩
  same := by
    have hexprs : h'.exprs = h.exprs ↔ ∀ c ∈ h.exprs, ¬plan.Alters a c := by
      rw [← (List.map_injective_iff.2 fun _ _ => Branch.expr.inj).eq_iff, hmap.same]
      simp [Plan.alters_expr]
    rw [List.forall_mem_singleton, Plan.alters_handler, List.cons_eq_cons, Branch.handler.injEq]
    push Not
    rw [← hexprs, Plan.handler_eq_self]
    constructor
    · intro ⟨heq, _⟩
      exact ⟨(congrArg Handler.caught heq :), (congrArg Handler.exprs heq :)⟩
    · intro ⟨hcaught, heq⟩
      rw [hcaught, hsame heq]
      exact ⟨rfl, rfl⟩
  still heq := by
    have hexprs := congrArg Handler.exprs (Branch.handler.inj (List.cons.inj heq).1)
    exact hmap.still (congrArg (List.map Branch.expr) hexprs)
  made id new hnew hle := by
    obtain ⟨c, hc, hmade⟩ := hmap.made id new hnew hle
    exact ⟨c, by simpa [Branch.exprs] using hc, hmade⟩

/-- What is known of the answer for a single node. -/
theorem single {r : ExprId} (h : Mapped plan a pool n [.expr id] [.expr r] b b₁) :
    (∃ t, plan.imageWithin a pool n id = some t ∧ unfold b₁ pool r = some t) ∧
      (r = id ↔ ¬plan.Alters a id) ∧ (r = id → b₁ = b) ∧
      ∀ c new, b₁.node? c = some new → b.size ≤ c.index → plan.Makes a id new := by
  refine ⟨?_, ?_, fun heq => h.still (heq ▸ rfl), fun c new hnew hle => ?_⟩
  · obtain ⟨ts, himages, htrees⟩ := h.trees
    cases himages with
    | cons himage _ =>
      cases htrees with
      | cons htree _ => exact ⟨_, himage, unfold_of_within htree⟩
  · have hsame := h.same
    rwa [List.forall_mem_singleton, Plan.alters_expr, List.cons_eq_cons, Branch.expr.injEq,
      and_iff_left rfl] at hsame
  · obtain ⟨d, hd, hmade⟩ := h.made c new hnew hle
    exact List.mem_singleton.1 hd ▸ hmade

/-! ### Nodes -/

theorem existing {r : ExprId} (hnode : a.node? id = some node)
    (hrep : plan.replace id node = some (.existing r)) (ht : unfold a pool r = some t)
    (hab : a.Grows b) : Mapped plan a pool (n + 1) [.expr id] [.expr r] b b where
  grows := .refl b
  trees := by
    refine ⟨[t], .cons ?_ .nil, .cons ?_ .nil⟩
    · exact (Plan.imageWithin_replaced hnode hrep).trans ht
    · exact unfoldWithin_grows hab.partOf (.refl pool) (Nat.le_add_left _ _) ht
  same := by
    rw [List.forall_mem_singleton, Plan.alters_expr, Plan.alters_replaced hnode hrep]
    simp
  still _ := rfl
  made _ _ hnew hle := absurd (Arena.index_lt_of_node? hnew) (Nat.not_lt.2 hle)

theorem fresh {kind : Kind} {span : Span} (hnode : a.node? id = some node)
    (hrep : plan.replace id node = some (.fresh kind span))
    (ht : (Replacement.fresh kind span).tree? a pool = some t) (hab : a.Grows b) :
    Mapped plan a pool (n + 1) [.expr id] [.expr ⟨b.nodes.size⟩] b
      { b with nodes := b.nodes.push ⟨kind, span⟩ } where
  grows := .push b _
  trees := by
    have hgrows := (hab.trans (.push b ⟨kind, span⟩)).partOf
    have himage := (Plan.imageWithin_replaced (n := n) hnode hrep).trans ht
    obtain ⟨label, branches, ts, hview, hts, rfl⟩ := Replacement.tree?_fresh.1 ht
    refine ⟨[.node label span ts], .cons himage .nil, .cons ?_ .nil⟩
    rw [Nat.add_right_comm]
    refine unfoldWithin_succ.2 ⟨⟨kind, span⟩, label, branches, ts, Arena.node?_push,
      view?_partOf hgrows (.refl pool) hview, hts.imp fun _ _ => ?_, rfl⟩
    exact unfoldBranch_mono fun _ _ => unfoldWithin_grows hgrows (.refl pool) (Nat.le_add_left _ _)
  same := by
    rw [List.forall_mem_singleton, Plan.alters_expr, Plan.alters_replaced hnode hrep]
    simp [Arena.push_ne hnode hab]
  still heq := absurd (Branch.expr.inj (List.cons.inj heq).1) (Arena.push_ne hnode hab)
  made r new hnew hle := by
    obtain rfl := Arena.eq_of_node?_push hnew hle
    exact ⟨id, List.mem_cons_self, id, node, .refl, hnode, .inl hrep⟩

section
variable {answers : List Branch} (hnode : a.node? id = some node)
  (hnone : plan.replace id node = none) (hview : a.view? pool node.kind = some (label, branches))

include hnode hnone hview

/-- What is made below a node that stays is made below each node above. -/
theorem made_below {r : ExprId} (h : Mapped plan a pool n branches answers b b₁)
    (hnew : b₁.node? r = some new) (hle : b.size ≤ r.index) :
    ∃ c ∈ [Branch.expr id].flatMap Branch.exprs, plan.Makes a c new := by
  obtain ⟨c, hc, hmade⟩ := h.made r new hnew hle
  have hpasses : plan.Passes a id c := .of_child hnode hnone ((Arena.child_iff hnode hview).2 hc)
  exact ⟨id, List.mem_cons_self, .head hpasses hmade⟩

/-- A node over the answers has the image of the node for its tree. -/
theorem trees_node {kind : Kind} {r : ExprId} (h : Mapped plan a pool n branches answers b b₁)
    (hgrows : b₁.Grows b₂) (hr : b₂.node? r = some ⟨kind, node.span⟩)
    (hkind : b₂.view? pool kind = some (label, answers)) : ∃ ts,
      List.Forall₂ (fun x t =>
        unfoldBranch (plan.imageWithin a pool (n + 1)) (plan.branch x) = some t) [.expr id] ts ∧
      List.Forall₂ (fun y t =>
        unfoldBranch (unfoldWithin b₂ pool (n + 1 + (a.size + 1))) y = some t) [.expr r] ts := by
  obtain ⟨ts, himage, htrees⟩ := h.trees
  refine ⟨[.node label node.span ts], .cons ((Plan.imageWithin_kept hnode hnone).2 ?_) .nil,
    .cons ?_ .nil⟩
  · exact ⟨label, branches, ts, hview, himage, rfl⟩
  rw [Nat.add_right_comm]
  refine unfoldWithin_succ.2 ⟨_, label, answers, ts, hr, hkind, htrees.imp fun _ _ => ?_, rfl⟩
  exact unfoldBranch_mono fun _ _ => unfoldWithin_grows hgrows.partOf (.refl pool) (Nat.le_refl _)

/-- A node whose branches are not altered is its own answer. -/
theorem kept (h : Mapped plan a pool n branches branches b b₁) (hab : a.Grows b) :
    Mapped plan a pool (n + 1) [.expr id] [.expr id] b b₁ where
  grows := h.grows
  trees := by
    have hgrows := (hab.trans h.grows).partOf
    exact trees_node hnode hnone hview h (.refl b₁) (hgrows.node? hnode)
      (view?_partOf hgrows (.refl pool) hview)
  same := by
    have hsame := h.same.1 rfl
    rw [List.forall_mem_singleton, Plan.alters_expr, Plan.alters_kept hnode hnone hview]
    push Not
    exact ⟨fun _ => hsame, fun _ => rfl⟩
  still _ := h.still rfl
  made _ _ := made_below hnode hnone hview h

/-- A node one of whose branches is altered is built anew from the answers. -/
theorem rebuilt {kind : Kind} (h : Mapped plan a pool n branches answers b b₁) (hab : a.Grows b)
    (hne : answers ≠ branches) (hkind : b₁.view? pool kind = some (label, answers))
    (hbare : kind.bare = node.kind.bare) :
    Mapped plan a pool (n + 1) [.expr id] [.expr ⟨b₁.nodes.size⟩] b
      { b₁ with nodes := b₁.nodes.push ⟨kind, node.span⟩ } where
  grows := h.grows.trans (.push b₁ _)
  trees := by
    have hpush := Arena.Grows.push b₁ ⟨kind, node.span⟩
    exact trees_node hnode hnone hview h hpush Arena.node?_push
      (view?_partOf hpush.partOf (.refl pool) hkind)
  same := by
    have halters := mt h.same.2 hne
    rw [List.forall_mem_singleton, Plan.alters_expr, Plan.alters_kept hnode hnone hview]
    push Not at halters ⊢
    exact ⟨fun heq => absurd (Branch.expr.inj (List.cons.inj heq).1)
      (Arena.push_ne hnode (hab.trans h.grows)), fun hall =>
        have ⟨x, hx, hxa⟩ := halters
        absurd hxa (hall x hx)⟩
  still heq := absurd (Branch.expr.inj (List.cons.inj heq).1)
    (Arena.push_ne hnode (hab.trans h.grows))
  made r new hnew hle := by
    rcases Nat.lt_or_ge r.index b₁.size with hlt | hge
    · have hnew₁ : b₁.node? r = some b₁.nodes[r.index] := Array.getElem?_eq_getElem hlt
      obtain rfl := Option.some.inj (((Arena.Grows.push b₁ _).node? hnew₁).symm.trans hnew)
      exact made_below hnode hnone hview h hnew₁ hle
    · obtain rfl := Arena.eq_of_node?_push hnew hge
      exact ⟨id, List.mem_cons_self, id, node, .refl, hnode, .inr ⟨hnone, hbare, rfl⟩⟩

end

end Mapped

/-! ## Visits -/

/-- A visit of the node maps its tree, unless a table is full. -/
def Plan.Maps (plan : Plan) (a : Arena) (pool : Pool) (n : Nat) (visit : ExprId → PassM σ ExprId)
    (id : ExprId) : Prop :=
  ∀ s b, a.Grows b → Runs (visit id) s b
    (fun r _ b' => Mapped plan a pool n [.expr id] [.expr r] b b') (plan.Fails a id)

section
variable {p : Pass σ} {s : σ} {visit : ExprId → PassM σ ExprId}

/-- A step that is another one, but for what it does to the state and to the answer. -/
theorem Runs.of_eq_map {α : Type} {x y : PassM σ α} {before : σ} {after : σ → σ} {g : α → α}
    {post : α → σ → Arena → Prop} {bad : Fault → Prop}
    (heq : x s a = (y before a).map fun r => ((g r.1.1, after r.1.2), r.2))
    (h : Runs y before a (fun r s' => post (g r) (after s')) bad) : Runs x s a post bad := by
  unfold Runs at h ⊢
  rw [heq]
  cases hy : y before a <;> rw [hy] at h <;> exact h

theorem Pass.Enacts.handler_runs (hp : p.Enacts plan) {h : Handler}
    (hmaps : ∀ c ∈ h.exprs, plan.Maps a pool n visit c) (hab : a.Grows b) :
    Runs (p.onHandler h (descendHandler visit h)) s b
      (fun h' _ b' => Mapped plan a pool n [.handler h] [.handler h'] b b')
      (fun f => ∃ c ∈ h.exprs, plan.Fails a c f) := by
  obtain ⟨before, after, heq⟩ := hp.handler h s b
  refine Runs.of_eq_map (heq _) ?_
  refine (descendHandler_runs
    (I := fun done answers _ b' => Mapped plan a pool n done answers b b') .nil
    fun {done rest answers c s' b'} hI hsplit => ?_).imp fun h' s' b' hh => ?_
  · have hc : c ∈ h.exprs := by
      have hmem : Branch.expr c ∈ h.exprs.map .expr := hsplit ▸ by simp
      simpa using hmem
    exact (hmaps c hc s' b' (hab.trans hI.grows)).mono (fun _ _ _ hr => hI.append hr)
      fun f hf => ⟨c, hc, hf⟩
  · obtain ⟨hmap, hcaught, hsame⟩ := hh
    exact Plan.answer_eq hcaught ▸ hmap.handler hsame

section
variable (hnode : a.node? id = some node) (hnone : plan.replace id node = none)
  (hview : a.view? pool node.kind = some (label, branches))

include hnode hnone hview

/-- If something has been altered, a full table is a reason to fail. -/
theorem Mapped.fails {answers : List Branch} (h : Mapped plan a pool n branches answers b b₁)
    (hne : answers ≠ branches) {table : Table} {size : Nat} (hfull : indexLimit ≤ size) :
    plan.Fails a id (.tableFull table size) := by
  refine ⟨?_, table, size, rfl, hfull⟩
  have halters := mt h.same.2 hne
  push Not at halters
  exact (Plan.alters_kept hnode hnone hview).2 halters

omit hnode hnone in
/-- The list of a node is short, and so is the list of the answers. -/
theorem lt_of_listCost (hshort : node.kind.Short) {table : Table} {length : Nat}
    (hcost : label.listCost branches.length = entries table length) : length < sliceLimit := by
  have hle := listCost_le label branches.length table
  rw [hcost, entries, if_pos rfl] at hle
  exact Nat.lt_of_le_of_lt hle (listLength_lt hview hshort)

/-- What a proof about a level of the pass owes. -/
theorem Pass.Enacts.descent (hp : p.Enacts plan) (hshort : node.kind.Short)
    (hmaps : ∀ c, plan.Passes a id c → plan.Maps a pool n visit c) (hab : a.Grows b) :
    Descent visit (fun h => p.onHandler h (descendHandler visit h)) label branches s b
      (fun done answers _ b' => Mapped plan a pool n done answers b b')
      (fun answers _ b' => Mapped plan a pool n branches answers b b') (plan.Fails a id) where
  start := .nil
  partOf h := h.grows.partOf
  stored h := h.grows.partOf
  expr {done rest answers c s' b'} h hsplit := by
    have hpasses : plan.Passes a id c := .of_child hnode hnone <|
      (Arena.child_iff hnode hview).2 (hsplit ▸ by simp [Branch.exprs])
    exact (hmaps c hpasses s' b' (hab.trans h.grows)).mono (fun _ _ _ hr => h.append hr)
      fun _ hf => hf.head hpasses
  handler {done rest answers x s' b'} h hsplit := by
    have hpasses : ∀ c ∈ x.exprs, plan.Passes a id c := fun c hc => .of_child hnode hnone <|
      (Arena.child_iff hnode hview).2 (hsplit ▸ by simp [Branch.exprs, hc])
    refine (hp.handler_runs (fun c hc => hmaps c (hpasses c hc)) (hab.trans h.grows)).mono
      (fun _ _ _ hr => h.append hr) fun f hf => ?_
    obtain ⟨c, hc, hf⟩ := hf
    exact hf.head (hpasses c hc)
  keep h := h
  exprs {pre answers ids s' b'} h hne _ _ hcost := by
    have hlt : ids.length < sliceLimit := lt_of_listCost hview hshort hcost
    exact Runs.addExprs
      ⟨h.stored hne ⟨.refl _, .append _ _, .refl _, .refl _, rfl⟩ rfl, Slice.read?_append _ _⟩
      (h.fails hnode hnone hview hne) fun hlong => absurd hlt (Nat.not_lt.2 hlong)
  handlers {pre answers hs s' b'} h hne _ _ hcost := by
    have hlt : hs.length < sliceLimit := lt_of_listCost hview hshort hcost
    exact Runs.addHandlers
      ⟨h.stored hne ⟨.refl _, .refl _, .refl _, .append _ _, rfl⟩ rfl, Slice.read?_append _ _⟩
      (h.fails hnode hnone hview hne) fun hlong => absurd hlt (Nat.not_lt.2 hlong)

/-- A node that stays, once all children map. -/
theorem Pass.Enacts.descend_runs (hp : p.Enacts plan) (hshort : node.kind.Short)
    (hmaps : ∀ c, plan.Passes a id c → plan.Maps a pool n visit c) (hab : a.Grows b) :
    Runs (descend visit (fun h => p.onHandler h (descendHandler visit h)) id) s b
      (fun r _ b' => Mapped plan a pool (n + 1) [.expr id] [.expr r] b b') (plan.Fails a id) := by
  have hd := hp.descent (s := s) hnode hnone hview hshort hmaps hab
  refine Runs.bind (Runs.node (hab.node? hnode) ?_)
  refine (hd.runs (view?_partOf hab.partOf (.refl pool) hview)).seq fun kind' s' b' hq => ?_
  obtain ⟨answers, h, hkind, hkeep, hbare⟩ := hq
  split
  · rename_i heq
    have hview' := view?_partOf (hab.trans h.grows).partOf (.refl pool) hview
    obtain ⟨-, rfl⟩ := Prod.mk.inj (Option.some.inj (hkind.symm.trans (heq ▸ hview')))
    exact Runs.pure (h.kept hnode hnone hview hab)
  · rename_i hchanged
    have hne : answers ≠ branches := fun heq => hchanged (hkeep heq)
    exact Runs.add (h.rebuilt hnode hnone hview hab hne hkind hbare)
      (h.fails hnode hnone hview hne)

end

/-- A node that is replaced. -/
theorem Replacement.place_runs {rep : Replacement} (hnode : a.node? id = some node)
    (hrep : plan.replace id node = some rep) (ht : rep.tree? a pool = some t) (hab : a.Grows b) :
    Runs (liftM rep.place) s b
      (fun r _ b' => Mapped plan a pool (n + 1) [.expr id] [.expr r] b b') (plan.Fails a id) := by
  cases rep with
  | existing r => exact Runs.lift (.existing hnode hrep ht hab)
  | fresh kind span =>
    refine Runs.add (.fresh hnode hrep ht hab) fun hfull => ⟨?_, _, _, rfl, hfull⟩
    exact (Plan.alters_replaced hnode hrep).2 nofun

/-! ## All levels -/

/-- The fragment is complete, its lists are as short as slices describe them, and whatever takes the
place of a node that is met has a tree. -/
structure Plan.Fits (plan : Plan) (a : Arena) (pool : Pool) (root : ExprId) : Prop where
  complete : ∀ id, a.Reaches root id → a.Complete pool (fun _ => True) id
  short : ∀ id node, a.Reaches root id → a.node? id = some node → node.kind.Short
  trees : ∀ id node rep, plan.Meets a root id → a.node? id = some node →
    plan.replace id node = some rep → ∃ t, rep.tree? a pool = some t

section
variable (hacyclic : a.AcyclicFrom root) (hfits : plan.Fits a pool root)

include hacyclic hfits

theorem Plan.exists_image : ∃ t, plan.image a pool root = some t := by
  refine hacyclic.climb
    (P := fun n id => plan.Meets a root id → ∃ t, plan.imageWithin a pool n id = some t)
    (fun n id hid hbelow hmeets => ?_) .refl
  obtain ⟨node, hnode, hkind⟩ := Arena.complete_iff.1 (hfits.complete id hid)
  obtain ⟨label, branches, hview, -, -⟩ := Arena.completeKind_iff.1 hkind
  cases hrep : plan.replace id node with
  | some rep =>
    obtain ⟨t, ht⟩ := hfits.trees id node rep hmeets hnode hrep
    exact ⟨t, (imageWithin_replaced hnode hrep).trans ht⟩
  | none =>
    have hbranch : ∀ x ∈ branches, ∃ t,
        unfoldBranch (plan.imageWithin a pool n) (plan.branch x) = some t := by
      refine fun x hx => exists_unfoldBranch fun c hc => ?_
      rw [exprs_branch] at hc
      have hchild := (Arena.child_iff hnode hview).2 (List.mem_flatMap.2 ⟨x, hx, hc⟩)
      exact hbelow c hchild (hmeets.tail (.of_child hnode hrep hchild))
    obtain ⟨ts, hts⟩ := exists_forall₂ hbranch
    exact ⟨_, (imageWithin_kept hnode hrep).2 ⟨label, branches, ts, hview, hts, rfl⟩⟩

/-- Level by level: with at least one more level for a node than for its children. -/
theorem Pass.Enacts.runWithin_maps (hp : p.Enacts plan) {m : Nat} (hm : a.size + 1 ≤ m) :
    plan.Maps a pool m (p.runWithin m) root := by
  refine hacyclic.climb
    (P := fun n id => plan.Meets a root id → ∀ m, n ≤ m → plan.Maps a pool m (p.runWithin m) id)
    (fun n id hid hbelow hmeets m hm s b hab => ?_) .refl m hm
  obtain ⟨m, rfl⟩ := Nat.exists_eq_add_of_le' (Nat.lt_of_lt_of_le (Nat.zero_lt_succ n) hm)
  obtain ⟨node, hnode, hkind⟩ := Arena.complete_iff.1 (hfits.complete id hid)
  obtain ⟨label, branches, hview, -, -⟩ := Arena.completeKind_iff.1 hkind
  obtain ⟨before, after, heq⟩ := hp.node id node s b (hab.node? hnode)
  refine Runs.of_eq_map (g := fun r => r) (heq _) ?_
  unfold Plan.onNode
  cases hrep : plan.replace id node with
  | some rep =>
    obtain ⟨t, ht⟩ := hfits.trees id node rep hmeets hnode hrep
    exact Replacement.place_runs hnode hrep ht hab
  | none =>
    have hmaps : ∀ c, plan.Passes a id c → plan.Maps a pool m (p.runWithin m) c := fun c hc =>
      hbelow c hc.1 (hmeets.tail hc) m (Nat.le_of_succ_le_succ hm)
    exact hp.descend_runs hnode hrep hview (hfits.short id node hid hnode) hmaps hab

theorem Pass.Enacts.run_maps_root (hp : p.Enacts plan) (s : σ) : Runs (p.run root) s a
    (fun r _ b => Mapped plan a pool (levels a) [.expr root] [.expr r] a b) (plan.Fails a root) :=
  .run (hp.runWithin_maps hacyclic hfits (size_lt_levels a) s a (.refl a))

/-- What a pass that enacts a plan makes of a fragment without a cycle: a fragment whose tree is the
image of the tree, or a fault since a table is full. The root is its own answer exactly if nothing
that is met is altered, and then nothing has been added; every node that has been added is a
replacement, or like a node that is met in all but its children. Where the plan neither replaces a
node nor drops a variable, the root is the answer and its tree the image. -/
theorem Pass.run_maps (hp : p.Enacts plan) (s : σ) : ∃ t, plan.image a pool root = some t ∧
    ((∃ r s' a', p.run root s a = .ok ((r, s'), a') ∧ a.Grows a' ∧ unfold a' pool r = some t ∧
        (r = root ↔ ¬plan.Alters a root) ∧ (r = root → a' = a) ∧
        ∀ id new, a'.node? id = some new → a.size ≤ id.index → plan.Makes a root new) ∨
      ∃ f, p.run root s a = .error f ∧ plan.Fails a root f) ∧
    ((∀ id node, plan.replace id node = none) → (∀ h, plan.keeps h = true) →
      (∃ s', p.run root s a = .ok ((root, s'), a)) ∧ unfold a pool root = some t) := by
  obtain ⟨t, ht⟩ := Plan.exists_image hacyclic hfits
  rcases (hp.run_maps_root hacyclic hfits s).cases with
    ⟨r, s', a', hrun, hmapped⟩ | ⟨f, hrun, hfails⟩
  · obtain ⟨⟨t', himage, htree⟩, hroot, hstill, hmade⟩ := hmapped.single
    obtain rfl :=
      Option.some.inj ((Plan.imageWithin_mono (size_lt_levels a) ht).symm.trans himage)
    refine ⟨t, ht, .inl ⟨r, s', a', hrun, hmapped.grows, htree, hroot, hstill, hmade⟩, ?_⟩
    intro hnone hkeeps
    obtain rfl := hroot.2 (Plan.not_alters hnone hkeeps)
    obtain rfl := hstill rfl
    exact ⟨⟨s', hrun⟩, htree⟩
  · exact ⟨t, ht, .inr ⟨f, hrun, hfails⟩, fun hnone hkeeps =>
      absurd hfails.1 (Plan.not_alters hnone hkeeps)⟩

end

end

end

/-! ## Passes by rules -/

namespace Rules

/-- The plan of the rules. -/
def plan (r : Rules) : Plan := ⟨r.replace, fun _ => r.keepsCaught⟩

theorem toPass_enacts (r : Rules) : r.toPass.Enacts r.plan where
  node id node s a hnode := by
    refine ⟨s, fun s => s, fun down => ?_⟩
    have hread : ∀ k : Node → PassM Unit ExprId,
        ((liftM (Builder.node id) : PassM Unit Node) >>= k) s a = k node s a := by
      intro k
      show ((liftM (Builder.require (a.node? id)) : PassM Unit Node) >>= k) s a = _
      rw [hnode]
      rfl
    have hsame : ∀ x : Except Fault ((ExprId × Unit) × Arena), x.map (fun y => y) = x := by
      rintro (_ | _) <;> rfl
    refine .trans (.trans (hread _) ?_) (hsame _).symm
    unfold Plan.onNode
    rw [show r.plan.replace = r.replace from rfl]
    rcases r.replace id node with _ | ⟨_ | _⟩ <;> rfl
  handler h s a := by
    refine ⟨s, fun s => s, fun down => ?_⟩
    have hbind : r.toPass.onHandler h down s a = (down s a).bind fun x =>
        .ok ((if r.keepsCaught then x.1.1 else { x.1.1 with caught := none }, x.1.2), x.2) := by
      rfl
    rw [hbind]
    cases down s a <;> rfl

theorem run_eq (r : Rules) (root : ExprId) (a : Arena) :
    r.run root a = (r.toPass.run root () a).map fun x => (x.1.1, x.2) := by
  have hbind : r.run root a = (r.toPass.run root () a).bind fun x => .ok (x.1.1, x.2) := rfl
  rw [hbind]
  cases r.toPass.run root () a <;> rfl

end Rules

/-! ### Rules that replace nothing -/

/-- A handler binds nothing. -/
def Label.stripped : Label → Label
  | .handler _ => .handler none
  | l => l

mutual

/-- The tree, with handlers that bind nothing. -/
def Tree.stripped : Tree → Tree
  | .node label span ts => .node label.stripped span (strippedAll ts)

def strippedAll : List Tree → List Tree
  | [] => []
  | t :: ts => t.stripped :: strippedAll ts

end

theorem strippedAll_eq_map (ts : List Tree) : strippedAll ts = ts.map Tree.stripped := by
  induction ts with
  | nil => rfl
  | cons t ts ih => rw [strippedAll, ih, List.map_cons]

section
variable {a : Arena} {pool : Pool} {root : ExprId}

/-- The label of a node is not that of a handler. -/
theorem stripped_of_view? {kind : Kind} {label : Label} {branches : List Branch}
    (hview : a.view? pool kind = some (label, branches)) : label.stripped = label := by
  cases label with
  | handler caught => exact (kind_of_view? hview).elim
  | _ => rfl

namespace Rules

/-- The image of a fragment under `stripCaught` is its tree, stripped. -/
theorem imageWithin_stripCaught {n : Nat} {id : ExprId} {t : Tree}
    (ht : unfoldWithin a pool n id = some t) :
    stripCaught.plan.imageWithin a pool n id = some t.stripped := by
  induction n generalizing id t with
  | zero => cases ht
  | succ n ih =>
    obtain ⟨node, label, branches, ts, hnode, hview, hts, rfl⟩ := unfoldWithin_succ.1 ht
    refine (Plan.imageWithin_kept hnode rfl).2
      ⟨label, branches, strippedAll ts, hview, ?_, ?_⟩
    · rw [strippedAll_eq_map, List.forall₂_map_right_iff]
      refine hts.imp fun x t hx => ?_
      cases x with
      | expr id => exact ih hx
      | handler h =>
        obtain ⟨us, hus, rfl⟩ := unfoldBranch_handler.1 hx
        refine unfoldBranch_handler.2 ⟨strippedAll us, ?_, rfl⟩
        rw [strippedAll_eq_map, List.forall₂_map_right_iff]
        exact hus.imp fun _ _ => ih
    · rw [Tree.stripped, stripped_of_view? hview]

variable (hintact : Intact a pool (fun _ => True) root)
  (hshort : ∀ id node, a.Reaches root id → a.node? id = some node → node.kind.Short)

include hintact hshort

theorem fits_of_none {r : Rules} (hnone : ∀ id node, r.replace id node = none) :
    r.plan.Fits a pool root where
  complete _ hid := (hintact.reaches hid).complete
  short := hshort
  trees id node _ _ _ hrep := by cases (hnone id node).symm.trans hrep

/-- The identity answers with the root and adds nothing. -/
theorem run_identity : identity.run root a = .ok (root, a) := by
  have hfits := fits_of_none hintact hshort (r := identity) fun _ _ => rfl
  have halters : ¬identity.plan.Alters a root := Plan.not_alters (fun _ _ => rfl) fun _ => rfl
  rw [run_eq]
  rcases (identity.toPass_enacts.run_maps_root hintact.acyclicFrom hfits ()).cases with
    ⟨r, s', a', hrun, hmapped⟩ | ⟨f, -, hfails⟩
  · obtain ⟨-, hroot, hstill, -⟩ := hmapped.single
    obtain rfl := hroot.2 halters
    obtain rfl := hstill rfl
    rw [hrun]
    rfl
  · exact absurd hfails.1 halters

/-- Stripping takes the variables from the handlers and changes nothing else, unless a table is
full. -/
theorem run_stripCaught : ∃ t, unfold a pool root = some t ∧
    ((∃ r a', stripCaught.run root a = .ok (r, a') ∧ unfold a' pool r = some t.stripped) ∨
      ∃ table size, stripCaught.run root a = .error (.tableFull table size) ∧
        indexLimit ≤ size) := by
  obtain ⟨t, ht⟩ := hintact.exists_unfold
  have hfits := fits_of_none hintact hshort (r := stripCaught) fun _ _ => rfl
  refine ⟨t, ht, ?_⟩
  rw [run_eq]
  rcases (stripCaught.toPass_enacts.run_maps_root hintact.acyclicFrom hfits ()).cases with
    ⟨r, s', a', hrun, hmapped⟩ | ⟨f, hrun, -, table, size, rfl, hfull⟩
  · obtain ⟨⟨u, himage, hu⟩, -⟩ := hmapped.single
    have hdeep := unfoldWithin_grows (.refl a) (.refl pool) (Pass.size_lt_levels a) ht
    obtain rfl := Option.some.inj ((imageWithin_stripCaught hdeep).symm.trans himage)
    rw [hrun]
    exact .inl ⟨r, a', rfl, hu⟩
  · rw [hrun]
    exact .inr ⟨table, size, rfl, hfull⟩

end Rules

end

/-- A sum that is thrown, and is the filter of the handler as well. -/
def guardedThrow : Arena where
  nodes := #[⟨.var ⟨0⟩, .nowhere⟩, ⟨.int 1, .nowhere⟩, ⟨.binary .add ⟨0⟩ ⟨0⟩, ⟨3, 8⟩⟩,
    ⟨.throw ⟨2⟩, .nowhere⟩, ⟨.attempt ⟨3⟩ ⟨0, 1⟩, .nowhere⟩]
  handlerEntries := #[⟨some ⟨1⟩, ⟨1⟩, some ⟨2⟩⟩]
  names := #["x", "error"]

/-- References to `x` become unit, and a reference to `x` takes the place of the literal. -/
def redirect : Rules where
  replace id node :=
    if node.kind = .var ⟨0⟩ then some (.fresh .unit .nowhere)
    else if id = ⟨1⟩ then some (.existing ⟨0⟩)
    else none
  keepsCaught := false

/-- The sum is built anew twice, and the reference that takes the place of the literal stays. -/
theorem run_maps_redirect :
    redirect.toPass.Enacts redirect.plan ∧ guardedThrow.AcyclicFrom ⟨4⟩ ∧
      redirect.plan.Fits guardedThrow {} ⟨4⟩ ∧ ∃ a',
        redirect.toPass.run ⟨4⟩ () guardedThrow = .ok ((⟨12⟩, ()), a') ∧
        unfold a' {} ⟨12⟩ = some (.node .attempt .nowhere
          [.node .throw .nowhere [.node (.binary .add) ⟨3, 8⟩
            [.node .unit .nowhere [], .node .unit .nowhere []]],
          .node (.handler none) .nowhere [.node (.var ⟨0⟩) .nowhere [],
            .node (.binary .add) ⟨3, 8⟩
              [.node .unit .nowhere [], .node .unit .nowhere []]]]) := by
  have hvalid : validate guardedThrow {} ⟨4⟩ = .ok () := rfl
  have hintact : Intact guardedThrow {} (fun _ => True) ⟨4⟩ :=
    (Intact.of_validateWithin hvalid).mono (.refl _) fun _ _ => trivial
  have hshort : ∀ node ∈ guardedThrow.nodes, node.kind.Short := by
    simp [guardedThrow, Kind.Short, sliceLimit, UInt16.size]
  have hfits : redirect.plan.Fits guardedThrow {} ⟨4⟩ := by
    refine ⟨fun id hid => (hintact.reaches hid).complete,
      fun id node _ hnode => hshort node (Array.mem_of_getElem? hnode), ?_⟩
    intro id node rep _ _ hrep
    simp only [Rules.plan, redirect] at hrep
    split at hrep
    · obtain rfl := Option.some.inj hrep
      exact ⟨_, rfl⟩
    · split at hrep
      · obtain rfl := Option.some.inj hrep
        exact ⟨_, rfl⟩
      · cases hrep
  have henacts := redirect.toPass_enacts
  obtain ⟨t, ht, hout, -⟩ := Pass.run_maps hintact.acyclicFrom hfits henacts ()
  obtain rfl := Option.some.inj ht
  have hanswer : (redirect.toPass.run ⟨4⟩ () guardedThrow).map (fun r => r.1.1) = .ok ⟨12⟩ := by
    decide +kernel
  refine ⟨henacts, hintact.acyclicFrom, hfits, ?_⟩
  rcases hout with ⟨r, s', a', hrun, -, hunfold, -⟩ | ⟨f, hrun, -⟩
  · rw [hrun] at hanswer
    obtain rfl := Except.ok.inj hanswer
    exact ⟨a', hrun, hunfold⟩
  · rw [hrun] at hanswer
    cases hanswer

end Quotation
