import Quotation.Proofs.Capture.Visit

/-!
# The walk of quoting

The walk visits a fragment that has a tree and answers with one that has the captured tree
(`runWithin_visits`): by induction on the depth, with one step for the children of a node
(`descendKind_runs`), one for building the node anew (`descend_runs`), and one for the scopes that
functions, blocks and handlers open.
-/

namespace Quotation

open QuoteM

variable {frames : List Frame} {storages : List Storage} {declared : VarId → Bool} {n : Nat}
  {ts : List Tree} {branches branches' : List Branch} {s s' : Quoting} {a a' : Arena}

/-! ## Children -/

section
variable {visit : ExprId → QuoteM ExprId} {visitHandler : Handler → QuoteM Handler}

/-- What has become of the children of a node. -/
def Descended (frames : List Frame) (storages : List Storage) (declared : VarId → Bool) (n : Nat)
    (label : Label) (ts : List Tree) (branches : List Branch) (kind kind' : Kind) (s : Quoting)
    (a : Arena) (s' : Quoting) (a' : Arena) : Prop :=
  ∃ branches', Visited frames storages declared n ts (label.listCost ts.length) branches branches'
      s a s' a' ∧
    a'.view? s'.pool kind' = some (label, branches') ∧ (branches' = branches → kind' = kind)

theorem descendKind_runs (hv : Visits frames storages .expr visit declared n)
    (hvh : Visits frames storages .handler visitHandler declared n)
    (hd : s.opened.declares = declared) (hs : s.Sound frames storages) {kind : Kind} {label : Label}
    (hview : a.view? s.pool kind = some (label, branches))
    (hts : List.Forall₂ (RepresentsBranch a (Represents a s.pool n)) branches ts) :
    Runs (descendKind visit visitHandler kind) s a
      (Descended frames storages declared n label ts branches kind · s a)
      (Failing frames storages declared ts (label.listCost ts.length) s a) :=
  ((Visits.descent hv hvh hd hs hts).runs hview).imp
    fun _ _ a' ⟨branches', h, hview', hsame, _⟩ =>
      ⟨branches', h, view?_grows (.refl a') h.advances.pool hview', hsame⟩

/-! ## Building anew -/

/-- The entries of a node that is built anew, and of its list. -/
def nodeCost (label : Label) (children : Nat) (table : Table) : Nat :=
  entries .expressions 1 table + label.listCost children table

/-- What has become of a node whose children have been visited. -/
structure Rebuilt (frames : List Frame) (storages : List Storage) (declared : VarId → Bool)
    (n : Nat) (label : Label) (span : Span) (ts : List Tree) (branches : List Branch)
    (id r : ExprId) (s : Quoting) (a : Arena) (s' : Quoting) (a' : Arena) : Prop where
  advances : Advances frames storages s a s' a' (listsAll declared ts)
    (fun table => costAll table declared ts + nodeCost label ts.length table)
  resolved : firstUnresolved frames storages (capturesAll declared ts) = none
  routable : RoutableAll declared ts
  tree : Represents a' s'.pool (n + 2) r
    (.node label span (captureAll frames storages declared s.nextStamp ts))
  same : capturesAll declared ts = [] → r = id ∧ s' = s ∧ a' = a
  fresh : capturesAll declared ts ≠ [] → a.size ≤ r.index
  below : capturesAll declared ts ≠ [] → ∃ kind branches', a'.node? r = some ⟨kind, span⟩ ∧
    a'.view? s'.pool kind = some (label, branches') ∧ List.Forall₂
      (RewrittenBranch (Rewritten a' s'.pool frames storages s.nextStamp a.size n) declared)
      branches branches'

theorem Failing.node {label : Label} {f : Fault}
    (h : Failing frames storages declared ts (label.listCost ts.length) s a f) :
    Failing frames storages declared ts (nodeCost label ts.length) s a f := by
  intro hadd
  refine h fun hne => ⟨(hadd hne).room.mono fun table => ?_, (hadd hne).short, fun table => ?_⟩
  · rw [nodeCost]
    omega
  · exact Nat.lt_of_le_of_lt (Nat.le_add_left _ _) ((hadd hne).lists table)

theorem descend_runs (hv : Visits frames storages .expr visit declared n)
    (hvh : Visits frames storages .handler visitHandler declared n)
    (hd : s.opened.declares = declared) (hs : s.Sound frames storages) {id : ExprId} {kind : Kind}
    {span : Span} {label : Label} (hnode : a.node? id = some ⟨kind, span⟩)
    (hview : a.view? s.pool kind = some (label, branches)) (hdecl : label.Declared a)
    (hts : List.Forall₂ (RepresentsBranch a (Represents a s.pool n)) branches ts) :
    Runs (descend visit visitHandler id) s a
      (Rebuilt frames storages declared n label span ts branches id · s a)
      (Failing frames storages declared ts (nodeCost label ts.length) s a) := by
  refine Runs.bind (Runs.node hnode (Runs.bind ((descendKind_runs hv hvh hd hs hview hts).mono
    (fun kind' s₁ a₁ ⟨branches', h, hview', hsame⟩ => ?_) fun f hf => hf.node)))
  by_cases hcaps : capturesAll declared ts = []
  · obtain ⟨rfl, rfl, rfl⟩ := h.same hcaps
    obtain rfl := hsame rfl
    rw [if_pos rfl]
    refine Runs.pure ⟨?_, h.resolved, h.routable, ?_, fun _ => ⟨rfl, rfl, rfl⟩,
      fun hne => absurd hcaps hne, fun hne => absurd hcaps hne⟩
    · exact h.advances.mono fun table => Nat.add_le_add_left (Nat.le_add_left _ _) _
    · exact ⟨_, label, branches', _, hnode, hview', hdecl, h.trees, rfl⟩
  · rw [if_neg (h.kind_ne hcaps hview h.advances.pool hview')]
    refine node_runs h.advances.sound (fun r a₂ h₂ hr hnode₂ hrep => ?_) fun f hle => ?_
    · refine ⟨(h.advances.trans h₂).mono fun table => ?_, h.resolved, h.routable, ?_,
        fun hnil => absurd hnil hcaps, fun _ => Nat.le_trans h.advances.arena.nodes.size_le hr,
        fun _ => ⟨kind', branches', hnode₂, view?_grows h₂.arena h₂.pool hview', ?_⟩⟩
      · rw [nodeCost]
        omega
      · exact hrep _ _ _ _ hview' (hdecl.grows h.advances.arena) h.trees
      · exact h.rewritten.imp fun _ _ => RewrittenBranch.imp fun _ _ _ =>
          Rewritten.grows h₂.arena h₂.pool (Nat.le_refl _) (Nat.le_refl _)
    · intro hadd _
      have hlt := h.advances.size_lt (hadd hcaps).room (t := .expressions)
        (by simp [nodeCost, entries])
      exact absurd hle (Nat.not_le_of_lt hlt)

end

/-! ## Declarations -/

theorem Advances.reopened {o : OpenScopes} {lists : Nat} {cost : Table → Nat}
    (h : Advances frames storages { s with opened := o } a s' a' lists cost) :
    Advances frames storages s a { s' with opened := s.opened } a' lists cost :=
  ⟨h.arena, h.pool, rfl, h.sound.grows (.refl _) rfl rfl, h.stamp, h.size⟩

/-- A step that leaves open the scopes that were open. -/
theorem Runs.of_opened {α : Type} {x : QuoteM α} {post : α → Quoting → Arena → Prop}
    {bad : Fault → Prop} (h : Runs x s a
      (fun r s' a' => s'.opened = s.opened ∧ post r { s' with opened := s.opened } a') bad) :
    Runs x s a post bad := by
  refine h.imp fun r s' a' hr => ?_
  obtain ⟨ho, hp⟩ := hr
  rwa [← ho] at hp

theorem declaring_runs {α : Type} {vs : List VarId} {act : QuoteM α}
    {post : α → Quoting → Arena → Prop} {bad : Fault → Prop}
    (h : Runs act { s with opened := s.opened.enter vs } a
      (fun r s' a' => s'.opened = s.opened.enter vs ∧ post r { s' with opened := s.opened } a')
      bad) :
    Runs (declaring vs act) s a post bad := by
  refine Runs.bind (Runs.modify (h.seq fun r s' a' ⟨ho, hp⟩ => ?_))
  refine Runs.bind (Runs.get (Runs.bind (Runs.ofExcept ?_)))
  rw [ho, OpenScopes.exit_enter]
  exact Runs.bind (Runs.modify (Runs.pure hp))

/-- Whether or not a scope is opened for them, `vs` are declared while `down` runs. -/
theorem quoteDeclaring_runs {slice : Slice VarId} {vs : List VarId} {down : QuoteM ExprId}
    {post : ExprId → Quoting → Arena → Prop} {bad : Fault → Prop} (hvs : a.vars? slice = some vs)
    (h : ∀ o : OpenScopes, o.declares = (fun v => vs.contains v || s.opened.declares v) →
      Runs down { s with opened := o } a
        (fun r s' a' => s'.opened = o ∧ post r { s' with opened := s.opened } a') bad) :
    Runs (quoteDeclaring slice down) s a post bad := by
  unfold quoteDeclaring
  split
  · rename_i hempty
    have hlen := Slice.length_of_read? hvs
    rw [Slice.isEmpty, beq_iff_eq] at hempty
    obtain rfl := List.length_eq_zero_iff.1 (hlen.trans hempty)
    exact .of_opened (h s.opened (by simp))
  · exact Runs.bind (Runs.vars hvs (declaring_runs (h _ (funext (s.opened.declares_enter vs)))))

/-- The variable that a handler catches is declared while the walk goes down into the handler. -/
theorem onHandler_runs [Tracing] {h : Handler} {down : QuoteM Handler}
    {post : Handler → Quoting → Arena → Prop} {bad : Fault → Prop}
    (hd : s.opened.declares = declared)
    (hdown : ∀ o : OpenScopes, o.declares = (Label.handler h.caught).under declared →
      Runs down { s with opened := o } a
        (fun h' s' a' => s'.opened = o ∧ post h' { s' with opened := s.opened } a') bad) :
    Runs ((quotePass frames storages).onHandler h down) s a post bad := by
  cases hc : h.caught with
  | none =>
    rw [hc] at hdown
    simp only [quotePass, hc]
    exact .of_opened (hdown s.opened (by rw [hd]; rfl))
  | some v =>
    rw [hc] at hdown
    simp only [quotePass, hc]
    exact declaring_runs (hdown _ (by rw [← hd]; exact funext (s.opened.declares_enter [v])))

/-! ## One node -/

section
variable {label : Label} {span : Span}

theorem Label.under_eq_self (h : label.declares = []) : label.under declared = declared := by
  funext v
  simp [under, h]

theorem captures_node (h : label.isReference = false) :
    (Tree.node label span ts).captures declared = capturesAll (label.under declared) ts := by
  cases label <;> first | rfl | cases h

theorem lists_node (h : label.isReference = false) :
    (Tree.node label span ts).lists declared = listsAll (label.under declared) ts := by
  cases label <;> first | exact Nat.zero_add _ | cases h

theorem capture_node {stamp : Stamp} (h : label.isReference = false) :
    (Tree.node label span ts).capture frames storages declared stamp =
      .node label span (captureAll frames storages (label.under declared) stamp ts) := by
  cases label <;> first | rfl | cases h

theorem cost_node {table : Table} (h : label.isReference = false) :
    (Tree.node label span ts).cost table declared =
      if (capturesAll (label.under declared) ts).isEmpty then 0
      else label.cost ts.length table + costAll table (label.under declared) ts := by
  rw [Tree.cost, captures_node h]

theorem routable_node (h : label.isReference = false)
    (hts : RoutableAll (label.under declared) ts) :
    (Tree.node label span ts).Routable declared := by
  refine ⟨?_, hts⟩
  rw [Label.refers_eq_nil h]
  exact ⟨Nat.zero_le _, Nat.zero_le _⟩

/-- A node has been visited once its children have been, under what it declares. -/
theorem Visited.node (href : label.isReference = false) {b b' : Branch}
    (hadv : Advances frames storages s a s' a' (listsAll (label.under declared) ts)
      (fun table => costAll table (label.under declared) ts + label.cost ts.length table))
    (hres : firstUnresolved frames storages (capturesAll (label.under declared) ts) = none)
    (hroutable : RoutableAll (label.under declared) ts)
    (htree : RepresentsBranch a' (Represents a' s'.pool (n + 1)) b'
      (.node label span (captureAll frames storages (label.under declared) s.nextStamp ts)))
    (hrew : RewrittenBranch (Rewritten a' s'.pool frames storages s.nextStamp a.size n) declared
      b b')
    (hsame : capturesAll (label.under declared) ts = [] → b' = b ∧ s' = s ∧ a' = a)
    (hchanged : capturesAll (label.under declared) ts ≠ [] → b' ≠ b ∧ a.size < a'.size) :
    Visited frames storages declared n [.node label span ts] nothing [b] [b'] s a s' a' where
  advances := by
    rw [listsAll, listsAll, lists_node href, Nat.add_zero]
    by_cases hcaps : capturesAll (label.under declared) ts = []
    · obtain ⟨-, rfl, rfl⟩ := hsame hcaps
      exact { hadv with size := fun _ => Nat.le_add_right _ _ }
    · refine hadv.mono fun table => ?_
      rw [costAll, costAll, cost_node href, if_neg (by simpa using hcaps)]
      omega
  resolved := by rwa [capturesAll, capturesAll, captures_node href, List.append_nil]
  routable := ⟨routable_node href hroutable, trivial⟩
  trees := by
    rw [captureAll, captureAll, capture_node href]
    exact .cons htree .nil
  rewritten := .cons hrew .nil
  same h := by
    rw [capturesAll, capturesAll, captures_node href, List.append_nil] at h
    obtain ⟨rfl, rfl, rfl⟩ := hsame h
    exact ⟨rfl, rfl, rfl⟩
  changed h := by
    rw [capturesAll, capturesAll, captures_node href, List.append_nil] at h
    exact (hchanged h).imp_left fun hne heq => hne (List.cons.inj heq).1

theorem Failing.of_children (href : label.isReference = false) {extra : Table → Nat} {f : Fault}
    (hcost : ∀ table, extra table ≤ label.cost ts.length table)
    (hshort : label.listLength ts.length < sliceLimit → ∀ table, extra table < sliceLimit)
    (h : Failing frames storages (label.under declared) ts extra s a f) :
    Failing frames storages declared [.node label span ts] nothing s a f := by
  intro hadd hroutable
  rw [capturesAll, capturesAll, captures_node href, List.append_nil] at hadd ⊢
  refine h (fun hne => ?_) hroutable.1.2
  obtain ⟨hroom, ⟨hlists, -⟩, -⟩ := hadd hne
  refine ⟨hroom.mono fun table => ?_, hlists.2, hshort hlists.1⟩
  have hle := hcost table
  rw [costAll, costAll, cost_node href, if_neg (by simpa using hne)]
  omega

end

section
variable {visit : ExprId → QuoteM ExprId}

theorem forall₂_map_expr {R : ExprId → Tree → Prop} {ids : List ExprId} :
    List.Forall₂ (RepresentsBranch a R) (ids.map .expr) ts ↔ List.Forall₂ R ids ts :=
  List.forall₂_map_left_iff

/-- A handler is visited with the variable that it catches declared. -/
theorem handler_visits [Tracing] (hv : ∀ declared, Visits frames storages .expr visit declared n) :
    Visits frames storages .handler
      (fun h => (quotePass frames storages).onHandler h (descendHandler visit h)) declared n := by
  intro h t s a hd hs ht
  obtain ⟨hdecl, ts, hts, rfl⟩ := ht
  have hts' : List.Forall₂ (RepresentsBranch a _) _ ts := forall₂_map_expr.2 hts
  -- whatever scopes are open while the handler is visited, they declare what it catches
  refine onHandler_runs hd fun o ho => ?_
  have hs' : Quoting.Sound frames storages { s with opened := o } := hs.grows (.refl _) rfl rfl
  refine (descendHandler_runs (I := fun done answers => Visited frames storages _ n
    (ts.take done.length) nothing done answers _ a) (.nil hs') fun hdone hsplit =>
    (hv _).next (s := { s with opened := o }) ho hts' hdone hsplit).mono (fun h' s' a' hdown => ?_)
    fun f hf => Failing.of_children rfl (fun _ => Nat.zero_le _)
      (fun _ _ => by simp [sliceLimit, UInt16.size]) hf
  obtain ⟨hvis, hcaught, hsame⟩ := hdown
  rw [hts'.length_eq, List.take_length] at hvis
  have hlen := hvis.length
  refine ⟨hvis.advances.opened, .node rfl (hvis.advances.reopened.mono fun table => ?_)
    hvis.resolved hvis.routable ?_ ?_ (fun hnil => ?_) fun hne => ?_⟩
  · exact Nat.add_le_add_left (Nat.zero_le _) _
  · refine ⟨?_, _, forall₂_map_expr.1 hvis.trees, ?_⟩
    · rw [hcaught]
      exact hdecl.grows hvis.advances.arena
    · rw [hcaught]
  · exact ⟨hcaught, forall₂_rewrittenBranch_expr.1 hvis.rewritten⟩
  · obtain ⟨heq, rfl, rfl⟩ := hvis.same hnil
    rw [hsame (List.map_injective_iff.2 (fun _ _ h => Branch.expr.inj h) heq)]
    exact ⟨rfl, rfl, rfl⟩
  · refine ⟨fun heq => (hvis.changed hne).1 ?_, (hvis.changed hne).2⟩
    rw [Branch.handler.inj heq]

end

/-! ## All levels -/

/-- Nodes that are built anew when a captured variable is below them. -/
def Label.isInner : Label → Bool
  | .var _ | .cellList _ | .handler _ => false
  | _ => true

theorem nodeCost_inner {label : Label} (h : label.isInner) (k : Nat) (table : Table) :
    nodeCost label k table = label.cost k table := by
  cases label <;> cases table <;>
    simp_all [nodeCost, entries, Label.listCost, Label.cost, Label.isInner]

theorem nodeCost_lt {label : Label} {k : Nat} (h : label.listLength k < sliceLimit)
    (table : Table) : nodeCost label k table < sliceLimit := by
  cases label <;> cases table <;>
    simp_all [nodeCost, entries, Label.listCost, Label.listLength, sliceLimit, UInt16.size]

theorem Represents.index_lt {pool : Pool} {id : ExprId} {t : Tree} (h : Represents a pool n id t) :
    id.index < a.size := by
  cases n with
  | zero => exact h.elim
  | succ n =>
    obtain ⟨_, _, _, _, hnode, _⟩ := h
    exact Arena.index_lt_of_node? hnode

/-- A reference is quoted, and from any other node the walk goes down with what the node declares
open. -/
theorem onNode_runs [Tracing] {pool : Pool} {id : ExprId} {kind : Kind} {span : Span}
    {label : Label} {down : QuoteM ExprId} {post : ExprId → Quoting → Arena → Prop}
    {bad : Fault → Prop}
    (hd : s.opened.declares = declared) (hnode : a.node? id = some ⟨kind, span⟩)
    (hview : a.view? pool kind = some (label, branches))
    (hvar : ∀ v, kind = .var v → label = .var v → branches = [] →
      Runs (quoteVar frames storages id span v) s a post bad)
    (hlist : ∀ slice vars, kind = .cellList slice → a.vars? slice = some vars →
      label = .cellList vars → branches = [] →
      Runs (quoteCellList frames storages id span slice) s a post bad)
    (hdown : label.isInner → ∀ o : OpenScopes, o.declares = label.under declared →
      Runs down { s with opened := o } a
        (fun r s' a' => s'.opened = o ∧ post r { s' with opened := s.opened } a') bad) :
    Runs ((quotePass frames storages).onNode id down) s a post bad := by
  have hplain := fun hinner (hnone : label.declares = []) =>
    Runs.of_opened (hdown hinner s.opened (hd.trans (Label.under_eq_self hnone).symm))
  refine Runs.bind (Runs.node hnode ?_)
  cases kind with
  | var v =>
    obtain ⟨hlabel, hbranches⟩ := Prod.mk.inj (Option.some.inj hview)
    exact hvar v rfl hlabel.symm hbranches.symm
  | cellList slice =>
    obtain ⟨vars, hvars, rfl, rfl⟩ := view?_cellList.1 hview
    exact hlist slice vars rfl hvars rfl rfl
  | lambda params body name =>
    obtain ⟨vs, hvs, rfl, rfl⟩ := view?_lambda.1 hview
    exact quoteDeclaring_runs hvs fun o ho => hdown rfl o (ho.trans (by rw [hd]; rfl))
  | block locals body =>
    obtain ⟨vs, ids, hvs, hids, rfl, rfl⟩ := view?_block.1 hview
    exact quoteDeclaring_runs hvs fun o ho => hdown rfl o (ho.trans (by rw [hd]; rfl))
  | call callee args =>
    obtain ⟨ids, hids, rfl, rfl⟩ := view?_call.1 hview
    exact hplain rfl rfl
  | attempt body handlers =>
    obtain ⟨hs, hhs, rfl, rfl⟩ := view?_attempt.1 hview
    exact hplain rfl rfl
  | constant c =>
    obtain ⟨v, hv, rfl, rfl⟩ := view?_constant.1 hview
    exact hplain rfl rfl
  | _ =>
    obtain ⟨rfl, rfl⟩ := Prod.mk.inj (Option.some.inj hview)
    exact hplain rfl rfl

section
variable {visit : ExprId → QuoteM ExprId} {visitHandler : Handler → QuoteM Handler}

/-- A node that is not a reference, with what it declares open. -/
theorem descend_visits (hv : ∀ declared, Visits frames storages .expr visit declared n)
    (hvh : ∀ declared, Visits frames storages .handler visitHandler declared n)
    (hs : s.Sound frames storages) {id : ExprId} {kind : Kind} {span : Span} {label : Label}
    (hinner : label.isInner) (hnode : a.node? id = some ⟨kind, span⟩)
    (hview : a.view? s.pool kind = some (label, branches)) (hdecl : label.Declared a)
    (hts : List.Forall₂ (RepresentsBranch a (Represents a s.pool n)) branches ts)
    {o : OpenScopes} (ho : o.declares = label.under declared) :
    Runs (descend visit visitHandler id) { s with opened := o } a
      (fun r s' a' => s'.opened = o ∧ Visited frames storages declared (n + 1)
        [.node label span ts] nothing [.expr id] [.expr r] s a { s' with opened := s.opened } a')
      (Failing frames storages declared [.node label span ts] nothing s a) := by
  have hs' : Quoting.Sound frames storages { s with opened := o } := hs.grows (.refl _) rfl rfl
  have href : label.isReference = false := by cases label <;> first | rfl | cases hinner
  refine (descend_runs (hv _) (hvh _) ho hs' hnode hview hdecl hts).mono
    (fun r s' a' h => ⟨h.advances.opened, ?_⟩) fun f hf => ?_
  · refine .node href (h.advances.reopened.mono fun table => ?_) h.resolved h.routable h.tree
      ⟨.node label span ts, ?_, fun hnil => ?_, fun hne => ?_⟩ (fun hnil => ?_)
      fun hne => ⟨?_, ?_⟩
    · exact Nat.le_of_eq (by rw [nodeCost_inner hinner])
    · exact h.advances.represents ⟨_, label, branches, ts, hnode, hview, hdecl, hts, rfl⟩
    · rw [captures_node href] at hnil
      exact (h.same hnil).1
    · rw [captures_node href] at hne
      obtain ⟨kind', branches', hnode', hview', hbelow⟩ := h.below hne
      exact ⟨h.fresh hne, .inner (h.advances.arena.node? hnode)
        (view?_grows h.advances.arena h.advances.pool hview) href hnode' hview' hbelow⟩
    · obtain ⟨rfl, rfl, rfl⟩ := h.same hnil
      exact ⟨rfl, rfl, rfl⟩
    · rintro heq
      obtain rfl := Branch.expr.inj heq
      exact absurd (Arena.index_lt_of_node? hnode) (Nat.not_lt_of_le (h.fresh hne))
    · exact Nat.lt_of_le_of_lt (h.fresh hne) h.tree.index_lt
  · exact Failing.of_children href (fun table => Nat.le_of_eq (nodeCost_inner hinner _ table))
      (fun hlt table => nodeCost_lt hlt table) hf

end

/-- A reference that is answered with `r`. -/
theorem Visited.reference {t : Tree} {id r : ExprId} (hid : id.index < a.size)
    (hadv : Advances frames storages s a s' a' (t.lists declared) (t.cost · declared))
    (hres : firstUnresolved frames storages (t.captures declared) = none)
    (hroutable : t.Routable declared)
    (htree : Represents a' s'.pool (n + 1) r (t.capture frames storages declared s.nextStamp))
    (hrew : Rewritten a' s'.pool frames storages s.nextStamp a.size n declared id r)
    (hsame : t.captures declared = [] → r = id ∧ s' = s ∧ a' = a)
    (hfresh : t.captures declared ≠ [] → a.size ≤ r.index) :
    Visited frames storages declared n [t] nothing [.expr id] [.expr r] s a s' a' where
  advances := hadv.mono fun table => Nat.le_refl _
  resolved := by rwa [capturesAll_singleton]
  routable := ⟨hroutable, trivial⟩
  trees := .cons htree .nil
  rewritten := .cons hrew .nil
  same h := by
    obtain ⟨rfl, rfl, rfl⟩ := hsame (capturesAll_singleton ▸ h)
    exact ⟨rfl, rfl, rfl⟩
  changed h := by
    rw [capturesAll_singleton] at h
    refine ⟨fun heq => ?_, Nat.lt_of_le_of_lt (hfresh h) htree.index_lt⟩
    obtain rfl := Branch.expr.inj (List.cons.inj heq).1
    exact absurd hid (Nat.not_lt_of_le (hfresh h))

theorem routable_var {v : VarId} {span : Span} :
    (Tree.node (.var v) span []).Routable declared :=
  ⟨.of_length (by simp [Label.refers, Route.limit, UInt64.size]), trivial⟩

theorem quoteVar_visits [Tracing] (hs : s.Sound frames storages) {id : ExprId} {span : Span}
    {v : VarId} (hnode : a.node? id = some ⟨.var v, span⟩)
    (hrep : Represents a s.pool (n + 1) id (.node (.var v) span []))
    (hdecl : (Label.var v).Declared a) :
    Runs (quoteVar frames storages id span v) s a
      (fun r s' a' => Visited frames storages s.opened.declares (n + 1) [.node (.var v) span []]
        nothing [.expr id] [.expr r] s a s' a')
      (Failing frames storages s.opened.declares [.node (.var v) span []] nothing s a) := by
  have hcaptures : (Tree.node (.var v) span []).captures s.opened.declares =
      [v].filter fun v => !s.opened.declares v := List.append_nil _
  refine quoteVar_runs hs (hdecl v (by simp [Label.vars])) (fun hd => ?_)
    (fun c r s' a' hd hc hadv hr htree => ?_) fun f hd hf => ?_
  · have hnil : (Tree.node (.var v) span []).captures s.opened.declares = [] := by
      rw [hcaptures, List.filter_cons_of_neg (by simp [hd]), List.filter_nil]
    refine .reference hrep.index_lt ((Advances.refl hs).mono fun _ => Nat.zero_le _) ?_
      routable_var ?_ (.same hrep hnil) (fun _ => ⟨rfl, rfl, rfl⟩) fun hne => absurd hnil hne
    · rw [hnil]
      rfl
    · simpa [Tree.capture, Label.replacement, hd, captureAll] using
        hrep.grows (.refl a) (.refl _) (Nat.le_succ _)
  · have hone : (Tree.node (.var v) span []).captures s.opened.declares = [v] := by
      rw [hcaptures, List.filter_cons_of_pos (by simp [hd]), List.filter_nil]
    refine .reference hrep.index_lt (hadv.mono fun table => ?_) ?_ routable_var ?_
      ⟨_, hadv.represents hrep, fun hnil => ?_, fun _ => ⟨hr, ?_⟩⟩ (fun hnil => ?_) fun _ => hr
    · simp [Tree.cost, hone, costAll]
    · rw [hone]
      exact firstUnresolved_of_cellOf hc
    · simpa [Tree.capture, Label.replacement, hd, hc] using htree n
    · rw [hone] at hnil
      cases hnil
    · exact .cell (hadv.arena.node? hnode) hd hc (htree 0)
    · rw [hone] at hnil
      cases hnil
  · have hone : (Tree.node (.var v) span []).captures s.opened.declares = [v] := by
      rw [hcaptures, List.filter_cons_of_pos (by simp [hd]), List.filter_nil]
    intro hadd _
    rw [capturesAll_singleton, hone] at hadd ⊢
    refine hf ((hadd (by simp)).room.mono fun table => ?_)
    simp [costAll, Tree.cost, hone]

theorem quoteCellList_visits (hs : s.Sound frames storages) {id : ExprId} {span : Span}
    {slice : Slice VarId} {vars : List VarId} (hnode : a.node? id = some ⟨.cellList slice, span⟩)
    (hvars : a.vars? slice = some vars)
    (hrep : Represents a s.pool (n + 1) id (.node (.cellList vars) span []))
    (hdecl : (Label.cellList vars).Declared a) :
    Runs (quoteCellList frames storages id span slice) s a
      (fun r s' a' => Visited frames storages s.opened.declares (n + 1)
        [.node (.cellList vars) span []] nothing [.expr id] [.expr r] s a s' a')
      (Failing frames storages s.opened.declares [.node (.cellList vars) span []] nothing s a) := by
  have hcaptures : (Tree.node (.cellList vars) span []).captures s.opened.declares =
      vars.filter fun v => !s.opened.declares v := List.append_nil _
  refine quoteCellList_runs hs hvars hdecl (fun hnil hroutable => ?_)
    (fun r s' a' hne hres hroutable hadv hr htree => ?_) fun f hf => ?_
  · have hall : vars.all s.opened.declares = true := by simpa using hnil
    have hlists : (Tree.node (.cellList vars) span []).lists s.opened.declares = 0 := by
      simp [Tree.lists, Label.lists, hall, listsAll]
    refine .reference hrep.index_lt ?_ ?_ ⟨hroutable, trivial⟩ ?_
      (.same hrep (hcaptures.trans hnil))
      (fun _ => ⟨rfl, rfl, rfl⟩) fun hne => absurd (hcaptures.trans hnil) hne
    · rw [hlists]
      exact (Advances.refl hs).mono fun _ => Nat.zero_le _
    · rw [hcaptures, hnil]
      rfl
    · rw [Tree.capture, Label.replacement, if_pos hall]
      exact hrep.grows (.refl a) (.refl _) (Nat.le_succ _)
  · have hall : ¬vars.all s.opened.declares = true := by simpa using hne
    have hlists : (Tree.node (.cellList vars) span []).lists s.opened.declares = 1 := by
      simp [Tree.lists, Label.lists, hall, listsAll]
    have hcells : ∀ v ∈ vars, s.opened.declares v = false → (cellOf frames storages v).isSome :=
      fun v hv hd => isSome_cellOf_iff.2 <| firstUnresolved_eq_none.1 hres v <|
        List.mem_filter.2 ⟨hv, by simpa using hd⟩
    refine .reference hrep.index_lt ?_ ?_ ⟨hroutable, trivial⟩ ?_ ⟨_, hadv.represents hrep,
      fun hnil => absurd (hcaptures.symm.trans hnil) hne,
      fun _ => ⟨hr, .list (hadv.arena.node? hnode) (hadv.arena.vars? hvars) hcells hroutable
        (Nat.le_refl _) (htree 0)⟩⟩
      (fun hnil => absurd (hcaptures.symm.trans hnil) hne) fun _ => hr
    · rw [hlists]
      refine hadv.mono fun table => ?_
      rw [Tree.cost, hcaptures, if_neg (by simpa using hne)]
      exact Nat.le_add_right _ _
    · rwa [hcaptures]
    · rw [Tree.capture, Label.replacement, if_neg hall]
      exact htree n
  · intro hadd hroutable
    rw [capturesAll_singleton, hcaptures] at hadd ⊢
    refine hf (fun hne => ⟨(hadd hne).room.mono fun table => ?_, (hadd hne).short.1.1⟩)
      hroutable.1.1
    rw [costAll, costAll, Tree.cost, hcaptures, if_neg (by simpa using hne)]
    exact Nat.le_add_right _ _

/-- The walk visits every fragment that has a tree. -/
theorem runWithin_visits [Tracing] {m : Nat} (h : n ≤ m) :
    Visits frames storages .expr ((quotePass frames storages).runWithin m) declared n := by
  induction n generalizing m declared with
  | zero => exact fun _ _ _ _ _ _ ht => ht.elim
  | succ n ih =>
    obtain ⟨m, rfl⟩ := Nat.exists_eq_add_of_le' (Nat.lt_of_lt_of_le (Nat.zero_lt_succ n) h)
    have hv : ∀ declared, Visits frames storages .expr
        ((quotePass frames storages).runWithin m) declared n := fun _ => ih (by omega)
    have hvh : ∀ declared, Visits frames storages .handler _ declared n :=
      fun _ => handler_visits hv
    intro id t s a hd hs ht
    have hrep : Represents a s.pool (n + 1) id t := ht
    obtain ⟨⟨kind, span⟩, label, branches, ts, hnode, hview, hdecl, hts, rfl⟩ := ht
    refine onNode_runs hd hnode hview (fun v hkind hlabel hnil => ?_)
      (fun slice vars hkind hvars hlabel hnil => ?_)
      fun hinner o ho => descend_visits hv hvh hs hinner hnode hview hdecl hts ho
    · subst hkind hlabel hnil
      cases hts
      exact hd ▸ quoteVar_visits hs hnode hrep hdecl
    · subst hkind hlabel hnil
      cases hts
      exact hd ▸ quoteCellList_visits hs hnode hvars hrep hdecl

end Quotation
