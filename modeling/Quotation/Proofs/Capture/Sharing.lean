import Quotation.Proofs.Capture.Quote

/-!
# Sharing

A quoted fragment shares with the fragment it was made from exactly what refers to no captured
variable (`quote_shares`): at each place of the unfolded fragment the node is still the same if
nothing is captured at or below it, and a new one otherwise. A place is a path from the root, each
step of which is a position among the branches of a node or a handler; the same path leads to the
same place in the fragment, in its tree, and in the quoted fragment.
-/

namespace Quotation

/-! ## Places -/

/-- The branches right below a branch. -/
def Arena.below? (a : Arena) (pool : Pool) : Branch → Option (List Branch)
  | .expr id => do return (← a.view? pool (← a.node? id).kind).2
  | .handler h => some (h.exprs.map .expr)

/-- The branch at the end of a path that starts from a branch. -/
def Arena.at? (a : Arena) (pool : Pool) : Branch → List Nat → Option Branch
  | b, [] => some b
  | b, i :: path => do a.at? pool (← (← a.below? pool b)[i]?) path

/-- The tree at the end of a path, and the variables that are declared around it. -/
def Tree.at? : Tree → (VarId → Bool) → List Nat → Option (Tree × (VarId → Bool))
  | t, declared, [] => some (t, declared)
  | .node l _ ts, declared, i :: path => do (← ts[i]?).at? (l.under declared) path

theorem Arena.at?_cons {a : Arena} {pool : Pool} {b x : Branch} {i : Nat} {path : List Nat} :
    a.at? pool b (i :: path) = some x ↔
      ∃ bs c, a.below? pool b = some bs ∧ bs[i]? = some c ∧ a.at? pool c path = some x := by
  simp only [Arena.at?, Option.bind_eq_bind, Option.bind_eq_some_iff]
  constructor
  · rintro ⟨bs, hbs, c, hc, hx⟩
    exact ⟨bs, c, hbs, hc, hx⟩
  · rintro ⟨bs, c, hbs, hc, hx⟩
    exact ⟨bs, hbs, c, hc, hx⟩

theorem Arena.below?_expr {a : Arena} {pool : Pool} {id : ExprId} {node : Node} {label : Label}
    {branches : List Branch} (hnode : a.node? id = some node)
    (hview : a.view? pool node.kind = some (label, branches)) :
    a.below? pool (.expr id) = some branches := by
  simp [Arena.below?, hnode, hview]

/-! ## The same place before and after -/

section
variable {arena a : Arena} {pool p : Pool} {frames : List Frame} {storages : List Storage}

/-- Each branch below a branch has been answered by the one in its place below the answer, and
stands for the tree in that place. -/
theorem RewrittenBranch.below? (ha : arena.Grows a) (hp : pool.Grows p) {first : Stamp}
    {size n : Nat} {declared : VarId → Bool} {b b' c : Branch} {t : Tree} {bs : List Branch}
    {i : Nat} (ht : RepresentsBranch arena (Represents arena pool n) b t)
    (hb : RewrittenBranch (Rewritten a p frames storages first size n) declared b b')
    (hbs : arena.below? pool b = some bs) (hc : bs[i]? = some c) :
    ∃ m l span ts bs' c' u, m ≤ n ∧ t = .node l span ts ∧ ts[i]? = some u ∧
      RepresentsBranch arena (Represents arena pool m) c u ∧
      a.below? p b' = some bs' ∧ bs'[i]? = some c' ∧
      RewrittenBranch (Rewritten a p frames storages first size m) (l.under declared) c c' := by
  cases b with
  | handler h =>
    cases b' with
    | expr r => exact hb.elim
    | handler k =>
      obtain ⟨-, ts, hts, rfl⟩ := ht
      obtain rfl := Option.some.inj hbs
      obtain ⟨u, hu, hcu⟩ := forall₂_getElem? (forall₂_map_expr.2 hts) hc
      obtain ⟨c', hc', hcc'⟩ := forall₂_getElem? (forall₂_rewrittenBranch_expr.2 hb.2) hc
      exact ⟨n, _, _, ts, _, c', u, Nat.le_refl n, rfl, hu, hcu, rfl, hc', hcc'⟩
  | expr id =>
    cases b' with
    | handler k => exact hb.elim
    | expr r =>
      cases n with
      | zero => exact ht.elim
      | succ k =>
        have hid : Represents arena pool (k + 1) id t := ht
        obtain ⟨node, label, branches, ts, hnode, hview, -, hts, rfl⟩ := ht
        obtain rfl := Option.some.inj (hbs.symm.trans (Arena.below?_expr hnode hview))
        obtain ⟨u, hu, hcu⟩ := forall₂_getElem? hts hc
        obtain ⟨t', ht', hsame, hnew⟩ :
          Rewritten a p frames storages first size (k + 1) declared id r := hb
        obtain rfl := ht'.unique (hid.grows ha hp (Nat.le_refl _))
        have hnode' := ha.node? hnode
        have hview' := view?_grows ha hp hview
        by_cases hnil : (Tree.node label node.span ts).captures declared = []
        · obtain rfl := hsame hnil
          have hunil : u.captures (label.under declared) = [] :=
            capturesAll_eq_nil.1 (List.append_eq_nil_iff.1 hnil).2 u (List.mem_of_getElem? hu)
          exact ⟨k, label, _, ts, bs, c, u, Nat.le_succ k, rfl, hu, hcu,
            Arena.below?_expr hnode' hview', hc,
            .same (hcu.grows ha fun _ _ h => h.grows ha hp (Nat.le_refl k)) hunil⟩
        · cases (hnew hnil).2 with
          | cell node' _ _ _ =>
            obtain rfl := Option.some.inj (hnode'.symm.trans node')
            obtain ⟨-, rfl⟩ := Prod.mk.inj (Option.some.inj hview)
            cases hc
          | list node' _ _ _ _ _ =>
            obtain rfl := Option.some.inj (hnode'.symm.trans node')
            obtain ⟨-, -, -, rfl⟩ := view?_cellList.1 hview'
            cases hc
          | inner node' view _ noder viewr below =>
            obtain rfl := Option.some.inj (hnode'.symm.trans node')
            obtain ⟨rfl, rfl⟩ := Prod.mk.inj (Option.some.inj (hview'.symm.trans view))
            obtain ⟨c', hc', hcc'⟩ := forall₂_getElem? below hc
            exact ⟨k, label, _, ts, _, c', u, Nat.le_succ k, rfl, hu, hcu,
              Arena.below?_expr noder viewr, hc', hcc'⟩

/-- What is at a place has been answered by what is at that place afterwards. -/
theorem RewrittenBranch.at? (ha : arena.Grows a) (hp : pool.Grows p) {first : Stamp}
    {size n : Nat} {declared : VarId → Bool} {b b' x : Branch} {t : Tree} {path : List Nat}
    (ht : RepresentsBranch arena (Represents arena pool n) b t)
    (hb : RewrittenBranch (Rewritten a p frames storages first size n) declared b b')
    (hx : arena.at? pool b path = some x) :
    ∃ m u declared' x', m ≤ n ∧ t.at? declared path = some (u, declared') ∧
      RepresentsBranch arena (Represents arena pool m) x u ∧
      a.at? p b' path = some x' ∧
      RewrittenBranch (Rewritten a p frames storages first size m) declared' x x' := by
  induction path generalizing n declared b b' t with
  | nil =>
    obtain rfl := Option.some.inj hx
    exact ⟨n, t, declared, b', Nat.le_refl n, rfl, ht, rfl, hb⟩
  | cons i path ih =>
    obtain ⟨bs, c, hbs, hc, hx⟩ := Arena.at?_cons.1 hx
    obtain ⟨k, l, span, ts, bs', c', u, hk, rfl, hu, hcu, hbs', hc', hcc'⟩ :=
      RewrittenBranch.below? ha hp ht hb hbs hc
    obtain ⟨m, v, declared', x', hm, hv, hxv, hx', hxx'⟩ := ih hcu hcc' hx
    exact ⟨m, v, declared', x', Nat.le_trans hm hk, by simpa [Tree.at?, hu] using hv, hxv,
      Arena.at?_cons.2 ⟨bs', c', hbs', hc', hx'⟩, hxx'⟩

end

/-! ## The quoted fragment -/

section
variable {frames : List Frame} {storages : List Storage} {arena : Arena} {pool : Pool}
  {stamp : Stamp} {root : ExprId} {q : Quoted}

/-- If quoting yields something, it is what the walk has made of the root. -/
theorem quote_visited [Tracing] (hvalid : validate arena pool root = .ok ())
    (hq : quote frames storages arena pool stamp root = .ok q) :
    ∃ t s, Represents arena pool (arena.size + 1) root t ∧ s.pool = q.pool ∧
      Visited frames storages undeclared (arena.size + 1) [t] nothing [.expr root] [.expr q.root]
        { pool, nextStamp := stamp } arena s q.arena := by
  obtain ⟨t, ht⟩ := exists_represents hvalid
  rw [quote_eq] at hq
  obtain ⟨s, hrun, hpool, -⟩ := Quoted.ofRun_eq_ok hq
  exact ⟨t, s, ht, hpool, (run_visits frames storages stamp ht).of_ok hrun⟩

/-- At each place the quoted fragment has the same node as before if nothing is captured at or below
it, and a new node otherwise. Nothing is added if nothing is captured at all. -/
theorem quote_shares [Tracing] (hvalid : validate arena pool root = .ok ())
    (hq : quote frames storages arena pool stamp root = .ok q) :
    ∃ t, unfold arena pool root = some t ∧
      (∀ path id, arena.at? pool (.expr root) path = some (.expr id) → ∃ u declared r,
        t.at? undeclared path = some (u, declared) ∧ unfold arena pool id = some u ∧
        q.arena.at? q.pool (.expr q.root) path = some (.expr r) ∧
        (r = id ↔ u.captures declared = []) ∧
        (u.captures declared ≠ [] → arena.size ≤ r.index)) ∧
      (q.root = root ↔ t.captures undeclared = []) ∧
      (t.captures undeclared = [] → q.arena = arena ∧ q.pool = pool) := by
  obtain ⟨t, s, ht, hpool, hvisited⟩ := quote_visited hvalid hq
  obtain ⟨hroot, -⟩ := List.forall₂_cons.1 hvisited.rewritten
  have ha := hvisited.advances.arena
  have hp : pool.Grows q.pool := hpool ▸ hvisited.advances.pool
  have hbranch :
      RepresentsBranch arena (Represents arena pool (arena.size + 1)) (.expr root) t := ht
  rw [hpool] at hroot
  refine ⟨t, unfold_of_represents ht, fun path id hid => ?_, ⟨fun heq => ?_, fun hnil => ?_⟩,
    fun hnil => ?_⟩
  · obtain ⟨m, u, declared, x', hm, hu, hidu, hx', hxx'⟩ :=
      RewrittenBranch.at? ha hp hbranch hroot hid
    cases x' with
    | handler h => exact hxx'.elim
    | expr r =>
      cases m with
      | zero => exact hidu.elim
      | succ m =>
        have hid' : Represents arena pool (m + 1) id u := hidu
        obtain ⟨u', hu', hsame, hnew⟩ :
          Rewritten q.arena q.pool frames storages stamp arena.size (m + 1) declared id r := hxx'
        obtain rfl := hu'.unique (hid'.grows ha hp (Nat.le_refl _))
        refine ⟨_, declared, r, hu, unfold_of_represents (hid'.grows (.refl _) (.refl _) hm), hx',
          ⟨fun heq => ?_, hsame⟩, fun hne => (hnew hne).1⟩
        by_contra hne
        exact absurd hid'.index_lt (heq ▸ Nat.not_lt_of_le (hnew hne).1)
  · by_contra hne
    have hcaps : capturesAll undeclared [t] ≠ [] := by
      rwa [capturesAll, capturesAll, List.append_nil]
    exact (hvisited.changed hcaps).1 (by rw [heq])
  · have hcaps : capturesAll undeclared [t] = [] := by
      rwa [capturesAll, capturesAll, List.append_nil]
    exact Branch.expr.inj (List.cons.inj (hvisited.same hcaps).1).1
  · have hcaps : capturesAll undeclared [t] = [] := by
      rwa [capturesAll, capturesAll, List.append_nil]
    obtain ⟨-, hs, ha⟩ := hvisited.same hcaps
    exact ⟨ha, by rw [← hpool, hs]⟩

/-- The function of `x` that answers `x`, applied to `x`: one node is both references. -/
def identityCall : Arena where
  nodes := #[⟨.var ⟨0⟩, ⟨1, 2⟩⟩, ⟨.lambda ⟨0, 1⟩ ⟨0⟩ none, ⟨0, 3⟩⟩, ⟨.call ⟨1⟩ ⟨0, 1⟩, ⟨0, 4⟩⟩]
  exprEntries := #[⟨0⟩]
  varEntries := #[⟨0⟩]
  names := #["x"]

/-- The function is kept with the reference in it, and the argument is a new node. -/
theorem quote_shares_identityCall :
    ∃ q, quote [⟨[⟨0⟩]⟩] [⟨#[⟨7⟩]⟩] identityCall {} 0 ⟨2⟩ = .ok q ∧ q.root ≠ ⟨2⟩ ∧
      q.arena.at? q.pool (.expr q.root) [0] = some (.expr ⟨1⟩) ∧
      q.arena.at? q.pool (.expr q.root) [0, 0] = some (.expr ⟨0⟩) ∧
      ∃ r, q.arena.at? q.pool (.expr q.root) [1] = some (.expr r) ∧ 3 ≤ r.index := by
  have hok : (quote [⟨[⟨0⟩]⟩] [⟨#[⟨7⟩]⟩] identityCall {} 0 ⟨2⟩).isOk := by decide +kernel
  cases hq : quote [⟨[⟨0⟩]⟩] [⟨#[⟨7⟩]⟩] identityCall {} 0 ⟨2⟩ with
  | error f =>
    rw [hq] at hok
    cases hok
  | ok q =>
    obtain ⟨t, ht, hplaces, hroot, -⟩ := quote_shares rfl hq
    obtain rfl := Option.some.inj ht
    obtain ⟨u₁, d₁, r₁, hu₁, -, hr₁, hsame₁, -⟩ := hplaces [0] ⟨1⟩ rfl
    obtain ⟨u₂, d₂, r₂, hu₂, -, hr₂, hsame₂, -⟩ := hplaces [0, 0] ⟨0⟩ rfl
    obtain ⟨u₃, d₃, r₃, hu₃, -, hr₃, -, hnew₃⟩ := hplaces [1] ⟨0⟩ rfl
    obtain ⟨rfl, rfl⟩ := Prod.mk.inj (Option.some.inj hu₁)
    obtain ⟨rfl, rfl⟩ := Prod.mk.inj (Option.some.inj hu₂)
    obtain ⟨rfl, rfl⟩ := Prod.mk.inj (Option.some.inj hu₃)
    obtain rfl := hsame₁.2 (by decide)
    obtain rfl := hsame₂.2 (by decide)
    refine ⟨q, rfl, fun heq => ?_, hr₁, hr₂, r₃, hr₃, hnew₃ (by decide)⟩
    exact absurd (hroot.1 heq) (by decide)

end

end Quotation
