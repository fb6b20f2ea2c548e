import Quotation.Proofs.Capture.Sharing
import Quotation.Proofs.Eval.Levels
import Quotation.Proofs.Eval.Safety
import Quotation.Proofs.Eval.Simulation

/-!
# Quoting preserves meaning

A quoted fragment, evaluated without bindings, ends like the fragment that it was made from where
each captured variable is bound to its cell (`eval_quote`): both in corresponding values or both in
corresponding errors, with corresponding contents of all cells.

The one difference that the fragment itself can see is that a list of captured variables is made
anew by each evaluation of its node, but only once by quoting (`quote_makes_one_list`). For the two
to part it takes two comparisons, one of different lists that the quoted fragment may have one list
for, and one of this list with itself, and `Quoted.TellsApart` says of each such list that one of
them is not made. Both evaluations are watched for that: where lists are confused one of them has
stopped, so the simulation need not say what comes of it.
-/

namespace Quotation

/-! ## Corresponding nodes -/

/-- The lists of the pool that have been stamped from `first` on. -/
def Pool.listsFrom (pool : Pool) (first : Stamp) : List CellList :=
  pool.values.toList.filterMap fun
    | .cellList m => if first ≤ m.stamp then some m else none
    | _ => none

theorem Pool.mem_listsFrom {pool : Pool} {first : Stamp} {m : CellList} :
    m ∈ pool.listsFrom first ↔ (∃ k, pool.get? k = some (.cellList m)) ∧ first ≤ m.stamp := by
  rw [listsFrom, List.mem_filterMap]
  constructor
  · rintro ⟨v, hv, hm⟩
    cases v with
    | cellList n =>
      obtain ⟨hle, rfl⟩ : first ≤ n.stamp ∧ n = m := by simpa using hm
      obtain ⟨i, hi⟩ := Array.getElem?_of_mem (Array.mem_toList_iff.1 hv)
      exact ⟨⟨⟨i⟩, hi⟩, hle⟩
    | _ => cases hm
  · rintro ⟨⟨k, hk⟩, hle⟩
    exact ⟨.cellList m, Array.mem_toList_iff.2 (Array.mem_of_getElem? hk), if_pos hle⟩

/-- A list of variables has been evaluated to this list since `heap`. -/
def CellList.madeSince (heap : Heap) : CellList → Bool
  | .direct stamp _ => heap.nextStamp ≤ stamp
  | .merged .. => false

/-- The list is `k`, or it has been made since `heap` and has the cells of `k`. -/
def CellList.mayBe (heap : Heap) (m k : CellList) : Bool :=
  m.stamp == k.stamp || m.madeSince heap && m.cells == k.cells

/-- Two different lists may be one of the lists `made`. -/
def CellList.twoForOne (made : List CellList) (heap : Heap) (m m' : CellList) : Bool :=
  m.stamp != m'.stamp && made.any fun k => m.mayBe heap k && m'.mayBe heap k

/-- One of the lists `made` is both. -/
def CellList.oneForBoth (made : List CellList) (n n' : CellList) : Bool :=
  n.stamp == n'.stamp && made.any fun k => n.stamp == k.stamp

/-- A value from before an evaluation. -/
def Program.Holds (p : Program) (heap : Heap) (v : Value) : Prop :=
  (∃ k, p.pool.get? k = some v) ∨ v ∈ heap.cells

/-- Stamps have been given before they are carried, and none to two lists. -/
structure Program.Stamped (p : Program) (heap : Heap) : Prop where
  before : ∀ v, p.Holds heap v → v.StampedBefore heap.nextStamp
  unique : ∀ m n, p.Holds heap (.cellList m) → p.Holds heap (.cellList n) →
    m.stamp = n.stamp → m = n

section
variable {declared : VarId → Bool}

mutual

/-- Where everything is declared, nothing is captured. -/
theorem captures_of_declared (t : Tree) (declared : VarId → Bool) (h : ∀ v, declared v = true) :
    t.captures declared = [] :=
  match t with
  | .node label span ts => by
    rw [Tree.captures, capturesAll_of_declared ts _ (label.under_eq_true h), List.append_nil]
    exact List.filter_eq_nil_iff.2 fun v _ => by simp [h]

theorem capturesAll_of_declared (ts : List Tree) (declared : VarId → Bool)
    (h : ∀ v, declared v = true) : capturesAll declared ts = [] :=
  match ts with
  | [] => rfl
  | t :: ts => by
    rw [capturesAll, captures_of_declared t _ h, capturesAll_of_declared ts _ h, List.nil_append]

end

end

namespace Likeness

/-- A fragment is like the one that quoting has made of it. Functions correspond if the body of the
one has been made of that of the other, what is declared around them has the same cells, and the
first one has the cells of the chain for everything else. -/
def quoted (p : Program) (frames : List Frame) (storages : List Storage) (first : Stamp)
    (size : Nat) (heap : Heap) : Likeness p where
  base := heap.nextStamp
  frames := frames
  storages := storages
  node S id r := ∃ n, Rewritten p.arena p.pool frames storages first size n S id r
  lists m := p.Holds heap (.cellList m)
  stands m n := m.madeSince heap = true ∧ n ∈ p.pool.listsFrom first
  exact := False

section
variable {p : Program} {frames : List Frame} {storages : List Storage} {first : Stamp} {size : Nat}
  {heap : Heap}

/-- A valid function from before is like itself. -/
theorem quoted_known (hstamped : p.Stamped heap) {v : Value} (hv : p.Holds heap v)
    (hvalid : v.Valid p.arena p.pool) : (quoted p frames storages first size heap).Known v where
  stamp := hstamped.before v hv
  body := by
    rintro f rfl
    obtain ⟨t, ht⟩ := exists_represents hvalid
    exact ⟨_, .same ht (captures_of_declared t _ fun _ => rfl)⟩
  list := by
    rintro m rfl
    exact hv

/-- A list of variables that captures something refers to a captured variable. -/
theorem exists_captured {n : Nat} {id : ExprId} {t : Tree} {S : VarId → Bool} {slice : Slice VarId}
    {vars : List VarId} {span : Span} (ht : Represents p.arena p.pool n id t)
    (hnil : t.captures S ≠ []) (hnode : p.arena.node? id = some ⟨.cellList slice, span⟩)
    (hread : p.arena.vars? slice = some vars) : ∃ v ∈ vars, S v = false := by
  cases n with
  | zero => exact ht.elim
  | succ n =>
    obtain ⟨node, label, branches, ts, hnode', hview, -, hts, rfl⟩ := ht
    obtain rfl := Option.some.inj (hnode.symm.trans hnode')
    obtain ⟨vs, hvs, rfl, rfl⟩ := view?_cellList.1 hview
    obtain rfl := Option.some.inj (hread.symm.trans hvs)
    cases hts
    by_contra hall
    refine hnil (List.append_eq_nil_iff.2 ⟨List.filter_eq_nil_iff.2 fun v hv => ?_, rfl⟩)
    have hS : S v = true := by
      by_contra hS
      exact hall ⟨v, hv, by simpa using hS⟩
    simp [hS]

theorem quoted_lawful (hstamped : p.Stamped heap) (hp : p.Valid) :
    (quoted p frames storages first size heap).Lawful where
  known hk := quoted_known hstamped (.inl ⟨_, hk⟩) (hp _ _ hk)
  node := by
    rintro S id r ⟨_ | n, hr⟩
    · exact hr.elim
    obtain ⟨t, ht, hsame, hnew⟩ := hr
    have hlift : ∀ S id r, Rewritten p.arena p.pool frames storages first size n S id r →
        (quoted p frames storages first size heap).node S id r := fun _ _ _ h => ⟨n, h⟩
    by_cases hnil : t.captures S = []
    · obtain rfl := hsame hnil
      obtain ⟨k, node, label, branches, heq, hnode, hview, hrefers, hbelow⟩ :=
        ht.nothing_captured hnil
      obtain rfl := Nat.succ.inj heq
      refine .same ?_
      rw [hnode]
      refine .some (kinds_of_view? hview hview hrefers (List.forall₂_same.2 fun b hb => ?_))
      obtain ⟨t, ht, hnil⟩ := hbelow b hb
      exact (RewrittenBranch.same ht hnil).imp hlift
    · cases (hnew hnil).2 with
      | cell node free resolved tree => exact .cell (fun h => h) node free resolved tree
      | list node read resolved routable stamped tree =>
        refine .list (fun h => h) node read (exists_captured ht hnil node read) resolved routable
          tree fun s cells m hs hm hk => ⟨?_, Pool.mem_listsFrom.2 ⟨hk, ?_⟩⟩
        · exact decide_eq_true hs
        · rw [hm]
          exact stamped
      | inner node view inner node' view' below =>
        refine .same ?_
        rw [node, node']
        refine .some (kinds_of_view? view view' (fun v hv => ?_) (below.imp fun _ _ => .imp hlift))
        rw [Label.refers_eq_nil inner] at hv
        cases hv

/-- Where two different lists correspond to one, this is one that quoting has made, and they may be
this list; so one of the evaluations stops, whichever of them is to do so for this list. -/
theorem quoted_guarded (hstamped : p.Stamped heap) (left : CellList → Bool) :
    (quoted p frames storages first size heap).Guarded
      ⟨CellList.twoForOne ((p.pool.listsFrom first).filter left) heap,
        CellList.oneForBoth ((p.pool.listsFrom first).filter (!left ·))⟩ where
  sure := nofun
  stops {r m n m' n'} h h' heq hne := by
    have hold := h.old_of_confused h' heq hne
    obtain rfl := hstamped.unique n n' (h.old hold) (h'.old (heq ▸ hold)) heq
    have hmade : n ∈ p.pool.listsFrom first := by
      rcases h.of_old hold with hm | hm
      · exact ((h'.of_old hold).resolve_left fun hm' => hne (hm.trans hm'.symm)).2.2
      · exact hm.2.2
    have hmay : ∀ {m}, (quoted p frames storages first size heap).Lists r m n →
        m.mayBe heap n = true := by
      intro m h
      rw [CellList.mayBe, Bool.or_eq_true, Bool.and_eq_true, beq_iff_eq, beq_iff_eq]
      exact (h.of_old hold).imp_right fun hm => ⟨hm.2.1, h.cells.symm⟩
    cases hleft : left n with
    | true =>
      refine .inl (Bool.and_eq_true_iff.2 ⟨bne_iff_ne.2 hne, List.any_eq_true.2 ⟨n, ?_⟩⟩)
      exact ⟨List.mem_filter.2 ⟨hmade, hleft⟩, Bool.and_eq_true_iff.2 ⟨hmay h, hmay h'⟩⟩
    | false =>
      refine .inr (Bool.and_eq_true_iff.2 ⟨beq_self_eq_true _, List.any_eq_true.2 ⟨n, ?_⟩⟩)
      exact ⟨List.mem_filter.2 ⟨hmade, by rw [hleft]; rfl⟩, beq_self_eq_true _⟩

end

end Likeness

/-! ## The two evaluations -/

section
variable {frames : List Frame} {storages : List Storage} {arena : Arena} {pool : Pool}
  {stamp : Stamp} {root : ExprId} {q : Quoted}

/-- No comparison hangs on a list that quoting has made, with a stamp from `first` on: there is no
such list for which the fragment compares two different lists that may be this one, and the quoted
fragment compares it with itself. For those of `left` the first does not happen, and for the others
the second. What does not happen makes no difference, whatever would be done in its place. -/
def Quoted.TellsApart [Tracing] (q : Quoted) (first : Stamp) (limit : Nat) (root : ExprId)
    (m : Machine) : Prop :=
  let p := q.program limit
  let made := q.pool.listsFrom first
  ∃ left : CellList → Bool,
    (∀ report, p.evalWatched (CellList.twoForOne (made.filter left) m.heap) report p.levels root m =
      p.eval root m) ∧
    ∀ report, p.evalWatched (CellList.oneForBoth (made.filter (!left ·))) report p.levels q.root
      ⟨m.heap, {}, m.callDepth⟩ = p.eval q.root ⟨m.heap, {}, m.callDepth⟩

/-- A fragment that binds the captured variables to their cells and the quoted fragment without any
bindings end in corresponding values or in corresponding errors, and leave corresponding contents in
all cells. If calls are traced, both may also come to a function with an undeclared name, and
fault. -/
theorem eval_quote [Tracing] (hvalid : validate arena pool root = .ok ())
    (hq : quote frames storages arena pool stamp root = .ok q) {limit : Nat}
    (hlimit : limit < UInt64.size) {heap : Heap} {env : Environment} {depth : Nat}
    (hstamped : (q.program limit).Stamped heap)
    (hfunctions : ∀ v, (q.program limit).Holds heap v → v.Valid q.arena q.pool)
    (henv : ∀ v c, resolve v frames storages = .ok c → env.lookup v = some c)
    (htells : q.TellsApart stamp limit root ⟨heap, env, depth⟩) :
    let p := q.program limit
    let l := Likeness.quoted p frames storages stamp arena.size heap
    (∃ (r : Renaming l.base) (v w : Value) (h h' : Heap),
      p.eval root ⟨heap, env, depth⟩ = .ok v ⟨h, env, depth⟩ ∧
      p.eval q.root ⟨heap, {}, depth⟩ = .ok w ⟨h', {}, depth⟩ ∧
      l.Values r v w ∧ l.Heaps r h h') ∨
    (∃ (r : Renaming l.base) (e e' : EvalError) (h h' : Heap),
      p.eval root ⟨heap, env, depth⟩ = .error (.error e) ⟨h, env, depth⟩ ∧
      p.eval q.root ⟨heap, {}, depth⟩ = .error (.error e') ⟨h', {}, depth⟩ ∧
      l.Errors r e e' ∧ l.Heaps r h h') ∨
    p.tracing.calls = true ∧ ¬p.NamesDeclared heap root ∧ ∃ m m',
      p.eval root ⟨heap, env, depth⟩ = .error (.fault .outOfBounds) m ∧
      p.eval q.root ⟨heap, {}, depth⟩ = .error (.fault .outOfBounds) m' := by
  intro p l
  obtain ⟨t, s, ht, hpool, hvisited⟩ := quote_visited hvalid hq
  obtain ⟨hroot, -⟩ := List.forall₂_cons.1 hvisited.rewritten
  rw [hpool] at hroot
  have ha := hvisited.advances.arena
  have hp : pool.Grows q.pool := hpool ▸ hvisited.advances.pool
  have hvalidP : p.Valid := fun k v hk => hfunctions v (.inl ⟨k, hk⟩)
  have hvalidHeap : ∀ v ∈ heap.cells, v.Valid p.arena p.pool := fun v hv => hfunctions v (.inr hv)
  have hvalid' : validate p.arena p.pool root = .ok () :=
    validateWithin_mono (Nat.le_succ _)
      (validateWithin_size (represents_iff.1 (ht.grows ha hp (Nat.le_refl _))).1)
  obtain ⟨u, -, -, hquoted⟩ := quote_represents hvalid hq
  have hlawful : l.Lawful := Likeness.quoted_lawful hstamped hvalidP
  have hshared : Shared l.frames l.storages undeclared env.lookup ({} : Environment).lookup :=
    ⟨nofun, fun {v c} _ hc => henv v c (cellOf_eq_some_iff.1 hc), nofun⟩
  -- both are watched for one of the lists or the other, and neither stops
  obtain ⟨left, hleft, hright⟩ := htells
  have hguarded : l.Guarded _ := Likeness.quoted_guarded hstamped left
  have hheaps : l.Heaps (.start l.base) heap heap :=
    .start rfl fun v hv => Likeness.quoted_known hstamped (.inr hv) (hvalidHeap v hv)
  have halike : l.Alike (.start l.base) env {} depth _ _ l.Values :=
    hlawful.evaluate hguarded hlimit nofun (fun _ => Nat.one_pos) p.levels ⟨_, hroot⟩ hshared
  have hends := halike _ (.refl _) heap heap hheaps
  -- neither ends for want of levels, so the right one does not need the additional level
  have hends' : ∀ {id m m'}, validate p.arena p.pool id = .ok () → m.heap = heap →
      p.eval id m ≠ .error (.fault .endless) m' := by
    rintro id m m' hid rfl hfault
    cases (traced_of_eval_fault hlimit hvalidP hid hvalidHeap hfault).2.2
  have hlevels : p.evalWatched
      (CellList.oneForBoth ((p.pool.listsFrom stamp).filter (!left ·))) (throw (.fault .endless))
      (p.levels + 1) q.root ⟨heap, {}, depth⟩ = p.eval q.root ⟨heap, {}, depth⟩ := by
    rcases evalWatched_agrees p (fun _ _ => id) (Nat.le_succ p.levels) q.root ⟨heap, {}, depth⟩ with
      ⟨f, m, hfault, rfl⟩ | hsame
    · exact absurd ((hright _).symm.trans hfault) (hends' (represents_iff.1 hquoted).1 rfl)
    · exact hsame.trans (hright _)
  have hwatched : p.evalWatched
      (CellList.twoForOne ((p.pool.listsFrom stamp).filter left) heap) (throw (.fault .endless))
      p.levels root ⟨heap, env, depth⟩ = p.eval root ⟨heap, env, depth⟩ := hleft _
  rw [hwatched, hlevels] at hends
  rcases hends.cases with ⟨r, v, w, h, h', -, hh, hv, hx, hy⟩ |
    ⟨r, e, e', h, h', -, hh, he, hx, hy⟩ | ⟨f, m, m', hx, hy⟩ | ⟨-, ⟨m, hx⟩ | ⟨m', hy⟩⟩
  · exact .inl ⟨r, v, w, h, h', hx, hy, hv, hh⟩
  · exact .inr (.inl ⟨r, e, e', h, h', hx, hy, he, hh⟩)
  · obtain ⟨htraced, hnames, rfl⟩ := traced_of_eval_fault hlimit hvalidP hvalid' hvalidHeap hx
    exact .inr (.inr ⟨htraced, hnames, m, m', hx, hy⟩)
  · exact absurd hx (hends' hvalid' rfl)
  · exact absurd hy (hends' (represents_iff.1 hquoted).1 rfl)

/-- A block sets `f` to the function of nothing that answers the list of `x`, and then answers
`f() == f()` at node 6 and `f() == [x]` at node 8. -/
def listAnswers : Arena where
  nodes := #[⟨.cellList ⟨0, 1⟩, .nowhere⟩, ⟨.lambda ⟨0, 0⟩ ⟨0⟩ none, .nowhere⟩,
    ⟨.var ⟨1⟩, .nowhere⟩, ⟨.assign ⟨2⟩ ⟨1⟩, .nowhere⟩, ⟨.call ⟨2⟩ ⟨0, 0⟩, .nowhere⟩,
    ⟨.binary .eq ⟨4⟩ ⟨4⟩, .nowhere⟩, ⟨.block ⟨1, 1⟩ ⟨0, 2⟩, .nowhere⟩,
    ⟨.binary .eq ⟨4⟩ ⟨0⟩, .nowhere⟩, ⟨.block ⟨1, 1⟩ ⟨2, 2⟩, .nowhere⟩]
  exprEntries := #[⟨3⟩, ⟨5⟩, ⟨3⟩, ⟨7⟩]
  varEntries := #[⟨0⟩, ⟨1⟩]
  names := #["x", "f"]

/-- The first block, with a constant list of cell 0 in place of the list of `x`. -/
def sameAnswersQuoted : Quoted where
  root := ⟨12⟩
  arena := { listAnswers with
    nodes := listAnswers.nodes ++ #[⟨.constant ⟨0⟩, .nowhere⟩, ⟨.lambda ⟨0, 0⟩ ⟨9⟩ none, .nowhere⟩,
      ⟨.assign ⟨2⟩ ⟨10⟩, .nowhere⟩, ⟨.block ⟨1, 1⟩ ⟨4, 2⟩, .nowhere⟩]
    exprEntries := listAnswers.exprEntries ++ #[⟨11⟩, ⟨5⟩] }
  pool := ⟨#[.cellList (.direct 0 #[⟨0⟩])]⟩
  nextStamp := 1

/-- The second block, with one constant list in the function and one in the comparison. -/
def otherAnswersQuoted : Quoted where
  root := ⟨14⟩
  arena := { listAnswers with
    nodes := listAnswers.nodes ++ #[⟨.constant ⟨0⟩, .nowhere⟩, ⟨.lambda ⟨0, 0⟩ ⟨9⟩ none, .nowhere⟩,
      ⟨.assign ⟨2⟩ ⟨10⟩, .nowhere⟩, ⟨.constant ⟨1⟩, .nowhere⟩,
      ⟨.binary .eq ⟨4⟩ ⟨12⟩, .nowhere⟩, ⟨.block ⟨1, 1⟩ ⟨4, 2⟩, .nowhere⟩]
    exprEntries := listAnswers.exprEntries ++ #[⟨11⟩, ⟨13⟩] }
  pool := ⟨#[.cellList (.direct 0 #[⟨0⟩]), .cellList (.direct 1 #[⟨0⟩])]⟩
  nextStamp := 2

/-- A heap whose only cell is that of `x`, and the environment that binds `x` to it. -/
def listAnswersHeap : Heap := ⟨#[.int 5], 2⟩

def listAnswersEnv : Environment := ({} : Environment).define ⟨0⟩ ⟨0⟩

/-- The function makes a new list in each call, but the quoted one always answers its constant. -/
theorem quote_makes_one_list :
    validate listAnswers {} ⟨6⟩ = .ok () ∧
      quote [⟨[⟨0⟩]⟩] [⟨#[⟨0⟩]⟩] listAnswers {} 0 ⟨6⟩ = .ok sameAnswersQuoted ∧
      (∃ m, (sameAnswersQuoted.program defaultCallDepth).eval ⟨6⟩
        ⟨listAnswersHeap, listAnswersEnv, 0⟩ = .ok (.bool false) m) ∧
      ∃ m, (sameAnswersQuoted.program defaultCallDepth).eval ⟨12⟩ ⟨listAnswersHeap, {}, 0⟩ =
        .ok (.bool true) m :=
  ⟨rfl, by decide +kernel, ⟨_, rfl⟩, ⟨_, rfl⟩⟩

theorem otherAnswers_holds {v : Value}
    (h : (otherAnswersQuoted.program defaultCallDepth).Holds listAnswersHeap v) :
    (∃ s < 2, v = .cellList (.direct s #[⟨0⟩])) ∨ v = .int 5 := by
  rcases h with ⟨k, hk⟩ | hv
  · have hmem : v ∈ otherAnswersQuoted.pool.values := Array.mem_of_getElem? hk
    simp only [otherAnswersQuoted, List.mem_toArray, List.mem_cons, List.not_mem_nil,
      or_false] at hmem
    rcases hmem with rfl | rfl
    · exact .inl ⟨0, Nat.zero_lt_two, rfl⟩
    · exact .inl ⟨1, Nat.one_lt_two, rfl⟩
  · exact .inr (Array.mem_singleton.1 hv)

theorem otherAnswers_stamped :
    (otherAnswersQuoted.program defaultCallDepth).Stamped listAnswersHeap := by
  refine ⟨fun v hv => ?_, fun l m hl hm heq => ?_⟩
  · obtain ⟨s, hs, rfl⟩ | rfl := otherAnswers_holds hv
    · exact hs
    · trivial
  · obtain ⟨s, -, hl⟩ := (otherAnswers_holds hl).resolve_right nofun
    obtain ⟨t, -, hm⟩ := (otherAnswers_holds hm).resolve_right nofun
    obtain rfl := Value.cellList.inj hl
    obtain rfl := Value.cellList.inj hm
    exact congrArg (CellList.direct · #[⟨0⟩]) heq

/-- The function and the block make different lists of the same cell, before and after. -/
theorem eval_quote_listAnswers :
    quote [⟨[⟨0⟩]⟩] [⟨#[⟨0⟩]⟩] listAnswers {} 0 ⟨8⟩ = .ok otherAnswersQuoted ∧
      ∃ h h', (otherAnswersQuoted.program defaultCallDepth).eval ⟨8⟩
          ⟨listAnswersHeap, listAnswersEnv, 0⟩ = .ok (.bool false) ⟨h, listAnswersEnv, 0⟩ ∧
        (otherAnswersQuoted.program defaultCallDepth).eval ⟨14⟩ ⟨listAnswersHeap, {}, 0⟩ =
          .ok (.bool false) ⟨h', {}, 0⟩ ∧
        h'.cells.size = h.cells.size := by
  have hvalid : validate listAnswers {} ⟨8⟩ = .ok () := rfl
  have hq : quote [⟨[⟨0⟩]⟩] [⟨#[⟨0⟩]⟩] listAnswers {} 0 ⟨8⟩ = .ok otherAnswersQuoted := by
    decide +kernel
  have hfunctions : ∀ v, (otherAnswersQuoted.program defaultCallDepth).Holds listAnswersHeap v →
      v.Valid otherAnswersQuoted.arena otherAnswersQuoted.pool := by
    intro v hv
    obtain ⟨s, -, rfl⟩ | rfl := otherAnswers_holds hv <;> trivial
  have henv : ∀ v c, resolve v [⟨[⟨0⟩]⟩] [⟨#[⟨0⟩]⟩] = .ok c →
      listAnswersEnv.lookup v = some c := by
    intro v c hc
    cases hslot : Frame.slot? ⟨[⟨0⟩]⟩ v with
    | none =>
      rw [resolve, hslot] at hc
      cases hc
    | some slot =>
      obtain rfl := List.mem_singleton.1 (Frame.mem_of_slot? hslot)
      obtain rfl : ⟨0⟩ = c := Except.ok.inj hc
      rfl
  obtain ⟨m, hm, hleft⟩ : ∃ m, (otherAnswersQuoted.program defaultCallDepth).eval ⟨8⟩
        ⟨listAnswersHeap, listAnswersEnv, 0⟩ = .ok (.bool false) m ∧
      ∀ report, (otherAnswersQuoted.program defaultCallDepth).evalWatched
        (CellList.twoForOne ((otherAnswersQuoted.pool.listsFrom 0).filter fun _ => false)
          listAnswersHeap) report (otherAnswersQuoted.program defaultCallDepth).levels ⟨8⟩
        ⟨listAnswersHeap, listAnswersEnv, 0⟩ = .ok (.bool false) m := ⟨_, rfl, fun _ => rfl⟩
  obtain ⟨m', hm', hright⟩ : ∃ m', (otherAnswersQuoted.program defaultCallDepth).eval ⟨14⟩
        ⟨listAnswersHeap, {}, 0⟩ = .ok (.bool false) m' ∧
      ∀ report, (otherAnswersQuoted.program defaultCallDepth).evalWatched
        (CellList.oneForBoth ((otherAnswersQuoted.pool.listsFrom 0).filter fun _ => true)) report
        (otherAnswersQuoted.program defaultCallDepth).levels ⟨14⟩ ⟨listAnswersHeap, {}, 0⟩ =
          .ok (.bool false) m' := ⟨_, rfl, fun _ => rfl⟩
  have htells : otherAnswersQuoted.TellsApart 0 defaultCallDepth ⟨8⟩
      ⟨listAnswersHeap, listAnswersEnv, 0⟩ := ⟨fun _ => false,
    fun report => (hleft report).trans hm.symm, fun report => (hright report).trans hm'.symm⟩
  rcases eval_quote hvalid hq (by decide) otherAnswers_stamped hfunctions henv htells with
    ⟨r, v, w, h, h', hv, hw, hvalues, hheaps⟩ | ⟨r, e, e', h, h', he, -⟩ | ⟨-, -, m', _, he, -⟩
  · obtain rfl := (EStateM.Result.ok.inj (hm.symm.trans hv)).1
    cases hvalues
    exact ⟨hq, h, h', hv, hw, hheaps.size⟩
  · cases hm.symm.trans he
  · cases hm.symm.trans he

end

end Quotation
