import Quotation.Proofs.CellList
import Quotation.Proofs.Capture.Quote
import Quotation.Proofs.Eval.Run

/-!
# Evaluating a quoted list of variables

A list of variables that has been quoted evaluates to the list of the cells that the variables
denote, in order (`quoteCellList_denotes`): what the environment binds for the variables that the
fragment declares, and what the chain has for the others. What stands for the list is the node
itself, one constant, or a call that merges the two parts.
-/

namespace Quotation

open EvalM

/-! ## The nodes of a tree -/

section
variable {a : Arena} {pool : Pool} {n : Nat} {id : ExprId} {kind : Kind} {span : Span}
  {branches : List Branch}

theorem Represents.node {label : Label} {ts : List Tree}
    (h : Represents a pool n id (.node label span ts)) :
    ∃ k kind branches, n = k + 1 ∧ a.node? id = some ⟨kind, span⟩ ∧
      a.view? pool kind = some (label, branches) ∧
      List.Forall₂ (RepresentsBranch a (Represents a pool k)) branches ts := by
  cases n with
  | zero => exact h.elim
  | succ k =>
    obtain ⟨⟨kind, span'⟩, label', branches, ts', hnode, hview, -, hts, heq⟩ := h
    obtain ⟨rfl, rfl, rfl⟩ := Tree.node.inj heq
    exact ⟨k, kind, branches, rfl, hnode, hview, hts⟩

theorem Represents.constant {v : Value} (h : Represents a pool n id (constantTree span v)) :
    ∃ c, pool.get? c = some v := by
  obtain ⟨-, kind, branches, -, -, hview, -⟩ := h.node
  obtain ⟨c, -, hc, -⟩ := kind_of_view? hview
  exact ⟨c, hc⟩

end

/-! ## Evaluating them -/

/-- The program of a quoted fragment, up to so many calls deep. -/
def Quoted.program [Tracing] (q : Quoted) (limit : Nat) : Program := ⟨q.arena, q.pool, limit⟩

section
variable {p : Program} {n : Nat} {id : ExprId} {span : Span} (k : Nat) (m : Machine)

theorem evalWithin_constant {v : Value} (h : Represents p.arena p.pool n id (constantTree span v)) :
    p.evalWithin (k + 1) id m = .ok v m := by
  obtain ⟨-, kind, branches, -, hnode, hview, -⟩ := h.node
  obtain ⟨c, rfl, hc, -⟩ := kind_of_view? hview
  rw [Program.evalWithin, evalStep, hnode]
  show (require (p.pool.get? c)) m = _
  rw [hc]
  rfl

/-- The receiver of an access to a cell is the constant cell. -/
theorem evalCell_constant {c : Cell}
    (h : Represents p.arena p.pool n id (constantTree span (.cell c))) :
    evalCell (p.evalWithin (k + 1)) id m = .ok c m := by
  rw [evalCell, bind_ok (evalWithin_constant k m h)]
  rfl

theorem evalWithin_cell {c : Cell} (h : Represents p.arena p.pool n id (cellTree span c)) :
    p.evalWithin (k + 2) id m = .ok (m.heap.read c) m := by
  obtain ⟨j, kind, branches, -, hnode, hview, hts⟩ := h.node
  obtain ⟨receiver, rfl, rfl⟩ := kind_of_view? hview
  obtain ⟨hreceiver, -⟩ := List.forall₂_cons.1 hts
  rw [Program.evalWithin, evalStep, hnode, bind_ok (require_some _ m)]
  exact bind_ok (evalCell_constant k m hreceiver)

/-- The target of an assignment is the accessed cell. -/
theorem evalTarget_cell {c : Cell} (h : Represents p.arena p.pool n id (cellTree span c)) :
    evalTarget p (p.evalWithin (k + 1)) id m = .ok c m := by
  obtain ⟨j, kind, branches, -, hnode, hview, hts⟩ := h.node
  obtain ⟨receiver, rfl, rfl⟩ := kind_of_view? hview
  obtain ⟨hreceiver, -⟩ := List.forall₂_cons.1 hts
  rw [evalTarget, hnode, bind_ok (require_some _ m)]
  exact evalCell_constant k m hreceiver

theorem mapM_lookup {vars : List VarId} (h : ∀ v ∈ vars, (m.env.lookup v).isSome) :
    vars.mapM (lookup p) m = .ok (vars.filterMap m.env.lookup) m := by
  induction vars with
  | nil => rfl
  | cons v vars ih =>
    obtain ⟨c, hc⟩ := Option.isSome_iff_exists.1 (h v List.mem_cons_self)
    rw [List.filterMap_cons_some hc]
    exact mapM_cons_ok (lookup_eq hc) (ih fun w hw => h w (List.mem_cons_of_mem v hw))

/-- The machine with the next stamp used. -/
def Machine.stamped (m : Machine) : Machine :=
  { m with heap := { m.heap with nextStamp := m.heap.nextStamp + 1 } }

theorem makeCellList_eq {slice : Slice VarId} {vars : List VarId}
    (hvars : p.arena.vars? slice = some vars) (hbound : ∀ v ∈ vars, (m.env.lookup v).isSome) :
    makeCellList p slice m =
      .ok (.cellList (.direct m.heap.nextStamp (vars.filterMap m.env.lookup).toArray))
        m.stamped := by
  rw [makeCellList, hvars, bind_ok (require_some vars m), bind_ok (mapM_lookup m hbound)]
  rfl

theorem evalWithin_cellList {vars : List VarId} {ts : List Tree}
    (h : Represents p.arena p.pool n id (.node (.cellList vars) span ts))
    (hbound : ∀ v ∈ vars, (m.env.lookup v).isSome) :
    p.evalWithin (k + 1) id m =
      .ok (.cellList (.direct m.heap.nextStamp (vars.filterMap m.env.lookup).toArray))
        m.stamped := by
  obtain ⟨-, kind, branches, -, hnode, hview, -⟩ := h.node
  obtain ⟨slice, rfl, hvars, -⟩ := kind_of_view? hview
  rw [Program.evalWithin, evalStep, hnode]
  exact makeCellList_eq m hvars hbound

/-- The two lists and the routes are evaluated before they are merged. -/
theorem evalWithin_merge {free : List VarId} {bound : CellList} {codes : Array Int64}
    (h : Represents p.arena p.pool n id (.node .call span [
      constantTree span (.builtin .mergeVariables),
      .node (.cellList free) span [],
      constantTree span (.cellList bound),
      constantTree span (.routing codes)]))
    (hbound : ∀ v ∈ free, (m.env.lookup v).isSome) :
    p.evalWithin (k + 2) id m =
      .ok (.cellList (.merged (m.heap.nextStamp + 1)
          (.direct m.heap.nextStamp (free.filterMap m.env.lookup).toArray) bound codes))
        m.stamped.stamped := by
  obtain ⟨j, kind, branches, -, hnode, hview, hts⟩ := h.node
  obtain ⟨callee, args, ids, rfl, hargs, rfl⟩ := kind_of_view? hview
  obtain ⟨hcallee, hts⟩ := List.forall₂_cons.1 hts
  obtain ⟨first, _, hfirst, hrest, rfl⟩ := List.forall₂_cons_right_iff.1 (forall₂_map_expr.1 hts)
  obtain ⟨second, _, hsecond, hlast, rfl⟩ := List.forall₂_cons_right_iff.1 hrest
  obtain ⟨routing, _, hrouting, ⟨⟩, rfl⟩ := List.forall₂_cons_right_iff.1 hlast
  have hmapM : [first, second, routing].mapM (p.evalWithin (k + 1)) m =
      .ok [.cellList (.direct m.heap.nextStamp (free.filterMap m.env.lookup).toArray),
        .cellList bound, .routing codes] m.stamped := by
    refine mapM_cons_ok (evalWithin_cellList k m hfirst hbound) ?_
    refine mapM_cons_ok (evalWithin_constant k m.stamped hsecond) ?_
    exact mapM_cons_ok (evalWithin_constant k m.stamped hrouting) rfl
  rw [Program.evalWithin, evalStep, hnode, bind_ok (require_some _ m)]
  show (do
    let callee ← p.evalWithin (k + 1) callee
    let args ← (← require (p.arena.exprs? args)).mapM (p.evalWithin (k + 1))
    callValue p (p.evalWithin (k + 1)) callee args : EvalM Value) m = _
  rw [bind_ok (evalWithin_constant k m hcallee), hargs, bind_ok (require_some _ m),
    bind_ok hmapM]
  rfl

end

/-! ## What stands for a list -/

section
variable {frames : List Frame} {storages : List Storage}

/-- The cell that a variable denotes: a declared one what the environment binds it to, any other
what the chain has for it. -/
def denoted (frames : List Frame) (storages : List Storage) (declared : VarId → Bool)
    (env : Environment) (v : VarId) : Option Cell :=
  if declared v then env.lookup v else (resolve v frames storages).toOption

section
variable {declared : VarId → Bool} {env : Environment} {v : VarId} {vars : List VarId}

theorem denoted_of_declared (h : declared v = true) :
    denoted frames storages declared env v = env.lookup v :=
  if_pos h

theorem denoted_of_captured (h : declared v = false) :
    denoted frames storages declared env v = cellOf frames storages v :=
  if_neg (by simp [h])

theorem isSome_denoted_iff : (denoted frames storages declared env v).isSome ↔
    (declared v = true → (env.lookup v).isSome) ∧
      (declared v = false → (cellOf frames storages v).isSome) := by
  cases h : declared v with
  | true => simp [denoted_of_declared h]
  | false => simp [denoted_of_captured h]

theorem filterMap_denoted_of_captured (h : ∀ v ∈ vars, declared v = false) :
    vars.filterMap (denoted frames storages declared env) =
      vars.filterMap (cellOf frames storages) :=
  List.filterMap_congr fun v hv => denoted_of_captured (h v hv)

end

/-- The tree that takes the place of a list evaluates to the list of the denoted cells. If all
variables are captured, this is the constant list; otherwise it is a new one. -/
theorem evalWithin_listTree {p : Program} {n : Nat} {id : ExprId} {declared : VarId → Bool}
    {stamp : Stamp} {span : Span} {vars : List VarId}
    (h : Represents p.arena p.pool n id (listTree frames storages declared stamp span vars))
    (hroutable : Routable declared vars) (k : Nat) (m : Machine)
    (hcells : ∀ v ∈ vars, (denoted frames storages declared m.env v).isSome) :
    ∃ l stamp', p.evalWithin (k + 2) id m =
        .ok (.cellList l) { m with heap := { m.heap with nextStamp := stamp' } } ∧
      l.Lists (vars.filterMap (denoted frames storages declared m.env)) ∧
      ((vars.filter declared = [] ∧ (∃ c, p.pool.get? c = some (.cellList l)) ∧ l.stamp = stamp ∧
          stamp' = m.heap.nextStamp) ∨
        (vars.filter declared ≠ [] ∧ l.stamp = m.heap.nextStamp + 1 ∧
          stamp' = m.heap.nextStamp + 2)) := by
  have hfree : ∀ v ∈ vars, declared v = true → (m.env.lookup v).isSome :=
    fun v hv => (isSome_denoted_iff.1 (hcells v hv)).1
  have hbound : ∀ v ∈ vars, declared v = false → (cellOf frames storages v).isSome :=
    fun v hv => (isSome_denoted_iff.1 (hcells v hv)).2
  rw [listTree] at h
  split at h
  · rename_i hempty
    have hnone : ∀ v ∈ vars, declared v = false := by simpa using hempty
    have hall : (vars.filter fun v => !declared v) = vars :=
      List.filter_eq_self.2 fun v hv => by simp [hnone v hv]
    rw [hall] at h
    refine ⟨_, _, evalWithin_constant (k + 1) m h, ?_,
      .inl ⟨List.isEmpty_iff.1 hempty, h.constant, rfl, rfl⟩⟩
    rw [filterMap_denoted_of_captured hnone]
    exact CellList.lists_direct stamp _
  · rename_i hempty
    refine ⟨_, _, evalWithin_merge k m h fun v hv => ?_, ?_, .inr ⟨by simpa using hempty, rfl, rfl⟩⟩
    · exact hfree v (List.mem_of_mem_filter hv) (List.of_mem_filter hv)
    · exact lists_merged hfree hbound hroutable _ _ _

/-- What takes the place of a list is no target of an assignment either. -/
theorem evalTarget_listTree {p : Program} {n : Nat} {id : ExprId} {declared : VarId → Bool}
    {stamp : Stamp} {span : Span} {vars : List VarId}
    (h : Represents p.arena p.pool n id (listTree frames storages declared stamp span vars))
    (ev : ExprId → EvalM Value) (m : Machine) :
    evalTarget p ev id m = .error (.error .invalidAssignmentTarget) m := by
  rw [listTree] at h
  split at h
  · obtain ⟨-, kind, branches, -, hnode, hview, -⟩ := h.node
    obtain ⟨c, rfl, -⟩ := kind_of_view? hview
    rw [evalTarget, hnode]
    rfl
  · obtain ⟨-, kind, branches, -, hnode, hview, -⟩ := h.node
    obtain ⟨callee, args, ids, rfl, -⟩ := kind_of_view? hview
    rw [evalTarget, hnode]
    rfl

/-- How `r` stands for the list `vars` of the node `id` after quoting: it is that node if no
variable is captured, one constant if all are, and a merge otherwise, whose routes hit each position
of its two sources exactly once. -/
inductive StandsForList (declared : VarId → Bool) (a : Arena) (id : ExprId) (span : Span)
    (vars : List VarId) : ExprId → Arena → Pool → Prop where
  | kept {pool : Pool} (hbound : (vars.filter fun v => !declared v) = []) :
    StandsForList declared a id span vars id a pool
  | constant {r : ExprId} {a' : Arena} {pool : Pool} {l : CellList}
    (hbound : (vars.filter fun v => !declared v) ≠ []) (hfree : vars.filter declared = [])
    (htree : Represents a' pool 2 r (constantTree span (.cellList l))) :
    StandsForList declared a id span vars r a' pool
  | merged {r : ExprId} {a' : Arena} {pool : Pool} {l : CellList} {codes : Array Int64}
    (hbound : (vars.filter fun v => !declared v) ≠ []) (hfree : vars.filter declared ≠ [])
    (htree : Represents a' pool 2 r (.node .call span [
      constantTree span (.builtin .mergeVariables),
      .node (.cellList (vars.filter declared)) span [],
      constantTree span (.cellList l),
      constantTree span (.routing codes)]))
    (hcount : l.count = (vars.filter fun v => !declared v).length)
    (hroutes : (codes.toList.map Route.decode).Perm
      ((List.range (vars.filter declared).length).map .first ++
        (List.range l.count).map .second)) :
    StandsForList declared a id span vars r a' pool

variable {s : Quoting} {a : Arena} {id : ExprId} {span : Span} {slice : Slice VarId}
  {vars : List VarId}

theorem standsForList_listTree {declared : VarId → Bool} {stamp : Stamp} {r : ExprId} {a' : Arena}
    {pool : Pool} (hlen : vars.length < sliceLimit)
    (hbound : (vars.filter fun v => !declared v) ≠ [])
    (hcells : ∀ v ∈ vars, declared v = false → (cellOf frames storages v).isSome)
    (h : Represents a' pool 2 r (listTree frames storages declared stamp span vars)) :
    StandsForList declared a id span vars r a' pool := by
  rw [listTree] at h
  split at h
  · rename_i hempty
    exact .constant hbound (List.isEmpty_iff.1 hempty) h
  · rename_i hempty
    have hcount : ((vars.filter fun v => !declared v).filterMap (cellOf frames storages)).length =
        (vars.filter fun v => !declared v).length := length_filterMap_of_isSome fun v hv =>
      hcells v (List.mem_of_mem_filter hv) (by simpa using List.of_mem_filter hv)
    have hlimit := Route.sliceLimit_le_limit
    refine .merged hbound (by simpa using hempty) h (by simpa [CellList.count] using hcount) ?_
    rw [List.toList_toArray, decode_routes (by omega) (by omega), CellList.count,
      List.size_toArray, hcount, List.range_eq_range', List.range_eq_range']
    exact routes_perm vars

/-- Quoting a list of variables, from any state that a walk can be in, yields something that stands
for the list: wherever the declared variables are bound, it evaluates to a list that has at each
position the cell of the variable there, and no position past them. -/
theorem quoteCellList_denotes (hs : s.Sound frames storages)
    (hnode : a.node? id = some ⟨.cellList slice, span⟩) (hvars : a.vars? slice = some vars)
    (hdecl : ∀ v ∈ vars, v.index < a.names.size) (hlen : vars.length < sliceLimit)
    (hres : ∀ v ∈ vars, s.opened.declares v = false → ∃ c, resolve v frames storages = .ok c) :
    (Room s.pool a ((Label.cellList vars).cost 0) →
      ∃ r s' a', quoteCellList frames storages id span slice s a = .ok ((r, s'), a')) ∧
    ∀ r s' a', quoteCellList frames storages id span slice s a = .ok ((r, s'), a') →
      StandsForList s.opened.declares a id span vars r a' s'.pool ∧
      ∀ p : Program, a'.Grows p.arena → s'.pool.Grows p.pool → ∀ m : Machine,
        (∀ v ∈ vars, s.opened.declares v = true → (m.env.lookup v).isSome) →
        ∃ l stamp, p.eval r m =
            .ok (.cellList l) { m with heap := { m.heap with nextStamp := stamp } } ∧
          l.count = vars.length ∧
          (∀ i (hi : i < vars.length), ∃ c,
            denoted frames storages s.opened.declares m.env vars[i] = some c ∧
            ∀ heap : Heap, heap.readAt l i = .ok (heap.read c) ∧
              ∀ v, heap.writeAt v l i = .ok (heap.write c v)) ∧
          ∀ i, vars.length ≤ i → ∀ heap : Heap, heap.readAt l i = .error ⟨i, vars.length⟩ ∧
            ∀ v, heap.writeAt v l i = .error ⟨i, vars.length⟩ := by
  have hcells : ∀ v ∈ vars, s.opened.declares v = false → (cellOf frames storages v).isSome := by
    intro v hv hd
    obtain ⟨c, hc⟩ := hres v hv hd
    rw [cellOf, hc]
    rfl
  have hdenoted : ∀ m : Machine,
      (∀ v ∈ vars, s.opened.declares v = true → (m.env.lookup v).isSome) →
      ∀ v ∈ vars, (denoted frames storages s.opened.declares m.env v).isSome := by
    intro m henv v hv
    cases hd : s.opened.declares v with
    | true => rw [denoted, if_pos hd]; exact henv v hv hd
    | false => rw [denoted, if_neg (by simp [hd])]; exact hcells v hv hd
  have hnodeTree : ∀ n, Represents a s.pool (n + 1) id (.node (.cellList vars) span []) := by
    intro n
    refine ⟨⟨.cellList slice, span⟩, .cellList vars, [], [], hnode, ?_, hdecl, .nil, rfl⟩
    simp [Arena.view?, hvars]
  have hruns : Runs (quoteCellList frames storages id span slice) s a
      (fun r s' a' => StandsForList s.opened.declares a id span vars r a' s'.pool ∧
        ∀ p : Program, a'.Grows p.arena → s'.pool.Grows p.pool → ∀ (k : Nat) (m : Machine),
          (∀ v ∈ vars, (denoted frames storages s.opened.declares m.env v).isSome) →
          ∃ l stamp, p.evalWithin (k + 2) r m =
              .ok (.cellList l) { m with heap := { m.heap with nextStamp := stamp } } ∧
            l.Lists (vars.filterMap (denoted frames storages s.opened.declares m.env)))
      (fun _ => ¬Room s.pool a ((Label.cellList vars).cost 0)) := by
    refine quoteCellList_runs hs hvars hdecl (fun hfree _ => ?_)
      (fun r s' a' hbound _ hroutable _ _ htree => ?_) fun f hf => ?_
    · refine ⟨.kept hfree, fun p ha hp k m hsome => ?_⟩
      have hdeclared : ∀ v ∈ vars, s.opened.declares v = true := by simpa using hfree
      have hcongr : vars.filterMap (denoted frames storages s.opened.declares m.env) =
          vars.filterMap m.env.lookup :=
        List.filterMap_congr fun v hv => by rw [denoted, if_pos (hdeclared v hv)]
      rw [hcongr]
      refine ⟨_, _, evalWithin_cellList (k + 1) m ((hnodeTree 0).grows ha hp (Nat.le_refl _))
        fun v hv => ?_, CellList.lists_direct _ _⟩
      have hcell := hsome v hv
      rwa [denoted, if_pos (hdeclared v hv)] at hcell
    · refine ⟨standsForList_listTree hlen hbound hcells (htree 0), fun p ha hp k m hsome => ?_⟩
      obtain ⟨l, stamp, heval, hl, -⟩ :=
        evalWithin_listTree ((htree 0).grows ha hp (Nat.le_refl _)) hroutable k m hsome
      exact ⟨l, stamp, heval, hl⟩
    · intro hroom
      have hroutable : Routable s.opened.declares vars :=
        .of_length (Nat.le_of_lt (Nat.lt_of_lt_of_le hlen Route.sliceLimit_le_limit))
      obtain ⟨v, why, name, hfirst, -⟩ := hf (fun _ => ⟨hroom, hlen⟩) hroutable
      have hnone : firstUnresolved frames storages
          (vars.filter fun v => !s.opened.declares v) = none :=
        firstUnresolved_eq_none.2 fun w hw =>
          hres w (List.mem_of_mem_filter hw) (by simpa using List.of_mem_filter hw)
      rw [hnone] at hfirst
      cases hfirst
  obtain ⟨r, s', a', hrun, hform, hlists⟩ | ⟨f, hrun, hfull⟩ := hruns.cases
  · refine ⟨fun _ => ⟨r, s', a', hrun⟩, fun r' s'' a'' hrun' => ?_⟩
    obtain ⟨⟨⟨⟩, ⟨⟩⟩, ⟨⟩⟩ := Except.ok.inj (hrun.symm.trans hrun')
    refine ⟨hform, fun p ha hp m henv => ?_⟩
    obtain ⟨n, hn⟩ : ∃ n, p.levels = n + 2 :=
      ⟨_, (Nat.sub_add_cancel (by simp [Program.levels, indexLimit, UInt32.size])).symm⟩
    obtain ⟨l, stamp, heval, hl⟩ := hlists p ha hp n m (hdenoted m henv)
    refine ⟨l, stamp, ?_, hl.positions (hdenoted m henv)⟩
    rw [Program.eval, hn, heval]
  · refine ⟨fun hroom => absurd hroom hfull, fun r s' a' hrun' => ?_⟩
    rw [hrun] at hrun'
    cases hrun'

/-- In the function of `listFunction` the parameter `y` is declared and `x` is captured. -/
theorem quoteCellList_denotes_listFunction :
    ∃ r s' a', quoteCellList [⟨[⟨0⟩]⟩] [⟨#[⟨7⟩]⟩] ⟨0⟩ ⟨8, 14⟩ ⟨0, 2⟩
        { pool := {}, nextStamp := 0, opened := ⟨[[⟨1⟩]]⟩ } listFunction = .ok ((r, s'), a') ∧
      ∃ l m, Program.eval ⟨a', s'.pool, 0⟩ r ⟨{}, ({} : Environment).define ⟨1⟩ ⟨3⟩, 0⟩ =
          .ok (.cellList l) m ∧
        ∀ heap : Heap, heap.readAt l 0 = .ok (heap.read ⟨7⟩) ∧
          heap.readAt l 1 = .ok (heap.read ⟨3⟩) ∧ heap.readAt l 2 = .error ⟨2, 2⟩ := by
  have hs : Quoting.Sound [⟨[⟨0⟩]⟩] [⟨#[⟨7⟩]⟩]
      { pool := {}, nextStamp := 0, opened := ⟨[[⟨1⟩]]⟩ } :=
    sound_start
  have hnode : listFunction.node? ⟨0⟩ = some ⟨.cellList ⟨0, 2⟩, ⟨8, 14⟩⟩ := rfl
  have hvars : listFunction.vars? ⟨0, 2⟩ = some [⟨0⟩, ⟨1⟩] := rfl
  have hres : ∀ v ∈ [⟨0⟩, ⟨1⟩], OpenScopes.declares ⟨[[⟨1⟩]]⟩ v = false →
      ∃ c, resolve v [⟨[⟨0⟩]⟩] [⟨#[⟨7⟩]⟩] = .ok c := by
    intro v hv hd
    rcases List.mem_cons.1 hv with rfl | hv
    · exact ⟨⟨7⟩, rfl⟩
    · obtain rfl := List.mem_singleton.1 hv
      cases hd
  obtain ⟨hok, hdenotes⟩ := quoteCellList_denotes hs hnode hvars (by simp [listFunction])
    (by simp [sliceLimit, UInt16.size]) hres
  obtain ⟨r, s', a', hrun⟩ := hok fun table => by cases table <;> decide
  obtain ⟨-, hlists⟩ := hdenotes r s' a' hrun
  have henv : ∀ v ∈ [⟨0⟩, ⟨1⟩], OpenScopes.declares ⟨[[⟨1⟩]]⟩ v = true →
      ((({} : Environment).define ⟨1⟩ ⟨3⟩).lookup v).isSome := by
    decide
  obtain ⟨l, stamp, heval, -, hcells, hpast⟩ := hlists ⟨a', s'.pool, 0⟩ (.refl _) (.refl _)
    ⟨{}, ({} : Environment).define ⟨1⟩ ⟨3⟩, 0⟩ henv
  refine ⟨r, s', a', hrun, l, _, heval, fun heap => ⟨?_, ?_, ?_⟩⟩
  · obtain ⟨c, hc, hread⟩ := hcells 0 (by simp)
    obtain rfl : ⟨7⟩ = c := Option.some.inj hc
    exact (hread heap).1
  · obtain ⟨c, hc, hread⟩ := hcells 1 (by simp)
    obtain rfl : ⟨3⟩ = c := Option.some.inj hc
    exact (hread heap).1
  · exact (hpast 2 (Nat.le_refl 2) heap).1

end

end Quotation
