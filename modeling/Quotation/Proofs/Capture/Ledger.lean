import Quotation.Proofs.Capture.Run
import Quotation.Proofs.Capture.Tree

/-!
# The ledger of quoting

An `Entry` says that a node is added, or that a constant is asked for. The `Ledger` says what a list
of entries comes to: a node for each entry of a node, a constant for each list and each routing
table, but one for each variable however often its cell is asked for, and one for all merges. A step
that `Books` entries leaves the ledger with those entries at its end; steps book theirs one after
another (`Books.bind`).
-/

namespace Quotation

open QuoteM

/-! ## Entries -/

/-- What a step of quoting adds to the arena, or asks of the pool. -/
inductive Entry where
  | node
  /-- The constant for the cell of the variable. -/
  | cell (v : VarId)
  | list
  | routing
  | merge
  deriving DecidableEq

def Entry.cell? : Entry → Option VarId
  | cell v => some v
  | _ => none

/-- The cell that the value is. -/
def Value.cell? : Value → Option Cell
  | cell c => some c
  | _ => none

/-- The variables whose cells are asked for, in the order of the first requests. -/
def variablesOf (log : List Entry) : List VarId := (log.filterMap Entry.cell?).eraseDups

/-- How many constants of each type the entries come to. -/
def constantsOf (log : List Entry) : ValueType → Nat
  | .cell => (variablesOf log).length
  | .cellList => log.count .list
  | .routing => log.count .routing
  | .builtin => if .merge ∈ log then 1 else 0
  | _ => 0

section
variable {log : List Entry} {e : Entry} {v : VarId}

theorem variablesOf_concat (he : e.cell? = none) : variablesOf (log ++ [e]) = variablesOf log := by
  simp [variablesOf, List.filterMap_append, he]

theorem filterMap_cell (v : VarId) : [Entry.cell v].filterMap Entry.cell? = [v] := rfl

theorem variablesOf_again (hv : v ∈ variablesOf log) :
    variablesOf (log ++ [.cell v]) = variablesOf log := by
  rw [variablesOf, List.mem_eraseDups] at hv
  rw [variablesOf, List.filterMap_append, filterMap_cell, List.eraseDups_append]
  simp [List.removeAll, hv, variablesOf, -List.mem_filterMap]

theorem variablesOf_first (hv : v ∉ variablesOf log) :
    variablesOf (log ++ [.cell v]) = variablesOf log ++ [v] := by
  rw [variablesOf, List.mem_eraseDups] at hv
  rw [variablesOf, List.filterMap_append, filterMap_cell, List.eraseDups_append]
  simp [List.removeAll, hv, variablesOf, List.eraseDups_cons, -List.mem_filterMap]

end

/-! ## The ledger -/

section
variable (frames : List Frame) (storages : List Storage) (pool : Pool) (size : Nat)

/-- The pool has grown from `pool` by what the entries come to: constants of each type, and among
them the cells of the variables in the order of the first requests. -/
def Gained (log : List Entry) (pool' : Pool) : Prop :=
  ∃ added : List Value, pool'.values = pool.values ++ added ∧
    added.filterMap Value.cell? = (variablesOf log).filterMap (cellOf frames storages) ∧
    ∀ type, (added.map Value.type).count type = constantsOf log type

/-- The entries are all that has been done since the pool was `pool` and the arena had `size`
nodes. -/
structure Ledger (log : List Entry) (s : Quoting) (a : Arena) : Prop where
  nodes : a.size = size + log.count .node
  requested : s.cellConstants.map Prod.fst = (variablesOf log).reverse
  merge : s.mergeConstant.isSome ↔ .merge ∈ log
  constants : Gained frames storages pool log s.pool

/-- Wherever it begins, the step adds the entries to the ledger, if it ends without a fault. -/
def Books {α : Type} (x : QuoteM α) (entries : List Entry) : Prop :=
  ∀ log s a, Ledger frames storages pool size log s a →
    Runs x s a (fun _ => Ledger frames storages pool size (log ++ entries)) fun _ => True

end

section
variable {frames : List Frame} {storages : List Storage} {pool pool' : Pool} {size : Nat}
  {log : List Entry} {e : Entry} {s : Quoting} {a : Arena}

theorem Gained.start (pool : Pool) : Gained frames storages pool [] pool :=
  ⟨[], by simp, rfl, fun type => by cases type <;> rfl⟩

/-- An entry that no constant comes of. -/
theorem Gained.same (h : Gained frames storages pool log pool')
    (hvars : variablesOf (log ++ [e]) = variablesOf log)
    (hconstants : ∀ type, constantsOf (log ++ [e]) type = constantsOf log type) :
    Gained frames storages pool (log ++ [e]) pool' := by
  obtain ⟨added, hpool, hcells, hcount⟩ := h
  exact ⟨added, hpool, hvars ▸ hcells, fun type => hconstants type ▸ hcount type⟩

/-- An entry that a constant comes of. -/
theorem Gained.push {v : Value} (h : Gained frames storages pool log pool')
    (hcells : (variablesOf (log ++ [e])).filterMap (cellOf frames storages) =
      (variablesOf log).filterMap (cellOf frames storages) ++ v.cell?.toList)
    (hconstants : ∀ type, constantsOf (log ++ [e]) type =
      constantsOf log type + [v.type].count type) :
    Gained frames storages pool (log ++ [e]) { pool' with values := pool'.values.push v } := by
  obtain ⟨added, hpool, hcells', hcount⟩ := h
  refine ⟨added ++ [v], by simp [hpool, append_list_eq], ?_, fun type => ?_⟩
  · rw [List.filterMap_append, hcells, hcells']
    cases hv : v.cell? <;> simp [hv]
  · rw [List.map_append, List.count_append, hcount, hconstants]
    rfl

namespace Ledger

theorem start {stamp : Stamp} (hsize : a.size = size) :
    Ledger frames storages pool size [] { pool, nextStamp := stamp } a where
  nodes := hsize
  requested := rfl
  merge := by simp
  constants := .start pool

/-- The ledger is of the pool, the requests and the number of nodes. -/
theorem of_eq {s' : Quoting} {a' : Arena} (h : Ledger frames storages pool size log s a)
    (hpool : s'.pool = s.pool) (hcells : s'.cellConstants = s.cellConstants)
    (hmerge : s'.mergeConstant = s.mergeConstant) (hsize : a'.size = a.size) :
    Ledger frames storages pool size log s' a' where
  nodes := hsize ▸ h.nodes
  requested := hcells ▸ h.requested
  merge := hmerge ▸ h.merge
  constants := hpool ▸ h.constants

theorem node (h : Ledger frames storages pool size log s a) (node : Node) :
    Ledger frames storages pool size (log ++ [.node]) s
      { a with nodes := a.nodes.push node } where
  nodes := by
    have hnodes := h.nodes
    simp only [Arena.size, Array.size_push, List.count_append, List.count_singleton_self]
      at hnodes ⊢
    omega
  requested := by rw [variablesOf_concat rfl, h.requested]
  merge := by simp [h.merge]
  constants := by
    refine h.constants.same (variablesOf_concat rfl) fun type => ?_
    cases type <;> simp [constantsOf, variablesOf_concat (e := .node) rfl]

/-- A constant that no request is remembered for. -/
theorem push {v : Value} (h : Ledger frames storages pool size log s a)
    (he : e = .list ∧ v.type = .cellList ∨ e = .routing ∧ v.type = .routing) :
    Ledger frames storages pool size (log ++ [e])
      { s with pool := { s.pool with values := s.pool.values.push v } } a := by
  have hnone : e.cell? = none := by
    rcases he with ⟨rfl, -⟩ | ⟨rfl, -⟩ <;> rfl
  have hv : v.cell? = none := by
    cases v with
    | cell c => rcases he with ⟨-, h⟩ | ⟨-, h⟩ <;> cases h
    | _ => rfl
  have hvars : variablesOf (log ++ [e]) = variablesOf log := variablesOf_concat hnone
  refine ⟨?_, hvars ▸ h.requested, ?_, h.constants.push (by simp [hvars, hv]) fun type => ?_⟩
  · rcases he with ⟨rfl, -⟩ | ⟨rfl, -⟩ <;> simp [h.nodes]
  · rcases he with ⟨rfl, -⟩ | ⟨rfl, -⟩ <;> simp [h.merge]
  · rcases he with ⟨rfl, hv⟩ | ⟨rfl, hv⟩ <;> cases type <;> simp [constantsOf, hvars, hv]

/-- The first request of a cell. -/
theorem pushCell {v : VarId} {c : Cell} {k : ConstantId}
    (h : Ledger frames storages pool size log s a) (hc : cellOf frames storages v = some c)
    (hv : v ∉ variablesOf log) :
    Ledger frames storages pool size (log ++ [.cell v])
      { s with
        pool := { s.pool with values := s.pool.values.push (.cell c) }
        cellConstants := (v, k) :: s.cellConstants } a := by
  have hvars := variablesOf_first hv
  refine ⟨by simp [h.nodes], by simp [hvars, h.requested], by simp [h.merge], ?_⟩
  refine h.constants.push (by simp [hvars, hc, Value.cell?]) fun type => ?_
  cases type <;> simp [constantsOf, hvars, Value.type]

/-- The cell has been asked for before. -/
theorem sameCell {v : VarId} (h : Ledger frames storages pool size log s a)
    (hv : v ∈ variablesOf log) :
    Ledger frames storages pool size (log ++ [.cell v]) s a := by
  have hvars := variablesOf_again hv
  refine ⟨by simp [h.nodes], by simp [hvars, h.requested], by simp [h.merge], ?_⟩
  refine h.constants.same hvars fun type => ?_
  cases type <;> simp [constantsOf, hvars]

theorem pushMerge {k : ConstantId} (h : Ledger frames storages pool size log s a)
    (hmerge : .merge ∉ log) :
    Ledger frames storages pool size (log ++ [.merge])
      { s with
        pool := { s.pool with values := s.pool.values.push (.builtin .mergeVariables) }
        mergeConstant := some k } a := by
  have hvars : variablesOf (log ++ [.merge]) = variablesOf log := variablesOf_concat rfl
  refine ⟨by simp [h.nodes], by simp [hvars, h.requested], by simp, ?_⟩
  refine h.constants.push (by simp [hvars, Value.cell?]) fun type => ?_
  cases type <;> simp [constantsOf, hvars, Value.type, hmerge]

theorem sameMerge (h : Ledger frames storages pool size log s a) (hmerge : .merge ∈ log) :
    Ledger frames storages pool size (log ++ [.merge]) s a := by
  have hvars : variablesOf (log ++ [.merge]) = variablesOf log := variablesOf_concat rfl
  refine ⟨by simp [h.nodes], by simp [hvars, h.requested], by simp [h.merge, hmerge], ?_⟩
  refine h.constants.same hvars fun type => ?_
  cases type <;> simp [constantsOf, hvars, hmerge]

end Ledger

/-! ## Steps -/

namespace Books

variable {α β : Type} {x : QuoteM α} {entries entries' : List Entry}

theorem pure {r : α} : Books frames storages pool size (pure r) [] :=
  fun log _ _ h => Runs.pure (by rwa [List.append_nil])

theorem bind {k : α → QuoteM β} (hx : Books frames storages pool size x entries)
    (hk : ∀ r, Books frames storages pool size (k r) entries') :
    Books frames storages pool size (x >>= k) (entries ++ entries') := by
  intro log s a h
  refine (hx log s a h).seq fun r s' a' h' => ?_
  rw [← List.append_assoc]
  exact hk r _ s' a' h'

theorem newStamp : Books frames storages pool size newStamp [] := by
  intro log s a h
  rw [List.append_nil]
  exact Runs.newStamp (h.of_eq rfl rfl rfl rfl)

theorem traceCapture [Tracing] {v : VarId} :
    Books frames storages pool size (traceCapture v) [] := by
  intro log s a h
  rw [List.append_nil]
  exact Runs.traceCapture h fun _ => trivial

theorem add {kind : Kind} {span : Span} :
    Books frames storages pool size (liftM (Builder.add kind span)) [.node] :=
  fun _ _ _ h => Runs.add (h.node _) fun _ => trivial

theorem addExprs {ids : List ExprId} :
    Books frames storages pool size (liftM (Builder.addExprs ids)) [] :=
  fun log _ _ h => Runs.addExprs (by
    rw [List.append_nil]
    exact h.of_eq rfl rfl rfl rfl) (fun _ => trivial) fun _ => trivial

theorem addVars {vs : List VarId} :
    Books frames storages pool size (liftM (Builder.addVars vs)) [] :=
  fun log _ _ h => Runs.addVars (by
    rw [List.append_nil]
    exact h.of_eq rfl rfl rfl rfl) (fun _ => trivial) fun _ => trivial

theorem addHandlers {hs : List Handler} :
    Books frames storages pool size (liftM (Builder.addHandlers hs)) [] :=
  fun log _ _ h => Runs.addHandlers (by
    rw [List.append_nil]
    exact h.of_eq rfl rfl rfl rfl) (fun _ => trivial) fun _ => trivial

theorem pushConstant {v : Value}
    (he : e = .list ∧ v.type = .cellList ∨ e = .routing ∧ v.type = .routing) :
    Books frames storages pool size (pushConstant v) [e] :=
  fun _ _ _ h => Runs.pushConstant (h.push he) fun _ => trivial

theorem cellConstant {v : VarId} {c : Cell} (hc : cellOf frames storages v = some c) :
    Books frames storages pool size (cellConstant v c) [.cell v] := by
  intro log s a h
  have hmem : v ∈ variablesOf log ↔ (s.cellConstants.lookup v).isSome := by
    rw [← List.mem_reverse, ← h.requested, List.lookup_isSome_iff, List.mem_map]
    exact exists_congr fun p => and_congr_right fun _ => by rw [beq_iff_eq, eq_comm]
  refine Runs.bind (Runs.get ?_)
  cases hk : s.cellConstants.lookup v with
  | some k => exact Runs.pure (h.sameCell (hmem.2 (by rw [hk]; rfl)))
  | none =>
    refine Runs.bind (Runs.pushConstant ?_ fun _ => trivial)
    exact Runs.bind (Runs.modify (Runs.pure (h.pushCell hc (mt hmem.1 (by simp [hk])))))

theorem mergeConstant : Books frames storages pool size mergeConstant [.merge] := by
  intro log s a h
  refine Runs.bind (Runs.get ?_)
  cases hk : s.mergeConstant with
  | some k => exact Runs.pure (h.sameMerge (h.merge.1 (by rw [hk]; rfl)))
  | none =>
    have hmerge : .merge ∉ log := fun hmem => by
      have hsome := h.merge.2 hmem
      rw [hk] at hsome
      cases hsome
    refine Runs.bind (Runs.pushConstant ?_ fun _ => trivial)
    exact Runs.bind (Runs.modify (Runs.pure (h.pushMerge hmerge)))

end Books

end

end Quotation
