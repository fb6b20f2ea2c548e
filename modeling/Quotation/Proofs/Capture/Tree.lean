import Quotation.Capture.Frame
import Quotation.Proofs.Tree

/-!
# Capturing in a tree

What quoting is to do to the tree of a fragment, without arena, pool or open scopes. The variables
that the enclosing nodes declare are a predicate `declared`, which grows on the way down
(`Label.under`). Everything else is told by the variables that a tree refers to and that are not
declared around the reference, its `captures`, in the order of a visit:

* `firstUnresolved`: the first of them that has no cell, which makes quoting fail;
* `Tree.capture`: the tree with an access to a cell in place of each of them;
* `Tree.lists` and `Tree.cost`: the lists that are given a stamp, and what each table must hold.

`Tree.Short` says that every list of a tree is short enough for a slice, and `Tree.Routable` that
every position of a list of variables has a route.
-/

namespace Quotation

/-! ## Captured variables -/

/-- The variables that a node declares for what lies below it. -/
def Label.declares : Label → List VarId
  | .block locals => locals
  | .lambda params _ => params
  | .handler caught => caught.toList
  | _ => []

/-- The variables declared around the children of a node. -/
def Label.under (l : Label) (declared : VarId → Bool) (v : VarId) : Bool :=
  l.declares.contains v || declared v

theorem Label.under_eq_true {declared : VarId → Bool} (h : ∀ v, declared v = true) (l : Label)
    (v : VarId) : l.under declared v = true := by
  rw [under, h, Bool.or_true]

/-- The variables that a node refers to by itself. -/
def Label.refers : Label → List VarId
  | .var v => [v]
  | .cellList vars => vars
  | _ => []

theorem Label.refers_subset_vars (l : Label) : l.refers ⊆ l.vars := by
  cases l <;> simp [refers, vars]

mutual

/-- The captured variables in the order of a visit, each as often as it is referred to. -/
def Tree.captures (declared : VarId → Bool) : Tree → List VarId
  | .node l _ ts =>
    l.refers.filter (fun v => !declared v) ++ capturesAll (l.under declared) ts

def capturesAll (declared : VarId → Bool) : List Tree → List VarId
  | [] => []
  | t :: ts => t.captures declared ++ capturesAll declared ts

end

section
variable (frames : List Frame) (storages : List Storage)

/-- The cell that the chain has for a variable. -/
def cellOf (v : VarId) : Option Cell := (resolve v frames storages).toOption

variable {frames storages} in
theorem cellOf_eq_some_iff {v : VarId} {c : Cell} :
    cellOf frames storages v = some c ↔ resolve v frames storages = .ok c := by
  rw [cellOf]
  cases resolve v frames storages <;> simp [Except.toOption]

variable {frames storages} in
theorem isSome_cellOf_iff {v : VarId} :
    (cellOf frames storages v).isSome ↔ ∃ c, resolve v frames storages = .ok c := by
  simp only [Option.isSome_iff_exists, cellOf_eq_some_iff]

/-- The first of the variables without a cell, and why it has none. -/
def firstUnresolved (vs : List VarId) : Option (VarId × Unresolved) :=
  vs.findSome? fun v =>
    match resolve v frames storages with
    | .ok _ => none
    | .error why => some (v, why)

/-! ## The tree of the quoted fragment -/

/-- The routes to the positions of a list: the declared variables are the first source, the others
the second. So many of both have gone before. -/
def routes (declared : VarId → Bool) (free bound : Nat) : List VarId → List Route
  | [] => []
  | v :: vs =>
    if declared v then .first free :: routes declared (free + 1) bound vs
    else .second bound :: routes declared free (bound + 1) vs

/-- The code of a route among the positions that have one. -/
def Route.code : Route → Int64
  | first i => Int64.ofNat i
  | second i => -1 - Int64.ofNat i

/-- All positions of the two sources of a list have codes. -/
def Routable (declared : VarId → Bool) (vs : List VarId) : Prop :=
  (vs.filter declared).length ≤ Route.limit ∧ (vs.filter fun v => !declared v).length ≤ Route.limit

theorem Routable.of_length {declared : VarId → Bool} {vs : List VarId}
    (h : vs.length ≤ Route.limit) : Routable declared vs :=
  ⟨Nat.le_trans (List.length_filter_le _ _) h, Nat.le_trans (List.length_filter_le _ _) h⟩

def constantTree (span : Span) (v : Value) : Tree := .node (.constant v) span []

/-- The access to a cell. -/
def cellTree (span : Span) (c : Cell) : Tree := .node .content span [constantTree span (.cell c)]

/-- What takes the place of a list with captured variables: the list of their cells, or the call
that merges it with the list of the declared ones. -/
def listTree (declared : VarId → Bool) (stamp : Stamp) (span : Span) (vars : List VarId) : Tree :=
  let free := vars.filter declared
  let cells := (vars.filter fun v => !declared v).filterMap (cellOf frames storages)
  let bound := constantTree span (.cellList (.direct stamp cells.toArray))
  if free.isEmpty then bound
  else
    .node .call span [
      constantTree span (.builtin .mergeVariables),
      .node (.cellList free) span [],
      bound,
      constantTree span (.routing ((routes declared 0 0 vars).map Route.code).toArray)]

/-- What takes the place of a node, if anything does. -/
def Label.replacement (declared : VarId → Bool) (stamp : Stamp) (span : Span) :
    Label → Option Tree
  | .var v => if declared v then none else (cellOf frames storages v).map (cellTree span)
  | .cellList vars =>
    if vars.all declared then none else some (listTree frames storages declared stamp span vars)
  | _ => none

variable {frames storages} in
/-- Only a captured variable with a cell, and a list with a captured variable, are replaced. -/
theorem Label.replacement_cases {declared : VarId → Bool} {stamp : Stamp} {span : Span}
    {label : Label} {t : Tree}
    (h : label.replacement frames storages declared stamp span = some t) :
    (∃ v c, label = .var v ∧ declared v = false ∧ cellOf frames storages v = some c ∧
      t = cellTree span c) ∨
    ∃ vars, label = .cellList vars ∧ vars.all declared = false ∧
      t = listTree frames storages declared stamp span vars := by
  cases label with
  | var v =>
    obtain ⟨hdeclared, h⟩ := Option.ite_none_left_eq_some.1 h
    obtain ⟨c, hc, rfl⟩ := Option.map_eq_some_iff.1 h
    exact .inl ⟨v, c, rfl, Bool.not_eq_true _ ▸ hdeclared, hc, rfl⟩
  | cellList vars =>
    obtain ⟨hall, h⟩ := Option.ite_none_left_eq_some.1 h
    exact .inr ⟨vars, rfl, Bool.not_eq_true _ ▸ hall, (Option.some.inj h).symm⟩
  | _ => cases h

/-- A list with captured variables is given a stamp. -/
def Label.lists (declared : VarId → Bool) : Label → Nat
  | .cellList vars => if vars.all declared then 0 else 1
  | _ => 0

mutual

/-- How many stamps quoting uses. -/
def Tree.lists (declared : VarId → Bool) : Tree → Nat
  | .node l _ ts => l.lists declared + listsAll (l.under declared) ts

def listsAll (declared : VarId → Bool) : List Tree → Nat
  | [] => 0
  | t :: ts => t.lists declared + listsAll declared ts

end

mutual

/-- The tree of the quoted fragment, with stamps from `stamp` on. -/
def Tree.capture (declared : VarId → Bool) (stamp : Stamp) : Tree → Tree
  | .node l span ts =>
    (l.replacement frames storages declared stamp span).getD
      (.node l span (captureAll (l.under declared) stamp ts))

def captureAll (declared : VarId → Bool) (stamp : Stamp) : List Tree → List Tree
  | [] => []
  | t :: ts => t.capture declared stamp :: captureAll declared (stamp + t.lists declared) ts

end

end

/-! ## What quoting needs -/

/-- The entries of the list that a node is built anew with, if it has `children` children. -/
def Label.listCost (children : Nat) : Label → Table → Nat
  | .block _, .exprEntries => children
  | .call, .exprEntries => children - 1
  | .attempt, .handlers => children - 1
  | _, _ => 0

/-- The entries of a node that is built anew, and at most the entries of what takes the place of a
reference. A handler is an entry of the list of its `attempt`. -/
def Label.cost (children : Nat) : Label → Table → Nat
  | .var _, .expressions => 2
  | .var _, .constants => 1
  | .cellList _, .expressions => 5
  | .cellList _, .exprEntries => 3
  | .cellList vars, .varEntries => vars.length
  | .cellList _, .constants => 3
  | .var _, _ | .cellList _, _ | .handler _, _ => 0
  | _, .expressions => 1
  | l, table => l.listCost children table

mutual

/-- At most so many entries are added to a table: a tree without captured variables adds none. -/
def Tree.cost (table : Table) (declared : VarId → Bool) : Tree → Nat
  | .node l span ts =>
    if ((Tree.node l span ts).captures declared).isEmpty then 0
    else l.cost ts.length table + costAll table (l.under declared) ts

def costAll (table : Table) (declared : VarId → Bool) : List Tree → Nat
  | [] => 0
  | t :: ts => t.cost table declared + costAll table declared ts

end

/-- The length of the list that a node is built with. -/
def Label.listLength (children : Nat) : Label → Nat
  | .cellList vars => vars.length
  | .block _ => children
  | .call | .attempt => children - 1
  | _ => 0

mutual

/-- Every list of the tree is as short as slices describe them. -/
def Tree.Short : Tree → Prop
  | .node l _ ts => l.listLength ts.length < sliceLimit ∧ ShortAll ts

def ShortAll : List Tree → Prop
  | [] => True
  | t :: ts => t.Short ∧ ShortAll ts

end

mutual

/-- Every position of a list of variables has a route with a code, declared or not. -/
def Tree.Routable (declared : VarId → Bool) : Tree → Prop
  | .node l _ ts => Quotation.Routable declared l.refers ∧ RoutableAll (l.under declared) ts

def RoutableAll (declared : VarId → Bool) : List Tree → Prop
  | [] => True
  | t :: ts => t.Routable declared ∧ RoutableAll declared ts

end

/-! ## Lists of trees -/

section
variable {declared : VarId → Bool} {t : Tree} {ts us : List Tree}

@[simp] theorem capturesAll_singleton : capturesAll declared [t] = t.captures declared :=
  List.append_nil _

@[simp] theorem capturesAll_append :
    capturesAll declared (ts ++ us) = capturesAll declared ts ++ capturesAll declared us := by
  induction ts with
  | nil => rfl
  | cons t ts ih => simp [capturesAll, ih]

@[simp] theorem listsAll_append :
    listsAll declared (ts ++ us) = listsAll declared ts + listsAll declared us := by
  induction ts with
  | nil => simp [listsAll]
  | cons t ts ih => simp [listsAll, ih, Nat.add_assoc]

@[simp] theorem captureAll_append {frames : List Frame} {storages : List Storage} {stamp : Stamp} :
    captureAll frames storages declared stamp (ts ++ us) =
      captureAll frames storages declared stamp ts ++
        captureAll frames storages declared (stamp + listsAll declared ts) us := by
  induction ts generalizing stamp with
  | nil => rfl
  | cons t ts ih => simp [captureAll, listsAll, ih, Nat.add_assoc]

@[simp] theorem costAll_append {table : Table} :
    costAll table declared (ts ++ us) =
      costAll table declared ts + costAll table declared us := by
  induction ts with
  | nil => simp [costAll]
  | cons t ts ih => simp [costAll, ih, Nat.add_assoc]

@[simp] theorem shortAll_append : ShortAll (ts ++ us) ↔ ShortAll ts ∧ ShortAll us := by
  induction ts with
  | nil => simp [ShortAll]
  | cons t ts ih => simp [ShortAll, ih, and_assoc]

@[simp] theorem routableAll_append :
    RoutableAll declared (ts ++ us) ↔ RoutableAll declared ts ∧ RoutableAll declared us := by
  induction ts with
  | nil => simp [RoutableAll]
  | cons t ts ih => simp [RoutableAll, ih, and_assoc]

@[simp] theorem firstUnresolved_append {frames : List Frame} {storages : List Storage}
    {vs ws : List VarId} :
    firstUnresolved frames storages (vs ++ ws) =
      (firstUnresolved frames storages vs).or (firstUnresolved frames storages ws) :=
  List.findSome?_append

end

end Quotation
