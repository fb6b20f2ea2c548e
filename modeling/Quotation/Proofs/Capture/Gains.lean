import Quotation.Proofs.Capture.Ledger
import Quotation.Proofs.Capture.Quote

/-!
# What quoting adds

The `Fate` of an occurrence in the tree of a fragment is what quoting makes of it: it is kept, read
from a cell, replaced by a list, or built anew since something below it is not kept. Each fate comes
to the same entries wherever it befalls an occurrence (`Fate.entries`), and a walk books those of
all occurrences (`runWithin_counts`). So the sizes of arena and pool after quoting are read off the
tree (`quote_gains`).
-/

namespace Quotation

open QuoteM

/-! ## Fates -/

/-- What becomes of an occurrence. -/
inductive Fate where
  | kept
  /-- A reference to a captured variable. -/
  | read (v : VarId)
  /-- A list of captured variables only. -/
  | list
  /-- A list of captured and of declared variables. -/
  | mixed
  /-- Some variable is captured below. -/
  | rebuilt
  deriving DecidableEq

namespace Fate

def read? : Fate → Option VarId
  | read v => some v
  | _ => none

/-- What is added for the occurrence, in this order. -/
def entries : Fate → List Entry
  | kept => []
  | read v => [.cell v, .node, .node]
  | list => [.list, .node]
  | mixed => [.list, .node, .node, .routing, .node, .merge, .node, .node]
  | rebuilt => [.node]

/-- How many constants of each type the fates come to: one for each variable that is read, one for
each list, and for the lists that are merged a routing table each and one function for all. -/
def constants (fates : List Fate) : ValueType → Nat
  | .cell => (fates.filterMap read?).eraseDups.length
  | .cellList => fates.count .list + fates.count .mixed
  | .routing => fates.count .mixed
  | .builtin => if .mixed ∈ fates then 1 else 0
  | _ => 0

end Fate

/-- What becomes of a node with the label, given the variables captured below it. A handler is no
node. -/
def Label.fate (declared : VarId → Bool) (below : List VarId) : Label → Fate
  | .var v => if declared v then .kept else .read v
  | .cellList vars =>
    if vars.all declared then .kept else if vars.any declared then .mixed else .list
  | .handler _ => .kept
  | _ => if below.isEmpty then .kept else .rebuilt

mutual

/-- The fates of all occurrences, those below a node before that of the node. -/
def Tree.fates (declared : VarId → Bool) : Tree → List Fate
  | .node l _ ts =>
    fatesAll (l.under declared) ts ++ [l.fate declared (capturesAll (l.under declared) ts)]

def fatesAll (declared : VarId → Bool) : List Tree → List Fate
  | [] => []
  | t :: ts => t.fates declared ++ fatesAll declared ts

end

def entriesAll (declared : VarId → Bool) (ts : List Tree) : List Entry :=
  (fatesAll declared ts).flatMap Fate.entries

section
variable {declared : VarId → Bool} {ts us : List Tree} {label : Label} {span : Span}

@[simp] theorem entriesAll_nil : entriesAll declared [] = [] := rfl

theorem entriesAll_append :
    entriesAll declared (ts ++ us) = entriesAll declared ts ++ entriesAll declared us := by
  have hfates : fatesAll declared (ts ++ us) = fatesAll declared ts ++ fatesAll declared us := by
    induction ts with
    | nil => rfl
    | cons t ts ih => rw [List.cons_append, fatesAll, fatesAll, ih, List.append_assoc]
  rw [entriesAll, hfates, List.flatMap_append]
  rfl

theorem entriesAll_node : entriesAll declared [.node label span ts] =
    entriesAll (label.under declared) ts ++
      (label.fate declared (capturesAll (label.under declared) ts)).entries := by
  simp [entriesAll, fatesAll, Tree.fates]

end

/-! ## References -/

section
variable {frames : List Frame} {storages : List Storage} {pool : Pool} {size n : Nat}
  {log : List Entry} {s : Quoting} {a : Arena}

theorem quoteVar_books [Tracing] {id : ExprId} {span : Span} {v : VarId}
    (hdecl : v.index < a.names.size) (h : Ledger frames storages pool size log s a) :
    Runs (quoteVar frames storages id span v) s a
      (fun _ => Ledger frames storages pool size
        (log ++ ((Label.var v).fate s.opened.declares []).entries)) fun _ => True := by
  refine Runs.bind (captured_runs hdecl (fun hd => Runs.pure ?_) (fun c hd hc => ?_)
    fun _ _ _ => trivial)
  · rwa [Label.fate, if_pos hd, Fate.entries, List.append_nil]
  · rw [Label.fate, if_neg (by simp [hd])]
    exact (Books.cellConstant hc).bind (fun _ => .bind .add fun _ => .bind .traceCapture fun _ =>
      .add) log s a h

theorem boundList_books {span : Span} {parted : Parted} :
    Books frames storages pool size (boundList span parted) [.list, .node] :=
  .bind .newStamp fun _ => .bind (.pushConstant (.inl ⟨rfl, rfl⟩)) fun _ => .add

theorem mergeCall_books {span : Span} {parted : Parted} {bound : ExprId} :
    Books frames storages pool size (mergeCall span parted bound)
      [.node, .routing, .node, .merge, .node, .node] :=
  .bind .addVars fun _ => .bind .add fun _ => .bind (.pushConstant (.inr ⟨rfl, rfl⟩)) fun _ =>
    .bind .add fun _ => .bind .mergeConstant fun _ => .bind .add fun _ => .bind .addExprs fun _ =>
      .add

theorem quoteCellList_books {id : ExprId} {span : Span} {slice : Slice VarId} {vars : List VarId}
    (hvars : a.vars? slice = some vars) (hdecl : ∀ v ∈ vars, v.index < a.names.size)
    (h : Ledger frames storages pool size log s a) :
    Runs (quoteCellList frames storages id span slice) s a
      (fun _ => Ledger frames storages pool size
        (log ++ ((Label.cellList vars).fate s.opened.declares []).entries)) fun _ => True := by
  refine Runs.bind (Runs.vars hvars (Runs.bind (partFrom_runs (s := s) hdecl
    ⟨Nat.zero_le _, Nat.zero_le _⟩ (fun hnone _ => ?_) fun _ _ => trivial)))
  rw [Parted.extend_empty, Label.fate]
  have hcells := filterMap_cellOf_eq_nil hnone
  by_cases hall : vars.all s.opened.declares = true
  · rw [if_pos hall, if_pos (by simpa [hcells] using hall)]
    exact Runs.pure (by rwa [Fate.entries, List.append_nil])
  · rw [if_neg hall, if_neg (by simpa [hcells] using hall)]
    by_cases hany : vars.any s.opened.declares = true
    · rw [if_pos hany]
      refine boundList_books.bind (fun bound => ?_) log s a h
      rw [if_neg (by simpa using hany)]
      exact mergeCall_books
    · rw [if_neg hany]
      refine boundList_books.bind (fun bound => ?_) log s a h
      rw [if_pos (by simpa using hany)]
      exact .pure

end

/-! ## The walk -/

section
variable (frames : List Frame) (storages : List Storage) (pool : Pool) (size : Nat)

/-- A visit of any branch that has a tree books what the fates in the tree come to. -/
def Counts {α : Type} (branch : α → Branch) (act : α → QuoteM α) (declared : VarId → Bool)
    (n : Nat) : Prop :=
  ∀ x t log s a, s.opened.declares = declared → s.Sound frames storages →
    RepresentsBranch a (Represents a s.pool n) (branch x) t →
    Ledger frames storages pool size log s a →
    Runs (act x) s a
      (fun _ => Ledger frames storages pool size (log ++ entriesAll declared [t])) fun _ => True

/-- The trees of the branches have been visited, and what they come to has been booked. -/
structure Booked (declared : VarId → Bool) (n : Nat) (log : List Entry) (ts : List Tree)
    (extra : Table → Nat) (bs bs' : List Branch) (s : Quoting) (a : Arena) (s' : Quoting)
    (a' : Arena) : Prop where
  visited : Visited frames storages declared n ts extra bs bs' s a s' a'
  ledger : Ledger frames storages pool size (log ++ entriesAll declared ts) s' a'

end

section
variable {frames : List Frame} {storages : List Storage} {pool : Pool} {size n : Nat}
  {log : List Entry} {s s' : Quoting} {a a' : Arena} {declared : VarId → Bool} {ts : List Tree}
  {extra : Table → Nat} {branches bs bs' cs : List Branch} {visit : ExprId → QuoteM ExprId}
  {visitHandler : Handler → QuoteM Handler} {label : Label} {span : Span}

/-- One more branch is visited, and what it comes to is booked. -/
theorem Counts.next {α : Type} {branch : α → Branch} {act : α → QuoteM α}
    (hv : Visits frames storages branch act declared n)
    (hc : Counts frames storages pool size branch act declared n)
    (hd : s.opened.declares = declared)
    (hts : List.Forall₂ (RepresentsBranch a (Represents a s.pool n)) branches ts) {x : α}
    (h : Booked frames storages pool size declared n log (ts.take bs.length) nothing bs bs' s a
      s' a')
    (hsplit : branches = bs ++ branch x :: cs) :
    Runs (act x) s' a'
      (fun x' => Booked frames storages pool size declared n log
        (ts.take (bs ++ [branch x]).length) nothing (bs ++ [branch x]) (bs' ++ [branch x']) s a)
      fun _ => True := by
  obtain ⟨t, us, ht, -, htake⟩ := exists_next hts hsplit
  have hadv := h.visited.advances
  have hd' : s'.opened.declares = declared := by rw [hadv.opened, hd]
  have hvisit : Runs (act x) s' a' _ (Failing frames storages declared ts nothing s a) :=
    hv.next hd hts h.visited hsplit
  refine (hvisit.and (hc x t _ s' a' hd' hadv.sound (hadv.branch ht) h.ledger)).mono
    (fun x' s'' a'' hx => ?_) fun _ _ => trivial
  refine ⟨hx.1, ?_⟩
  rw [htake, entriesAll_append, ← List.append_assoc]
  exact hx.2

theorem Booked.nil (hs : s.Sound frames storages)
    (hl : Ledger frames storages pool size log s a) :
    Booked frames storages pool size declared n log [] nothing [] [] s a s a :=
  ⟨.nil hs, by rwa [entriesAll_nil, List.append_nil]⟩

/-- What a proof about a level of quoting owes, with the ledger. -/
theorem Counts.descent (hv : Visits frames storages .expr visit declared n)
    (hvh : Visits frames storages .handler visitHandler declared n)
    (hc : Counts frames storages pool size .expr visit declared n)
    (hch : Counts frames storages pool size .handler visitHandler declared n)
    (hd : s.opened.declares = declared) (hs : s.Sound frames storages)
    (hl : Ledger frames storages pool size log s a)
    (hts : List.Forall₂ (RepresentsBranch a (Represents a s.pool n)) branches ts) :
    Descent visit visitHandler label branches s a
      (fun done answers => Booked frames storages pool size declared n log (ts.take done.length)
        nothing done answers s a)
      (fun answers => Booked frames storages pool size declared n log ts
        (label.listCost ts.length) branches answers s a)
      (fun _ => True) := by
  have hvisits : Descent visit visitHandler label branches s a _ _ _ := hv.descent hvh hd hs hts
  have hlog : ∀ {answers s' a'}, Booked frames storages pool size declared n log
      (ts.take branches.length) nothing branches answers s a s' a' →
      Ledger frames storages pool size (log ++ entriesAll declared ts) s' a' := fun h => by
    have hledger := h.ledger
    rwa [hts.length_eq, List.take_length] at hledger
  exact {
    start := .nil hs hl
    partOf := fun h => hvisits.partOf h.visited
    stored := fun h => hvisits.stored h.visited
    expr := fun h hsplit => hc.next hv hd hts h hsplit
    handler := fun h hsplit => hch.next hvh hd hts h hsplit
    keep := fun h => ⟨hvisits.keep h.visited, hlog h⟩
    exprs := fun h hne hpre hpos hcost =>
      ((hvisits.exprs h.visited hne hpre hpos hcost).and
        (Books.addExprs _ _ _ (hlog h))).mono (fun _ _ _ hb =>
          ⟨⟨hb.1.1, List.append_nil (log ++ _) ▸ hb.2⟩, hb.1.2⟩) fun _ _ => trivial
    handlers := fun h hne hpre hpos hcost =>
      ((hvisits.handlers h.visited hne hpre hpos hcost).and
        (Books.addHandlers _ _ _ (hlog h))).mono (fun _ _ _ hb =>
          ⟨⟨hb.1.1, List.append_nil (log ++ _) ▸ hb.2⟩, hb.1.2⟩) fun _ _ => trivial }

/-- A node that is not a reference, with what it declares open: it is built anew exactly if some
answer is another branch, which is to say that some variable is captured below. -/
theorem descend_counts (hv : ∀ declared, Visits frames storages .expr visit declared n)
    (hvh : ∀ declared, Visits frames storages .handler visitHandler declared n)
    (hc : ∀ declared, Counts frames storages pool size .expr visit declared n)
    (hch : ∀ declared, Counts frames storages pool size .handler visitHandler declared n)
    (hs : s.Sound frames storages) (hl : Ledger frames storages pool size log s a) {id : ExprId}
    {kind : Kind} (hinner : label.isInner) (hnode : a.node? id = some ⟨kind, span⟩)
    (hview : a.view? s.pool kind = some (label, branches))
    (hts : List.Forall₂ (RepresentsBranch a (Represents a s.pool n)) branches ts) {o : OpenScopes}
    (ho : o.declares = label.under declared) :
    Runs (descend visit visitHandler id) { s with opened := o } a
      (fun _ s' a' => s'.opened = o ∧
        Ledger frames storages pool size (log ++ entriesAll declared [.node label span ts])
          { s' with opened := s.opened } a')
      fun _ => True := by
  have hs' : Quoting.Sound frames storages { s with opened := o } := hs.grows (.refl _) rfl rfl
  have hl' : Ledger frames storages pool size log { s with opened := o } a :=
    hl.of_eq rfl rfl rfl rfl
  have hfate : label.fate declared (capturesAll (label.under declared) ts) =
      if (capturesAll (label.under declared) ts).isEmpty then .kept else .rebuilt := by
    cases label <;> first | rfl | cases hinner
  have hdescent : Descent visit visitHandler label branches { s with opened := o } a _ _ _ :=
    Counts.descent (hv _) (hvh _) (hc _) (hch _) ho hs' hl' hts
  refine Runs.bind (Runs.node hnode ((hdescent.runs hview).seq fun kind' s' a' hq => ?_))
  obtain ⟨answers, h, hview', hsame, -⟩ := hq
  rw [entriesAll_node, hfate, ← List.append_assoc]
  by_cases hcaps : capturesAll (label.under declared) ts = []
  · obtain ⟨rfl, -⟩ := h.visited.same hcaps
    rw [if_pos (hsame rfl), hcaps, List.isEmpty_nil, if_pos rfl, Fate.entries, List.append_nil]
    exact Runs.pure ⟨h.visited.advances.opened, h.ledger.of_eq rfl rfl rfl rfl⟩
  · rw [if_neg (h.visited.kind_ne hcaps hview (.refl _) hview'), if_neg (by simpa using hcaps)]
    refine Runs.add ⟨h.visited.advances.opened, ?_⟩ fun _ => trivial
    exact (h.ledger.node _).of_eq rfl rfl rfl rfl

/-- A handler is no node: only what it captures below is booked. -/
theorem handler_counts [Tracing] (hv : ∀ declared, Visits frames storages .expr visit declared n)
    (hc : ∀ declared, Counts frames storages pool size .expr visit declared n) :
    Counts frames storages pool size .handler
      (fun h => (quotePass frames storages).onHandler h (descendHandler visit h)) declared n := by
  intro h t log s a hd hs ht hl
  obtain ⟨-, ts, hts, rfl⟩ := ht
  have hts' : List.Forall₂ (RepresentsBranch a _) _ ts := forall₂_map_expr.2 hts
  refine onHandler_runs hd fun o ho => ?_
  have hs' : Quoting.Sound frames storages { s with opened := o } := hs.grows (.refl _) rfl rfl
  refine (descendHandler_runs (I := fun done answers => Booked frames storages pool size _ n log
    (ts.take done.length) nothing done answers _ a) (.nil hs' (hl.of_eq rfl rfl rfl rfl))
    fun hdone hsplit => (hc _).next (s := { s with opened := o }) (hv _) ho hts' hdone
      hsplit).imp fun h' s' a' hdown => ?_
  obtain ⟨hbooked, -⟩ := hdown
  rw [hts'.length_eq, List.take_length] at hbooked
  rw [entriesAll_node, Label.fate, Fate.entries, List.append_nil]
  exact ⟨hbooked.visited.advances.opened, hbooked.ledger.of_eq rfl rfl rfl rfl⟩

/-- The walk books every fragment that has a tree. -/
theorem runWithin_counts [Tracing] {m : Nat} (h : n ≤ m) :
    Counts frames storages pool size .expr ((quotePass frames storages).runWithin m)
      declared n := by
  induction n generalizing m declared with
  | zero => exact fun _ _ _ _ _ _ _ ht => ht.elim
  | succ n ih =>
    obtain ⟨m, rfl⟩ := Nat.exists_eq_add_of_le' (Nat.lt_of_lt_of_le (Nat.zero_lt_succ n) h)
    have hle := Nat.le_of_succ_le_succ h
    have hv : ∀ declared, Visits frames storages .expr
        ((quotePass frames storages).runWithin m) declared n := fun _ => runWithin_visits hle
    have hc : ∀ declared, Counts frames storages pool size .expr
        ((quotePass frames storages).runWithin m) declared n := fun _ => ih hle
    intro id t log s a hd hs ht hl
    obtain ⟨⟨kind, span⟩, label, branches, ts, hnode, hview, hdecl, hts, rfl⟩ := ht
    refine onNode_runs hd hnode hview (fun v hkind hlabel hnil => ?_)
      (fun slice vars hkind hvars hlabel hnil => ?_)
      fun hinner o ho => descend_counts hv (fun _ => handler_visits hv) hc
        (fun _ => handler_counts hv hc) hs hl hinner hnode hview hts ho
    · subst hkind hlabel hnil
      cases hts
      rw [entriesAll_node, entriesAll_nil, List.nil_append, capturesAll, ← hd]
      exact quoteVar_books (hdecl v (by simp [Label.vars])) hl
    · subst hkind hlabel hnil
      cases hts
      rw [entriesAll_node, entriesAll_nil, List.nil_append, capturesAll, ← hd]
      exact quoteCellList_books hvars hdecl hl

end

/-! ## Sizes -/

section
variable (fates : List Fate)

theorem count_node : (fates.flatMap Fate.entries).count .node =
    2 * (fates.filterMap Fate.read?).length + fates.count .list + 5 * fates.count .mixed +
      fates.count .rebuilt := by
  induction fates with
  | nil => rfl
  | cons f fates ih =>
    rw [List.flatMap_cons, List.count_append, ih]
    cases f <;> simp [Fate.entries, Fate.read?, List.filterMap_cons] <;> omega

theorem count_list : (fates.flatMap Fate.entries).count .list =
    fates.count .list + fates.count .mixed := by
  induction fates with
  | nil => rfl
  | cons f fates ih =>
    rw [List.flatMap_cons, List.count_append, ih]
    cases f <;> simp [Fate.entries] <;> omega

theorem count_routing : (fates.flatMap Fate.entries).count .routing = fates.count .mixed := by
  induction fates with
  | nil => rfl
  | cons f fates ih =>
    rw [List.flatMap_cons, List.count_append, ih]
    cases f <;> simp [Fate.entries, Nat.add_comm]

theorem merge_mem : .merge ∈ fates.flatMap Fate.entries ↔ .mixed ∈ fates := by
  rw [List.mem_flatMap]
  constructor
  · rintro ⟨f, hf, hmem⟩
    cases f <;> simp [Fate.entries] at hmem
    exact hf
  · exact fun h => ⟨_, h, by simp [Fate.entries]⟩

theorem variablesOf_fates :
    variablesOf (fates.flatMap Fate.entries) = (fates.filterMap Fate.read?).eraseDups := by
  have hcells : (fates.flatMap Fate.entries).filterMap Entry.cell? =
      fates.filterMap Fate.read? := by
    induction fates with
    | nil => rfl
    | cons f fates ih =>
      rw [List.flatMap_cons, List.filterMap_append, ih]
      cases f <;> rfl
  rw [variablesOf, hcells]

theorem constantsOf_fates (type : ValueType) :
    constantsOf (fates.flatMap Fate.entries) type = Fate.constants fates type := by
  cases type <;> simp only [constantsOf, Fate.constants, variablesOf_fates, merge_mem, count_list,
    count_routing]

end

section
variable {frames : List Frame} {storages : List Storage} {arena : Arena} {pool : Pool}
  {stamp : Stamp} {root : ExprId}

/-- What quoting adds, counted by the fates of the occurrences in the tree. The arena grows by two
nodes for each reference that is read from a cell, one for each list of captured variables only,
five for each mixed list, and one for each other node above a captured variable. The pool grows by
the cells of the variables that are read, each of them once and in the order of the first
references, by a list for each list with captured variables, by a routing table for each mixed list,
by the merging function if there is a mixed list, and by nothing else. -/
theorem quote_gains [Tracing] (hvalid : validate arena pool root = .ok ()) {q : Quoted}
    (hq : quote frames storages arena pool stamp root = .ok q) :
    ∃ t fates, unfold arena pool root = some t ∧ t.fates undeclared = fates ∧
      q.arena.size = arena.size + 2 * (fates.filterMap Fate.read?).length + fates.count .list +
        5 * fates.count .mixed + fates.count .rebuilt ∧
      ∃ added : List Value, q.pool.values = pool.values ++ added ∧
        added.filterMap Value.cell? =
          (fates.filterMap Fate.read?).eraseDups.filterMap (cellOf frames storages) ∧
        ∀ type, (added.map Value.type).count type = Fate.constants fates type := by
  obtain ⟨t, ht⟩ := exists_represents hvalid
  have hruns : Runs ((quotePass frames storages).run root) { pool, nextStamp := stamp } arena
      (fun _ => Ledger frames storages pool arena.size (entriesAll undeclared [t]))
      fun _ => True :=
    .run (runWithin_counts (Pass.size_lt_levels arena) root t [] _ _ rfl sound_start ht
      (.start rfl))
  rw [quote_eq] at hq
  obtain ⟨s, hrun, hpool, -⟩ := Quoted.ofRun_eq_ok hq
  obtain ⟨hnodes, -, -, added, hadded, hcells, hcount⟩ := hruns.of_ok hrun
  have hfates : entriesAll undeclared [t] = (t.fates undeclared).flatMap Fate.entries := by
    rw [entriesAll, fatesAll, fatesAll, List.append_nil]
  rw [hfates] at hnodes hcells hcount
  refine ⟨t, t.fates undeclared, unfold_of_represents ht, rfl, ?_, added, hpool ▸ hadded, ?_,
    fun type => (hcount type).trans (constantsOf_fates _ type)⟩
  · rw [hnodes, count_node]
    omega
  · rw [hcells, variablesOf_fates]

/-- A function of `z` that adds `x` to itself and makes the lists of `x` and `y` and, twice, of `y`
and `z`. -/
def addAndList : Arena where
  nodes := #[⟨.var ⟨0⟩, .nowhere⟩, ⟨.binary .add ⟨0⟩ ⟨0⟩, .nowhere⟩, ⟨.cellList ⟨0, 2⟩, .nowhere⟩,
    ⟨.cellList ⟨1, 2⟩, .nowhere⟩, ⟨.block ⟨0, 0⟩ ⟨0, 4⟩, .nowhere⟩,
    ⟨.lambda ⟨2, 1⟩ ⟨4⟩ none, .nowhere⟩]
  exprEntries := #[⟨1⟩, ⟨2⟩, ⟨3⟩, ⟨3⟩]
  varEntries := #[⟨0⟩, ⟨1⟩, ⟨2⟩]
  names := #["x", "y", "z"]

/-- Both references to `x` read one constant, and both merges call one. -/
theorem quote_gains_addAndList :
    validate addAndList {} ⟨5⟩ = .ok () ∧
      ∃ q, quote [⟨[⟨0⟩, ⟨1⟩]⟩] [⟨#[⟨7⟩, ⟨8⟩]⟩] addAndList {} 0 ⟨5⟩ = .ok q ∧
        q.arena.size = addAndList.size + 2 * 2 + 1 + 5 * 2 + 3 ∧
        ∃ added : List Value, q.pool.values = (#[] : Array Value) ++ added ∧
          added.filterMap Value.cell? = [⟨7⟩] ∧ (added.map Value.type).count .cellList = 3 ∧
          (added.map Value.type).count .routing = 2 ∧
          (added.map Value.type).count .builtin = 1 := by
  have hok : (quote [⟨[⟨0⟩, ⟨1⟩]⟩] [⟨#[⟨7⟩, ⟨8⟩]⟩] addAndList {} 0 ⟨5⟩).isOk := by decide +kernel
  refine ⟨rfl, ?_⟩
  cases hq : quote [⟨[⟨0⟩, ⟨1⟩]⟩] [⟨#[⟨7⟩, ⟨8⟩]⟩] addAndList {} 0 ⟨5⟩ with
  | error f =>
    rw [hq] at hok
    cases hok
  | ok q =>
    obtain ⟨t, fates, ht, rfl, hsize, added, hpool, hcells, hcount⟩ := quote_gains rfl hq
    obtain rfl := Option.some.inj ht
    exact ⟨q, rfl, hsize, added, hpool, hcells, hcount .cellList, hcount .routing,
      hcount .builtin⟩

end

end Quotation
