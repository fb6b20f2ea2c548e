import Quotation.Proofs.Capture.Materialize
import Quotation.Proofs.Eval.Reach

/-!
# What a quoted fragment holds

The constants of a fragment are the constants of its tree (`Represents.mentions_iff`), so what
quoting adds to them can be told from the tree of the quoted fragment (`mentions_capture`): cells of
captured variables, lists of such cells, and what merges lists. An evaluation of the quoted fragment
without bindings reaches what these cells lead to, and what the constants lead to that the fragment
had before; it touches nothing else (`eval_touches`).
-/

namespace Quotation

/-! ## Constants of a tree -/

/-- The tree has the constant at some node. -/
inductive Tree.Mentions (v : Value) : Tree → Prop where
  | constant (span : Span) (ts : List Tree) : Tree.Mentions v (.node (.constant v) span ts)
  | child {l : Label} {span : Span} {t : Tree} {ts : List Tree} (ht : t ∈ ts)
    (h : Tree.Mentions v t) : Tree.Mentions v (.node l span ts)

theorem mentions_node {v : Value} {l : Label} {span : Span} {ts : List Tree} :
    (Tree.node l span ts).Mentions v ↔ l = .constant v ∨ ∃ t ∈ ts, t.Mentions v := by
  constructor
  · intro h
    cases h with
    | constant => exact .inl rfl
    | child ht h => exact .inr ⟨_, ht, h⟩
  · rintro (rfl | ⟨t, ht, h⟩)
    · exact .constant span ts
    · exact .child ht h

section
variable {p : Program} {n : Nat} {id : ExprId} {t : Tree} {v : Value}

/-- A child has a tree below. -/
theorem Represents.child (h : Represents p.arena p.pool n id t) {c : ExprId}
    (hc : p.arena.Child id c) :
    ∃ k u, Represents p.arena p.pool k c u ∧ ∀ v, u.Mentions v → t.Mentions v := by
  cases n with
  | zero => exact h.elim
  | succ n =>
    obtain ⟨node, label, branches, ts, hnode, hview, -, hts, rfl⟩ := h
    obtain ⟨b, hb, hc⟩ := List.mem_flatMap.1 ((Arena.child_iff hnode hview).1 hc)
    obtain ⟨u, hu, hbu⟩ := forall₂_mem hts hb
    cases b with
    | expr id =>
      obtain rfl := List.mem_singleton.1 hc
      exact ⟨n, u, hbu, fun v hv => .child hu hv⟩
    | handler x =>
      obtain ⟨-, us, hus, rfl⟩ := hbu
      obtain ⟨w, hw, hcw⟩ := forall₂_mem hus hc
      exact ⟨n, w, hcw, fun v hv => .child hu (.child hw hv)⟩

theorem Represents.descendant (h : Represents p.arena p.pool n id t) {d : ExprId}
    (hd : Relation.ReflTransGen p.arena.Child id d) :
    ∃ k u, Represents p.arena p.pool k d u ∧ ∀ v, u.Mentions v → t.Mentions v := by
  induction hd with
  | refl => exact ⟨n, t, h, fun _ hv => hv⟩
  | tail _ hc ih =>
    obtain ⟨k, u, hu, hut⟩ := ih
    obtain ⟨k', u', hu', hu'u⟩ := hu.child hc
    exact ⟨k', u', hu', fun v hv => hut v (hu'u v hv)⟩

/-- The constants of a fragment are the constants of its tree. -/
theorem Represents.mentions_iff (h : Represents p.arena p.pool n id t) :
    p.Mentions id v ↔ t.Mentions v := by
  constructor
  · rintro ⟨d, hd, node, k, hnode, hkind, hk⟩
    obtain ⟨m, u, hu, hut⟩ := h.descendant hd
    refine hut v ?_
    cases m with
    | zero => exact hu.elim
    | succ m =>
      obtain ⟨node', label, branches, ts, hnode', hview, -, -, rfl⟩ := hu
      obtain rfl := Option.some.inj (hnode.symm.trans hnode')
      rw [hkind] at hview
      obtain ⟨w, hw, rfl, -⟩ := view?_constant.1 hview
      obtain rfl := Option.some.inj (hk.symm.trans hw)
      exact .constant _ _
  · intro hv
    induction n generalizing id t with
    | zero => exact h.elim
    | succ n ih =>
      obtain ⟨node, label, branches, ts, hnode, hview, -, hts, rfl⟩ := h
      have hmentions : ∀ b ∈ branches, ∀ c ∈ b.exprs, p.Mentions c v → p.Mentions id v := by
        rintro b hb c hc ⟨d, hd, hnames⟩
        have hchild := (Arena.child_iff hnode hview).2 (List.mem_flatMap.2 ⟨b, hb, hc⟩)
        exact ⟨d, .head hchild hd, hnames⟩
      rcases mentions_node.1 hv with rfl | ⟨u, hu, hv⟩
      · obtain ⟨k, hkind, hk, -⟩ := kind_of_view? hview
        exact ⟨id, .refl, node, k, hnode, hkind, hk⟩
      · obtain ⟨b, hb, hbu⟩ := forall₂_mem hts.flip hu
        cases b with
        | expr c => exact hmentions _ hb c List.mem_cons_self (ih hbu hv)
        | handler x =>
          obtain ⟨-, us, hus, rfl⟩ := hbu
          obtain hconstant | ⟨w, hw, hv⟩ := mentions_node.1 hv
          · cases hconstant
          · obtain ⟨c, hc, hcw⟩ := forall₂_mem hus.flip hw
            exact hmentions _ hb c hc (ih hcw hv)

end

/-! ## Constants of the quoted tree -/

section
variable {frames : List Frame} {storages : List Storage} {declared : VarId → Bool} {stamp : Stamp}
  {v : Value}

/-- The value holds only cells of these variables, and is no function. -/
def Value.CellsOf (frames : List Frame) (storages : List Storage) (vars : List VarId) (v : Value) :
    Prop :=
  v.Within (fun c => ∃ x ∈ vars, cellOf frames storages x = some c) fun _ => False

theorem Value.CellsOf.mono {vars vars' : List VarId} (h : v.CellsOf frames storages vars)
    (hsub : vars ⊆ vars') : v.CellsOf frames storages vars' :=
  h.imp (fun _ ⟨x, hx, hc⟩ => ⟨x, hsub hx, hc⟩) fun _ => id

theorem mentions_constantTree {span : Span} {w : Value} :
    (constantTree span w).Mentions v ↔ w = v := by
  simp [constantTree, mentions_node]

/-- What takes the place of a list has the captured cells of the list. -/
theorem mentions_listTree {span : Span} {vars : List VarId}
    (hv : (listTree frames storages declared stamp span vars).Mentions v) :
    v.CellsOf frames storages (vars.filter fun x => !declared x) := by
  have hlist : Value.CellsOf frames storages (vars.filter fun x => !declared x)
      (.cellList (.direct stamp ((vars.filter fun x => !declared x).filterMap
        (cellOf frames storages)).toArray)) := by
    intro c hc
    rw [CellList.leaves] at hc
    exact List.mem_filterMap.1 hc
  rw [listTree] at hv
  split at hv
  · obtain rfl := mentions_constantTree.1 hv
    exact hlist
  · simp only [mentions_node, List.mem_cons, List.not_mem_nil, or_false, exists_eq_or_imp,
      exists_eq_left, mentions_constantTree, reduceCtorEq, false_or, exists_false, false_and] at hv
    obtain rfl | rfl | rfl := hv
    · trivial
    · exact hlist
    · trivial

theorem mentions_replacement {label : Label} {span : Span} {u : Tree}
    (h : label.replacement frames storages declared stamp span = some u) (hv : u.Mentions v) :
    v.CellsOf frames storages (label.refers.filter fun x => !declared x) := by
  obtain ⟨x, c, rfl, hdeclared, hc, rfl⟩ | ⟨vars, rfl, -, rfl⟩ := Label.replacement_cases h
  · rcases mentions_node.1 hv with hcontent | ⟨u, hu, hv⟩
    · cases hcontent
    · obtain rfl := List.mem_singleton.1 hu
      obtain rfl := mentions_constantTree.1 hv
      exact ⟨x, by simp [Label.refers, hdeclared], hc⟩
  · exact mentions_listTree hv

mutual

/-- What quoting adds to the constants holds cells of captured variables only. -/
theorem mentions_capture (t : Tree) (declared : VarId → Bool) (stamp : Stamp)
    (hv : (t.capture frames storages declared stamp).Mentions v) :
    t.Mentions v ∨ v.CellsOf frames storages (t.captures declared) :=
  match t with
  | .node label span ts => by
    rw [Tree.capture] at hv
    rw [Tree.captures]
    cases hreplacement : label.replacement frames storages declared stamp span with
    | some u =>
      rw [hreplacement, Option.getD_some] at hv
      exact .inr ((mentions_replacement hreplacement hv).mono (List.subset_append_left ..))
    | none =>
      rw [hreplacement, Option.getD_none] at hv
      rcases mentions_node.1 hv with rfl | ⟨u, hu, hv⟩
      · exact .inl (.constant span ts)
      · rcases mentions_captureAll ts _ _ hu hv with ⟨t, ht, hv⟩ | hv
        · exact .inl (.child ht hv)
        · exact .inr (hv.mono (List.subset_append_right ..))

theorem mentions_captureAll (ts : List Tree) (declared : VarId → Bool) (stamp : Stamp) {u : Tree}
    (hu : u ∈ captureAll frames storages declared stamp ts) (hv : u.Mentions v) :
    (∃ t ∈ ts, t.Mentions v) ∨ v.CellsOf frames storages (capturesAll declared ts) :=
  match ts with
  | [] => nomatch hu
  | t :: ts => by
    rw [captureAll] at hu
    rw [capturesAll]
    rcases List.mem_cons.1 hu with rfl | hu
    · rcases mentions_capture t _ _ hv with hv | hv
      · exact .inl ⟨t, List.mem_cons_self, hv⟩
      · exact .inr (hv.mono (List.subset_append_left ..))
    · rcases mentions_captureAll ts _ _ hu hv with ⟨t, ht, hv⟩ | hv
      · exact .inl ⟨t, List.mem_cons_of_mem _ ht, hv⟩
      · exact .inr (hv.mono (List.subset_append_right ..))

end

end

/-! ## The quoted fragment -/

/-- What a quoted fragment starts from: the cells of the variables that it captured, and the
constants that it had before. -/
def quotedStarts (frames : List Frame) (storages : List Storage) (arena : Arena) (pool : Pool)
    (root : ExprId) (v : Value) : Prop :=
  (∃ t x c, unfold arena pool root = some t ∧ x ∈ t.captures undeclared ∧
    resolve x frames storages = .ok c ∧ v = .cell c) ∨ Program.Mentions ⟨arena, pool, 0⟩ root v

/-- An evaluation touches only the cells that can be reached from the cells that are bound and from
the constants of the fragment: it writes no other cell that was there before, and the contents of
the others make no difference to what it ends in and to what it leaves in these and in new cells. So
a quoted fragment, evaluated without bindings, touches only what the cells lead to that it captured,
and the constants that it had before. -/
theorem eval_touches [Tracing] :
    (∀ p : Program, p.maxCallDepth < UInt64.size →
      ∀ (id : ExprId) (env : Environment) (depth : Nat) (h : Heap) (cells : Cell → Prop),
        (∀ c, p.Reaches h id env c → cells c) → p.TouchesOnly cells id env depth h) ∧
    ∀ (frames : List Frame) (storages : List Storage) (arena : Arena) (pool : Pool) (stamp : Stamp)
      (root : ExprId) (q : Quoted) (limit : Nat), limit < UInt64.size →
      validate arena pool root = .ok () → quote frames storages arena pool stamp root = .ok q →
      ∀ (depth : Nat) (h : Heap), (q.program limit).TouchesOnly
        (fun c => (q.program limit).Leads h (quotedStarts frames storages arena pool root)
          (.cell c)) q.root {} depth h := by
  refine ⟨fun p hlimit id env depth h cells hcells =>
    (eval_touchesOnly hlimit id env depth h).mono hcells, ?_⟩
  intro frames storages arena pool stamp root q limit hlimit hvalid hq depth h
  obtain ⟨t, ht, hres, hquoted⟩ := quote_represents hvalid hq
  refine (eval_touchesOnly (p := q.program limit) hlimit q.root {} depth h).mono fun c hc =>
    hc.of_within ?_
  rintro v (⟨x, c, hx, rfl⟩ | hv)
  · cases hx
  · rcases mentions_capture t _ _ (hquoted.mentions_iff.1 hv) with hv | hv
    · exact (Program.Leads.start (.inr (ht.mentions_iff.2 hv))).within
    · refine hv.imp (fun c ⟨x, hx, hc⟩ => .start (.inl ?_)) fun _ hno => hno.elim
      exact ⟨t, x, c, unfold_of_represents ht, hx, cellOf_eq_some_iff.1 hc, rfl⟩

/-- The assignment of `y` to `x`. -/
def copyY : Arena where
  nodes := #[⟨.var ⟨0⟩, ⟨0, 1⟩⟩, ⟨.var ⟨1⟩, ⟨4, 5⟩⟩, ⟨.assign ⟨0⟩ ⟨1⟩, ⟨0, 5⟩⟩]
  names := #["x", "y"]

def copyHeap (v : Value) : Heap := ⟨#[.int 1, .int 2, v], 0⟩

theorem copyHeap_read {c : Cell} (hc : c.index < 2) (v : Value) :
    (copyHeap v).read c = .int 1 ∨ (copyHeap v).read c = .int 2 := by
  obtain ⟨i⟩ := c
  obtain rfl | rfl : i = 0 ∨ i = 1 := by
    have hi : i < 2 := hc
    omega
  · exact .inl rfl
  · exact .inr rfl

/-- From the cells of `x` and `y` no other cell is reached. -/
theorem copyHeap_leads {p : Program} {v : Value} {start : Value → Prop} {c : Cell}
    (hc : p.Leads (copyHeap v) start (.cell c))
    (hstart : ∀ w, start w → w = .cell ⟨0⟩ ∨ w = .cell ⟨1⟩) : c.index < 2 := by
  have hwithin : (Value.cell c).Within (fun c => c.index < 2) fun _ => False := by
    refine hc.least (fun w hw => ?_) (fun c hc => ?_) nofun
    · obtain rfl | rfl := hstart w hw
      · exact Nat.zero_lt_two
      · exact Nat.one_lt_two
    · obtain hread | hread := copyHeap_read hc v <;> rw [hread] <;> trivial
  exact hwithin

/-- The assignment is the same whatever the third cell holds, and leaves that as it is; so does the
quoted one. -/
theorem eval_touches_copyY :
    defaultCallDepth < UInt64.size ∧ validate copyY {} ⟨2⟩ = .ok () ∧
    (∀ v, outcome (Program.eval ⟨copyY, {}, defaultCallDepth⟩ ⟨2⟩
        ⟨copyHeap v, (({} : Environment).define ⟨0⟩ ⟨0⟩).define ⟨1⟩ ⟨1⟩, 0⟩) = .ok (.int 2) ∧
      (finalHeap (Program.eval ⟨copyY, {}, defaultCallDepth⟩ ⟨2⟩
        ⟨copyHeap v, (({} : Environment).define ⟨0⟩ ⟨0⟩).define ⟨1⟩ ⟨1⟩, 0⟩)).read ⟨2⟩ = v) ∧
    ∃ q, quote [⟨[⟨0⟩, ⟨1⟩]⟩] [⟨#[⟨0⟩, ⟨1⟩]⟩] copyY {} 0 ⟨2⟩ = .ok q ∧
      ∀ v, (finalHeap ((q.program defaultCallDepth).eval q.root ⟨copyHeap v, {}, 0⟩)).read ⟨2⟩ =
        v := by
  have hlimit : defaultCallDepth < UInt64.size := by decide
  have hvalid : validate copyY {} ⟨2⟩ = .ok () := rfl
  have hmentions : ∀ limit w, ¬Program.Mentions ⟨copyY, {}, limit⟩ ⟨2⟩ w := by
    rintro limit w ⟨d, -, node, k, -, -, hk⟩
    simp [Pool.get?] at hk
  refine ⟨hlimit, hvalid, fun v => ?_, ?_⟩
  · have hreach : ∀ c, Program.Reaches ⟨copyY, {}, defaultCallDepth⟩ (copyHeap .unit) ⟨2⟩
        ((({} : Environment).define ⟨0⟩ ⟨0⟩).define ⟨1⟩ ⟨1⟩) c → c.index < 2 := by
      refine fun c hc => copyHeap_leads hc ?_
      rintro w (⟨x, c, hx, rfl⟩ | hw)
      · rw [Environment.lookup_define, Environment.lookup_define] at hx
        split at hx
        · exact .inr (congrArg Value.cell (Option.some.inj hx).symm)
        · split at hx
          · exact .inl (congrArg Value.cell (Option.some.inj hx).symm)
          · cases hx
      · exact absurd hw (hmentions _ w)
    have htouches := eval_touches.1 ⟨copyY, {}, defaultCallDepth⟩ hlimit ⟨2⟩ _ 0 _ _ hreach
    have hagree : (copyHeap .unit).AgreeOn (fun c => c.index < 2) (copyHeap v) := by
      refine ⟨rfl, rfl, fun c hi => ?_⟩
      obtain ⟨i⟩ := c
      obtain rfl | rfl : i = 0 ∨ i = 1 := by
        have hlt : i < 2 := hi
        omega
      · rfl
      · rfl
    have heval : outcome (Program.eval ⟨copyY, {}, defaultCallDepth⟩ ⟨2⟩
        ⟨copyHeap .unit, (({} : Environment).define ⟨0⟩ ⟨0⟩).define ⟨1⟩ ⟨1⟩, 0⟩) =
          .ok (.int 2) := by decide +kernel
    exact ⟨(htouches.outcome _ hagree).trans heval,
      htouches.frame _ hagree ⟨2⟩ (by decide) (by decide)⟩
  · have hok : (quote [⟨[⟨0⟩, ⟨1⟩]⟩] [⟨#[⟨0⟩, ⟨1⟩]⟩] copyY {} 0 ⟨2⟩).isOk := by decide +kernel
    obtain ⟨q, hq⟩ := except_isOk_iff.1 hok
    refine ⟨q, hq, fun v => ?_⟩
    have htouches := eval_touches.2 _ _ _ _ _ _ _ defaultCallDepth hlimit hvalid hq 0 (copyHeap v)
    refine htouches.frame _ (.refl _ _) ⟨2⟩ (Nat.lt_succ_self 2) fun hc => ?_
    refine absurd (copyHeap_leads hc ?_) (Nat.lt_irrefl 2)
    rintro w (⟨t, x, c, ht, hx, hc, rfl⟩ | hw)
    · obtain rfl := Option.some.inj ht
      have hx : x ∈ [⟨0⟩, ⟨1⟩] := hx
      rcases List.mem_cons.1 hx with rfl | hx
      · exact .inl (congrArg Value.cell (Except.ok.inj hc).symm)
      · obtain rfl := List.mem_singleton.1 hx
        exact .inr (congrArg Value.cell (Except.ok.inj hc).symm)
    · exact absurd hw (hmentions _ w)

end Quotation
