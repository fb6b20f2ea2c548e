import Quotation.Proofs.Capture.Walk

/-!
# What quoting does to a fragment

For a fragment that validation accepts, quoting is the capture of its tree: the result unfolds to
`Tree.capture` of what the root unfolds to (`unfold_quote`). It fails exactly if a captured variable
has no cell, and then for the first of them in the order of a visit (`quote_fails_iff`), as long as
the tables have room for what is added.
-/

namespace Quotation

/-! ## Where the walk along the chain stops -/

/-- The walk for `v` stops without a cell. -/
def Unresolved.Stops (v : VarId) (frames : List Frame) (storages : List Storage) :
    Unresolved → Prop
  | slotMissing slot => ∃ i f s, frames[i]? = some f ∧ storages[i]? = some s ∧
      (∀ g ∈ frames.take i, v ∉ g.vars) ∧ f.slot? v = some slot ∧ s.cells.size ≤ slot
  | notInChain => frames.length ≤ storages.length ∧ ∀ f ∈ frames, v ∉ f.vars
  | storageEnded => storages.length < frames.length ∧
      ∀ f ∈ frames.take storages.length, v ∉ f.vars

theorem Frame.slot?_eq_none {f : Frame} {v : VarId} : f.slot? v = none ↔ v ∉ f.vars := by
  simp [Frame.slot?]

theorem Frame.mem_of_slot? {f : Frame} {v : VarId} {slot : Nat} (h : f.slot? v = some slot) :
    v ∈ f.vars := by
  by_contra hv
  rw [Frame.slot?_eq_none.2 hv] at h
  cases h

/-- If the innermost frame has the variable, only the storage beside it can be too short. -/
theorem Unresolved.stops_cons {v : VarId} {f : Frame} {frames : List Frame} {s : Storage}
    {storages : List Storage} {slot : Nat} (hslot : f.slot? v = some slot) {why : Unresolved} :
    why.Stops v (f :: frames) (s :: storages) ↔ why = .slotMissing slot ∧ s.cells.size ≤ slot := by
  have hv := Frame.mem_of_slot? hslot
  cases why with
  | slotMissing slot' =>
    constructor
    · rintro ⟨i, f', s', hf, hs, hbefore, hslot', hsize⟩
      cases i with
      | zero =>
        obtain rfl := Option.some.inj hf
        obtain rfl := Option.some.inj hs
        obtain rfl := Option.some.inj (hslot.symm.trans hslot')
        exact ⟨rfl, hsize⟩
      | succ i => exact absurd hv (hbefore f (by simp))
    · rintro ⟨heq, hsize⟩
      obtain rfl := Unresolved.slotMissing.inj heq
      exact ⟨0, f, s, rfl, rfl, by simp, hslot, hsize⟩
  | notInChain => simp [Unresolved.Stops, hv]
  | storageEnded => simp [Unresolved.Stops, hv]

theorem resolve_eq_error_iff {v : VarId} {frames : List Frame} {storages : List Storage}
    {why : Unresolved} :
    resolve v frames storages = .error why ↔ why.Stops v frames storages := by
  induction frames generalizing storages with
  | nil => cases why <;> simp [resolve, Unresolved.Stops]
  | cons f frames ih =>
    cases storages with
    | nil => cases why <;> simp [resolve, Unresolved.Stops]
    | cons s storages =>
      cases hslot : f.slot? v with
      | none =>
        have hv := Frame.slot?_eq_none.1 hslot
        have hstep : resolve v (f :: frames) (s :: storages) = resolve v frames storages := by
          rw [resolve, hslot]
        rw [hstep, ih]
        cases why with
        | slotMissing slot =>
          constructor
          · rintro ⟨i, f', s', hf, hs, hbefore, hrest⟩
            exact ⟨i + 1, f', s', hf, hs, by simpa [hv] using hbefore, hrest⟩
          · rintro ⟨i, f', s', hf, hs, hbefore, hslot', hsize⟩
            cases i with
            | zero =>
              obtain rfl := Option.some.inj hf
              rw [hslot] at hslot'
              cases hslot'
            | succ i => exact ⟨i, f', s', hf, hs, by simpa [hv] using hbefore, hslot', hsize⟩
        | notInChain => simp [Unresolved.Stops, hv]
        | storageEnded => simp [Unresolved.Stops, hv]
      | some slot =>
        rw [Unresolved.stops_cons hslot, resolve]
        simp only [hslot, Storage.cell?]
        cases hc : s.cells[slot]? with
        | none =>
          have hsize := Array.getElem?_eq_none_iff.1 hc
          simp [hsize, eq_comm]
        | some c =>
          have hsize := (Array.getElem?_eq_some_iff.1 hc).1
          simp [Nat.not_le_of_lt hsize]

/-! ## The lengths of lists -/

/-- The list of a node, where it has one that quoting may have to store again, has a length of 16
bits. -/
def Kind.Short : Kind → Prop
  | .block _ body => body.len < sliceLimit
  | .call _ args => args.len < sliceLimit
  | .attempt _ handlers => handlers.len < sliceLimit
  | .cellList vars => vars.len < sliceLimit
  | _ => True

section
variable {a : Arena} {pool : Pool} {n : Nat}

theorem listLength_lt {kind : Kind} {label : Label} {branches : List Branch}
    (hview : a.view? pool kind = some (label, branches)) (hkind : kind.Short) :
    label.listLength branches.length < sliceLimit := by
  have hzero : 0 < sliceLimit := by simp [sliceLimit, UInt16.size]
  cases kind with
  | block locals body =>
    obtain ⟨vs, ids, -, hids, rfl, rfl⟩ := view?_block.1 hview
    simpa [Label.listLength, Slice.length_of_read? hids, Kind.Short] using hkind
  | lambda params body name =>
    obtain ⟨vs, -, rfl, rfl⟩ := view?_lambda.1 hview
    exact hzero
  | call callee args =>
    obtain ⟨ids, hids, rfl, rfl⟩ := view?_call.1 hview
    simpa [Label.listLength, Slice.length_of_read? hids, Kind.Short] using hkind
  | attempt body handlers =>
    obtain ⟨hs, hhs, rfl, rfl⟩ := view?_attempt.1 hview
    simpa [Label.listLength, Slice.length_of_read? hhs, Kind.Short] using hkind
  | cellList vars =>
    obtain ⟨vs, hvs, rfl, rfl⟩ := view?_cellList.1 hview
    simpa [Label.listLength, Slice.length_of_read? hvs, Kind.Short] using hkind
  | constant c =>
    obtain ⟨v, -, rfl, rfl⟩ := view?_constant.1 hview
    exact hzero
  | _ =>
    obtain ⟨rfl, rfl⟩ := Prod.mk.inj (Option.some.inj hview)
    exact hzero

theorem shortAll_of_forall₂ {α : Type} {R : α → Tree → Prop} {xs : List α} {ts : List Tree}
    (h : List.Forall₂ R xs ts) (hR : ∀ x t, R x t → t.Short) : ShortAll ts := by
  induction h with
  | nil => trivial
  | cons hx _ ih => exact ⟨hR _ _ hx, ih⟩

mutual

/-- Short lists have routes. -/
theorem Tree.Short.routable {t : Tree} (h : t.Short) (declared : VarId → Bool) :
    t.Routable declared :=
  match t, h with
  | .node l _ _, ⟨hlength, hts⟩ => by
    refine ⟨.of_length ?_, hts.routable _⟩
    have hlimit := Route.sliceLimit_le_limit
    cases l with
    | cellList vars => exact Nat.le_of_lt (Nat.lt_of_lt_of_le hlength hlimit)
    | _ => simp [Label.refers, Route.limit, UInt64.size]

theorem ShortAll.routable {ts : List Tree} (h : ShortAll ts) (declared : VarId → Bool) :
    RoutableAll declared ts :=
  match ts, h with
  | [], _ => trivial
  | _ :: _, ⟨ht, hts⟩ => ⟨ht.routable declared, hts.routable declared⟩

end

/-- The tree of a fragment has short lists if the nodes have. -/
theorem Represents.short (hshort : ∀ node ∈ a.nodes, node.kind.Short) {id : ExprId} {t : Tree}
    (h : Represents a pool n id t) : t.Short := by
  induction n generalizing id t with
  | zero => exact h.elim
  | succ n ih =>
    obtain ⟨node, label, branches, ts, hnode, hview, -, hts, rfl⟩ := h
    refine ⟨hts.length_eq ▸ listLength_lt hview (hshort node (Array.mem_of_getElem? hnode)),
      shortAll_of_forall₂ hts fun b t ht => ?_⟩
    cases b with
    | expr id => exact ih ht
    | handler x =>
      obtain ⟨-, us, hus, rfl⟩ := ht
      exact ⟨by simp [Label.listLength, sliceLimit, UInt16.size],
        shortAll_of_forall₂ hus fun _ _ => ih⟩

end

/-! ## The whole fragment -/

/-- No variable is declared around the root. -/
def undeclared (_ : VarId) : Bool := false

section
variable {frames : List Frame} {storages : List Storage} {arena : Arena} {pool : Pool}
  {stamp : Stamp} {root : ExprId}

/-- What is made of a run: all scopes have to be closed, and the result has to be valid. -/
def Quoted.ofRun : Except Fault ((ExprId × Quoting) × Arena) → Except Fault Quoted
  | .error f => .error f
  | .ok ((r, q), a) =>
    if q.opened.depth ≠ 0 then .error (.scopeLeftOpen .declarations q.opened.depth 0)
    else (validate a q.pool r).bind fun _ => .ok ⟨r, a, q.pool, q.nextStamp⟩

theorem quote_eq [Tracing] : quote frames storages arena pool stamp root =
    Quoted.ofRun ((quotePass frames storages).run root { pool, nextStamp := stamp } arena) := by
  simp only [quote, StateT.run]
  generalize (quotePass frames storages).run root { pool, nextStamp := stamp } arena = x
  cases x with
  | error f => rfl
  | ok r =>
    obtain ⟨⟨r, q⟩, a⟩ := r
    show (if _ then _ else _) = if _ then _ else _
    split <;> rfl

theorem Quoted.ofRun_eq_ok {x : Except Fault ((ExprId × Quoting) × Arena)} {q : Quoted}
    (h : ofRun x = .ok q) :
    ∃ s, x = .ok ((q.root, s), q.arena) ∧ s.pool = q.pool ∧
      validate q.arena q.pool q.root = .ok () := by
  cases x with
  | error f => cases h
  | ok y =>
    obtain ⟨⟨r, s⟩, a⟩ := y
    simp only [ofRun] at h
    split at h
    · cases h
    · cases hvalid : validate a s.pool r with
      | error f => rw [hvalid] at h; cases h
      | ok _ =>
        rw [hvalid] at h
        obtain rfl := Except.ok.inj h
        exact ⟨s, rfl, rfl, hvalid⟩

theorem sound_start {opened : OpenScopes} :
    Quoting.Sound frames storages { pool, nextStamp := stamp, opened } where
  cells v k hk := by cases hk
  merge k hk := by cases hk

theorem run_visits [Tracing] (frames : List Frame) (storages : List Storage) (stamp : Stamp)
    {t : Tree} (ht : Represents arena pool (arena.size + 1) root t) :
    Runs ((quotePass frames storages).run root) { pool, nextStamp := stamp } arena
      (fun r s a => Visited frames storages undeclared (arena.size + 1) [t] nothing [.expr root]
        [.expr r] { pool, nextStamp := stamp } arena s a)
      (Failing frames storages undeclared [t] nothing { pool, nextStamp := stamp } arena) :=
  .run (runWithin_visits (Pass.size_lt_levels arena) root t _ _ rfl sound_start ht)

/-- Quoting succeeds with the captured tree, or it fails and `Failing` says why. -/
theorem quote_cases [Tracing] (frames : List Frame) (storages : List Storage) (stamp : Stamp)
    (hvalid : validate arena pool root = .ok ()) :
    ∃ t, Represents arena pool (arena.size + 1) root t ∧
      ((∃ q, quote frames storages arena pool stamp root = .ok q ∧
          firstUnresolved frames storages (t.captures undeclared) = none ∧
          Represents q.arena q.pool (q.arena.size + 1) q.root
            (t.capture frames storages undeclared stamp) ∧
          q.nextStamp = stamp + t.lists undeclared) ∨
        ∃ f, quote frames storages arena pool stamp root = .error f ∧
          (Room pool arena (t.cost · undeclared) → t.Short →
            Blame frames storages (t.captures undeclared) arena f)) := by
  obtain ⟨t, ht⟩ := exists_represents hvalid
  refine ⟨t, ht, ?_⟩
  rcases (run_visits frames storages stamp ht).cases with
    ⟨r, q, a, hrun, hvisited⟩ | ⟨f, hrun, hfailing⟩
  · obtain ⟨hadv, hres, -, htrees, -, hsame, hchanged⟩ := hvisited
    obtain ⟨hr, -⟩ := List.forall₂_cons.1 htrees
    rw [capturesAll_singleton] at hres hsame hchanged
    -- a fragment that has changed has grown, so its additional level is within the bound
    have hr' : Represents a q.pool (a.size + 1) r (t.capture frames storages undeclared stamp) := by
      by_cases hcaps : t.captures undeclared = []
      · obtain ⟨heq, rfl, rfl⟩ := hsame hcaps
        obtain rfl := Branch.expr.inj (List.cons.inj heq).1
        have hgrown := ht.grows (.refl a) (.refl _) (Nat.le_succ _)
        exact Represents.unique hgrown hr ▸ ht
      · exact Represents.grows (.refl a) (.refl _) (Nat.succ_le_succ (hchanged hcaps).2) hr
    have hvalid' : validate a q.pool r = .ok () := (represents_iff.1 hr').1
    have hdepth : q.opened.depth = 0 := by rw [hadv.opened]; rfl
    refine .inl ⟨⟨r, a, q.pool, q.nextStamp⟩, ?_, hres, hr', hadv.stamp⟩
    rw [quote_eq, hrun, Quoted.ofRun, hdepth, if_neg (by simp), hvalid']
    rfl
  · refine .inr ⟨f, ?_, fun hroom hshort => ?_⟩
    · rw [quote_eq, hrun, Quoted.ofRun]
    · have hblame := hfailing (fun _ => ⟨hroom, ⟨hshort, trivial⟩, nothing_lt⟩)
        ⟨hshort.routable _, trivial⟩
      rwa [capturesAll_singleton] at hblame

/-- If quoting succeeds, it is with the captured tree. -/
theorem quote_represents [Tracing] (hvalid : validate arena pool root = .ok ()) {q : Quoted}
    (hq : quote frames storages arena pool stamp root = .ok q) :
    ∃ t, Represents arena pool (arena.size + 1) root t ∧
      (∀ v ∈ t.captures undeclared, ∃ c, resolve v frames storages = .ok c) ∧
      Represents q.arena q.pool (q.arena.size + 1) q.root
        (t.capture frames storages undeclared stamp) := by
  obtain ⟨t, ht, ⟨q', hq', hres, htree, -⟩ | ⟨f, hf, -⟩⟩ := quote_cases frames storages stamp hvalid
  · obtain rfl := Except.ok.inj (hq.symm.trans hq')
    exact ⟨t, ht, firstUnresolved_eq_none.1 hres, htree⟩
  · rw [hf] at hq
    cases hq

theorem unfold_of_represents {t : Tree} (h : Represents arena pool (arena.size + 1) root t) :
    unfold arena pool root = some t :=
  (represents_iff.1 h).2

theorem firstUnresolved_eq_some {vs : List VarId} {v : VarId} {why : Unresolved} :
    firstUnresolved frames storages vs = some (v, why) ↔ ∃ before after,
      vs = before ++ v :: after ∧ (∀ w ∈ before, ∃ c, resolve w frames storages = .ok c) ∧
      resolve v frames storages = .error why := by
  constructor
  · intro h
    obtain ⟨before, w, after, rfl, hw, hbefore⟩ := List.findSome?_eq_some_iff.1 h
    cases hr : resolve w frames storages with
    | ok c =>
      rw [hr] at hw
      cases hw
    | error why' =>
      rw [hr] at hw
      obtain ⟨rfl, rfl⟩ := Prod.mk.inj (Option.some.inj hw)
      refine ⟨before, after, rfl, firstUnresolved_eq_none.1 ?_, hr⟩
      exact List.findSome?_eq_none_iff.2 hbefore
  · rintro ⟨before, after, rfl, hbefore, hv⟩
    rw [firstUnresolved_append, firstUnresolved_eq_none.2 hbefore, Option.none_or]
    simp [firstUnresolved, hv]

/-- The quoted fragment unfolds to the captured tree, and all captured variables have cells. -/
theorem unfold_quote [Tracing] (hvalid : validate arena pool root = .ok ()) {q : Quoted}
    (hq : quote frames storages arena pool stamp root = .ok q) :
    ∃ t, unfold arena pool root = some t ∧
      (∀ v ∈ t.captures undeclared, ∃ c, resolve v frames storages = .ok c) ∧
      unfold q.arena q.pool q.root = some (t.capture frames storages undeclared stamp) ∧
      q.nextStamp = stamp + t.lists undeclared := by
  obtain ⟨t, ht, h⟩ := quote_cases frames storages stamp hvalid
  rcases h with ⟨q', hq', hres, htree, hstamp⟩ | ⟨f, hf, -⟩
  · obtain rfl := Except.ok.inj (hq.symm.trans hq')
    exact ⟨t, unfold_of_represents ht, firstUnresolved_eq_none.1 hres, unfold_of_represents htree,
      hstamp⟩
  · rw [hf] at hq
    cases hq

/-- A function of `y` that answers the list of `x` and `y`. -/
def listFunction : Arena where
  nodes := #[⟨.cellList ⟨0, 2⟩, ⟨8, 14⟩⟩, ⟨.lambda ⟨2, 1⟩ ⟨0⟩ none, ⟨0, 15⟩⟩]
  varEntries := #[⟨0⟩, ⟨1⟩, ⟨1⟩]
  names := #["x", "y"]

theorem unfold_quote_listFunction :
    ∃ q, quote [⟨[⟨0⟩]⟩] [⟨#[⟨7⟩]⟩] listFunction {} 0 ⟨1⟩ = .ok q ∧
      unfold q.arena q.pool q.root = some (.node (.lambda [⟨1⟩] none) ⟨0, 15⟩ [
        .node .call ⟨8, 14⟩ [
          constantTree ⟨8, 14⟩ (.builtin .mergeVariables),
          .node (.cellList [⟨1⟩]) ⟨8, 14⟩ [],
          constantTree ⟨8, 14⟩ (.cellList (.direct 0 #[⟨7⟩])),
          constantTree ⟨8, 14⟩ (.routing #[-1, 0])]]) := by
  have hok : (quote [⟨[⟨0⟩]⟩] [⟨#[⟨7⟩]⟩] listFunction {} 0 ⟨1⟩).isOk := by decide +kernel
  cases hq : quote [⟨[⟨0⟩]⟩] [⟨#[⟨7⟩]⟩] listFunction {} 0 ⟨1⟩ with
  | error f =>
    rw [hq] at hok
    cases hok
  | ok q =>
    obtain ⟨t, ht, -, hquoted, -⟩ := unfold_quote rfl hq
    obtain rfl := Option.some.inj ht
    exact ⟨q, rfl, hquoted⟩

/-- Quoting fails exactly if a captured variable has no cell, with the fault of the first one. -/
theorem quote_fails_iff [Tracing] (frames : List Frame) (storages : List Storage) (stamp : Stamp)
    (hvalid : validate arena pool root = .ok ())
    (hshort : ∀ node ∈ arena.nodes, node.kind.Short) :
    ∃ t, unfold arena pool root = some t ∧ (Room pool arena (t.cost · undeclared) →
      (∀ f, quote frames storages arena pool stamp root = .error f ↔
        ∃ before v after why name, t.captures undeclared = before ++ v :: after ∧
          (∀ w ∈ before, ∃ c, resolve w frames storages = .ok c) ∧
          why.Stops v frames storages ∧ arena.name? v = some name ∧
          f = .unresolved name v why) ∧
      ((∃ q, quote frames storages arena pool stamp root = .ok q) ↔
        ∀ v ∈ t.captures undeclared, ∃ c, resolve v frames storages = .ok c)) := by
  obtain ⟨t, ht, h⟩ := quote_cases frames storages stamp hvalid
  refine ⟨t, unfold_of_represents ht, fun hroom => ?_⟩
  rcases h with ⟨q, hq, hres, -⟩ | ⟨f, hf, hblame⟩
  · have hall := firstUnresolved_eq_none.1 hres
    refine ⟨fun f => ⟨fun hf => ?_, ?_⟩, fun _ => hall, fun _ => ⟨q, hq⟩⟩
    · rw [hq] at hf
      cases hf
    · rintro ⟨before, v, after, why, name, hsplit, -, hstops, -⟩
      obtain ⟨c, hc⟩ := hall v (by rw [hsplit]; simp)
      rw [resolve_eq_error_iff.2 hstops] at hc
      cases hc
  · obtain ⟨v, why, name, hfirst, hname, rfl⟩ := hblame hroom (ht.short hshort)
    obtain ⟨before, after, hsplit, hbefore, hv⟩ := firstUnresolved_eq_some.1 hfirst
    refine ⟨fun f => ⟨fun hf' => ?_, ?_⟩, ?_, fun hall => ?_⟩
    · obtain rfl := Except.error.inj (hf.symm.trans hf')
      exact ⟨before, v, after, why, name, hsplit, hbefore, resolve_eq_error_iff.1 hv, hname, rfl⟩
    · rintro ⟨before', v', after', why', name', hsplit', hbefore', hstops', hname', rfl⟩
      have hfirst' := firstUnresolved_eq_some.2
        ⟨before', after', hsplit', hbefore', resolve_eq_error_iff.2 hstops'⟩
      obtain ⟨rfl, rfl⟩ := Prod.mk.inj (Option.some.inj (hfirst.symm.trans hfirst'))
      rw [hf, Option.some.inj (hname.symm.trans hname')]
    · rintro ⟨q, hq⟩
      rw [hf] at hq
      cases hq
    · obtain ⟨c, hc⟩ := hall v (by rw [hsplit]; simp)
      rw [hv] at hc
      cases hc

theorem quote_fails_listFunction :
    quote [⟨[⟨1⟩]⟩, ⟨[⟨0⟩]⟩] [⟨#[]⟩] listFunction {} 0 ⟨1⟩ =
      .error (.unresolved "x" ⟨0⟩ .storageEnded) := by
  have hshort : ∀ node ∈ listFunction.nodes, node.kind.Short := by
    simp [listFunction, Kind.Short, sliceLimit, UInt16.size]
  have hvalid : validate listFunction {} ⟨1⟩ = .ok () := rfl
  obtain ⟨t, ht, h⟩ := quote_fails_iff [⟨[⟨1⟩]⟩, ⟨[⟨0⟩]⟩] [⟨#[]⟩] 0 hvalid hshort
  obtain rfl := Option.some.inj ht
  refine ((h fun table => ?_).1 _).2 ⟨[], ⟨0⟩, [], .storageEnded, "x", rfl, by simp, ?_, rfl, rfl⟩
  · cases table <;> decide
  · simp [Unresolved.Stops]

end

end Quotation
