import Quotation.Proofs.Capture.Advance
import Quotation.Proofs.CellList

/-!
# References to captured variables

What quoting puts in place of a variable (`quoteVar_runs`) and of a list of variables
(`quoteCellList_runs`), from any state that is sound. Both stay as they are if everything that they
refer to is declared.
-/

namespace Quotation

open QuoteM

variable {frames : List Frame} {storages : List Storage} {s : Quoting} {a : Arena}
  {bad : Fault → Prop}

/-! ## Constants -/

theorem cellConstant_runs (hs : s.Sound frames storages) {v : VarId} {c : Cell}
    (hc : cellOf frames storages v = some c) {post : ConstantId → Quoting → Arena → Prop}
    (h : ∀ k s', Advances frames storages s a s' a 0 (entries .constants 1) →
      s'.pool.get? k = some (.cell c) → post k s' a)
    (hfull : ∀ f, indexLimit ≤ tableSize s.pool a .constants → bad f) :
    Runs (cellConstant v c) s a post bad := by
  refine Runs.bind (Runs.get ?_)
  cases hk : s.cellConstants.lookup v with
  | some k =>
    obtain ⟨c', hc', hget⟩ := hs.cells v k hk
    obtain rfl := Option.some.inj (hc'.symm.trans hc)
    exact Runs.pure (h k s ((Advances.refl hs).mono fun _ => Nat.zero_le _) hget)
  | none =>
    refine Runs.bind (pushConstant_runs hs (fun k s' hadv hget => ?_) hfull)
    refine Runs.bind (Runs.modify (Runs.pure (h k _ (hadv.remember rfl rfl rfl ?_) hget)))
    refine ⟨fun w k' hk' => ?_, fun k' hk' => hadv.sound.merge k' hk'⟩
    rw [List.lookup_cons] at hk'
    split at hk'
    · rename_i hw
      obtain rfl := Option.some.inj hk'
      obtain rfl := eq_of_beq hw
      exact ⟨c, hc, hget⟩
    · exact hadv.sound.cells w k' hk'

theorem mergeConstant_runs (hs : s.Sound frames storages)
    {post : ConstantId → Quoting → Arena → Prop}
    (h : ∀ k s', Advances frames storages s a s' a 0 (entries .constants 1) →
      s'.pool.get? k = some (.builtin .mergeVariables) → post k s' a)
    (hfull : ∀ f, indexLimit ≤ tableSize s.pool a .constants → bad f) :
    Runs mergeConstant s a post bad := by
  refine Runs.bind (Runs.get ?_)
  cases hk : s.mergeConstant with
  | some k =>
    exact Runs.pure (h k s ((Advances.refl hs).mono fun _ => Nat.zero_le _) (hs.merge k hk))
  | none =>
    refine Runs.bind (pushConstant_runs hs (fun k s' hadv hget => ?_) hfull)
    refine Runs.bind (Runs.modify (Runs.pure (h k _ (hadv.remember rfl rfl rfl ?_) hget)))
    refine ⟨hadv.sound.cells, fun k' hk' => ?_⟩
    obtain rfl := Option.some.inj hk'
    exact hget

/-! ## Variables -/

/-- Whether the fragment declares the variable, or the chain has a cell for it. -/
theorem captured_runs {v : VarId} (hdecl : v.index < a.names.size)
    {post : Option Cell → Quoting → Arena → Prop}
    (hfree : s.opened.declares v = true → post none s a)
    (hbound : ∀ c, s.opened.declares v = false → cellOf frames storages v = some c →
      post (some c) s a)
    (hbad : ∀ f, s.opened.declares v = false → Blame frames storages [v] a f → bad f) :
    Runs (captured frames storages v) s a post bad := by
  refine Runs.bind (Runs.get ?_)
  cases hd : s.opened.declares v with
  | true => exact Runs.pure (hfree hd)
  | false =>
    cases hr : resolve v frames storages with
    | ok c =>
      exact Runs.pure (hbound c hd (cellOf_eq_some_iff.2 hr))
    | error why =>
      have hname : a.name? v = some a.names[v.index] := Array.getElem?_eq_getElem hdecl
      refine Runs.bind (Runs.arena (Runs.bind (Runs.require hname (Runs.fault ?_))))
      exact hbad _ hd ⟨v, why, _, by simp [firstUnresolved, hr], hname, rfl⟩

theorem quoteVar_runs [Tracing] (hs : s.Sound frames storages) {id : ExprId} {span : Span}
    {v : VarId} (hdecl : v.index < a.names.size) {post : ExprId → Quoting → Arena → Prop}
    (hfree : s.opened.declares v = true → post id s a)
    (hbound : ∀ c r s' a', s.opened.declares v = false → cellOf frames storages v = some c →
      Advances frames storages s a s' a' 0 ((Label.var v).cost 0) → a.size ≤ r.index →
      (∀ n, Represents a' s'.pool (n + 2) r (cellTree span c)) → post r s' a')
    (hbad : ∀ f, s.opened.declares v = false →
      (Room s.pool a ((Label.var v).cost 0) → Blame frames storages [v] a f) → bad f) :
    Runs (quoteVar frames storages id span v) s a post bad := by
  refine Runs.bind (captured_runs hdecl (fun hd => Runs.pure (hfree hd)) (fun c hd hc => ?_)
    fun f hd hf => hbad f hd fun _ => hf)
  have hfull : ∀ {s' : Quoting} {a' : Arena} {lists : Nat} {cost : Table → Nat},
      Advances frames storages s a s' a' lists cost → ∀ table,
      cost table < (Label.var v).cost 0 table → ∀ f, indexLimit ≤ tableSize s'.pool a' table →
      bad f := fun hadv table hlt f hle => hbad f hd fun hroom =>
    absurd (hadv.size_lt hroom hlt) (Nat.not_lt_of_le hle)
  refine Runs.bind (cellConstant_runs hs hc (fun k s₁ h₁ hk => ?_)
    (hfull (.refl (a := a) hs) .constants (by simp [Label.cost])))
  refine Runs.bind (constant_runs h₁.sound hk (fun receiver a₂ h₂ _ hreceiver => ?_)
    (hfull h₁ .expressions (by simp [entries, Label.cost])))
  have h₂ := h₁.trans h₂
  have hname : a₂.name? v = some a.names[v.index] := by
    rw [Arena.name?, h₂.arena.names, Array.getElem?_eq_getElem hdecl]
  refine Runs.bind (Runs.traceCapture ?_ fun hnone =>
    absurd (hname.symm.trans hnone) (Option.some_ne_none _))
  refine node_runs h₂.sound (fun r a₃ h₃ hr _ hrep => ?_)
    (hfull h₂ .expressions (by simp [entries, Label.cost]))
  refine hbound c r _ _ hd hc ((h₂.trans h₃).mono fun table => ?_)
    (Nat.le_trans h₂.arena.nodes.size_le hr) fun n => ?_
  · cases table <;> simp [entries, Label.cost]
  · exact hrep _ .content [.expr receiver] _ rfl (by simp [Label.Declared, Label.vars])
      (.cons (hreceiver n) .nil)

/-! ## Lists of variables -/

theorem firstUnresolved_cons {v : VarId} {vs : List VarId} :
    firstUnresolved frames storages (v :: vs) =
      (firstUnresolved frames storages [v]).or (firstUnresolved frames storages vs) := by
  rw [← firstUnresolved_append, List.singleton_append]

theorem firstUnresolved_of_cellOf {v : VarId} {c : Cell} (hc : cellOf frames storages v = some c) :
    firstUnresolved frames storages [v] = none := by
  unfold cellOf at hc
  cases hr : resolve v frames storages with
  | ok c' => simp [firstUnresolved, hr]
  | error why =>
    rw [hr] at hc
    cases hc

/-- The variables all have cells exactly if none is unresolved. -/
theorem firstUnresolved_eq_none {vs : List VarId} :
    firstUnresolved frames storages vs = none ↔
      ∀ v ∈ vs, ∃ c, resolve v frames storages = .ok c := by
  rw [firstUnresolved, List.findSome?_eq_none_iff]
  refine forall₂_congr fun v _ => ?_
  cases resolve v frames storages <;> simp

theorem Blame.append {vs ws : List VarId} {f : Fault}
    (hvs : firstUnresolved frames storages vs = none) (h : Blame frames storages ws a f) :
    Blame frames storages (vs ++ ws) a f := by
  obtain ⟨v, why, name, hfirst, hname, hf⟩ := h
  exact ⟨v, why, name, by rw [firstUnresolved_append, hvs, hfirst]; rfl, hname, hf⟩

theorem Blame.append_right {vs ws : List VarId} {f : Fault} (h : Blame frames storages vs a f) :
    Blame frames storages (vs ++ ws) a f := by
  obtain ⟨v, why, name, hfirst, hname, hf⟩ := h
  exact ⟨v, why, name, by rw [firstUnresolved_append, hfirst]; rfl, hname, hf⟩

/-- What has been parted, and then `vs`. -/
def Parted.extend (frames : List Frame) (storages : List Storage) (declared : VarId → Bool)
    (p : Parted) (vs : List VarId) : Parted where
  free := p.free ++ vs.filter declared
  bound := p.bound ++ (vs.filter fun v => !declared v).filterMap (cellOf frames storages)
  routing := p.routing ++ (routes declared p.free.size p.bound.size vs).map Route.code

/-- All routes to the two parts have codes. -/
def Parted.Coded (p : Parted) : Prop := p.free.size ≤ Route.limit ∧ p.bound.size ≤ Route.limit

/-- What `captured` answers for a variable. -/
def Answers (frames : List Frame) (storages : List Storage) (declared : VarId → Bool)
    (v : VarId) : Option Cell → Prop
  | none => declared v = true
  | some c => declared v = false ∧ cellOf frames storages v = some c

theorem Parted.extend_empty (declared : VarId → Bool) (vs : List VarId) :
    ({} : Parted).extend frames storages declared vs =
      ⟨(vs.filter declared).toArray,
        ((vs.filter fun v => !declared v).filterMap (cellOf frames storages)).toArray,
        ((routes declared 0 0 vs).map Route.code).toArray⟩ := by
  simp [extend, append_list_eq]

theorem Parted.extend_cons {declared : VarId → Bool} {v : VarId} {r : Option Cell}
    (hr : Answers frames storages declared v r) (p : Parted) (vs : List VarId) :
    p.extend frames storages declared (v :: vs) =
      (p.extend frames storages declared [v]).extend frames storages declared vs := by
  cases r with
  | none =>
    have hd : declared v = true := hr
    simp [extend, routes, hd, append_list_eq]
  | some c =>
    obtain ⟨hd, hc⟩ := hr
    simp [extend, routes, hd, hc, append_list_eq]

theorem Parted.Coded.of_extend {declared : VarId → Bool} {p : Parted} {vs : List VarId}
    (h : (p.extend frames storages declared vs).Coded) : p.Coded := by
  obtain ⟨hfree, hbound⟩ := h
  simp only [extend, append_list_eq, Array.size_append] at hfree hbound
  exact ⟨by omega, by omega⟩

/-- A list with routes has them whatever cells its captured variables have. -/
theorem Parted.coded_of_routable {declared : VarId → Bool} {vs : List VarId}
    (h : Routable declared vs) : (({} : Parted).extend frames storages declared vs).Coded := by
  rw [extend_empty]
  exact ⟨by simpa using h.1, by simpa using Nat.le_trans (List.length_filterMap_le _ _) h.2⟩

theorem firstUnresolved_filter_cons {declared : VarId → Bool} {v : VarId} {r : Option Cell}
    (hr : Answers frames storages declared v r) (vs : List VarId) :
    firstUnresolved frames storages ((v :: vs).filter fun v => !declared v) =
      firstUnresolved frames storages (vs.filter fun v => !declared v) := by
  cases r with
  | none =>
    have hd : declared v = true := hr
    rw [List.filter_cons_of_neg (by simp [hd])]
  | some c =>
    obtain ⟨hd, hc⟩ := hr
    rw [List.filter_cons_of_pos (by simp [hd]), firstUnresolved_cons,
      firstUnresolved_of_cellOf hc, Option.none_or]

/-- Only a route that has no code keeps a variable from being parted. -/
theorem Parted.add_runs {declared : VarId → Bool} {v : VarId} {r : Option Cell}
    (hr : Answers frames storages declared v r) {p : Parted}
    {post : Parted → Quoting → Arena → Prop} (hp : p.Coded)
    (h : (p.extend frames storages declared [v]).Coded →
      post (p.extend frames storages declared [v]) s a)
    (hfull : ∀ f, ¬(p.extend frames storages declared [v]).Coded → bad f) :
    Runs (liftM (p.add v r)) s a post bad := by
  cases r with
  | none =>
    have hd : declared v = true := hr
    refine Runs.ofExcept ?_
    by_cases hlt : p.free.size < Route.limit
    · have hadd : p.add v none = .ok (p.extend frames storages declared [v]) := by
        simp [Parted.add, Route.encode, hlt, extend, routes, hd, append_list_eq, Route.code, bind,
          Except.bind, pure, Except.pure]
      rw [hadd]
      exact h ⟨by simpa [extend, hd, append_list_eq] using Nat.succ_le_of_lt hlt,
        by simpa [extend, hd, append_list_eq] using hp.2⟩
    · have hadd : p.add v none = .error (.routeTooFar p.free.size) := by
        simp [Parted.add, Route.encode, hlt, bind, Except.bind]
      rw [hadd]
      refine hfull _ fun hcoded => hlt (Nat.lt_of_succ_le ?_)
      simpa [extend, hd, append_list_eq] using hcoded.1
  | some c =>
    obtain ⟨hd, hc⟩ := hr
    refine Runs.ofExcept ?_
    by_cases hlt : p.bound.size < Route.limit
    · have hadd : p.add v (some c) = .ok (p.extend frames storages declared [v]) := by
        simp [Parted.add, Route.encode, hlt, extend, routes, hd, hc, append_list_eq, Route.code,
          bind, Except.bind, pure, Except.pure]
      rw [hadd]
      exact h ⟨by simpa [extend, hd, append_list_eq] using hp.1,
        by simpa [extend, hd, hc, append_list_eq] using Nat.succ_le_of_lt hlt⟩
    · have hadd : p.add v (some c) = .error (.routeTooFar p.bound.size) := by
        simp [Parted.add, Route.encode, hlt, bind, Except.bind]
      rw [hadd]
      refine hfull _ fun hcoded => hlt (Nat.lt_of_succ_le ?_)
      simpa [extend, hd, hc, append_list_eq] using hcoded.2

theorem partFrom_runs {vs : List VarId} (hdecl : ∀ v ∈ vs, v.index < a.names.size) {p : Parted}
    (hp : p.Coded) {post : Parted → Quoting → Arena → Prop}
    (h : firstUnresolved frames storages (vs.filter fun v => !s.opened.declares v) = none →
      (p.extend frames storages s.opened.declares vs).Coded →
      post (p.extend frames storages s.opened.declares vs) s a)
    (hbad : ∀ f, ((p.extend frames storages s.opened.declares vs).Coded →
      Blame frames storages (vs.filter fun v => !s.opened.declares v) a f) → bad f) :
    Runs (vs.foldlM (fun p v => do p.add v (← captured frames storages v)) p : QuoteM Parted)
      s a post bad := by
  induction vs generalizing p with
  | nil =>
    refine Runs.pure ?_
    have hnil : p.extend frames storages s.opened.declares [] = p := by
      simp [Parted.extend, routes]
    rw [hnil] at h
    exact h rfl hp
  | cons v vs ih =>
    rw [List.foldlM_cons]
    -- the rest of the list, once `v` has been parted
    have hrest : ∀ r, Answers frames storages s.opened.declares v r →
        Runs (liftM (p.add v r)) s a (fun p' s' a' => Runs (vs.foldlM
          (fun p v => do p.add v (← captured frames storages v)) p' : QuoteM Parted) s' a' post bad)
          bad := by
      intro r hr
      refine Parted.add_runs hr hp (fun hcoded =>
        ih (fun w hw => hdecl w (List.mem_cons_of_mem v hw)) hcoded ?_ ?_) ?_
      · intro hnone
        rw [← Parted.extend_cons hr]
        exact h ((firstUnresolved_filter_cons hr vs).trans hnone)
      · intro f hf
        refine hbad f fun hcoded => ?_
        rw [Parted.extend_cons hr] at hcoded
        obtain ⟨w, why, name, hfirst, hname, rfl⟩ := hf hcoded
        exact ⟨w, why, name, (firstUnresolved_filter_cons hr vs).trans hfirst, hname, rfl⟩
      · intro f hnot
        refine hbad f fun hcoded => absurd ?_ hnot
        rw [Parted.extend_cons hr] at hcoded
        exact hcoded.of_extend
    refine Runs.bind (Runs.bind (captured_runs (hdecl v List.mem_cons_self) (hrest none)
      (fun c hd hc => hrest (some c) ⟨hd, hc⟩) fun f hd hf => hbad f fun _ => ?_))
    rw [List.filter_cons_of_pos (by simp [hd])]
    exact List.singleton_append ▸ Blame.append_right hf

theorem boundList_runs (hs : s.Sound frames storages) {span : Span} {parted : Parted}
    {post : ExprId → Quoting → Arena → Prop}
    (h : ∀ r s' a', Advances frames storages s a s' a' 1
        (fun table => entries .constants 1 table + entries .expressions 1 table) →
      a.size ≤ r.index →
      (∀ n, Represents a' s'.pool (n + 1) r
        (constantTree span (.cellList (.direct s.nextStamp parted.bound)))) → post r s' a')
    (hfull : ∀ f, indexLimit ≤ tableSize s.pool a .constants ∨
      indexLimit ≤ tableSize s.pool a .expressions → bad f) :
    Runs (boundList span parted) s a post bad := by
  refine Runs.bind (newStamp_runs hs fun s₁ h₁ => ?_)
  have hsize : ∀ table, tableSize s₁.pool a table ≤ tableSize s.pool a table := h₁.size
  refine Runs.bind (pushConstant_runs h₁.sound (fun k s₂ h₂ hk => ?_)
    fun f hle => hfull f (.inl (Nat.le_trans hle (hsize _))))
  refine constant_runs h₂.sound hk (fun r a' h₃ hr hrep => ?_) fun f hle => hfull f (.inr ?_)
  · exact h r _ _ ((h₁.trans (h₂.trans h₃)).mono fun table => by omega) hr hrep
  · exact Nat.le_trans hle (Nat.le_trans (h₂.size .expressions) (hsize .expressions))

/-- What the call that merges two lists adds. -/
def mergeCost (free : Nat) (table : Table) : Nat :=
  entries .constants 2 table + entries .expressions 4 table + entries .varEntries free table +
    entries .exprEntries 3 table

theorem mergeCall_runs (hs : s.Sound frames storages) {span : Span} {parted : Parted}
    {bound : ExprId} {t : Tree} (ht : ∀ n, Represents a s.pool (n + 1) bound t)
    (hne : 0 < parted.free.size) (hdecl : ∀ v ∈ parted.free, v.index < a.names.size)
    {post : ExprId → Quoting → Arena → Prop}
    (h : ∀ r s' a', Advances frames storages s a s' a' 0 (mergeCost parted.free.size) →
      a.size ≤ r.index →
      (∀ n, Represents a' s'.pool (n + 2) r (.node .call span [
        constantTree span (.builtin .mergeVariables),
        .node (.cellList parted.free.toList) span [],
        t,
        constantTree span (.routing parted.routing)])) → post r s' a')
    (hfull : ∀ f, ¬Room s.pool a (mergeCost parted.free.size) ∨
      sliceLimit ≤ parted.free.size → bad f) :
    Runs (mergeCall span parted bound) s a post bad := by
  have full : ∀ {s' a' lists cost}, Advances frames storages s a s' a' lists cost → ∀ table,
      cost table < mergeCost parted.free.size table →
      ∀ f, indexLimit ≤ tableSize s'.pool a' table → bad f :=
    fun hadv table hlt f hle => hfull f (.inl fun hroom =>
      absurd (hadv.size_lt hroom hlt) (Nat.not_lt_of_le hle))
  have h₀ := Advances.refl (a := a) hs
  refine Runs.bind (varList_runs hs (fun vars a₁ h₁ hvars => ?_) fun f hf => hf.elim
    (full h₀ .varEntries (by simp [entries, mergeCost, hne]) f)
    fun hle => hfull f (.inr (by simpa using hle)))
  refine Runs.bind (node_runs hs (fun free a₂ e₂ _ _ hfree => ?_)
    (full h₁ .expressions (by simp [entries, mergeCost])))
  have hdecl₁ : (Label.cellList parted.free.toList).Declared a₁ := fun v hv => by
    rw [h₁.arena.names]
    exact hdecl v (Array.mem_toList_iff.1 hv)
  have hfree := fun n => hfree n (.cellList parted.free.toList) [] []
    (by simp [Arena.view?, hvars]) hdecl₁ .nil
  have h₂ := h₁.trans e₂
  refine Runs.bind (pushConstant_runs hs (fun k s₃ e₃ hk => ?_)
    (full h₂ .constants (by simp [entries, mergeCost])))
  have h₃ := h₂.trans e₃
  refine Runs.bind (constant_runs h₃.sound hk (fun routing a₄ e₄ _ hrouting => ?_)
    (full h₃ .expressions (by simp [entries, mergeCost])))
  have h₄ := h₃.trans e₄
  refine Runs.bind (mergeConstant_runs h₄.sound (fun k' s₅ e₅ hk' => ?_)
    (full h₄ .constants (by simp [entries, mergeCost])))
  have h₅ := h₄.trans e₅
  refine Runs.bind (constant_runs h₅.sound hk' (fun callee a₆ e₆ _ hcallee => ?_)
    (full h₅ .expressions (by simp [entries, mergeCost])))
  have h₆ := h₅.trans e₆
  refine Runs.bind (exprList_runs h₆.sound (fun args a₇ e₇ hargs => ?_) fun f hf => hf.elim
    (full h₆ .exprEntries (by simp [entries, mergeCost]) f)
    fun hle => absurd hle (by simp [sliceLimit, UInt16.size]))
  have h₇ := h₆.trans e₇
  refine node_runs h₇.sound (fun r a₈ e₈ hr _ hrep => ?_)
    (full h₇ .expressions (by simp [entries, mergeCost]))
  refine h r _ _ ((h₇.trans e₈).mono fun table => ?_)
    (Nat.le_trans h₇.arena.nodes.size_le hr) fun n => ?_
  · cases table <;> simp [entries, mergeCost]
  · have t₆ := e₆.trans e₇
    have t₄ := e₅.trans t₆
    have t₂ := e₃.trans (e₄.trans t₄)
    refine hrep (n + 1) .call [.expr callee, .expr free, .expr bound, .expr routing] _
      (by simp [Arena.view?, hargs]) (by simp [Label.Declared, Label.vars]) ?_
    exact .cons (e₇.represents (hcallee n)) (.cons (t₂.represents (hfree n))
      (.cons (h₇.represents (ht n)) (.cons (t₄.represents (hrouting n)) .nil)))

theorem filterMap_cellOf_eq_nil {vs : List VarId} (h : firstUnresolved frames storages vs = none) :
    vs.filterMap (cellOf frames storages) = [] ↔ vs = [] := by
  cases vs with
  | nil => simp
  | cons v vs =>
    cases hr : resolve v frames storages with
    | ok c => simp [cellOf, hr, Except.toOption]
    | error why => simp [firstUnresolved, hr] at h

theorem quoteCellList_runs (hs : s.Sound frames storages) {id : ExprId} {span : Span}
    {slice : Slice VarId} {vars : List VarId} (hvars : a.vars? slice = some vars)
    (hdecl : ∀ v ∈ vars, v.index < a.names.size) {post : ExprId → Quoting → Arena → Prop}
    (hfree : (vars.filter fun v => !s.opened.declares v) = [] →
      Routable s.opened.declares vars → post id s a)
    (hbound : ∀ r s' a', (vars.filter fun v => !s.opened.declares v) ≠ [] →
      firstUnresolved frames storages (vars.filter fun v => !s.opened.declares v) = none →
      Routable s.opened.declares vars →
      Advances frames storages s a s' a' 1 ((Label.cellList vars).cost 0) → a.size ≤ r.index →
      (∀ n, Represents a' s'.pool (n + 2) r
        (listTree frames storages s.opened.declares s.nextStamp span vars)) → post r s' a')
    (hbad : ∀ f, (((vars.filter fun v => !s.opened.declares v) ≠ [] →
        Room s.pool a ((Label.cellList vars).cost 0) ∧ vars.length < sliceLimit) →
      Routable s.opened.declares vars →
      Blame frames storages (vars.filter fun v => !s.opened.declares v) a f) → bad f) :
    Runs (quoteCellList frames storages id span slice) s a post bad := by
  have hempty : ({} : Parted).Coded := ⟨Nat.zero_le _, Nat.zero_le _⟩
  refine Runs.bind (Runs.vars hvars (Runs.bind (partFrom_runs hdecl hempty
    (fun hnone hcoded => ?_) ?_)))
  · rw [Parted.extend_empty] at hcoded ⊢
    have hroutable : Routable s.opened.declares vars := by
      have hall : ∀ v ∈ vars.filter fun v => !s.opened.declares v,
          (cellOf frames storages v).isSome := fun v hv =>
        isSome_cellOf_iff.2 (firstUnresolved_eq_none.1 hnone v hv)
      exact ⟨by simpa using hcoded.1,
        by simpa [length_filterMap_of_isSome hall] using hcoded.2⟩
    by_cases hcaps : (vars.filter fun v => !s.opened.declares v) = []
    · rw [if_pos (by simp [hcaps])]
      exact Runs.pure (hfree hcaps hroutable)
    · have hcells := mt (filterMap_cellOf_eq_nil hnone).1 hcaps
      rw [if_neg (by simpa using hcells)]
      refine Runs.bind (boundList_runs hs (fun r s₁ a₁ h₁ hr hrep => ?_) fun f hf => ?_)
      · by_cases hempty : vars.filter s.opened.declares = []
        · rw [if_pos (by simp [hempty])]
          refine Runs.pure
            (hbound r _ _ hcaps hnone hroutable (h₁.mono fun table => ?_) hr fun n => ?_)
          · cases table <;> simp [entries, Label.cost]
          · rw [listTree, if_pos (by simp [hempty])]
            exact hrep (n + 1)
        · rw [if_neg (by simpa using hempty)]
          have hpos : 0 < (vars.filter s.opened.declares).length := List.length_pos_iff.2 hempty
          have hle := List.length_filter_le s.opened.declares vars
          refine mergeCall_runs h₁.sound hrep (by simpa using hpos) (fun v hv => ?_)
            (fun r' s' a' h₂ hr' hrep' => ?_) fun f hf => ?_
          · rw [h₁.arena.names]
            exact hdecl v (List.mem_of_mem_filter (by simpa using hv))
          · refine hbound r' _ _ hcaps hnone hroutable ((h₁.trans h₂).mono fun table => ?_)
              (Nat.le_trans h₁.arena.nodes.size_le hr') fun n => ?_
            · cases table <;> simp [entries, mergeCost, Label.cost, hle]
            · rw [listTree, if_neg (by simpa using hempty)]
              exact hrep' n
          · refine hbad f fun hfits _ => absurd hf (not_or.2 ⟨not_not.2 (h₁.room ?_), ?_⟩)
            · refine (hfits hcaps).1.mono fun table => ?_
              cases table <;> simp [entries, mergeCost, Label.cost, hle]
            · simpa using Nat.lt_of_le_of_lt hle (hfits hcaps).2
      · refine hbad f fun hfits _ => absurd hf (not_or.2 ⟨?_, ?_⟩)
        · exact Nat.not_le_of_lt (Nat.lt_of_lt_of_le (by simp [Label.cost])
            ((hfits hcaps).1 .constants))
        · exact Nat.not_le_of_lt (Nat.lt_of_lt_of_le (by simp [Label.cost])
            ((hfits hcaps).1 .expressions))
  · exact fun f hf => hbad f fun _ hroutable => hf (Parted.coded_of_routable hroutable)

end Quotation
