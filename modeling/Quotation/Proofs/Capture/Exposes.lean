import Quotation.Proofs.Exposes
import Quotation.Proofs.Capture.Keeps

/-!
# What quoting supplies

Quoting validates what it has made, and not what it has been given. So a node may refer to something
that does not exist until it is quoted: quoting adds nodes, lists and constants, and these take the
very next indices (`quote_supplies_missing`). There is no other way in which a broken fragment is
quoted. Each answer exposes the node that it stands for (`runWithin_yields`), so the fragment is
intact in what quoting leaves, up to variables that the chain hoists (`quote_intact`). What
validation has to report of the fragment beforehand is then something that quoting supplies
(`quote_supplied`).
-/

namespace Quotation

open QuoteM

variable {frames : List Frame} {storages : List Storage} {w a b : Arena} {hoisted : VarId → Prop}

/-- Some frame of the chain has the variable. -/
def Hoists (frames : List Frame) (v : VarId) : Prop := ∃ f ∈ frames, v ∈ f.vars

theorem hoists_of_resolve {v : VarId} {c : Cell} (h : resolve v frames storages = .ok c) :
    Hoists frames v := by
  induction frames generalizing storages with
  | nil => cases h
  | cons f frames ih =>
    cases storages with
    | nil => cases h
    | cons s storages =>
      rw [resolve] at h
      cases hslot : f.slot? v with
      | some slot => exact ⟨f, List.mem_cons_self, Frame.mem_of_slot? hslot⟩
      | none =>
        rw [hslot] at h
        obtain ⟨g, hg, hv⟩ := ih h
        exact ⟨g, List.mem_cons_of_mem f hg, hv⟩

/-! ## Constants and scopes -/

theorem pushConstant_yields (v : Value) : Yields w (pushConstant v) fun _ _ => True := by
  refine .bind .get fun q w₁ _ _ => .bind .ofExcept fun r w₂ _ _ => ?_
  exact .bind .modify fun _ _ _ _ => .pure fun _ _ => trivial

theorem newStamp_yields : Yields w newStamp fun _ _ => True :=
  fun _ a _ => ⟨.refl a, trivial⟩

theorem traceCapture_yields [Tracing] (v : VarId) : Yields w (traceCapture v) fun _ _ => True :=
  fun _ a _ => Runs.traceCapture ⟨.refl a, trivial⟩ fun _ => trivial

theorem cellConstant_yields (v : VarId) (c : Cell) :
    Yields w (cellConstant v c) fun _ _ => True := by
  refine .bind .get fun q w₁ _ _ => ?_
  split
  · exact .pure fun _ _ => trivial
  · refine .bind (pushConstant_yields _) fun k w₂ _ _ => ?_
    exact .bind .modify fun _ _ _ _ => .pure fun _ _ => trivial

theorem mergeConstant_yields : Yields w mergeConstant fun _ _ => True := by
  refine .bind .get fun q w₁ _ _ => ?_
  split
  · exact .pure fun _ _ => trivial
  · refine .bind (pushConstant_yields _) fun k w₂ _ _ => ?_
    exact .bind .modify fun _ _ _ _ => .pure fun _ _ => trivial

theorem declaring_yields {α : Type} {post : Arena → α → Prop}
    (hgrows : ∀ a b r, a.Grows b → post a r → post b r) (vs : List VarId) {act : QuoteM α}
    (hact : Yields w act post) : Yields w (declaring vs act) post := by
  refine .bind .modify fun _ w₁ h₁ _ => .bind (hact.later h₁) fun r w₂ _ hr => ?_
  refine .bind .get fun q w₃ h₃ _ => .bind .ofExcept fun opened w₄ h₄ _ => ?_
  refine .bind .modify fun _ w₅ h₅ _ => .pure fun a ha => ?_
  exact hgrows w₂ a r (h₃.trans (h₄.trans (h₅.trans ha))) hr

theorem quoteDeclaring_yields {post : Arena → ExprId → Prop}
    (hgrows : ∀ a b r, a.Grows b → post a r → post b r) (vars : Slice VarId)
    {down : QuoteM ExprId} (hdown : Yields w down post) :
    Yields w (quoteDeclaring vars down) post := by
  unfold quoteDeclaring
  split
  · exact hdown
  · exact .bind .vars fun vs w₁ h₁ _ => declaring_yields hgrows vs (hdown.later h₁)

/-! ## Variables -/

/-- Only a variable of the chain is captured. -/
theorem captured_yields (v : VarId) :
    Yields w (captured frames storages v) fun _ cell => ∀ c, cell = some c → Hoists frames v := by
  refine .bind .get fun q w₁ _ _ => ?_
  split
  · exact .pure fun _ _ => nofun
  · split
    · rename_i c hc
      exact .pure fun _ _ _ _ => hoists_of_resolve hc
    · exact .bind .arena fun _ _ _ _ => .bind .present fun _ _ _ _ => .fault

/-- A hoisted variable need not be declared, so whatever stands in its place exposes it. -/
theorem Exposes.of_var {id r : ExprId} {node : Node} {v : VarId} (hnode : a.node? id = some node)
    (hkind : node.kind = .var v) (hv : hoisted v) : Exposes hoisted a id r := by
  intro b pool declared hab hhoisted _
  have hview : b.view? pool node.kind = some (.var v, []) := by rw [hkind]; rfl
  refine .node (hab.node? hnode) hview (fun x hx => ?_) nofun nofun
  obtain rfl := List.mem_singleton.1 hx
  exact hhoisted x hv

theorem quoteVar_yields [Tracing] {id : ExprId} {node : Node} {v : VarId}
    (hnode : w.node? id = some node) (hkind : node.kind = .var v) (span : Span) :
    Yields w (quoteVar frames storages id span v) fun a r => Exposes (Hoists frames) a id r := by
  refine .bind (captured_yields v) fun cell w₁ h₁ hcell => ?_
  cases cell with
  | none => exact .pure fun _ _ => .refl id
  | some c =>
    refine .bind (cellConstant_yields v c) fun k w₂ h₂ _ => .bind .add fun receiver w₃ h₃ _ => ?_
    refine .bind (traceCapture_yields v) fun _ w₄ h₄ _ => Yields.add.imp fun a r ha _ => ?_
    have hread := ha.node? (h₄.node? (h₃.node? (h₂.node? (h₁.node? hnode))))
    exact .of_var hread hkind (hcell c rfl)

/-! ## Lists of variables -/

theorem Parted.add_free {p p' : Parted} {v : VarId} {cell : Option Cell}
    (h : p.add v cell = .ok p') :
    (∀ x ∈ p.free, x ∈ p'.free) ∧ (cell = none → v ∈ p'.free) := by
  cases cell with
  | none =>
    obtain ⟨route, -, h⟩ := except_bind_eq_ok.1 h
    obtain rfl := Except.ok.inj h
    exact ⟨fun x hx => Array.mem_push.2 (.inl hx), fun _ => Array.mem_push_self⟩
  | some c =>
    obtain ⟨route, -, h⟩ := except_bind_eq_ok.1 h
    obtain rfl := Except.ok.inj h
    exact ⟨fun x hx => hx, nofun⟩

theorem addCaptured_yields (p : Parted) (v : VarId) :
    Yields w (do p.add v (← captured frames storages v) : QuoteM Parted)
      fun _ p' => (∀ x ∈ p.free, x ∈ p'.free) ∧ (v ∈ p'.free ∨ Hoists frames v) := by
  refine .bind (captured_yields v) fun cell w₁ _ hcell => ?_
  refine Yields.ofExcept.imp fun _ p' _ hadd => ?_
  obtain ⟨hkept, hnew⟩ := Parted.add_free hadd
  cases cell with
  | none => exact ⟨hkept, .inl (hnew rfl)⟩
  | some c => exact ⟨hkept, .inr (hcell c rfl)⟩

/-- Every variable of the list is left free, or one of the chain. -/
theorem partFrom_yields (vs : List VarId) (p : Parted) :
    Yields w (vs.foldlM (fun p v => do p.add v (← captured frames storages v)) p : QuoteM Parted)
      fun _ p' => (∀ v ∈ p.free, v ∈ p'.free) ∧ ∀ v ∈ vs, v ∈ p'.free ∨ Hoists frames v := by
  induction vs generalizing w p with
  | nil => exact .pure fun _ _ => ⟨fun _ hv => hv, nofun⟩
  | cons v vs ih =>
    rw [List.foldlM_cons]
    refine .bind (addCaptured_yields p v) fun p₁ w₁ _ hp₁ => (ih p₁).imp fun _ p' _ hp' => ?_
    refine ⟨fun x hx => hp'.1 x (hp₁.1 x hx), ?_⟩
    exact List.forall_mem_cons.2 ⟨hp₁.2.imp_left (hp'.1 v), hp'.2⟩

theorem Intact.declared_of_cellList {pool : Pool} {declared : VarId → Prop} {id : ExprId}
    {node : Node} {s : Slice VarId} {vs : List VarId} (h : Intact a pool declared id)
    (hnode : a.node? id = some node) (hkind : node.kind = .cellList s) (hs : a.vars? s = some vs) :
    ∀ v ∈ vs, declared v := by
  cases h with
  | node hread hview hlabel =>
    obtain rfl := Option.some.inj (hnode.symm.trans hread)
    rw [hkind] at hview
    obtain ⟨vs', hvs', rfl, -⟩ := view?_cellList.1 hview
    obtain rfl := Option.some.inj (hs.symm.trans hvs')
    exact hlabel

theorem boundList_yields (span : Span) (parted : Parted) :
    Yields w (boundList span parted) fun _ _ => True := by
  refine .bind newStamp_yields fun _ w₁ _ _ => .bind (pushConstant_yields _) fun k w₂ _ _ => ?_
  exact Yields.add.imp fun _ _ _ _ => trivial

/-- Where the call is intact, the variables that have been left free are declared: their list is the
first of its arguments. -/
theorem mergeCall_yields (span : Span) (parted : Parted) (bound : ExprId) :
    Yields w (mergeCall span parted bound) fun a r => ∀ b pool declared, a.PartOf b →
      Intact b pool declared r → ∀ v ∈ parted.free, declared v := by
  refine .bind .addVars fun vars w₁ h₁ hvars => .bind .add fun free w₂ h₂ hfree => ?_
  refine .bind (pushConstant_yields _) fun k w₃ h₃ _ => .bind .add fun routing w₄ h₄ _ => ?_
  refine .bind mergeConstant_yields fun k' w₅ h₅ _ => .bind .add fun callee w₆ h₆ _ => ?_
  refine .bind .addExprs fun args w₇ h₇ hargs => Yields.add.imp fun a r ha hr => ?_
  intro b pool declared hab hintact v hv
  have h₂₇ := (h₃.trans (h₄.trans (h₅.trans (h₆.trans h₇)))).trans ha
  have hfree := hab.node? (h₂₇.node? hfree)
  have hargs := hab.exprs? (ha.exprs? hargs)
  have hchild : b.Child r free :=
    ⟨_, hab.node? hr, by simp [Arena.children, Kind.references, Arena.targets?, hargs]⟩
  have hvars := hab.vars? (h₂₇.vars? (h₂.vars? hvars))
  exact (hintact.child hchild).declared_of_cellList hfree rfl hvars v (Array.mem_toList_iff.2 hv)

theorem Exposes.of_cellList {id r : ExprId} {node : Node} {s : Slice VarId} {vs : List VarId}
    (hnode : a.node? id = some node) (hkind : node.kind = .cellList s) (hs : a.vars? s = some vs)
    (h : ∀ b pool declared, a.PartOf b → (∀ v, hoisted v → declared v) → Intact b pool declared r →
      ∀ v ∈ vs, declared v) : Exposes hoisted a id r := by
  intro b pool declared hab hhoisted hr
  have hview : b.view? pool node.kind = some (.cellList vs, []) := by
    rw [hkind]
    exact view?_cellList.2 ⟨vs, hab.vars? hs, rfl, rfl⟩
  exact .node (hab.node? hnode) hview (h b pool declared hab hhoisted hr) nofun nofun

theorem quoteCellList_yields {id : ExprId} {node : Node} {vars : Slice VarId}
    (hnode : w.node? id = some node) (hkind : node.kind = .cellList vars) (span : Span) :
    Yields w (quoteCellList frames storages id span vars)
      fun a r => Exposes (Hoists frames) a id r := by
  refine .bind .vars fun vs w₁ h₁ hvs => ?_
  refine .bind (partFrom_yields vs {}) fun parted w₂ h₂ hparted => ?_
  split
  · exact .pure fun _ _ => .refl id
  · refine .bind (boundList_yields span parted) fun bound w₃ h₃ _ => ?_
    have hnode₃ := h₃.node? (h₂.node? (h₁.node? hnode))
    have hvs₃ := h₃.vars? (h₂.vars? hvs)
    split
    · rename_i hempty
      refine .pure fun a ha => .of_cellList (ha.node? hnode₃) hkind (ha.vars? hvs₃) ?_
      intro b pool declared _ hhoisted _ v hv
      rcases hparted.2 v hv with hfree | hbound
      · rw [Array.isEmpty_iff.1 hempty] at hfree
        exact absurd hfree (Array.not_mem_empty v)
      · exact hhoisted v hbound
    · refine (mergeCall_yields span parted bound).imp fun a r ha hr => ?_
      refine .of_cellList (ha.node? hnode₃) hkind (ha.vars? hvs₃) ?_
      intro b pool declared hab hhoisted hintact v hv
      rcases hparted.2 v hv with hfree | hbound
      · exact hr b pool declared hab hintact v hfree
      · exact hhoisted v hbound

/-! ## The whole fragment -/

theorem onNode_yields [Tracing] {id : ExprId} {down : QuoteM ExprId}
    (hdown : Yields w down fun a r => Exposes (Hoists frames) a id r) :
    Yields w ((quotePass frames storages).onNode id down)
      fun a r => Exposes (Hoists frames) a id r := by
  refine .bind .node fun node w₁ h₁ hnode => ?_
  have hdown := hdown.later h₁
  split
  · exact quoteVar_yields hnode (by assumption) _
  · exact quoteCellList_yields hnode (by assumption) _
  · exact quoteDeclaring_yields (fun _ _ _ hab h => h.grows hab) _ hdown
  · exact quoteDeclaring_yields (fun _ _ _ hab h => h.grows hab) _ hdown
  · exact hdown

theorem onHandler_yields [Tracing] {h : Handler} {down : QuoteM Handler}
    (hdown : Yields w down fun a k => ExposesBranch hoisted a (.handler h) (.handler k)) :
    Yields w ((quotePass frames storages).onHandler h down)
      fun a k => ExposesBranch hoisted a (.handler h) (.handler k) := by
  cases hcaught : h.caught with
  | none => simpa only [quotePass, hcaught] using hdown
  | some v =>
    simpa only [quotePass, hcaught] using
      declaring_yields (fun _ _ _ hab h => h.grows hab) [v] hdown

theorem runWithin_yields [Tracing] (n : Nat) (id : ExprId) :
    Yields w ((quotePass frames storages).runWithin n id)
      fun a r => Exposes (Hoists frames) a id r := by
  induction n generalizing id with
  | zero => exact .fault
  | succ n ih =>
    have hhandler : ∀ h, Yields w ((quotePass frames storages).onHandler h
        (descendHandler ((quotePass frames storages).runWithin n) h))
        fun a k => ExposesBranch (Hoists frames) a (.handler h) (.handler k) :=
      fun h => onHandler_yields (descendHandler_yields ih h)
    exact onNode_yields (descend_yields ih hhandler id)

section
variable {arena : Arena} {pool : Pool} {stamp : Stamp} {root : ExprId} {q : Quoted}

/-- What has been quoted is intact afterwards, where the chain need not be declared. No variable has
been declared on the way. -/
theorem quote_intact [Tracing] (hq : quote frames storages arena pool stamp root = .ok q) :
    arena.Grows q.arena ∧
      Intact q.arena q.pool (fun v => v.index < arena.names.size ∨ Hoists frames v) root := by
  rw [quote_eq] at hq
  obtain ⟨s, hrun, -, hvalid⟩ := Quoted.ofRun_eq_ok hq
  have hyields : Yields arena ((quotePass frames storages).run root)
      fun a r => Exposes (Hoists frames) a root r :=
    .bind .arena fun _ _ _ _ => runWithin_yields _ root
  obtain ⟨hgrows, hexposes⟩ := hyields.of_ok hrun
  have hintact := validate_iff_intact.1 hvalid
  rw [hgrows.names] at hintact
  exact ⟨hgrows, hexposes _ _ _ (.refl _) (fun _ hv => .inr hv)
    (hintact.mono (.refl _) fun _ hv => .inl hv)⟩

/-- What is quoted is intact in what quoting leaves. Validation accepts it beforehand, or it reports
a reference to what quoting supplies, or to an undeclared variable of the chain. Afterwards it
accepts it, once these variables are declared as well. -/
theorem quote_supplied [Tracing] (hq : quote frames storages arena pool stamp root = .ok q) :
    Intact q.arena q.pool (fun v => v.index < arena.names.size ∨ Hoists frames v) root ∧
    (validate arena pool root = .ok () ∨
      ∃ id defect, validate arena pool root = .error (.invalid id defect) ∧
        defect.SuppliedBy arena q.arena pool q.pool (Hoists frames) id) ∧
    ∀ names, (∀ v, Hoists frames v → v.index < (arena.names ++ names).size) →
      validate { q.arena with names := arena.names ++ names } q.pool root = .ok () := by
  obtain ⟨hgrows, hintact⟩ := quote_intact hq
  refine ⟨hintact, ?_, fun names hnames => ?_⟩
  · have hpool := (quote_grows hq).2
    rcases hintact.validate_part hgrows.partOf hpool with hvalid | ⟨id, defect, hvalid, hdefect⟩
    · exact .inl hvalid
    · exact .inr ⟨id, defect, hvalid, hdefect.imp fun v hv hdecl =>
        hdecl.resolve_left (Nat.not_lt_of_le hv)⟩
  · refine validate_iff_intact.2 (hintact.mono ?_ fun v hv => ?_)
    · exact ⟨.refl _, .refl _, .refl _, .refl _, hgrows.names ▸ ⟨names, rfl⟩⟩
    · rcases hv with hv | hv
      · exact Nat.lt_of_lt_of_le hv (by simp)
      · exact hnames v hv

end

/-- A captured variable and a constant of an empty pool, added. The first constant that quoting adds
takes the index of the one that is not there. -/
def danglingSum : Arena where
  nodes := #[⟨.var ⟨0⟩, .nowhere⟩, ⟨.constant ⟨0⟩, .nowhere⟩, ⟨.binary .add ⟨0⟩ ⟨1⟩, .nowhere⟩]
  names := #["x"]

theorem danglingSum_quotes :
    (quote [⟨[⟨0⟩]⟩] [⟨#[⟨0⟩]⟩] danglingSum {} 0 ⟨2⟩).isOk := by decide +kernel

/-- Quoting accepts fragments that validation does not: the sum, and an undeclared variable that the
chain hoists. -/
theorem quote_supplies_missing :
    (∃ q, quote [⟨[⟨0⟩]⟩] [⟨#[⟨0⟩]⟩] danglingSum {} 0 ⟨2⟩ = .ok q ∧
      validate danglingSum {} ⟨2⟩ = .error (.invalid ⟨1⟩ (.constant ⟨0⟩ 0))) ∧
    ∃ q, quote [⟨[⟨0⟩]⟩] [⟨#[⟨0⟩]⟩] { danglingSum with names := #[] } {} 0 ⟨0⟩ = .ok q ∧
      validate { danglingSum with names := #[] } {} ⟨0⟩ =
        .error (.invalid ⟨0⟩ (.undeclared ⟨0⟩ 0)) := by
  have hundeclared :
      (quote [⟨[⟨0⟩]⟩] [⟨#[⟨0⟩]⟩] { danglingSum with names := #[] } {} 0 ⟨0⟩).isOk := by
    decide +kernel
  obtain ⟨q, hq⟩ := except_isOk_iff.1 danglingSum_quotes
  obtain ⟨q', hq'⟩ := except_isOk_iff.1 hundeclared
  exact ⟨⟨q, hq, rfl⟩, q', hq', rfl⟩

/-- The pool has the constant afterwards, and validation accepts the fragment then. -/
theorem quote_supplied_danglingSum :
    ∃ q, quote [⟨[⟨0⟩]⟩] [⟨#[⟨0⟩]⟩] danglingSum {} 0 ⟨2⟩ = .ok q ∧ 0 < q.pool.size ∧
      validate { q.arena with names := #["x"] } q.pool ⟨2⟩ = .ok () := by
  obtain ⟨q, hq⟩ := except_isOk_iff.1 danglingSum_quotes
  obtain ⟨-, hbefore, hafter⟩ := quote_supplied hq
  refine ⟨q, hq, ?_, hafter #[] fun v hv => ?_⟩
  · rcases hbefore with hvalid | ⟨id, defect, hinvalid, hdefect⟩
    · cases hvalid
    · obtain ⟨rfl, rfl⟩ := Fault.invalid.inj (Except.error.inj hinvalid)
      exact hdefect.2
  · obtain ⟨f, hf, hv⟩ := hv
    obtain rfl := List.mem_singleton.1 hf
    obtain rfl := List.mem_singleton.1 hv
    decide

end Quotation
