import Quotation.Proofs.Intact
import Quotation.Proofs.Yields
import Quotation.Proofs.Capture.Rewritten

/-!
# Answers that expose what is broken

A pass answers a node with `r`. The answer exposes the node (`Exposes`) if the node is intact
wherever `r` is, now and in every arena that grows from the present one. So what is broken from the
node down is still found to be broken from `r` down. Variables that the pass replaces may be left
out of account (`hoisted`).

A node that is built anew from the answers for its children exposes the node in whose place it
stands (`descend_yields`): the lists of children have been read, so they exist, and the lists of
variables are the same.
-/

namespace Quotation

variable {σ β : Type}

section
variable (hoisted : VarId → Prop) (a : Arena)

/-- Where the arena has grown from `a` and the hoisted variables are declared, `id` is intact if its
answer is. -/
def Exposes (id r : ExprId) : Prop :=
  ∀ b pool declared, a.PartOf b → (∀ v, hoisted v → declared v) →
    Intact b pool declared r → Intact b pool declared id

/-- The branches of a kind and those of its answer, one by one. -/
abbrev ExposesBranch : Branch → Branch → Prop :=
  RewrittenBranch (fun _ => Exposes hoisted a) fun _ => false

/-- Where the label of the answer can be read, that of the kind can be, and it is the same. -/
def ExposesKind (kind kind' : Kind) : Prop :=
  ∀ b pool label branches', a.PartOf b → b.view? pool kind' = some (label, branches') →
    ∃ branches, b.view? pool kind = some (label, branches) ∧
      List.Forall₂ (ExposesBranch hoisted a) branches branches'

end

variable {hoisted : VarId → Prop} {w a b : Arena}

/-! ## One node -/

theorem Exposes.refl (id : ExprId) : Exposes hoisted a id id :=
  fun _ _ _ _ _ h => h

theorem Exposes.grows {id r : ExprId} (h : Exposes hoisted a id r) (hab : a.Grows b) :
    Exposes hoisted b id r :=
  fun c pool declared hbc => h c pool declared (hab.partOf.trans hbc)

theorem ExposesBranch.refl (x : Branch) : ExposesBranch hoisted a x x := by
  cases x with
  | expr id => exact Exposes.refl id
  | handler h => exact ⟨rfl, List.forall₂_same.2 fun id _ => Exposes.refl id⟩

theorem ExposesBranch.grows {x y : Branch} (h : ExposesBranch hoisted a x y) (hab : a.Grows b) :
    ExposesBranch hoisted b x y :=
  RewrittenBranch.imp (fun _ _ _ hid => hid.grows hab) h

theorem ExposesKind.refl (kind : Kind) : ExposesKind hoisted a kind kind :=
  fun _ _ _ branches _ hview =>
    ⟨branches, hview, List.forall₂_same.2 fun x _ => ExposesBranch.refl x⟩

/-- A handler and its answer catch the same variable. -/
theorem ExposesBranch.caught {h : Handler} {y : Branch}
    (hy : ExposesBranch hoisted a (.handler h) y) : ∃ k, y = .handler k ∧ k.caught = h.caught := by
  cases y with
  | expr id => exact hy.elim
  | handler k => exact ⟨k, rfl, hy.1⟩

theorem ExposesBranch.expr {x y : Branch} (h : ExposesBranch hoisted a x y) {c : ExprId}
    (hc : c ∈ x.exprs) : ∃ c' ∈ y.exprs, Exposes hoisted a c c' := by
  cases x with
  | expr id =>
    cases y with
    | expr r =>
      obtain rfl := List.mem_singleton.1 hc
      exact ⟨r, List.mem_singleton_self r, h⟩
    | handler k => exact h.elim
  | handler x =>
    cases y with
    | expr r => exact h.elim
    | handler k => exact forall₂_mem h.2 hc

theorem Exposes.of_kinds {id r : ExprId} {node node' : Node} (hnode : a.node? id = some node)
    (hnode' : a.node? r = some node') (h : ExposesKind hoisted a node.kind node'.kind) :
    Exposes hoisted a id r := by
  intro b pool declared hab hhoisted hr
  cases hr with
  | node hread hview' hlabel hcaught hbelow =>
    obtain rfl := Option.some.inj ((hab.node? hnode').symm.trans hread)
    obtain ⟨branches, hview, hbranches⟩ := h b pool _ _ hab hview'
    refine .node (hab.node? hnode) hview hlabel (fun x hx v hv => ?_) fun c hc => ?_
    · obtain ⟨y, hy, hxy⟩ := forall₂_mem hbranches hx
      obtain ⟨k, rfl, hk⟩ := hxy.caught
      exact hcaught k hy v (hk ▸ hv)
    · obtain ⟨x, hx, hc⟩ := List.mem_flatMap.1 hc
      obtain ⟨y, hy, hxy⟩ := forall₂_mem hbranches hx
      obtain ⟨c', hc', hcc'⟩ := hxy.expr hc
      exact hcc' b pool declared hab hhoisted (hbelow c' (List.mem_flatMap.2 ⟨y, hy, hc'⟩))

/-! ## One level of a pass -/

section
variable {visit : ExprId → PassM σ ExprId} {visitHandler : Handler → PassM σ Handler}

/-- Both the old list and the new one can be read afterwards. -/
theorem relist_yields [BEq β] [LawfulBEq β] (look : Arena → Slice β → Option (List β))
    {R : Arena → β → β → Prop} {s : Slice β} {read : PassM σ (List β)} {act : β → PassM σ β}
    {store : List β → Builder (Slice β)} (hrefl : ∀ a x, R a x x)
    (hgrows : ∀ (a b : Arena) (x y : β), a.Grows b → R a x y → R b x y)
    (hlook : ∀ a b l, a.Grows b → look a s = some l → look b s = some l)
    (hread : Yields w read fun a xs => look a s = some xs)
    (hact : ∀ x, Yields w (act x) fun a y => R a x y)
    (hstore : ∀ w' ys,
      Yields w' (liftM (store ys) : PassM σ (Slice β)) fun a s' => look a s' = some ys) :
    Yields w (do
      let before ← read
      let after ← before.mapM act
      if after == before then return s else liftM (store after))
      fun a s' => ∃ xs ys, look a s = some xs ∧ look a s' = some ys ∧ List.Forall₂ (R a) xs ys := by
  refine .bind hread fun before w₁ h₁ hbefore => ?_
  refine .bind (.mapM hgrows fun x _ => (hact x).later h₁) fun after w₂ h₂ hafter => ?_
  split
  · refine .pure fun a ha => ?_
    have hsame := hlook _ _ _ (h₂.trans ha) hbefore
    exact ⟨before, before, hsame, hsame, List.forall₂_same.2 fun x _ => hrefl a x⟩
  · refine (hstore w₂ after).imp fun a s' ha hs' => ?_
    exact ⟨before, after, hlook _ _ _ (h₂.trans ha) hbefore, hs',
      hafter.imp fun x y => hgrows w₂ a x y ha⟩

variable (hv : ∀ c, Yields w (visit c) fun a r => Exposes hoisted a c r)

include hv

theorem descendExprs_yields (s : Slice ExprId) :
    Yields w (descendExprs visit s) fun a s' => ∃ ids rs,
      a.exprs? s = some ids ∧ a.exprs? s' = some rs ∧ List.Forall₂ (Exposes hoisted a) ids rs :=
  relist_yields Arena.exprs? (fun _ => Exposes.refl) (fun _ _ _ _ hab h => h.grows hab)
    (fun _ _ _ hab h => hab.exprs? h) .exprs hv fun _ _ => .addExprs

theorem descendHandler_yields (h : Handler) :
    Yields w (descendHandler visit h)
      fun a k => ExposesBranch hoisted a (.handler h) (.handler k) := by
  obtain ⟨caught, body, filter⟩ := h
  have hfilter : Yields w (filter.mapM visit) fun a filter' =>
      List.Forall₂ (Exposes hoisted a) filter.toList filter'.toList := by
    cases filter with
    | none => exact .pure fun _ _ => .nil
    | some c => exact .bind (hv c) fun c' _ _ hc => .pure fun _ ha => .cons (hc.grows ha) .nil
  refine .bind (hv body) fun body' w₁ h₁ hbody => ?_
  refine .bind (hfilter.later h₁) fun filter' w₂ h₂ hfilter' => ?_
  refine .pure fun a ha => ⟨rfl, .cons (hbody.grows (h₂.trans ha)) ?_⟩
  exact hfilter'.imp fun _ _ hc => hc.grows ha

variable (hvh : ∀ h, Yields w (visitHandler h)
  fun a k => ExposesBranch hoisted a (.handler h) (.handler k))

include hvh

omit hv in
theorem descendHandlers_yields (s : Slice Handler) :
    Yields w (descendHandlers visitHandler s) fun a s' => ∃ hs ks,
      a.handlers? s = some hs ∧ a.handlers? s' = some ks ∧
        List.Forall₂ (fun h k => ExposesBranch hoisted a (.handler h) (.handler k)) hs ks :=
  relist_yields Arena.handlers? (fun _ h => ExposesBranch.refl (.handler h))
    (fun _ _ _ _ hab h => h.grows hab) (fun _ _ _ hab h => hab.handlers? h) .handlers hvh
    fun _ _ => .addHandlers

theorem descendKind_yields (kind : Kind) :
    Yields w (descendKind visit visitHandler kind) fun a kind' =>
      ExposesKind hoisted a kind kind' := by
  cases kind with
  | unit | int | bool | var | constant | cellList => exact .pure fun _ _ => .refl _
  | throw c | content c =>
    refine .bind (hv c) fun c' w₁ h₁ hc => ?_
    refine .pure fun a ha b pool label branches' _ hview => ?_
    obtain ⟨rfl, rfl⟩ := Prod.mk.inj (Option.some.inj hview)
    exact ⟨_, rfl, .cons (hc.grows ha) .nil⟩
  | lambda params body name =>
    refine .bind (hv body) fun body' w₁ h₁ hbody => ?_
    refine .pure fun a ha b pool label branches' _ hview => ?_
    obtain ⟨vs, hvs, rfl, rfl⟩ := view?_lambda.1 hview
    exact ⟨_, view?_lambda.2 ⟨vs, hvs, rfl, rfl⟩, .cons (hbody.grows ha) .nil⟩
  | binary op left right | assign left right =>
    refine .bind (hv left) fun left' w₁ h₁ hleft => ?_
    refine .bind ((hv right).later h₁) fun right' w₂ h₂ hright => ?_
    refine .pure fun a ha b pool label branches' _ hview => ?_
    obtain ⟨rfl, rfl⟩ := Prod.mk.inj (Option.some.inj hview)
    exact ⟨_, rfl, .cons (hleft.grows (h₂.trans ha)) (.cons (hright.grows ha) .nil)⟩
  | cond test yes no =>
    refine .bind (hv test) fun test' w₁ h₁ htest => ?_
    refine .bind ((hv yes).later h₁) fun yes' w₂ h₂ hyes => ?_
    refine .bind ((hv no).later (h₁.trans h₂)) fun no' w₃ h₃ hno => ?_
    refine .pure fun a ha b pool label branches' _ hview => ?_
    obtain ⟨rfl, rfl⟩ := Prod.mk.inj (Option.some.inj hview)
    exact ⟨_, rfl, .cons (htest.grows (h₂.trans (h₃.trans ha)))
      (.cons (hyes.grows (h₃.trans ha)) (.cons (hno.grows ha) .nil))⟩
  | block locals body =>
    refine .bind (descendExprs_yields hv body) fun body' w₁ h₁ ⟨ids, rs, hids, hrs, hbody⟩ => ?_
    refine .pure fun a ha b pool label branches' hab hview => ?_
    obtain ⟨vs, rs', hvs, hrs', rfl, rfl⟩ := view?_block.1 hview
    obtain rfl := Option.some.inj ((hab.exprs? (ha.exprs? hrs)).symm.trans hrs')
    refine ⟨_, view?_block.2 ⟨vs, ids, hvs, hab.exprs? (ha.exprs? hids), rfl, rfl⟩, ?_⟩
    exact forall₂_rewrittenBranch_expr.2 (hbody.imp fun _ _ hc => hc.grows ha)
  | call callee args =>
    refine .bind (hv callee) fun callee' w₁ h₁ hcallee => ?_
    refine .bind ((descendExprs_yields hv args).later h₁)
      fun args' w₂ h₂ ⟨ids, rs, hids, hrs, hargs⟩ => ?_
    refine .pure fun a ha b pool label branches' hab hview => ?_
    obtain ⟨rs', hrs', rfl, rfl⟩ := view?_call.1 hview
    obtain rfl := Option.some.inj ((hab.exprs? (ha.exprs? hrs)).symm.trans hrs')
    refine ⟨_, view?_call.2 ⟨ids, hab.exprs? (ha.exprs? hids), rfl, rfl⟩, ?_⟩
    exact .cons (hcallee.grows (h₂.trans ha))
      (forall₂_rewrittenBranch_expr.2 (hargs.imp fun _ _ hc => hc.grows ha))
  | attempt body handlers =>
    refine .bind (hv body) fun body' w₁ h₁ hbody => ?_
    refine .bind ((descendHandlers_yields hvh handlers).later h₁)
      fun handlers' w₂ h₂ ⟨hs, ks, hhs, hks, hhandlers⟩ => ?_
    refine .pure fun a ha b pool label branches' hab hview => ?_
    obtain ⟨ks', hks', rfl, rfl⟩ := view?_attempt.1 hview
    obtain rfl := Option.some.inj ((hab.handlers? (ha.handlers? hks)).symm.trans hks')
    refine ⟨_, view?_attempt.2 ⟨hs, hab.handlers? (ha.handlers? hhs), rfl, rfl⟩, ?_⟩
    refine .cons (hbody.grows (h₂.trans ha)) ?_
    exact List.forall₂_map_left_iff.2 (List.forall₂_map_right_iff.2
      (hhandlers.imp fun _ _ hk => hk.grows ha))

/-- What has changed is built anew, and is exposed by the answers for its children. -/
theorem descend_yields (id : ExprId) :
    Yields w (descend visit visitHandler id) fun a r => Exposes hoisted a id r := by
  refine .bind .node fun node w₁ h₁ hnode => ?_
  have hkind := (descendKind_yields hv hvh node.kind).later h₁
  refine .bind hkind fun kind w₂ h₂ hexposes => ?_
  split
  · exact .pure fun _ _ => .refl id
  · refine Yields.add.imp fun a r ha hr => ?_
    refine .of_kinds (ha.node? (h₂.node? hnode)) hr fun b pool label branches' hab hview => ?_
    obtain ⟨branches, hview, hbranches⟩ :=
      hexposes b pool label branches' (ha.partOf.trans hab) hview
    exact ⟨branches, hview, hbranches.imp fun _ _ hx => hx.grows ha⟩

end

end Quotation
