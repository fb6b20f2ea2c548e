import Quotation.Proofs.Operations

/-!
# Reached stores

A store is reached from an empty arena by operations that name only what there is when they are done
(`Store.Reached`). Each of them builds on an ordered arena in order (`Op.run_builds`), so in a store
that is reached children come before their parents, no node is below itself, and validation,
rewriting and quoting end (`Store.Reached.children_first`).
-/

namespace Quotation

namespace Op

/-- The operation names only nodes that there are, and slices that lie in their tables. The hooks of
a pass that rewrites end, and answer with nodes that there are, or that they have built from such
nodes. -/
def Within (st : Store) : Op → Prop
  | add kind _ => ∀ r ∈ kind.references, st.arena.Has r
  | addExprs ids => ∀ c ∈ ids, st.arena.Has (.expr c)
  | addHandlers hs => ∀ h ∈ hs, ∀ c ∈ h.exprs, st.arena.Has (.expr c)
  | build form => ∀ c ∈ form.exprs, st.arena.Has (.expr c)
  | rewrite p s root => st.arena.Has (.expr root) ∧
      ∃ P : Invariant _, P.holds s st.arena ∧ p.Follows (.order P) st.arena
  | _ => True

section
variable {st st' : Store} {answer : Answer}

theorem within_build {form : Form} :
    (build form).Within st ↔ ∀ c ∈ form.exprs, st.arena.Has (.expr c) :=
  Iff.rfl

theorem inArena_builds {α : Type} {x : Builder α} {f : α → Answer}
    (h : inArena x f st = .ok (answer, st'))
    (hx : ∀ v a, x st.arena = .ok (v, a) → st.arena.BuildsTo a) : st.arena.BuildsTo st'.arena := by
  obtain ⟨v, hv, -, -⟩ := inArena_ok h
  exact hx v st'.arena hv

/-- An operation within a store adds only what refers to what is there. -/
theorem run_builds [Tracing] {op : Op} (hop : op.Within st) (ho : st.arena.Ordered)
    (h : op.run st = .ok (answer, st')) : st.arena.BuildsTo st'.arena := by
  cases op with
  | declare name => exact inArena_builds h fun _ _ hv => (Builder.declare_ok hv).2
  | add kind span => exact inArena_builds h fun _ _ hv => (Builder.add_ok hv).2.2 hop
  | addExprs ids => exact inArena_builds h fun _ _ hv => (Builder.addExprs_ok hv).2.2 hop
  | addVars vs | addVarSet vs => exact inArena_builds h fun _ _ hv => (Builder.addVars_ok hv).2
  | addHandlers hs => exact inArena_builds h fun _ _ hv => (Builder.addHandlers_ok hv).2.2 hop
  | build form => exact inArena_builds h fun _ _ hv => (Form.build_ok hv).2.2 hop
  | respan id span => exact inArena_builds h fun _ _ hv => (Builder.respan_ok hv).2.2 ho
  | push v =>
    obtain ⟨c, -, -, harena⟩ := push_ok h
    exact harena ▸ .refl _
  | rewrite p s root =>
    obtain ⟨hroot, P, hs, hp⟩ := hop
    refine inArena_builds h fun r a hr => ?_
    obtain ⟨s', hrun⟩ := run'_ok hr
    have hkeeps := hp.run_keeps (fun _ => ho) fun _ => hroot
    exact (hkeeps.of_ok hs (fun _ => ho) hrun).2.2.1 trivial
  | quote frames storages root =>
    obtain ⟨q, hq, -, rfl⟩ := quote_ok h
    exact quote_builds ho hq

end

end Op

/-- The store is reached from an empty arena by operations within the stores on the way. -/
inductive Store.Reached [Tracing] : Store → Prop
  | empty (pool : Pool) (stamp : Stamp) : Reached { pool, nextStamp := stamp }
  | step {st st' : Store} {op : Op} {answer : Answer} (h : Reached st) (hop : op.Within st)
    (hrun : op.run st = .ok (answer, st')) : Reached st'

namespace Store.Reached

variable [Tracing] {st : Store}

theorem ordered (h : st.Reached) : st.arena.Ordered := by
  induction h with
  | empty pool stamp => exact Arena.Ordered.empty
  | step _ hop hrun ih => exact (Op.run_builds hop ih hrun).ordered ih

/-- Children come before their parents, whatever has been done to reach the store. So nothing that
walks down from a node comes back to it: validation and quoting end, and so does every pass whose
hooks only add to the arena, and end if what they are given ends. -/
theorem children_first (h : st.Reached) :
    (∀ id node, st.arena.node? id = some node → ∀ r ∈ node.kind.references, st.arena.Has r) ∧
    (∀ id c, st.arena.Child id c → c.index < id.index) ∧
    (∀ id, ¬Relation.TransGen st.arena.Child id id) ∧
    (∀ pool root, validate st.arena pool root ≠ .error .endless) ∧
    (∀ (σ : Type) (p : Pass σ) (d : Demand σ), d.ends → p.Follows d st.arena →
      ∀ s root, d.state.holds s st.arena → st.arena.Has (.expr root) →
        p.run root s st.arena ≠ .error .endless) ∧
    ∀ frames storages pool stamp root,
      quote frames storages st.arena pool stamp root ≠ .error .endless := by
  have ho := h.ordered
  refine ⟨fun id node hnode r hr => ?_, fun _ _ => ho.child_lt, ho.acyclic, ho.validate_ends,
    fun σ p d hd hp s root hs hroot => ?_, fun _ _ _ _ _ => quote_ends ho⟩
  · exact (ho.nodes id node hnode r hr).has (Nat.le_of_lt (Arena.index_lt_of_node? hnode))
  · exact (hp.run_keeps (fun _ => ho) fun _ => hroot).ne_endless hs (fun _ => ho) hd

end Store.Reached

/-- A function that multiplies by three. -/
def tripling : Store where
  arena := {
    nodes := #[⟨.var ⟨0⟩, .nowhere⟩, ⟨.int 3, .nowhere⟩, ⟨.binary .mul ⟨0⟩ ⟨1⟩, .nowhere⟩,
      ⟨.lambda ⟨0, 1⟩ ⟨2⟩ none, .nowhere⟩]
    varEntries := #[⟨0⟩]
    names := #["x"] }

theorem tripling_reached : tripling.Reached := by
  have h₁ := (Store.Reached.empty {} 0).step (show (Op.declare "x").Within _ from trivial) rfl
  have h₂ := h₁.step (Op.within_build.2 (show ∀ c ∈ (Form.var ⟨0⟩).exprs, _ from nofun)) rfl
  have h₃ := h₂.step (Op.within_build.2 (show ∀ c ∈ (Form.int 3).exprs, _ from nofun)) rfl
  have h₄ := h₃.step (Op.within_build.2
    (show ∀ c ∈ (Form.binary .mul ⟨0⟩ ⟨1⟩).exprs, _ by decide)) rfl
  exact h₄.step (Op.within_build.2
    (show ∀ c ∈ (Form.lambda none [⟨0⟩] ⟨2⟩).exprs, _ by decide)) rfl

/-- After the factor has been doubled, children still come before their parents. Quoting ends, and
so does substitution, even if it is by a node that there is not. -/
theorem children_first_tripling :
    ∃ st, (Op.rewrite (Rules.scale 2).toPass () ⟨3⟩).run tripling = .ok (.expr ⟨6⟩, st) ∧
      (∀ id c, st.arena.Child id c → c.index < id.index) ∧
      (∀ id, ¬Relation.TransGen st.arena.Child id id) ∧
      (∀ frames storages, quote frames storages st.arena {} 0 ⟨6⟩ ≠ .error .endless) ∧
      (Rules.substitute ⟨0⟩ ⟨99⟩).toPass.run ⟨3⟩ () st.arena ≠ .error .endless := by
  have hscale : (Rules.scale 2).toPass.Follows (.order .trivial) tripling.arena := by
    refine Rules.follows fun _ a _ _ id node rep _ hrep => ?_
    obtain ⟨kind, span⟩ := node
    cases kind with
    | int n =>
      obtain rfl := Option.some.inj hrep
      exact nofun
    | _ => cases hrep
  have hwithin : (Op.rewrite (Rules.scale 2).toPass () ⟨3⟩).Within tripling :=
    ⟨by decide, .trivial, trivial, hscale⟩
  have hanswer : ((Op.rewrite (Rules.scale 2).toPass () ⟨3⟩).run tripling).map Prod.fst =
      .ok (.expr ⟨6⟩) := by
    decide +kernel
  obtain ⟨⟨answer, st⟩, hrun, rfl⟩ := except_map_eq_ok.1 hanswer
  have hpart := (Op.run_builds hwithin tripling_reached.ordered hrun).partOf
  obtain ⟨-, hchild, hacyclic, -, hpass, hquote⟩ :=
    (tripling_reached.step hwithin hrun).children_first
  exact ⟨st, hrun, hchild, hacyclic, fun frames storages => hquote frames storages {} 0 ⟨6⟩,
    hpass Unit _ (.ending .trivial) trivial (Rules.follows False.elim) () ⟨3⟩ trivial
      (Arena.Has.grows (by decide) hpart)⟩

end Quotation
