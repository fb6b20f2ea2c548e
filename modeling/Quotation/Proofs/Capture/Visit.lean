import Quotation.Proofs.Capture.References
import Quotation.Proofs.Capture.Rewritten
import Quotation.Proofs.Descend

/-!
# Visits of a list of children

`Visited` says what a walk leaves of a list of trees: the answers have the captured trees, nothing
has happened if no variable is captured, and no answer list is the old one otherwise. `Failing` says
what a fault means: with room in the tables the first variable without a cell is to blame. Both are
put together along the list (`Visited.append`, `Failing.append`), branch by branch
(`Visits.descent`).
-/

namespace Quotation

open QuoteM

/-- Nothing in any table. -/
def nothing (_ : Table) : Nat := 0

section
variable (frames : List Frame) (storages : List Storage)

/-- The trees `ts` of the branches `bs` have been visited with the answers `bs'`, and lists of
`extra` entries have been stored with them. -/
structure Visited (declared : VarId → Bool) (n : Nat) (ts : List Tree) (extra : Table → Nat)
    (bs bs' : List Branch) (s : Quoting) (a : Arena) (s' : Quoting) (a' : Arena) : Prop where
  advances : Advances frames storages s a s' a' (listsAll declared ts)
    (fun table => costAll table declared ts + extra table)
  resolved : firstUnresolved frames storages (capturesAll declared ts) = none
  routable : RoutableAll declared ts
  trees : List.Forall₂ (RepresentsBranch a' (Represents a' s'.pool (n + 1))) bs'
    (captureAll frames storages declared s.nextStamp ts)
  rewritten : List.Forall₂
    (RewrittenBranch (Rewritten a' s'.pool frames storages s.nextStamp a.size n) declared) bs bs'
  same : capturesAll declared ts = [] → bs' = bs ∧ s' = s ∧ a' = a
  changed : capturesAll declared ts ≠ [] → bs' ≠ bs ∧ a.size < a'.size

/-- What is added for `ts` and for lists of `extra` entries has room, and all lists are short. -/
structure Addable (declared : VarId → Bool) (ts : List Tree) (extra : Table → Nat) (pool : Pool)
    (a : Arena) : Prop where
  room : Room pool a (fun table => costAll table declared ts + extra table)
  short : ShortAll ts
  lists : ∀ table, extra table < sliceLimit

/-- What a fault means if all lists have routes, and if what is added can be added. Nothing is added
where nothing is captured. -/
def Failing (declared : VarId → Bool) (ts : List Tree) (extra : Table → Nat) (s : Quoting)
    (a : Arena) (f : Fault) : Prop :=
  (capturesAll declared ts ≠ [] → Addable declared ts extra s.pool a) → RoutableAll declared ts →
    Blame frames storages (capturesAll declared ts) a f

/-- `act` visits any branch that has a tree. -/
def Visits {α : Type} (branch : α → Branch) (act : α → QuoteM α) (declared : VarId → Bool)
    (n : Nat) : Prop :=
  ∀ x t s a, s.opened.declares = declared → s.Sound frames storages →
    RepresentsBranch a (Represents a s.pool n) (branch x) t →
    Runs (act x) s a
      (fun x' s' a' => Visited frames storages declared n [t] nothing [branch x] [branch x']
        s a s' a')
      (Failing frames storages declared [t] nothing s a)

end

variable {frames : List Frame} {storages : List Storage} {declared : VarId → Bool} {n : Nat}
  {ts us : List Tree} {extra : Table → Nat} {bs bs' cs cs' : List Branch}
  {s s₁ s₂ : Quoting} {a a₁ a₂ : Arena}

theorem Advances.branch {lists : Nat} {cost : Table → Nat}
    (h : Advances frames storages s a s₁ a₁ lists cost) {b : Branch} {t : Tree}
    (ht : RepresentsBranch a (Represents a s.pool n) b t) :
    RepresentsBranch a₁ (Represents a₁ s₁.pool n) b t :=
  ht.grows h.arena fun _ _ => h.represents

theorem Advances.trees {lists : Nat} {cost : Table → Nat}
    (h : Advances frames storages s a s₁ a₁ lists cost)
    (hts : List.Forall₂ (RepresentsBranch a (Represents a s.pool n)) bs ts) :
    List.Forall₂ (RepresentsBranch a₁ (Represents a₁ s₁.pool n)) bs ts :=
  hts.imp fun _ _ => h.branch

namespace Visited

theorem nil (hs : s.Sound frames storages) :
    Visited frames storages declared n [] nothing [] [] s a s a where
  advances := .refl hs
  resolved := rfl
  routable := trivial
  trees := .nil
  rewritten := .nil
  same _ := ⟨rfl, rfl, rfl⟩
  changed h := absurd rfl h

theorem length (h : Visited frames storages declared n ts extra bs bs' s a s₁ a₁) :
    bs'.length = bs.length :=
  h.rewritten.length_eq.symm

/-- Where something is captured below, the kind of the node is another, as its branches are. -/
theorem kind_ne (h : Visited frames storages declared n ts extra bs bs' s a s₁ a₁)
    (hcaps : capturesAll declared ts ≠ []) {kind kind' : Kind} {label label' : Label} {pool : Pool}
    (hview : a.view? s.pool kind = some (label, bs)) (hpool : s.pool.Grows pool)
    (hview' : a₁.view? pool kind' = some (label', bs')) : kind' ≠ kind := by
  rintro rfl
  have hgrown := view?_grows h.advances.arena hpool hview
  obtain ⟨-, heq⟩ := Prod.mk.inj (Option.some.inj (hview'.symm.trans hgrown))
  exact (h.changed hcaps).1 heq

theorem append (h : Visited frames storages declared n ts nothing bs bs' s a s₁ a₁)
    (h' : Visited frames storages declared n us extra cs cs' s₁ a₁ s₂ a₂) :
    Visited frames storages declared n (ts ++ us) extra (bs ++ cs) (bs' ++ cs') s a s₂ a₂ where
  advances := by
    rw [listsAll_append]
    refine (h.advances.trans h'.advances).mono fun table => ?_
    rw [costAll_append, nothing]
    omega
  resolved := by
    rw [capturesAll_append, firstUnresolved_append, h.resolved, h'.resolved]
    rfl
  routable := routableAll_append.2 ⟨h.routable, h'.routable⟩
  trees := by
    have htrees' := h'.trees
    rw [h.advances.stamp] at htrees'
    rw [captureAll_append]
    exact List.rel_append (h'.advances.trees h.trees) htrees'
  rewritten := by
    refine List.rel_append (h.rewritten.imp fun _ _ => RewrittenBranch.imp fun _ _ _ => ?_)
      (h'.rewritten.imp fun _ _ => RewrittenBranch.imp fun _ _ _ => ?_)
    · exact Rewritten.grows h'.advances.arena h'.advances.pool (Nat.le_refl _) (Nat.le_refl _)
    · refine Rewritten.grows (.refl _) (.refl _) h.advances.arena.nodes.size_le ?_
      rw [h.advances.stamp]
      exact Nat.le_add_right _ _
  same hnil := by
    rw [capturesAll_append, List.append_eq_nil_iff] at hnil
    obtain ⟨rfl, rfl, rfl⟩ := h.same hnil.1
    obtain ⟨rfl, rfl, rfl⟩ := h'.same hnil.2
    exact ⟨rfl, rfl, rfl⟩
  changed hne := by
    have hle := h.advances.arena.nodes.size_le
    have hle' := h'.advances.arena.nodes.size_le
    rw [capturesAll_append, Ne, List.append_eq_nil_iff, not_and_or] at hne
    rcases hne with hne | hne
    · obtain ⟨hbs, hlt⟩ := h.changed hne
      exact ⟨fun heq => hbs (List.append_inj_left heq h.length), Nat.lt_of_lt_of_le hlt hle'⟩
    · obtain ⟨hcs, hlt⟩ := h'.changed hne
      exact ⟨fun heq => hcs (List.append_inj_right heq h.length), Nat.lt_of_le_of_lt hle hlt⟩

end Visited

theorem nothing_lt (table : Table) : nothing table < sliceLimit := by
  simp [nothing, sliceLimit, UInt16.size]

theorem Addable.left {pool : Pool} (h : Addable declared (ts ++ us) extra pool a) :
    Addable declared ts nothing pool a where
  room := h.room.mono fun table => by
    rw [costAll_append, nothing]
    omega
  short := (shortAll_append.1 h.short).1
  lists := nothing_lt

/-- What is left to be added once a part of the list has been visited. -/
theorem Addable.right (h : Addable declared (ts ++ us) extra s.pool a)
    (hv : Visited frames storages declared n ts nothing bs bs' s a s₁ a₁) :
    Addable declared us extra s₁.pool a₁ where
  room := hv.advances.room (h.room.mono fun table => by
    rw [costAll_append, nothing]
    omega)
  short := (shortAll_append.1 h.short).2
  lists := h.lists

theorem Failing.append {f : Fault} (h : Failing frames storages declared ts nothing s a f) :
    Failing frames storages declared (ts ++ us) extra s a f := by
  intro hadd hroutable
  rw [capturesAll_append] at hadd ⊢
  exact Blame.append_right (h (fun hne => (hadd fun hnil =>
    hne (List.append_eq_nil_iff.1 hnil).1).left) (routableAll_append.1 hroutable).1)

theorem Visited.failing {f : Fault}
    (h : Visited frames storages declared n ts nothing bs bs' s a s₁ a₁)
    (hf : Failing frames storages declared us extra s₁ a₁ f) :
    Failing frames storages declared (ts ++ us) extra s a f := by
  intro hadd hroutable
  rw [capturesAll_append] at hadd ⊢
  refine Blame.append h.resolved ?_
  obtain ⟨v, why, name, hfirst, hname, hf⟩ := hf (fun hne => (hadd fun hnil =>
    hne (List.append_eq_nil_iff.1 hnil).2).right h) (routableAll_append.1 hroutable).2
  exact ⟨v, why, name, hfirst, (h.advances.arena.name? v).symm.trans hname, hf⟩

/-! ## The branches of a node -/

section
variable {branches : List Branch}

/-- The tree of the branch that comes next. -/
theorem exists_next {R : Branch → Tree → Prop} (hts : List.Forall₂ R branches ts) {b : Branch}
    (hsplit : branches = bs ++ b :: cs) : ∃ t us, R b t ∧ ts.drop bs.length = t :: us ∧
      ts.take (bs ++ [b]).length = ts.take bs.length ++ [t] := by
  have hrest := List.forall₂_drop bs.length hts
  rw [hsplit, List.drop_left] at hrest
  obtain ⟨t, us, ht, -, hdrop⟩ := List.forall₂_cons_left_iff.1 hrest
  refine ⟨t, us, ht, hdrop, ?_⟩
  rw [List.length_append, List.take_add, hdrop]
  rfl

/-- One more branch is visited. -/
theorem Visits.next {α : Type} {branch : α → Branch} {act : α → QuoteM α}
    (hv : Visits frames storages branch act declared n) (hd : s.opened.declares = declared)
    (hts : List.Forall₂ (RepresentsBranch a (Represents a s.pool n)) branches ts) {x : α}
    (h : Visited frames storages declared n (ts.take bs.length) nothing bs bs' s a s₁ a₁)
    (hsplit : branches = bs ++ branch x :: cs) :
    Runs (act x) s₁ a₁
      (fun x' => Visited frames storages declared n (ts.take (bs ++ [branch x]).length) nothing
        (bs ++ [branch x]) (bs' ++ [branch x']) s a)
      (Failing frames storages declared ts extra s a) := by
  obtain ⟨t, us, ht, hdrop, htake⟩ := exists_next hts hsplit
  have hd₁ : s₁.opened.declares = declared := by rw [h.advances.opened, hd]
  refine (hv x t s₁ a₁ hd₁ h.advances.sound (h.advances.branch ht)).mono
    (fun x' s₂ a₂ hx => htake ▸ h.append hx) fun f hf => ?_
  rw [← List.take_append_drop bs.length ts, hdrop]
  exact h.failing hf.append

end

/-- A list that has been visited and is then stored. -/
theorem Visited.stored (h : Visited frames storages declared n ts nothing bs bs' s a s₁ a₁)
    (hne : capturesAll declared ts ≠ []) (h' : Advances frames storages s₁ a₁ s₂ a₂ 0 extra) :
    Visited frames storages declared n ts extra bs bs' s a s₂ a₂ where
  advances := h.advances.trans h'
  resolved := h.resolved
  routable := h.routable
  trees := h'.trees h.trees
  rewritten := h.rewritten.imp fun _ _ => RewrittenBranch.imp fun _ _ _ =>
    Rewritten.grows h'.arena h'.pool (Nat.le_refl _) (Nat.le_refl _)
  same hnil := absurd hnil hne
  changed _ := ⟨(h.changed hne).1, Nat.lt_of_lt_of_le (h.changed hne).2 h'.arena.nodes.size_le⟩

/-- A list that has been visited and has not changed. -/
theorem Visited.kept (h : Visited frames storages declared n ts nothing bs bs' s a s₁ a₁) :
    Visited frames storages declared n ts extra bs bs' s a s₁ a₁ :=
  { h with advances := h.advances.mono fun _ => Nat.le_add_right _ _ }

/-- There is room for a list that is to be stored. -/
theorem Visited.full (h : Visited frames storages declared n ts nothing bs bs' s a s₁ a₁)
    (hne : capturesAll declared ts ≠ []) {table : Table} {length : Nat}
    (hextra : extra = entries table length) (hpos : 0 < length) {f : Fault}
    (hfull : indexLimit ≤ tableSize s₁.pool a₁ table ∨ sliceLimit ≤ length) :
    Failing frames storages declared ts extra s a f := by
  intro hadd _
  have hlt := h.advances.size_lt (hadd hne).room (t := table)
    (by simp only [hextra, nothing, entries, if_true]; omega)
  have hshort := (hadd hne).lists table
  simp only [hextra, entries, if_true] at hshort
  omega

/-- What a proof about a level of quoting owes: storing a list fails only if there is no room. -/
theorem Visits.descent {visit : ExprId → QuoteM ExprId} {visitHandler : Handler → QuoteM Handler}
    (hv : Visits frames storages .expr visit declared n)
    (hvh : Visits frames storages .handler visitHandler declared n)
    (hd : s.opened.declares = declared) (hs : s.Sound frames storages) {label : Label}
    {branches : List Branch}
    (hts : List.Forall₂ (RepresentsBranch a (Represents a s.pool n)) branches ts) :
    Descent visit visitHandler label branches s a
      (fun done answers => Visited frames storages declared n (ts.take done.length) nothing done
        answers s a)
      (fun answers => Visited frames storages declared n ts (label.listCost ts.length) branches
        answers s a)
      (Failing frames storages declared ts (label.listCost ts.length) s a) where
  start := .nil hs
  partOf h := h.advances.arena.partOf
  stored h := h.advances.arena.partOf
  expr h hsplit := hv.next hd hts h hsplit
  handler h hsplit := hvh.next hd hts h hsplit
  keep h := by
    rw [hts.length_eq, List.take_length] at h
    exact h.kept
  exprs h hne _ hpos hcost := by
    rw [hts.length_eq, List.take_length] at h
    rw [hts.length_eq] at hcost
    have hcaps : capturesAll declared ts ≠ [] := fun hnil => hne (h.same hnil).1
    exact exprList_runs h.advances.sound
      (fun slice a' hadv hread => ⟨h.stored hcaps (hcost ▸ hadv), hread⟩)
      fun f hf => h.full hcaps hcost hpos hf
  handlers h hne _ hpos hcost := by
    rw [hts.length_eq, List.take_length] at h
    rw [hts.length_eq] at hcost
    have hcaps : capturesAll declared ts ≠ [] := fun hnil => hne (h.same hnil).1
    exact handlerList_runs h.advances.sound
      (fun slice a' hadv hread => ⟨h.stored hcaps (hcost ▸ hadv), hread⟩)
      fun f hf => h.full hcaps hcost hpos hf

end Quotation
