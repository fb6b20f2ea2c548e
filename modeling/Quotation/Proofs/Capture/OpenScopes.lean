import Quotation.Capture.OpenScopes
import Quotation.Proofs.Represents
import Mathlib.Data.List.Induction

/-!
# Open scopes and their brackets

Scopes are entered and left as brackets are opened and closed. Which exit closes which scope is said
by the steps alone: what lies between an entering and its exit is `Balanced`, and an entering is
`Unmatched` if no exit comes for it. The open scopes after some steps are those of the unmatched
enterings (`mem_scopes_iff`), and the first step that cannot be done is the first exit with no
unmatched entering before it (`failsAt_iff_first`).

What holds the two together is that steps that can be done are a row of unmatched enterings with
balanced steps between them (`exists_opens`).
-/

namespace Quotation

namespace OpenScopes

/-! ## Steps -/

inductive Step where
  | enter (vs : List VarId)
  | exit
  deriving DecidableEq, Repr

def step (o : OpenScopes) : Step → Except Fault OpenScopes
  | .enter vs => .ok (o.enter vs)
  | .exit => o.exit

def run (o : OpenScopes) (steps : List Step) : Except Fault OpenScopes :=
  steps.foldlM step o

section
variable {o o' : OpenScopes} {s t steps : List Step} {f : Fault} {n m : Nat}

theorem step_eq_error_iff {st : Step} :
    o.step st = .error f ↔ st = .exit ∧ o = {} ∧ f = .noOpenScope := by
  obtain ⟨_ | ⟨vs, scopes⟩⟩ := o <;> cases st <;> simp [step, exit, eq_comm]

theorem run_singleton (st : Step) : run o [st] = o.step st :=
  bind_pure (o.step st)

theorem run_append_eq_ok : run o (s ++ t) = .ok o' ↔ ∃ m, run o s = .ok m ∧ run m t = .ok o' := by
  rw [run, List.foldlM_append]
  exact except_bind_eq_ok

theorem run_append_of_ok (h : run o s = .ok o') : run o (s ++ t) = run o' t := by
  rw [run, List.foldlM_append, ← run, h]
  rfl

/-! ## The step that fails -/

/-- The steps before position `n` can be done, and the step there cannot be done after them. -/
def FailsAt (steps : List Step) (n : Nat) : Prop :=
  (∃ o, run {} (steps.take n) = .ok o) ∧ ∃ f, run {} (steps.take (n + 1)) = .error f

theorem failsAt_iff :
    FailsAt steps n ↔ steps[n]? = some .exit ∧ run {} (steps.take n) = .ok {} := by
  rw [FailsAt, List.take_add_one]
  constructor
  · rintro ⟨⟨o, ho⟩, f, hf⟩
    rw [run_append_of_ok ho] at hf
    cases hst : steps[n]? with
    | none =>
      rw [hst] at hf
      cases hf
    | some st =>
      rw [hst, Option.toList_some, run_singleton] at hf
      obtain ⟨rfl, rfl, -⟩ := step_eq_error_iff.1 hf
      exact ⟨rfl, ho⟩
  · rintro ⟨hst, ho⟩
    refine ⟨⟨{}, ho⟩, .noOpenScope, ?_⟩
    rw [run_append_of_ok ho, hst]
    rfl

/-- What has been done is not undone by more steps. -/
theorem exists_run_take (h : run {} steps = .ok o) (n : Nat) :
    ∃ m, run {} (steps.take n) = .ok m := by
  rw [← List.take_append_drop n steps] at h
  obtain ⟨m, hm, -⟩ := run_append_eq_ok.1 h
  exact ⟨m, hm⟩

theorem FailsAt.le_of_run (h : FailsAt steps m) (hrun : run {} (steps.take n) = .ok o) : n ≤ m := by
  by_contra hlt
  obtain ⟨-, f, hf⟩ := h
  obtain ⟨o', ho'⟩ := exists_run_take hrun (m + 1)
  rw [List.take_take, Nat.min_eq_left (by omega)] at ho'
  cases ho'.symm.trans hf

theorem FailsAt.of_take (h : FailsAt (steps.take n) m) : m < n ∧ FailsAt steps m := by
  obtain ⟨hexit, hrun⟩ := failsAt_iff.1 h
  rw [List.getElem?_take] at hexit
  split at hexit
  · rename_i hlt
    rw [List.take_take, Nat.min_eq_left (Nat.le_of_lt hlt)] at hrun
    exact ⟨hlt, failsAt_iff.2 ⟨hexit, hrun⟩⟩
  · cases hexit

/-- Steps fail at one of them, and only for want of an open scope. -/
theorem exists_failsAt (h : run {} steps = .error f) :
    f = .noOpenScope ∧ ∃ n, FailsAt steps n := by
  induction steps using List.reverseRecOn generalizing f with
  | nil => cases h
  | append_singleton steps st ih =>
    have htake : (steps ++ [st]).take steps.length = steps := List.take_left
    cases hrun : run {} steps with
    | error e =>
      obtain ⟨rfl, n, hn⟩ := ih hrun
      rw [run, List.foldlM_append, ← run, hrun] at h
      cases h
      rw [← htake] at hn
      exact ⟨rfl, n, hn.of_take.2⟩
    | ok m =>
      rw [run_append_of_ok hrun, run_singleton] at h
      obtain ⟨-, -, rfl⟩ := step_eq_error_iff.1 h
      refine ⟨rfl, steps.length, ⟨m, htake.symm ▸ hrun⟩, .noOpenScope, ?_⟩
      rw [List.take_of_length_le (by simp), run_append_of_ok hrun, run_singleton, h]

/-! ## Scopes further out -/

/-- The scopes of `o` inside those of `base`. -/
def inside (o base : OpenScopes) : OpenScopes := ⟨o.scopes ++ base.scopes⟩

theorem step_inside {st : Step} (h : o.step st = .ok o') (base : OpenScopes) :
    (o.inside base).step st = .ok (o'.inside base) := by
  obtain ⟨scopes⟩ := o
  cases st with
  | enter vs =>
    cases h
    rfl
  | exit =>
    cases scopes with
    | nil => cases h
    | cons vs scopes =>
      cases h
      rfl

/-- Steps that can be done can also be done inside other scopes, and leave these alone. -/
theorem run_inside (h : run o steps = .ok o') (base : OpenScopes) :
    run (o.inside base) steps = .ok (o'.inside base) := by
  induction steps generalizing o with
  | nil =>
    cases h
    rfl
  | cons st steps ih =>
    obtain ⟨m, hm, hrest⟩ := except_bind_eq_ok.1 h
    exact except_bind_eq_ok.2 ⟨m.inside base, step_inside hm base, ih hrest⟩

end

/-! ## Brackets -/

/-- Each scope that is entered is left again, and no other is. -/
inductive Balanced : List Step → Prop where
  | nil : Balanced []
  | scope (vs : List VarId) {inner rest : List Step} (hinner : Balanced inner)
      (hrest : Balanced rest) :
    Balanced (.enter vs :: inner ++ .exit :: rest)

/-- After a scope has been entered, an exit comes for it. -/
def Leaves (after : List Step) : Prop :=
  ∃ inner rest, Balanced inner ∧ after = inner ++ .exit :: rest

/-- A scope with these variables is entered, and no exit comes for it. -/
def Unmatched (steps : List Step) (vs : List VarId) : Prop :=
  ∃ before after, steps = before ++ .enter vs :: after ∧ ¬Leaves after

namespace Balanced

variable {cs ds : List Step}

theorem append (hcs : Balanced cs) (hds : Balanced ds) : Balanced (cs ++ ds) := by
  induction hcs with
  | nil => exact hds
  | @scope vs inner rest hinner _ _ ih =>
    rw [List.append_assoc, List.cons_append]
    exact .scope vs hinner ih

/-- Balanced steps can be done anywhere, and the open scopes are as they were. -/
theorem run_eq (h : Balanced cs) (o : OpenScopes) : run o cs = .ok o := by
  induction h generalizing o with
  | nil => rfl
  | @scope vs inner rest _ _ ihinner ihrest =>
    show run (o.enter vs) (inner ++ .exit :: rest) = .ok o
    rw [run_append_of_ok (ihinner (o.enter vs))]
    exact ihrest o

end Balanced

/-- The steps enter `opened`, the last one first, and leave all other scopes that they enter. -/
inductive Opens : List Step → List (List VarId) → Prop where
  | balanced {cs : List Step} (hcs : Balanced cs) : Opens cs []
  | enter {before cs : List Step} {opened : List (List VarId)} (h : Opens before opened)
      (vs : List VarId) (hcs : Balanced cs) :
    Opens (before ++ .enter vs :: cs) (vs :: opened)

namespace Opens

variable {steps cs : List Step} {opened : List (List VarId)} {vs : List VarId}

theorem append_balanced (h : Opens steps opened) (hcs : Balanced cs) :
    Opens (steps ++ cs) opened := by
  cases h with
  | balanced h => exact .balanced (h.append hcs)
  | enter h vs h' =>
    rw [List.append_assoc, List.cons_append]
    exact .enter h vs (h'.append hcs)

theorem exit (h : Opens steps (vs :: opened)) : Opens (steps ++ [.exit]) opened := by
  cases h with
  | @enter before cs _ h _ hcs =>
    rw [List.append_assoc]
    exact h.append_balanced (.scope vs hcs .nil)

theorem balanced_of_nil (h : Opens steps []) : Balanced steps := by
  cases h with
  | balanced hcs => exact hcs

end Opens

section
variable {o : OpenScopes} {steps : List Step}

/-- Steps that can be done enter the scopes that are open then. -/
theorem exists_opens (h : run {} steps = .ok o) :
    ∃ opened, Opens steps opened ∧ o.scopes = opened.map List.eraseDups := by
  induction steps using List.reverseRecOn generalizing o with
  | nil =>
    cases h
    exact ⟨[], .balanced .nil, rfl⟩
  | append_singleton steps st ih =>
    obtain ⟨m, hm, hst⟩ := run_append_eq_ok.1 h
    obtain ⟨opened, hopened, hscopes⟩ := ih hm
    obtain ⟨scopes⟩ := m
    subst hscopes
    rw [run_singleton] at hst
    -- an exit closes the last of the scopes that are still open, and makes balanced what it ends
    cases st with
    | enter vs =>
      cases hst
      exact ⟨vs :: opened, hopened.enter vs .nil, rfl⟩
    | exit =>
      cases opened with
      | nil => cases hst
      | cons vs opened =>
        cases hst
        exact ⟨opened, hopened.exit, rfl⟩

/-! ## Unmatched enterings -/

/-- A scope is left by the steps that cannot be done without it. -/
theorem leaves_iff {after : List Step} : Leaves after ↔ ∃ f, run {} after = .error f := by
  constructor
  · rintro ⟨inner, rest, hinner, rfl⟩
    exact ⟨.noOpenScope, run_append_of_ok (hinner.run_eq {})⟩
  · rintro ⟨f, h⟩
    obtain ⟨-, n, hn⟩ := exists_failsAt h
    obtain ⟨hexit, hrun⟩ := failsAt_iff.1 hn
    obtain ⟨opened, hopened, hscopes⟩ := exists_opens hrun
    obtain rfl := List.map_eq_nil_iff.1 hscopes.symm
    obtain ⟨hlt, hget⟩ := List.getElem?_eq_some_iff.1 hexit
    refine ⟨after.take n, after.drop (n + 1), hopened.balanced_of_nil, ?_⟩
    rw [← hget, ← List.drop_eq_getElem_cons hlt, List.take_append_drop]

theorem not_leaves_iff {after : List Step} : ¬Leaves after ↔ ∃ o, run {} after = .ok o := by
  rw [leaves_iff]
  cases run {} after <;> simp

theorem Unmatched.append {vs : List VarId} {t : List Step} (h : Unmatched steps vs)
    (ht : run {} t = .ok o) : Unmatched (steps ++ t) vs := by
  obtain ⟨before, after, rfl, hafter⟩ := h
  obtain ⟨m, hm⟩ := not_leaves_iff.1 hafter
  refine ⟨before, after ++ t, by simp, not_leaves_iff.2 ⟨o.inside m, ?_⟩⟩
  rw [run_append_of_ok hm]
  exact run_inside ht m

theorem Opens.unmatched {opened : List (List VarId)} {vs : List VarId} (h : Opens steps opened)
    (hvs : vs ∈ opened) : Unmatched steps vs := by
  induction h with
  | balanced => cases hvs
  | @enter before cs opened _ ws hcs ih =>
    rcases List.mem_cons.1 hvs with rfl | hvs
    · exact ⟨before, cs, rfl, not_leaves_iff.2 ⟨{}, hcs.run_eq {}⟩⟩
    · have hrun : run {} (.enter ws :: cs) = .ok (OpenScopes.enter {} ws) := hcs.run_eq _
      exact (ih hvs).append hrun

/-- The open scopes are those of the unmatched enterings. -/
theorem mem_scopes_iff (h : run {} steps = .ok o) {scope : List VarId} :
    scope ∈ o.scopes ↔ ∃ vs, Unmatched steps vs ∧ vs.eraseDups = scope := by
  constructor
  · intro hscope
    obtain ⟨opened, hopened, hscopes⟩ := exists_opens h
    rw [hscopes] at hscope
    obtain ⟨vs, hvs, rfl⟩ := List.mem_map.1 hscope
    exact ⟨vs, hopened.unmatched hvs, rfl⟩
  · rintro ⟨vs, ⟨before, after, rfl, hafter⟩, rfl⟩
    obtain ⟨m, hm⟩ := not_leaves_iff.1 hafter
    obtain ⟨outer, -, hinner⟩ := run_append_eq_ok.1 h
    -- what follows the entering is done inside its scope, and leaves that alone
    have hinside : run (outer.enter vs) after = .ok (m.inside (outer.enter vs)) := run_inside hm _
    cases Except.ok.inj (hinner.symm.trans hinside)
    exact List.mem_append_right _ List.mem_cons_self

theorem declares_iff (h : run {} steps = .ok o) {v : VarId} :
    o.declares v = true ↔ ∃ vs, Unmatched steps vs ∧ v ∈ vs := by
  rw [declares, List.any_eq_true]
  constructor
  · rintro ⟨scope, hscope, hv⟩
    obtain ⟨vs, hvs, rfl⟩ := (mem_scopes_iff h).1 hscope
    exact ⟨vs, hvs, List.mem_eraseDups.1 (List.contains_iff_mem.1 hv)⟩
  · rintro ⟨vs, hvs, hv⟩
    exact ⟨vs.eraseDups, (mem_scopes_iff h).2 ⟨vs, hvs, rfl⟩,
      List.contains_iff_mem.2 (List.mem_eraseDups.2 hv)⟩

theorem eq_empty_iff (h : run {} steps = .ok o) : o = {} ↔ ∀ vs, ¬Unmatched steps vs := by
  constructor
  · rintro rfl vs hvs
    exact List.not_mem_nil ((mem_scopes_iff h).2 ⟨vs, hvs, rfl⟩)
  · intro hnone
    obtain ⟨scopes⟩ := o
    cases scopes with
    | nil => rfl
    | cons scope scopes =>
      obtain ⟨vs, hvs, -⟩ := (mem_scopes_iff h).1 List.mem_cons_self
      exact absurd hvs (hnone vs)

/-! ## The first exit too many -/

/-- At position `n` a scope is left, and before it no scope is entered that has not been left. -/
def LoneExit (steps : List Step) (n : Nat) : Prop :=
  steps[n]? = some .exit ∧ ∀ vs, ¬Unmatched (steps.take n) vs

variable {n m : Nat}

theorem FailsAt.loneExit (h : FailsAt steps n) : LoneExit steps n := by
  obtain ⟨hexit, hrun⟩ := failsAt_iff.1 h
  exact ⟨hexit, (eq_empty_iff hrun).1 rfl⟩

theorem LoneExit.failsAt (h : LoneExit steps n) (hrun : run {} (steps.take n) = .ok o) :
    FailsAt steps n := by
  obtain rfl := (eq_empty_iff hrun).2 h.2
  exact failsAt_iff.2 ⟨h.1, hrun⟩

/-- The steps fail at the first exit that has no unmatched entering before it. -/
theorem failsAt_iff_first :
    FailsAt steps n ↔ LoneExit steps n ∧ ∀ m < n, ¬LoneExit steps m := by
  constructor
  · intro h
    obtain ⟨o, ho⟩ := h.1
    refine ⟨h.loneExit, fun m hm hlone => ?_⟩
    obtain ⟨o', ho'⟩ := exists_run_take ho m
    rw [List.take_take, Nat.min_eq_left (Nat.le_of_lt hm)] at ho'
    have hle := (hlone.failsAt ho').le_of_run ho
    omega
  · rintro ⟨hlone, hfirst⟩
    cases hrun : run {} (steps.take n) with
    | ok o => exact hlone.failsAt hrun
    | error f =>
      obtain ⟨-, m, hm⟩ := exists_failsAt hrun
      obtain ⟨hlt, hm⟩ := hm.of_take
      exact absurd hm.loneExit (hfirst m hlt)

theorem run_eq_error_iff {f : Fault} :
    run {} steps = .error f ↔ f = .noOpenScope ∧ ∃ n, LoneExit steps n := by
  constructor
  · intro h
    obtain ⟨rfl, n, hn⟩ := exists_failsAt h
    exact ⟨rfl, n, hn.loneExit⟩
  · rintro ⟨rfl, n, hlone⟩
    cases hrun : run {} steps with
    | ok o =>
      obtain ⟨m, hm⟩ := exists_run_take hrun n
      obtain ⟨-, f, hf⟩ := hlone.failsAt hm
      obtain ⟨m', hm'⟩ := exists_run_take hrun (n + 1)
      cases hm'.symm.trans hf
    | error f => rw [(exists_failsAt hrun).1]

end

/-- Steps from no open scope fail at the first exit that has no unmatched entering before it, and
nowhere else. If there is none, a variable is declared afterwards just if an unmatched entering
lists it. Balanced steps leave any open scopes as they were. -/
theorem run_tracks (steps : List Step) :
    (∀ f, run {} steps = .error f ↔ f = .noOpenScope ∧ ∃ n, LoneExit steps n) ∧
    (∀ n, FailsAt steps n ↔ LoneExit steps n ∧ ∀ m < n, ¬LoneExit steps m) ∧
    (∀ o, run {} steps = .ok o →
      ∀ v, o.declares v = true ↔ ∃ vs, Unmatched steps vs ∧ v ∈ vs) ∧
    ∀ o cs, Balanced cs → run o cs = .ok o :=
  ⟨fun _ => run_eq_error_iff, fun _ => failsAt_iff_first, fun _ h _ => declares_iff h,
    fun o _ hcs => hcs.run_eq o⟩

/-- The outer scope lists a variable twice and the scope inside it once more. The variable stays
declared when the inner scope is left, and the exit after that of the outer one is one too many. -/
theorem run_tracks_nested :
    let inner := [.enter [⟨0⟩], .enter [], .exit, .exit]
    let steps := .enter [⟨0⟩, ⟨0⟩, ⟨1⟩] :: inner
    let opened : OpenScopes := ⟨[[⟨0⟩, ⟨1⟩]]⟩
    run {} steps = .ok opened ∧ (∃ vs, Unmatched steps vs ∧ ⟨0⟩ ∈ vs) ∧
    (¬∃ vs, Unmatched steps vs ∧ ⟨2⟩ ∈ vs) ∧
    Balanced inner ∧ run opened inner = .ok opened ∧
    run {} (steps ++ [.exit, .exit, .exit]) = .error .noOpenScope ∧
    LoneExit (steps ++ [.exit, .exit, .exit]) 6 := by
  intro inner steps opened
  obtain ⟨-, -, hdeclares, hbalanced⟩ := run_tracks steps
  obtain ⟨herror, hfirst, -, -⟩ := run_tracks (steps ++ [.exit, .exit, .exit])
  have hrun : run {} steps = .ok opened := rfl
  have hinner : Balanced inner := .scope _ (.scope _ .nil .nil) .nil
  have hfails : FailsAt (steps ++ [.exit, .exit, .exit]) 6 := ⟨⟨{}, rfl⟩, .noOpenScope, rfl⟩
  have hlone := ((hfirst 6).1 hfails).1
  refine ⟨hrun, (hdeclares _ hrun ⟨0⟩).1 rfl, fun h => ?_, hinner, hbalanced _ _ hinner,
    (herror _).2 ⟨rfl, 6, hlone⟩, hlone⟩
  exact Bool.false_ne_true ((hdeclares _ hrun ⟨2⟩).2 h)

end OpenScopes

end Quotation
