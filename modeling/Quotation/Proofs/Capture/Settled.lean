import Quotation.Proofs.Capture.Sharing

/-!
# Settled fragments

A fragment that refers to no captured variable is settled: it is quoted to itself against any chain,
and nothing is added (`quote_settled`). Quoting leaves nothing behind that could be captured
(`captures_capture`), so quoting what has been quoted before changes nothing (`quote_again`).
-/

namespace Quotation

/-! ## Nothing is left to capture -/

section
variable {frames : List Frame} {storages : List Storage} {declared : VarId → Bool} {stamp : Stamp}

theorem captures_listTree {span : Span} {vars : List VarId} :
    (listTree frames storages declared stamp span vars).captures declared = [] := by
  rw [listTree]
  split
  · rfl
  · simp [Tree.captures, capturesAll, Label.refers, Label.under, Label.declares, constantTree]

theorem captures_replacement {label : Label} {span : Span} {t : Tree}
    (h : label.replacement frames storages declared stamp span = some t) :
    t.captures declared = [] := by
  obtain ⟨v, c, rfl, -, -, rfl⟩ | ⟨vars, rfl, -, rfl⟩ := Label.replacement_cases h
  · rfl
  · exact captures_listTree

/-- A node that nothing takes the place of refers to no captured variable, if these have cells. -/
theorem refers_of_replacement_eq_none {label : Label} {span : Span}
    (h : label.replacement frames storages declared stamp span = none)
    (hcells : ∀ v ∈ label.refers.filter fun v => !declared v, (cellOf frames storages v).isSome) :
    (label.refers.filter fun v => !declared v) = [] := by
  cases label with
  | var v =>
    rw [Label.replacement] at h
    split at h
    · rename_i hdeclared
      simp [Label.refers, hdeclared]
    · rename_i hdeclared
      have hcell := hcells v (by simp [Label.refers, hdeclared])
      rw [Option.map_eq_none_iff.1 h] at hcell
      cases hcell
  | cellList vars =>
    rw [Label.replacement] at h
    split at h
    · rename_i hall
      simpa [Label.refers] using hall
    · cases h
  | _ => rfl

mutual

theorem captures_capture (t : Tree) (declared : VarId → Bool) (stamp : Stamp)
    (hcells : ∀ v ∈ t.captures declared, (cellOf frames storages v).isSome) :
    (t.capture frames storages declared stamp).captures declared = [] :=
  match t with
  | .node label span ts => by
    rw [Tree.captures] at hcells
    rw [Tree.capture]
    cases hreplacement : label.replacement frames storages declared stamp span with
    | some t => exact captures_replacement hreplacement
    | none =>
      rw [Option.getD_none, Tree.captures, refers_of_replacement_eq_none hreplacement fun v hv =>
        hcells v (List.mem_append_left _ hv), List.nil_append]
      exact capturesAll_captureAll ts _ _ fun v hv => hcells v (List.mem_append_right _ hv)

theorem capturesAll_captureAll (ts : List Tree) (declared : VarId → Bool) (stamp : Stamp)
    (hcells : ∀ v ∈ capturesAll declared ts, (cellOf frames storages v).isSome) :
    capturesAll declared (captureAll frames storages declared stamp ts) = [] :=
  match ts with
  | [] => rfl
  | t :: ts => by
    rw [capturesAll] at hcells
    rw [captureAll, capturesAll, captures_capture t _ _ fun v hv =>
      hcells v (List.mem_append_left _ hv), List.nil_append]
    exact capturesAll_captureAll ts _ _ fun v hv => hcells v (List.mem_append_right _ hv)

end

end

/-! ## What is left has routes -/

section
variable {frames : List Frame} {storages : List Storage} {declared : VarId → Bool} {stamp : Stamp}

theorem routable_nil : Routable declared [] := .of_length (Nat.zero_le _)

theorem routable_listTree {span : Span} {vars : List VarId} (h : Routable declared vars) :
    (listTree frames storages declared stamp span vars).Routable declared := by
  have hfree : Routable (Label.call.under declared) (vars.filter declared) := by
    have hunder : Label.call.under declared = declared :=
      funext fun v => by simp [Label.under, Label.declares]
    rw [hunder]
    exact ⟨by simpa using h.1, by simp⟩
  rw [listTree]
  split
  · exact ⟨routable_nil, trivial⟩
  · exact ⟨routable_nil, ⟨routable_nil, trivial⟩, ⟨hfree, trivial⟩, ⟨routable_nil, trivial⟩,
      ⟨routable_nil, trivial⟩, trivial⟩

theorem routable_replacement {label : Label} {span : Span} {t : Tree}
    (h : label.replacement frames storages declared stamp span = some t)
    (hroutable : Routable declared label.refers) : t.Routable declared := by
  obtain ⟨v, c, rfl, -, -, rfl⟩ | ⟨vars, rfl, -, rfl⟩ := Label.replacement_cases h
  · exact ⟨routable_nil, ⟨routable_nil, trivial⟩, trivial⟩
  · exact routable_listTree hroutable

mutual

theorem routable_capture (t : Tree) (declared : VarId → Bool) (stamp : Stamp)
    (h : t.Routable declared) : (t.capture frames storages declared stamp).Routable declared :=
  match t with
  | .node label span ts => by
    obtain ⟨hrefers, hts⟩ := h
    rw [Tree.capture]
    cases hreplacement : label.replacement frames storages declared stamp span with
    | some t => exact routable_replacement hreplacement hrefers
    | none => exact ⟨hrefers, routableAll_captureAll ts _ _ hts⟩

theorem routableAll_captureAll (ts : List Tree) (declared : VarId → Bool) (stamp : Stamp)
    (h : RoutableAll declared ts) :
    RoutableAll declared (captureAll frames storages declared stamp ts) :=
  match ts with
  | [] => trivial
  | t :: ts => ⟨routable_capture t _ _ h.1, routableAll_captureAll ts _ _ h.2⟩

end

end

/-! ## Quoting again -/

section
variable {frames : List Frame} {storages : List Storage} {arena : Arena} {pool : Pool}
  {stamp : Stamp} {root : ExprId} {q : Quoted}

theorem quote_settled [Tracing] {t : Tree} (ht : Represents arena pool (arena.size + 1) root t)
    (hnil : t.captures undeclared = []) (hroutable : t.Routable undeclared) :
    quote frames storages arena pool stamp root = .ok ⟨root, arena, pool, stamp⟩ := by
  have hcaps : capturesAll undeclared [t] = [] := capturesAll_singleton.trans hnil
  rcases (run_visits frames storages stamp ht).cases with ⟨r, s, a, hrun, hvisited⟩ | ⟨f, -, hf⟩
  · obtain ⟨hroot, rfl, rfl⟩ := hvisited.same hcaps
    obtain rfl := Branch.expr.inj (List.cons.inj hroot).1
    have hvalid : validate a pool r = .ok () := (represents_iff.1 ht).1
    rw [quote_eq, hrun, Quoted.ofRun, hvalid]
    rfl
  · -- only a captured variable without a cell could have made the walk fail
    obtain ⟨v, why, name, hfirst, -⟩ := hf (absurd hcaps) ⟨hroutable, trivial⟩
    rw [hcaps] at hfirst
    cases hfirst

/-- What quoting yields is quoted to itself against any chain whatever, and nothing is added to the
arena or the pool. -/
theorem quote_again [Tracing] (hvalid : validate arena pool root = .ok ())
    (hq : quote frames storages arena pool stamp root = .ok q) (frames' : List Frame)
    (storages' : List Storage) (stamp' : Stamp) :
    quote frames' storages' q.arena q.pool stamp' q.root = .ok { q with nextStamp := stamp' } := by
  obtain ⟨t, ht, hresolved, hquoted⟩ := quote_represents hvalid hq
  obtain ⟨u, s, hu, -, hvisited⟩ := quote_visited hvalid hq
  obtain rfl := ht.unique hu
  refine quote_settled hquoted (captures_capture t _ _ fun v hv => ?_)
    (routable_capture t _ _ hvisited.routable.1)
  obtain ⟨c, hc⟩ := hresolved v hv
  rw [cellOf_eq_some_iff.2 hc]
  rfl

/-- The chain of the second time has other cells, and one for the variable that the function
declares. -/
theorem quote_again_listFunction :
    ∃ q, quote [⟨[⟨0⟩]⟩] [⟨#[⟨7⟩]⟩] listFunction {} 0 ⟨1⟩ = .ok q ∧ q.root ≠ ⟨1⟩ ∧
      quote [⟨[⟨1⟩, ⟨0⟩]⟩] [⟨#[⟨3⟩, ⟨4⟩]⟩] q.arena q.pool 9 q.root =
        .ok { q with nextStamp := 9 } := by
  have hok : (quote [⟨[⟨0⟩]⟩] [⟨#[⟨7⟩]⟩] listFunction {} 0 ⟨1⟩).map (·.root) = .ok ⟨7⟩ := by
    decide +kernel
  obtain ⟨q, hq, hroot⟩ := except_map_eq_ok.1 hok
  exact ⟨q, hq, by rw [hroot]; decide, quote_again rfl hq _ _ 9⟩

end

end Quotation
