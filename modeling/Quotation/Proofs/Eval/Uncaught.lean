import Quotation.Proofs.Eval.Levels
import Quotation.Proofs.Eval.RecordInvariant
import Quotation.Proofs.Eval.Restore

/-!
# Only throws are caught

Once the evaluation of a node has ended in an error that is not a throw, nothing else happens: the
evaluations that are still open end in the same error on the same heap, one after the other, and no
evaluation begins, no function is made and no cell is written any more (`PassesUp`). This is an
invariant of every record (`RecordInvariant.passesUp`), so the error is what the whole evaluation
ends in, and an attempt around it makes no difference (`uncaught_ends`).
-/

namespace Quotation

/-- Not a throw. -/
def EvalError.Uncaught : EvalError → Prop
  | .thrown _ => False
  | _ => True

/-- The evaluation of a node ends in the error, and leaves the heap. -/
def Event.Fails (e : EvalError) (heap : Heap) (event : Event) : Prop :=
  ∃ id env depth, event = .ended id (.error (.error e) ⟨heap, env, depth⟩)

theorem Event.fails_ended {id : ExprId} {r : EStateM.Result Stop Machine Value} {e : EvalError}
    {heap : Heap} :
    (Event.ended id r).Fails e heap ↔ stop? r = some (.error e) ∧ finalHeap r = heap := by
  constructor
  · rintro ⟨_, _, _, h⟩
    cases h
    exact ⟨rfl, rfl⟩
  · rintro ⟨hstop, rfl⟩
    cases r with
    | ok v m => cases hstop
    | error stop m =>
      cases hstop
      exact ⟨id, m.env, m.callDepth, rfl⟩

theorem Event.Fails.unique {event : Event} {e e' : EvalError} {heap heap' : Heap}
    (h : event.Fails e heap) (h' : event.Fails e' heap') : e = e' ∧ heap = heap' := by
  obtain ⟨id, env, depth, rfl⟩ := h
  obtain ⟨_, _, _, heq⟩ := h'
  cases heq
  exact ⟨rfl, rfl⟩

/-- No evaluation of a node ends in an error that is not a throw. -/
def Calm (l : List Event) : Prop :=
  ∀ event ∈ l, ∀ e heap, e.Uncaught → ¬event.Fails e heap

/-- From the first error on that is not a throw, nothing is on record but ends in this error, and
it is what stops the evaluation. -/
inductive PassesUp : List Event → Option Stop → Heap → Prop where
  | calm {l : List Event} {stop : Option Stop} {heap : Heap} (calm : Calm l) :
    PassesUp l stop heap
  | failed {l failures : List Event} {e : EvalError} {heap : Heap} (calm : Calm l)
    (uncaught : e.Uncaught) (fails : ∀ event ∈ failures, event.Fails e heap) :
    PassesUp (l ++ failures) (some (.error e)) heap

namespace Calm

theorem nil : Calm [] := nofun

theorem append {l l' : List Event} (h : Calm l) (h' : Calm l') : Calm (l ++ l') := by
  intro event hevent
  rcases List.mem_append.1 hevent with hevent | hevent
  exacts [h event hevent, h' event hevent]

theorem singleton {event : Event} (h : ∀ e heap, e.Uncaught → ¬event.Fails e heap) :
    Calm [event] := List.forall_mem_singleton.2 h

/-- Only the end of an evaluation can be an end in an error. -/
theorem began (id : ExprId) : Calm [.began id] := singleton fun _ _ _ ⟨_, _, _, h⟩ => nomatch h

theorem made (f : Closure) : Calm [.made f] := singleton fun _ _ _ ⟨_, _, _, h⟩ => nomatch h

theorem wrote (c : Cell) (v : Value) : Calm [.wrote c v] :=
  singleton fun _ _ _ ⟨_, _, _, h⟩ => nomatch h

end Calm

namespace PassesUp

variable {l l' : List Event} {stop stop' : Option Stop} {heap heap' : Heap}

/-- Only after a record without such an error does the evaluation go on. -/
theorem append (h : PassesUp l stop heap) (hgoes : GoesOn stop) (h' : PassesUp l' stop' heap') :
    PassesUp (l ++ l') stop' heap' := by
  have hl : Calm l := by
    cases h with
    | calm hl => exact hl
    | @failed _ _ e _ _ he =>
      cases e with
      | thrown v => exact he.elim
      | _ => exact hgoes.elim
  cases h' with
  | calm hl' => exact .calm (hl.append hl')
  | failed hl' he hfails => exact List.append_assoc .. ▸ .failed (hl.append hl') he hfails

theorem ended (id : ExprId) {r : EStateM.Result Stop Machine Value}
    (h : PassesUp l (stop? r) (finalHeap r)) :
    PassesUp (l ++ [.ended id r]) (stop? r) (finalHeap r) := by
  generalize hstop : stop? r = stop at h ⊢
  generalize hheap : finalHeap r = heap at h ⊢
  cases h with
  | calm hl =>
    by_cases hfail : ∃ e, e.Uncaught ∧ stop = some (.error e)
    · obtain ⟨e, he, rfl⟩ := hfail
      exact .failed hl he (List.forall_mem_singleton.2 (Event.fails_ended.2 ⟨hstop, hheap⟩))
    · refine .calm (hl.append (.singleton fun e heap he h => hfail ⟨e, he, ?_⟩))
      exact hstop.symm.trans (Event.fails_ended.1 h).1
  | failed hl he hfails =>
    rw [List.append_assoc]
    refine .failed hl he (List.forall_mem_append.2 ⟨hfails, List.forall_mem_singleton.2 ?_⟩)
    exact Event.fails_ended.2 ⟨hstop, hheap⟩

/-- What an error on record that is not a throw says about everything else. -/
theorem ends {before after : List Event} {event : Event} {e : EvalError}
    (h : PassesUp (before ++ event :: after) stop heap) (hfails : event.Fails e heap')
    (he : e.Uncaught) :
    stop = some (.error e) ∧ heap = heap' ∧ ∀ event ∈ after, event.Fails e heap' := by
  generalize hl : before ++ event :: after = l at h
  cases h with
  | calm hcalm => exact absurd hfails (hcalm event (by simp [← hl]) e heap' he)
  | failed hcalm _ hfailures =>
    -- the error is among the failures, since it is not in the record before them
    rcases List.append_eq_append_iff.1 hl with ⟨mid, rfl, hmid⟩ | ⟨mid, -, rfl⟩
    · cases mid with
      | nil =>
        obtain rfl := hmid
        obtain ⟨rfl, rfl⟩ := (hfailures event List.mem_cons_self).unique hfails
        exact ⟨rfl, rfl, fun event hevent => hfailures event (List.mem_cons_of_mem _ hevent)⟩
      | cons first mid =>
        obtain ⟨rfl, -⟩ := List.cons.inj hmid
        exact absurd hfails (hcalm event (by simp) e heap' he)
    · obtain ⟨rfl, rfl⟩ := (hfailures event (by simp)).unique hfails
      exact ⟨rfl, rfl, fun event hevent => hfailures event (by simp [hevent])⟩

end PassesUp

/-- An error that is not a throw passes up through every evaluation. -/
def RecordInvariant.passesUp (p : Program) : RecordInvariant (Contract.anything p) where
  holds := PassesUp
  nothing _ _ := .calm .nil
  append := .append
  wrote c v _ := .calm (.wrote c v)
  made _ _ _ _ _ _ _ := .calm (.made _)
  whole id _ _ h := by
    have hbegan : PassesUp [.began id] none {} := .calm (.began id)
    exact hbegan.append trivial (h.ended id)

section
variable {p : Program} {levels : Nat} {root : ExprId} {m m' : Machine} {e : EvalError}

/-- An attempt leaves an error that is not a throw as it is, in any larger program. -/
theorem evalWithin_attempt {p' : Program} {levels' : Nat} {id : ExprId} {node : Node}
    {handlers : Slice Handler} (hp : p.PartOf p') (hle : levels < levels')
    (hnode : p'.arena.node? id = some node) (hkind : node.kind = .attempt root handlers)
    (he : e.Uncaught) (h : p.evalWithin levels root m = .error (.error e) m') :
    p'.evalWithin levels' id m = .error (.error e) m' := by
  obtain ⟨levels', rfl⟩ : ∃ k, levels' = k + 1 := ⟨levels' - 1, by omega⟩
  have hread : Program.ReadIn (fun _ => True) p p' := ⟨hp, .inl trivial⟩
  have hbody : p'.evalWithin levels' root m = .error (.error e) m' := by
    rcases hread.evalWithin_agrees trivial (Nat.le_of_lt_succ hle) root m with
      ⟨f, m₁, hfault, -⟩ | heq
    · cases hfault.symm.trans h
    · exact heq.trans h
  rw [Program.evalWithin, evalStep, hnode, EvalM.bind_ok (EvalM.require_some _ m), hkind, evalKind,
    evalAttempt, hbody]
  cases e with
  | thrown v => exact he.elim
  | _ => rfl

variable (hlimit : p.maxCallDepth < UInt64.size)
include hlimit

theorem evalWithin_of_failed {before after : List Event} {id : ExprId} {m₁ : Machine}
    (he : e.Uncaught) (hlog : (p.recordedWithin levels root).log m =
      before ++ .ended id (.error (.error e) m₁) :: after) :
    p.evalWithin levels root m = .error (.error e) ⟨m₁.heap, m.env, m.callDepth⟩ ∧
      ∀ event ∈ after, event.Fails e m₁.heap := by
  have hpasses : PassesUp ((p.recordedWithin levels root).log m)
      (stop? (p.evalWithin levels root m)) (finalHeap (p.evalWithin levels root m)) :=
    (RecordInvariant.passesUp p).holds_log hlimit trivial fun _ _ => trivial
  rw [hlog] at hpasses
  obtain ⟨hstop, hheap, hafter⟩ := hpasses.ends ⟨id, m₁.env, m₁.callDepth, rfl⟩ he
  refine ⟨?_, hafter⟩
  have hstays := evalWithin_staysIn hlimit levels root m
  cases hr : p.evalWithin levels root m with
  | ok v m₂ => rw [hr] at hstop; cases hstop
  | error stop m₂ =>
    rw [hr] at hstop hheap hstays
    cases hstop
    obtain ⟨heap, env, depth⟩ := m₂
    obtain ⟨rfl, rfl⟩ := hstays
    obtain rfl : heap = m₁.heap := hheap
    rfl

/-- Whichever node's evaluation ends in an error that is not a throw, the whole evaluation ends in
this error, on the heap of that moment, and nothing happens in between but that other evaluations
end so too. So an attempt around a fragment leaves such an error and its heap as they are. -/
theorem uncaught_ends (levels : Nat) (root : ExprId) (m : Machine) :
    (p.recordedWithin levels root).run = p.evalWithin levels root ∧
    (∀ before id e m₁ after, e.Uncaught →
      (p.recordedWithin levels root).log m = before ++ .ended id (.error (.error e) m₁) :: after →
      p.evalWithin levels root m = .error (.error e) ⟨m₁.heap, m.env, m.callDepth⟩ ∧
        ∀ event ∈ after, event.Fails e m₁.heap) ∧
    ∀ p' id node handlers e m', p.PartOf p' → p'.arena.node? id = some node →
      node.kind = .attempt root handlers → e.Uncaught →
      (∀ levels', levels < levels' → p.evalWithin levels root m = .error (.error e) m' →
        p'.evalWithin levels' id m = .error (.error e) m') ∧
      (p.arena.size < p'.arena.size → p.eval root m = .error (.error e) m' →
        p'.eval id m = .error (.error e) m') := by
  refine ⟨p.run_recordedWithin levels root, fun before id e m₁ after he hlog => ?_,
    fun p' id node handlers e m' hp hnode hkind he => ⟨fun levels' hle h => ?_, fun hsize h => ?_⟩⟩
  · exact evalWithin_of_failed hlimit he hlog
  · exact evalWithin_attempt hp hle hnode hkind he h
  · refine evalWithin_attempt hp ?_ hnode hkind he h
    rw [Program.levels, Program.levels, hp.maxCallDepth]
    exact Nat.add_lt_add_right (Nat.mul_lt_mul_of_pos_left hsize (Nat.succ_pos _)) _

end

/-- An attempt at a throw, with a handler whose filter refers to an unbound variable and one that
takes everything, in an attempt whose handler takes everything. -/
def undefinedFilter : Program where
  arena := {
    nodes := #[⟨.int 1, ⟨0, 1⟩⟩, ⟨.throw ⟨0⟩, ⟨0, 2⟩⟩, ⟨.var ⟨0⟩, ⟨3, 4⟩⟩,
      ⟨.attempt ⟨1⟩ ⟨0, 2⟩, ⟨0, 5⟩⟩, ⟨.attempt ⟨3⟩ ⟨1, 1⟩, ⟨0, 6⟩⟩]
    handlerEntries := #[⟨none, ⟨0⟩, some ⟨2⟩⟩, ⟨none, ⟨0⟩, none⟩]
    names := #["x"] }
  pool := {}
  maxCallDepth := defaultCallDepth

/-- The error of the filter is what both attempts end in. -/
theorem uncaught_ends_undefinedFilter :
    defaultCallDepth < UInt64.size ∧
    (∃ before m₁ after, (undefinedFilter.recordedWithin 5 ⟨3⟩).log (.start {}) =
      before ++ .ended ⟨2⟩ (.error (.error (.undefinedVariable "x")) m₁) :: after) ∧
    undefinedFilter.evalWithin 5 ⟨3⟩ (.start {}) =
      .error (.error (.undefinedVariable "x")) (.start {}) ∧
    undefinedFilter.evalWithin 6 ⟨4⟩ (.start {}) =
      .error (.error (.undefinedVariable "x")) (.start {}) := by
  have hlimit : undefinedFilter.maxCallDepth < UInt64.size := by decide
  obtain ⟨-, hends, hattempt⟩ := uncaught_ends hlimit 5 ⟨3⟩ (.start {})
  have hlog : (undefinedFilter.recordedWithin 5 ⟨3⟩).log (.start {}) =
      [.began ⟨3⟩, .began ⟨1⟩, .began ⟨0⟩, .ended ⟨0⟩ (.ok (.int 1) (.start {})),
        .ended ⟨1⟩ (.error (.error (.thrown (.int 1))) (.start {})), .began ⟨2⟩] ++
      .ended ⟨2⟩ (.error (.error (.undefinedVariable "x")) ⟨{}, Environment.push {}, 0⟩) ::
      [.ended ⟨3⟩ (.error (.error (.undefinedVariable "x")) (.start {}))] := rfl
  obtain ⟨heval, -⟩ := hends _ _ (.undefinedVariable "x") _ _ trivial hlog
  have hnode : undefinedFilter.arena.node? ⟨4⟩ = some ⟨.attempt ⟨3⟩ ⟨1, 1⟩, ⟨0, 6⟩⟩ := rfl
  obtain ⟨hlevels, -⟩ := hattempt undefinedFilter ⟨4⟩ _ _ (.undefinedVariable "x") (.start {})
    (.refl _) hnode rfl trivial
  exact ⟨hlimit, ⟨_, _, _, hlog⟩, heval, hlevels 6 (by decide) heval⟩

end Quotation
