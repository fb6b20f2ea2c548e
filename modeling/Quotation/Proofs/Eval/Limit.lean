import Quotation.Proofs.Eval.Levels
import Quotation.Proofs.Eval.Lockstep
import Quotation.Proofs.Eval.Safety

/-!
# The limit of calls

An evaluation that runs into the limit of calls ends there, in an error that no handler takes; any
other evaluation never comes to the limit. So it makes no difference to it what a call past the
limit does (`evalWithin_calling`), and in particular it ends in the same way under a larger limit
(`eval_limit`).
-/

namespace Quotation

open EvalM

/-- The evaluation has run into a limit of calls. -/
def Overflows : EStateM.Result Stop Machine Value → Prop
  | .error (.error (.callDepthExceeded _)) _ => True
  | _ => False

/-- Given levels enough, the evaluation ends in `r`. -/
def Program.EndsIn (p : Program) (id : ExprId) (m : Machine)
    (r : EStateM.Result Stop Machine Value) : Prop :=
  ∃ levels, p.evalWithin levels id m = r ∧ ∀ m', r ≠ .error (.fault .endless) m'

/-- A call that does as a call of `p` does, unless it is past the limit. -/
def Program.CallsShort (p : Program)
    (call : (ExprId → EvalM Value) → Closure → List Value → EvalM Value) : Prop :=
  ∀ ev f args m, args.length ≠ f.params.length ∨ m.callDepth < p.maxCallDepth →
    call ev f args m = callFunction p ev f args m

/-- Short of the smaller limit it is not noticed that there is a larger one. -/
theorem callsShort_limit {p : Program} {limit : Nat} (hle : p.maxCallDepth ≤ limit) :
    p.CallsShort (callFunction { p with maxCallDepth := limit }) := by
  intro ev f args m hm
  by_cases hlen : args.length = f.params.length
  · have hdepth : m.callDepth < p.maxCallDepth := hm.resolve_left fun hne => hne hlen
    rw [callFunction, callFunction, if_neg (fun hne => hne hlen), if_neg (fun hne => hne hlen)]
    show (if limit ≤ m.callDepth then _ else _ : EvalM Value) m =
      (if p.maxCallDepth ≤ m.callDepth then _ else _ : EvalM Value) m
    rw [if_neg (by omega), if_neg (by omega)]
    rfl
  · rw [callFunction_arity ev hlen, callFunction_arity ev hlen]

theorem Value.within_all (v : Value) : v.Within (fun _ => True) fun _ => True := by
  cases v <;> simp [Within]

/-- All cells and all nodes, on one heap. -/
def Lockstep.everywhere (p : Program) (h : Heap)
    (call : (ExprId → EvalM Value) → Closure → List Value → EvalM Value)
    (hcall : p.CallsShort call) : Lockstep p where
  cells _ := True
  nodes _ := True
  left := h
  right := h
  exact := False
  call := call
  child _ _ := trivial
  constant _ _ := Value.within_all _
  fresh _ := trivial
  call_eq ev f args m hm := hcall ev f args m (hm.resolve_left fun h => h)

/-- An evaluation runs into the limit, or it ends in the same way whatever is done past the limit.
-/
theorem evalWithin_calling {p : Program} (hlimit : p.maxCallDepth < UInt64.size)
    {call : (ExprId → EvalM Value) → Closure → List Value → EvalM Value}
    (hcall : p.CallsShort call) (levels : Nat) (root : ExprId) (m : Machine) :
    Overflows (p.evalWithin levels root m) ∨
      p.evalBy (kindCalling call p) levels root m = p.evalWithin levels root m ∧
        ¬Overflows (p.evalWithin levels root m) := by
  obtain ⟨h, env, depth⟩ := m
  let l := Lockstep.everywhere p h call hcall
  have hstart : l.Heaps h h := ⟨rfl, rfl, Nat.le_refl _,
    fun _ _ => ⟨rfl, Value.within_all _⟩, fun _ hc => absurd trivial hc⟩
  have hsame : ∀ {h₁ h₂ : Heap}, l.Heaps h₁ h₂ → h₂ = h₁ := fun hh =>
    Heap.ext_of_read hh.size hh.stamp fun c => (hh.inside c trivial).1
  have hroot : l.InStep env depth (p.evalWithin levels root)
      (p.evalBy (kindCalling call p) levels root) l.Within :=
    l.evalWithin_inStep hlimit levels trivial fun _ _ _ => trivial
  rcases (hroot h h hstart).cases with ⟨v, h₁, h₂, hh, -, hx, hy⟩ |
    ⟨e, h₁, h₂, hh, he, hx, hy⟩ | ⟨f, h₁, h₂, env', depth', hh, hx, hy⟩ | ⟨h₁, -, hx⟩
  · obtain rfl := hsame hh
    rw [hx]
    exact .inr ⟨hy, fun h => h⟩
  · obtain rfl := hsame hh
    rw [hx]
    refine .inr ⟨hy, ?_⟩
    cases e with
    | callDepthExceeded n => exact False.elim he
    | _ => exact fun h => h
  · obtain rfl := hsame hh
    rw [hx]
    exact .inr ⟨hy, fun h => h⟩
  · rw [hx]
    exact .inl trivial

/-- More calls take more levels. -/
theorem Program.levels_le_limit {p : Program} {limit : Nat} (hle : p.maxCallDepth ≤ limit) :
    p.levels ≤ Program.levels { p with maxCallDepth := limit } := by
  have hmul : (p.maxCallDepth + 1) * p.arena.size ≤ (limit + 1) * p.arena.size :=
    Nat.mul_le_mul_right _ (Nat.succ_le_succ hle)
  rw [levels, levels]
  exact Nat.add_le_add_right hmul _

/-- Under a larger limit an evaluation that does not run into the limit ends in the same way, on the
same heap, and only an evaluation that runs into the limit runs into a larger one; with levels
enough, and so by `eval` unless it has too few. Nothing in a fragment makes another end of the
error: whatever a call past the limit did instead, no evaluation would be different that ends
otherwise. -/
theorem eval_limit {p : Program} (hlimit : p.maxCallDepth < UInt64.size) {limit : Nat}
    (hle : p.maxCallDepth ≤ limit) (id : ExprId) (m : Machine) :
    (∀ r, p.EndsIn id m r → ¬Overflows r →
      Program.EndsIn { p with maxCallDepth := limit } id m r) ∧
    (∀ r, Program.EndsIn { p with maxCallDepth := limit } id m r → Overflows r →
      ∃ r', p.EndsIn id m r' ∧ Overflows r') ∧
    ((∀ m', p.eval id m ≠ .error (.fault .endless) m') →
      (¬Overflows (p.eval id m) →
        Program.eval { p with maxCallDepth := limit } id m = p.eval id m) ∧
      (Overflows (Program.eval { p with maxCallDepth := limit } id m) →
        Overflows (p.eval id m))) ∧
    ∀ call, p.CallsShort call → ∀ levels, ¬Overflows (p.evalWithin levels id m) →
      p.evalBy (kindCalling call p) levels id m = p.evalWithin levels id m := by
  have hraised := fun levels => evalWithin_calling hlimit (callsShort_limit hle) levels id m
  have heval : (∀ m', p.eval id m ≠ .error (.fault .endless) m') → ¬Overflows (p.eval id m) →
      Program.eval { p with maxCallDepth := limit } id m = p.eval id m := by
    intro hends hr
    obtain hover | ⟨hsame, -⟩ := hraised p.levels
    · exact absurd hover hr
    · rw [← evalWithin_limit] at hsame
      obtain ⟨f, m', hend, rfl⟩ | hmore :=
        evalWithin_agrees { p with maxCallDepth := limit } (Program.levels_le_limit hle) id m
      · exact absurd (hsame.symm.trans hend) (hends m')
      · exact hmore.trans hsame
  refine ⟨?_, ?_, fun hends => ⟨heval hends, fun hover => ?_⟩, fun call hcall levels hr => ?_⟩
  · rintro r ⟨levels, rfl, hends⟩ hr
    obtain hover | ⟨hsame, -⟩ := hraised levels
    · exact absurd hover hr
    · exact ⟨levels, by rw [evalWithin_limit, hsame], hends⟩
  · rintro r ⟨levels, rfl, hends⟩ hr
    obtain hover | ⟨hsame, hnot⟩ := hraised levels
    · refine ⟨_, ⟨levels, rfl, fun m' hm' => ?_⟩, hover⟩
      rw [hm'] at hover
      exact hover
    · rw [evalWithin_limit, hsame] at hr
      exact absurd hr hnot
  · by_contra hr
    rw [heval hends hr] at hover
    exact hr hover
  · exact ((evalWithin_calling hlimit hcall levels id m).resolve_left hr).1

/-- The endless call in an attempt that takes everything. -/
def shieldedCall : Arena :=
  { endlessCall with
    nodes := endlessCall.nodes ++ #[⟨.int 0, ⟨13, 14⟩⟩, ⟨.attempt ⟨4⟩ ⟨0, 1⟩, ⟨0, 14⟩⟩]
    handlerEntries := #[⟨none, ⟨5⟩, none⟩] }

/-- A call that is a fault past the limit. -/
def callGuarded (p : Program) (ev : ExprId → EvalM Value) (f : Closure) (args : List Value) :
    EvalM Value := fun m =>
  if args.length = f.params.length ∧ p.maxCallDepth ≤ m.callDepth then
    .error (.fault .noOpenScope) m
  else callFunction p ev f args m

/-- The attempt takes the error under neither limit. The call of a function that answers its
argument ends in the same way under both, and also where there is a fault past the limit. -/
theorem eval_limit_shieldedCall :
    3 < UInt64.size ∧ 3 ≤ 5 ∧
    (∃ r, Program.EndsIn ⟨shieldedCall, {}, 5⟩ ⟨6⟩ (.start {}) r ∧ Overflows r ∧
      ∃ r', Program.EndsIn ⟨shieldedCall, {}, 3⟩ ⟨6⟩ (.start {}) r' ∧ Overflows r') ∧
    ∃ r, Program.evalWithin { functionCall with maxCallDepth := 3 } 4 ⟨3⟩ (.start {}) = r ∧
      ¬Overflows r ∧
      Program.EndsIn { functionCall with maxCallDepth := 5 } ⟨3⟩ (.start {}) r ∧
      Program.evalBy { functionCall with maxCallDepth := 3 }
        (kindCalling (callGuarded { functionCall with maxCallDepth := 3 })
          { functionCall with maxCallDepth := 3 }) 4 ⟨3⟩ (.start {}) = r := by
  have hlimit : 3 < UInt64.size := by decide
  have hle : 3 ≤ 5 := by decide
  obtain ⟨m, hm⟩ : ∃ m, Program.evalWithin ⟨shieldedCall, {}, 5⟩ 20 ⟨6⟩ (.start {}) =
      .error (.error (.callDepthExceeded 5)) m := ⟨_, rfl⟩
  obtain ⟨v, m', hv⟩ : ∃ v m', Program.evalWithin { functionCall with maxCallDepth := 3 } 4 ⟨3⟩
      (.start {}) = .ok v m' := ⟨_, _, rfl⟩
  have hguarded : Program.CallsShort { functionCall with maxCallDepth := 3 }
      (callGuarded { functionCall with maxCallDepth := 3 }) := fun ev f args m hm =>
    if_neg fun hpast => hm.elim (fun hne => hne hpast.1) fun hlt => Nat.not_lt_of_le hpast.2 hlt
  have hshielded := eval_limit (p := ⟨shieldedCall, {}, 3⟩) hlimit hle ⟨6⟩ (.start {})
  have hcall := eval_limit (p := { functionCall with maxCallDepth := 3 }) hlimit hle ⟨3⟩ (.start {})
  have hover : Program.EndsIn ⟨shieldedCall, {}, 5⟩ ⟨6⟩ (.start {})
      (.error (.error (.callDepthExceeded 5)) m) := ⟨20, hm, nofun⟩
  refine ⟨hlimit, hle, ⟨_, hover, trivial, hshielded.2.1 _ hover trivial⟩, .ok v m', hv, fun h => h,
    hcall.1 _ ⟨4, hv, nofun⟩ fun h => h, ?_⟩
  rw [← hv]
  exact hcall.2.2.2 _ hguarded 4 (by rw [hv]; exact fun h => h)

end Quotation
