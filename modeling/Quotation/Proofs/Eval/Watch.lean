import Quotation.Proofs.Eval.Levels
import Quotation.Proofs.Eval.Restore

/-!
# Watched evaluations

A watched evaluation does something else where two lists of a certain kind would be compared. If it
stops there, and comes to an end before, then it has made no such comparison: within more levels,
and watched for less, it ends in the same way (`evalWatched_agrees`).
-/

namespace Quotation

open EvalM

/-- The values are lists whose comparison is watched. -/
def Value.watched (stops : CellList → CellList → Bool) : Value → Value → Bool
  | .cellList m, .cellList n => stops m n
  | _, _ => false

theorem Value.watched_none (v w : Value) : v.watched (fun _ _ => false) w = false := by
  cases v <;> cases w <;> rfl

theorem Value.watched_mono {stops stops' : CellList → CellList → Bool}
    (h : ∀ m n, stops' m n = true → stops m n = true) {v w : Value}
    (hw : v.watched stops' w = true) : v.watched stops w = true := by
  cases v with
  | cellList m =>
    cases w with
    | cellList n => exact h m n hw
    | _ => exact hw
  | _ => cases w <;> exact hw

/-- Does `report` in place of a comparison that is watched. -/
def watchedKind (stops : CellList → CellList → Bool) (report : EvalM Value) (p : Program)
    (ev : ExprId → EvalM Value) : Kind → EvalM Value
  | .binary .eq left right => do
    let left ← ev left
    let right ← ev right
    if left.watched stops right then report else ofExcept (BinaryOp.eq.apply left right)
  | kind => evalKind p ev kind

def Program.evalWatched (p : Program) (stops : CellList → CellList → Bool) (report : EvalM Value) :
    Nat → ExprId → EvalM Value :=
  p.evalBy (watchedKind stops report p)

section
variable (p : Program)

theorem Program.evalWatched_none (report : EvalM Value) :
    p.evalWatched (fun _ _ => false) report = p.evalWithin := by
  have hkind : watchedKind (fun _ _ => false) report p = evalKind p := by
    funext ev kind
    cases kind with
    | binary op left right =>
      cases op with
      | eq => simp [watchedKind, evalKind, Value.watched_none]
      | _ => rfl
    | _ => rfl
  funext levels
  rw [evalWatched, hkind, p.evalWithin_eq_evalBy]

theorem watchedKind_agrees {stops stops' : CellList → CellList → Bool}
    (hstops : ∀ m n, stops' m n = true → stops m n = true) {ev ev' : ExprId → EvalM Value}
    (hev : ∀ id, Agrees (· = .endless) (ev id) (ev' id)) (kind : Kind) :
    Agrees (· = .endless) (watchedKind stops (throw (.fault .endless)) p ev kind)
      (watchedKind stops' (throw (.fault .endless)) p ev' kind) := by
  have hkind := nestedKind_agrees (.refl _ p) hev hev kind
  rw [nestedKind_self, nestedKind_self] at hkind
  cases kind with
  | binary op left right =>
    cases op with
    | eq =>
      refine .bind (hev left) fun v => .bind (hev right) fun w => ?_
      cases hw : v.watched stops w with
      | true => exact fun m => .inl ⟨.endless, m, rfl, rfl⟩
      | false =>
        have hw' : v.watched stops' w = false := Bool.eq_false_iff.2 fun hw' =>
          Bool.noConfusion (hw.symm.trans (Value.watched_mono hstops hw'))
        rw [hw']
        exact .refl _
    | _ => exact hkind
  | _ => exact hkind

theorem evalWatched_agrees {stops stops' : CellList → CellList → Bool}
    (hstops : ∀ m n, stops' m n = true → stops m n = true) {levels levels' : Nat}
    (hle : levels ≤ levels') (id : ExprId) :
    Agrees (· = .endless) (p.evalWatched stops (throw (.fault .endless)) levels id)
      (p.evalWatched stops' (throw (.fault .endless)) levels' id) := by
  induction levels generalizing levels' id with
  | zero => exact fun m => .inl ⟨.endless, m, rfl, rfl⟩
  | succ levels ih =>
    obtain ⟨levels', rfl⟩ : ∃ k, levels' = k + 1 := ⟨levels' - 1, by omega⟩
    refine .bind (.refl _) fun node => ?_
    exact watchedKind_agrees p hstops (fun id => ih (by omega) id) node.kind

end

end Quotation
