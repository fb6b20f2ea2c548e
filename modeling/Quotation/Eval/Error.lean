import Quotation.Value.Picture

/-!
# Evaluation errors

What an evaluation can end in besides a value. Only `thrown` can be handled by the fragment itself.
-/

namespace Quotation

inductive EvalError where
  | undefinedVariable (name : String)
  | typeMismatch (expected found : ValueType)
  | notCallable (found : ValueType)
  | arityMismatch (expected got : Nat)
  | invalidAssignmentTarget
  | integerOverflow (op : BinaryOp)
  | callDepthExceeded (limit : Nat)
  | thrown (v : Value)
  | outOfRange (e : RangeError)
  deriving DecidableEq, Repr

/-- A thrown value is worded by its debug text, and has no wording without one. -/
def EvalError.message (h : Heap) : EvalError → Option String
  | undefinedVariable name => some s!"undefined variable `{name}`"
  | typeMismatch expected found =>
    some s!"type mismatch: expected {expected.name}, found {found.name}"
  | notCallable found => some s!"value of type {found.name} is not callable"
  | arityMismatch expected got => some s!"expected {expected} arguments, got {got}"
  | invalidAssignmentTarget => some "invalid assignment target"
  | integerOverflow op => some s!"integer overflow in `{op.symbol}`"
  | callDepthExceeded limit => some s!"maximum call depth of {limit} exceeded"
  | thrown v => (h.debugText v).map ("uncaught exception: " ++ ·)
  | outOfRange e => some e.message

end Quotation
