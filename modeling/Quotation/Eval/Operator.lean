import Quotation.Eval.Error

/-!
# Binary operators

Equality compares any two values; the other operators take integers and refuse a result that does
not fit into 64 bits.
-/

namespace Quotation

/-- The word of an integer that fits into one. -/
def word? (n : Int) : Option Int64 :=
  if Int64.minValue.toInt ≤ n ∧ n ≤ Int64.maxValue.toInt then some (Int64.ofInt n) else none

namespace BinaryOp

def arithmetic (op : BinaryOp) (n : Int) : Except EvalError Value :=
  match word? n with
  | some w => .ok (.int w)
  | none => .error (.integerOverflow op)

/-- The operator on integers. -/
def applyInts (op : BinaryOp) (m n : Int64) : Except EvalError Value :=
  match op with
  | add => op.arithmetic (m.toInt + n.toInt)
  | sub => op.arithmetic (m.toInt - n.toInt)
  | mul => op.arithmetic (m.toInt * n.toInt)
  | lt => .ok (.bool (m < n))
  | eq => .ok (.bool (m == n))

def apply (op : BinaryOp) (left right : Value) : Except EvalError Value :=
  match op, left, right with
  | eq, _, _ => .ok (.bool (left.same right))
  | _, .int m, .int n => op.applyInts m n
  | _, .int _, _ => .error (.typeMismatch .int right.type)
  | _, _, _ => .error (.typeMismatch .int left.type)

end BinaryOp

end Quotation
