import Quotation.Value.Basic

/-!
# The constant pool

Values that fragments refer to by index. The pool never merges equal values: a constant that holds a
cell is that cell.
-/

namespace Quotation

structure Pool where
  values : Array Value := #[]
  deriving DecidableEq, Inhabited, Repr

namespace Pool

def size (p : Pool) : Nat := p.values.size

def get? (p : Pool) (c : ConstantId) : Option Value := p.values[c.index]?

def push (p : Pool) (v : Value) : Except Fault (ConstantId × Pool) :=
  if p.values.size < indexLimit then .ok (⟨p.values.size⟩, { p with values := p.values.push v })
  else .error (.tableFull .constants p.values.size)

end Pool

end Quotation
