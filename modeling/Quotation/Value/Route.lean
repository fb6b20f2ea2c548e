import Quotation.Fault

/-!
# Routes

A merged list of variables sends each of its positions to a position of its first or of its second
source. The routing table holds routes as integers: `i` for position `i` of the first source and
`-1 - i` for position `i` of the second.
-/

namespace Quotation

inductive Route where
  | first (index : Nat)
  | second (index : Nat)
  deriving DecidableEq, Repr

namespace Route

/-- One more than the largest index that has a code. -/
def limit : Nat := UInt64.size / 2

/-- Indices above the largest 64-bit integer have no code. -/
def encode : Route → Except Fault Int64
  | first i => if i < limit then .ok (Int64.ofNat i) else .error (.routeTooFar i)
  | second i => if i < limit then .ok (-1 - Int64.ofNat i) else .error (.routeTooFar i)

/-- Every integer is a code. -/
def decode (raw : Int64) : Route :=
  if 0 ≤ raw then first raw.toNatClampNeg else second (-1 - raw).toNatClampNeg

end Route

end Quotation
