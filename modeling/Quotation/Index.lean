/-!
# Indices, slices and spans

Nodes, variables, constants and cells are named by their positions in the tables that hold them. A
list of children is a slice of a flat table, and a span is a stretch of source text.
-/

namespace Quotation

/-- The number of entries that a table can index. -/
def indexLimit : Nat := UInt32.size

/-- One more than the length of the longest list that a slice can describe. -/
def sliceLimit : Nat := UInt16.size

/-- A node, by its position in the arena. -/
structure ExprId where
  index : Nat
  deriving DecidableEq, Inhabited, Repr

/-- A declared variable. Two declarations of one name are two variables. -/
structure VarId where
  index : Nat
  deriving DecidableEq, Inhabited, Repr

/-- A constant, by its position in the pool. -/
structure ConstantId where
  index : Nat
  deriving DecidableEq, Inhabited, Repr

/-- A storage cell, by its position in the heap. -/
structure Cell where
  index : Nat
  deriving DecidableEq, Inhabited, Repr

instance : ToString ExprId := ⟨fun e => s!"ExprId({e.index})"⟩
instance : ToString VarId := ⟨fun v => s!"VarId({v.index})"⟩
instance : ToString ConstantId := ⟨fun c => s!"ConstantId({c.index})"⟩

/-- Consecutive entries of a table of `α`: `len` of them, from `start` on. -/
structure Slice (α : Type) where
  start : Nat
  len : Nat
  deriving DecidableEq, Inhabited, Repr

namespace Slice

variable {α : Type}

def empty : Slice α := ⟨0, 0⟩

def isEmpty (s : Slice α) : Bool := s.len == 0

/-- The position just past the last entry. -/
def stop (s : Slice α) : Nat := s.start + s.len

/-- The entries, if all of them lie in the table. -/
def read? (s : Slice α) (table : Array α) : Option (List α) :=
  if s.stop ≤ table.size then some (table.extract s.start s.stop).toList else none

/-- The slice's text under the name of its kind of list. -/
def text (s : Slice α) (label : String) : String :=
  s!"{label}({s.start}..{s.stop})"

end Slice

/-- A stretch of source text, from `start` up to but without `stop`. -/
structure Span where
  start : Nat
  stop : Nat
  deriving DecidableEq, Inhabited, Repr

namespace Span

/-- The span of nodes that no source text stands for. -/
def nowhere : Span := ⟨0, 0⟩

def isEmpty (s : Span) : Bool := s.stop ≤ s.start

instance : ToString Span := ⟨fun s => s!"{s.start}..{s.stop}"⟩

end Span

end Quotation
