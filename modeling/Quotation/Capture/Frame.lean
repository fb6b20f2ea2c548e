import Quotation.Heap

/-!
# Frames and storages

A scope whose variables are captured keeps them in cells. A frame says which of its variables a
scope keeps so and in which slots; a storage holds the cells of one activation of the scope. Both
form chains, here lists from the inside out, and the two chains are walked side by side.
-/

namespace Quotation

structure Frame where
  /-- The variables that have cells, in slot order. -/
  vars : List VarId
  deriving DecidableEq, Inhabited, Repr

/-- A variable that is listed twice has its first slot. -/
def Frame.slot? (f : Frame) (v : VarId) : Option Nat := f.vars.idxOf? v

structure Storage where
  cells : Array Cell
  deriving DecidableEq, Inhabited, Repr

namespace Storage

/-- A storage of new cells, each holding unit, for the variables of a frame. -/
def ofFrame (f : Frame) (h : Heap) : Storage × Heap :=
  let start := h.cells.size
  let count := f.vars.length
  (⟨(Array.range count).map fun i => ⟨start + i⟩⟩,
    { h with cells := h.cells ++ Array.replicate count .unit })

def cell? (s : Storage) (slot : Nat) : Option Cell := s.cells[slot]?

end Storage

/-- The cell of `v`: the innermost frame that has the variable says in which slot of the storage
beside it the cell is. -/
def resolve (v : VarId) : List Frame → List Storage → Except Unresolved Cell
  | [], _ => .error .notInChain
  | _ :: _, [] => .error .storageEnded
  | f :: frames, s :: storages =>
    match f.slot? v with
    | some slot =>
      match s.cell? slot with
      | some c => .ok c
      | none => .error (.slotMissing slot)
    | none => resolve v frames storages

end Quotation
