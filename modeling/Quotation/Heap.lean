import Quotation.Value.Basic

/-!
# The heap

The heap holds the contents of all cells and hands out the stamps of functions and lists. Lists of
variables are read and written through it.
-/

namespace Quotation

structure Heap where
  cells : Array Value := #[]
  nextStamp : Stamp := 0
  deriving DecidableEq, Inhabited, Repr

/-- A position past the end of a list of variables. -/
structure RangeError where
  index : Nat
  count : Nat
  deriving DecidableEq, Inhabited, Repr

def RangeError.message (e : RangeError) : String :=
  s!"index {e.index} out of range for runtime variables of length {e.count}"

namespace CellList

/-- The cell at a position, found by following the routes. -/
def locate : CellList → Nat → Except RangeError Cell
  | direct _ cells, i =>
    match cells[i]? with
    | some c => .ok c
    | none => .error ⟨i, cells.size⟩
  | merged _ first second routing, i =>
    match routing[i]? with
    | some raw =>
      match Route.decode raw with
      | .first j => first.locate j
      | .second j => second.locate j
    | none => .error ⟨i, routing.size⟩

end CellList

namespace Heap

/-- A cell that no heap has made holds unit. -/
def read (h : Heap) (c : Cell) : Value := h.cells[c.index]?.getD .unit

def write (h : Heap) (c : Cell) (v : Value) : Heap :=
  { h with cells := h.cells.setIfInBounds c.index v }

/-- A new cell that holds `v`. -/
def newCell (h : Heap) (v : Value) : Cell × Heap :=
  (⟨h.cells.size⟩, { h with cells := h.cells.push v })

def newStamp (h : Heap) : Stamp × Heap :=
  (h.nextStamp, { h with nextStamp := h.nextStamp + 1 })

theorem read_write {h : Heap} {c : Cell} (hc : c.index < h.cells.size) (v : Value) (d : Cell) :
    (h.write c v).read d = if c = d then v else h.read d := by
  obtain ⟨i⟩ := c
  obtain ⟨j⟩ := d
  by_cases hij : i = j
  · subst hij
    simp_all [read, write]
  · simp [read, write, hij]

@[simp] theorem read_newCell_self (h : Heap) (v : Value) :
    (h.newCell v).2.read (h.newCell v).1 = v := by
  simp [read, newCell]

/-- A cell that no heap has made cannot be written. -/
theorem read_write_eq (h : Heap) (c : Cell) (v : Value) (d : Cell) :
    (h.write c v).read d = if c = d ∧ c.index < h.cells.size then v else h.read d := by
  by_cases hc : c.index < h.cells.size
  · simp [read_write hc, hc]
  · have hsame : h.write c v = h := by
      rw [write, Array.setIfInBounds_eq_of_size_le (Nat.le_of_not_lt hc)]
    simp [hsame, hc]

theorem read_append (h : Heap) (vs : List Value) (c : Cell) :
    ({ h with cells := h.cells ++ vs } : Heap).read c =
      if c.index < h.cells.size then h.read c
      else (vs[c.index - h.cells.size]?).getD .unit := by
  have hlist : h.cells ++ vs = h.cells ++ vs.toArray := Array.ext' (by simp)
  rw [read, hlist, Array.getElem?_append]
  split
  · rfl
  · rw [List.getElem?_toArray]

theorem ext_of_read {h h' : Heap} (hsize : h'.cells.size = h.cells.size)
    (hstamp : h'.nextStamp = h.nextStamp) (hread : ∀ c, h'.read c = h.read c) : h' = h := by
  obtain ⟨cells, stamp⟩ := h
  obtain ⟨cells', stamp'⟩ := h'
  obtain rfl : stamp' = stamp := hstamp
  have hcells : cells' = cells := by
    refine Array.ext hsize fun i hi hi' => ?_
    simpa [read, hi, hi'] using hread ⟨i⟩
  rw [hcells]

/-- What the variable at position `i` holds. -/
def readAt (h : Heap) : CellList → Nat → Except RangeError Value
  | .direct _ cells, i =>
    match cells[i]? with
    | some c => .ok (h.read c)
    | none => .error ⟨i, cells.size⟩
  | .merged _ first second routing, i =>
    match routing[i]? with
    | some raw =>
      match Route.decode raw with
      | .first j => h.readAt first j
      | .second j => h.readAt second j
    | none => .error ⟨i, routing.size⟩

/-- The heap after `v` has been written to the variable at position `i`. -/
def writeAt (h : Heap) (v : Value) : CellList → Nat → Except RangeError Heap
  | .direct _ cells, i =>
    match cells[i]? with
    | some c => .ok (h.write c v)
    | none => .error ⟨i, cells.size⟩
  | .merged _ first second routing, i =>
    match routing[i]? with
    | some raw =>
      match Route.decode raw with
      | .first j => h.writeAt v first j
      | .second j => h.writeAt v second j
    | none => .error ⟨i, routing.size⟩

end Heap

end Quotation
