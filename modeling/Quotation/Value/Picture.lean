import Quotation.Heap

/-!
# Debug text

The text of a value shows the cells that the value holds with what is in them. A cell may lead back
to itself, so a cell that is already being shown further up is shown as locked. A `Picture` is what
is to be shown, as a finite tree that still knows its cells; `Picture.render` is its text.
-/

namespace Quotation

inductive Picture where
  | text (s : String)
  | append (p q : Picture)
  /-- A cell and what it holds. -/
  | cell (c : Cell) (content : Picture)
  /-- A cell that is being shown further up. -/
  | locked (c : Cell)
  /-- Entries that have no order of their own, shown in some order. They are drawn only when the
  text is wanted. -/
  | unordered (p : Unit → Picture)
  deriving Inhabited

namespace Picture

instance : Append Picture := ⟨append⟩
instance : Coe String Picture := ⟨text⟩

def render : Picture → String
  | text s => s
  | append p q => p.render ++ q.render
  | cell _ content => "StrongBox(" ++ content.render ++ ")"
  | locked _ => "StrongBox(<locked>)"
  | unordered p => (p ()).render

/-- The text says the same whatever order is chosen. -/
def isOrdered : Picture → Bool
  | text _ => true
  | append p q => p.isOrdered && q.isOrdered
  | cell _ content => content.isOrdered
  | locked _ => true
  | unordered _ => false

/-- The items with commas between them. -/
def separated : List Picture → Picture
  | [] => ""
  | p :: ps => ps.foldl (fun shown q => shown ++ ((", " : Picture) ++ q)) p

def list (items : List Picture) : Picture :=
  ("[" : Picture) ++ separated items ++ ("]" : Picture)

end Picture

/-! ## Values -/

section
variable (ofCell : Cell → Picture)

def routingPicture (routing : Array Int64) : Picture :=
  .list (routing.toList.map fun r => .text (toString r.toInt))

def CellList.picture : CellList → Picture
  | .direct _ cells =>
    ("BoxedVariables \x7b boxes: " : Picture) ++ .list (cells.toList.map ofCell) ++
      (" \x7d" : Picture)
  | .merged _ first second routing =>
    ("MergedRuntimeVariables \x7b first: " : Picture) ++ first.picture ++
      (", second: " : Picture) ++ second.picture ++
      (", routing: " : Picture) ++ routingPicture routing ++ (" \x7d" : Picture)

def Scope.picture (s : Scope) : Picture :=
  if s.isEmpty then "\x7b\x7d"
  else .unordered fun _ =>
    let entries := s.entries.map fun e => (s!"{e.1}: " : Picture) ++ ofCell e.2
    ("\x7b" : Picture) ++ .separated entries ++ ("\x7d" : Picture)

def Closure.picture (f : Closure) : Picture :=
  let name := match f.name with
    | some v => s!"Some({v})"
    | none => "None"
  ("FunctionValue \x7b name: " : Picture) ++ (name : Picture) ++
    (", params: " : Picture) ++ .list (f.params.map fun v => .text (toString v)) ++
    (s!", body: {f.body}, captures: " : Picture) ++ f.captures.picture ofCell ++ (" \x7d" : Picture)

def Builtin.debugName : Builtin → String
  | mergeVariables => "MergeRuntimeVariables"

def Value.picture : Value → Picture
  | unit => "Unit"
  | int n => s!"Int({n.toInt})"
  | bool b => s!"Bool({b})"
  | function f => ("Function(" : Picture) ++ f.picture ofCell ++ (")" : Picture)
  | cell c => ("Cell(" : Picture) ++ ofCell c ++ (")" : Picture)
  | cellList l => ("Variables(" : Picture) ++ l.picture ofCell ++ (")" : Picture)
  | routing codes => ("Routing(" : Picture) ++ routingPicture codes ++ (")" : Picture)
  | builtin b => s!"Builtin({b.debugName})"

end

namespace Heap

/-- The picture of a cell under the cells that are open. Each cell that it opens is a new one, so
more levels than the heap has cells are not needed. -/
def cellPicture (h : Heap) : Nat → List Cell → Cell → Picture
  | 0, _, c => .locked c
  | levels + 1, opened, c =>
    if c ∈ opened then .locked c
    else .cell c ((h.read c).picture (h.cellPicture levels (c :: opened)))

def picture (h : Heap) (v : Value) : Picture :=
  v.picture (h.cellPicture (h.cells.size + 1) [])

/-- The text of a value; there is none if it would hang on the order of a function's captures. -/
def debugText (h : Heap) (v : Value) : Option String :=
  let picture := h.picture v
  if picture.isOrdered then some picture.render else none

end Heap

end Quotation
