import Quotation.Node
import Quotation.Value.Route
import Quotation.Value.Scope

/-!
# Values

What evaluation yields and cells hold. Functions and lists of variables have an identity besides
their contents: the stamp that they were given when they were made. `Value.same` is the equality of
the language, which compares cells, functions and lists by identity and everything else by content.
-/

namespace Quotation

/-- The identity of a function or of a list of variables. -/
abbrev Stamp := Nat

/-- A list of variables, by their cells, that is read and written by position. -/
inductive CellList where
  /-- One cell for each position. -/
  | direct (stamp : Stamp) (cells : Array Cell)
  /-- Two lists behind one index space; the routing table says where each position is. -/
  | merged (stamp : Stamp) (first second : CellList) (routing : Array Int64)
  deriving DecidableEq, Inhabited, Repr

namespace CellList

def stamp : CellList → Stamp
  | direct stamp _ => stamp
  | merged stamp _ _ _ => stamp

def count : CellList → Nat
  | direct _ cells => cells.size
  | merged _ _ _ routing => routing.size

end CellList

/-- A function with the cells of every variable that was visible where it was made. -/
structure Closure where
  stamp : Stamp
  name : Option VarId
  params : List VarId
  body : ExprId
  captures : Scope
  deriving DecidableEq, Inhabited, Repr

inductive Builtin where
  | mergeVariables
  deriving DecidableEq, Inhabited, Repr

namespace Builtin

def name : Builtin → String
  | mergeVariables => "merge_runtime_variables"

def arity : Builtin → Nat
  | mergeVariables => 3

end Builtin

inductive Value where
  | unit
  | int (n : Int64)
  | bool (b : Bool)
  | function (f : Closure)
  | cell (c : Cell)
  | cellList (l : CellList)
  | routing (codes : Array Int64)
  | builtin (b : Builtin)
  deriving DecidableEq, Inhabited, Repr

inductive ValueType where
  | unit | int | bool | function | cell | cellList | routing | builtin
  deriving DecidableEq, Inhabited, Repr

/-- The name by which messages call the type. -/
def ValueType.name : ValueType → String
  | unit => "unit"
  | int => "int"
  | bool => "bool"
  | function => "function"
  | cell => "cell"
  | cellList => "runtime variables"
  | routing => "routing table"
  | builtin => "builtin"

namespace Value

def type : Value → ValueType
  | unit => .unit
  | int _ => .int
  | bool _ => .bool
  | function _ => .function
  | cell _ => .cell
  | cellList _ => .cellList
  | routing _ => .routing
  | builtin _ => .builtin

def same : Value → Value → Bool
  | unit, unit => true
  | int m, int n => m == n
  | bool a, bool b => a == b
  | function f, function g => f.stamp == g.stamp
  | cell c, cell d => c == d
  | cellList l, cellList m => l.stamp == m.stamp
  | routing r, routing s => r == s
  | builtin a, builtin b => a == b
  | _, _ => false

end Value

end Quotation
