import Quotation.Index

/-!
# Faults

A fault ends whatever was being done: an index or a slice outside its table, a table or a list that
has outgrown its index, a scope that is closed without being open, a captured variable without a
cell, or a fragment that names what does not exist. `Fault.message` words each of them; an index
outside its table has no words.
-/

namespace Quotation

/-- The tables that are indexed by position. -/
inductive Table where
  | expressions | names | exprEntries | varEntries | handlers | constants
  deriving DecidableEq, Repr

def Table.name : Table → String
  | expressions => "expressions"
  | names => "variables"
  | exprEntries => "expression list entries"
  | varEntries => "variable list entries"
  | handlers => "catch handlers"
  | constants => "constants"

/-- The lists that slices describe. -/
inductive ListKind where
  | exprs | vars | handlers
  deriving DecidableEq, Repr

/-- What the entries of the list are called when there are too many of them. -/
def ListKind.entries : ListKind → String
  | exprs => "list elements"
  | vars => "variables"
  | handlers => "catch handlers"

/-- The name of the list's slices. -/
def ListKind.label : ListKind → String
  | exprs => "ExprRange"
  | vars => "VarRange"
  | handlers => "CatchRange"

/-- The name of the table that the list's slices index. -/
def ListKind.table : ListKind → String
  | exprs => "expr_lists"
  | vars => "var_lists"
  | handlers => "catches"

/-- Why a captured variable has no cell. -/
inductive Unresolved where
  /-- The frame gives the variable a slot that the storage beside it does not have. -/
  | slotMissing (slot : Nat)
  /-- No frame of the chain has the variable. -/
  | notInChain
  /-- There are more frames than storages, and the storages ended first. -/
  | storageEnded
  deriving DecidableEq, Repr

def Unresolved.detail : Unresolved → String
  | slotMissing slot => s!"maps to slot {slot}, past the end of its storage"
  | notInChain => "is not hoisted by any enclosing frame"
  | storageEnded => "outlived the storage chain while walking parent frames"

/-- What a node names that does not exist, with the size of the table it would be in. -/
inductive Defect where
  | node (size : Nat)
  | constant (c : ConstantId) (size : Nat)
  | undeclared (v : VarId) (count : Nat)
  | slice (list : ListKind) (start len size : Nat)
  deriving DecidableEq, Repr

def Defect.message (id : ExprId) : Defect → String
  | node size => s!"{id} out of bounds (arena has {size} nodes)"
  | constant c size => s!"{id} references {c} but pool has {size} entries"
  | undeclared v count => s!"{id} references undeclared {v} ({count} declared)"
  | slice list start len size =>
    let slice := (Slice.mk start len : Slice ExprId).text list.label
    s!"{id} has {slice} past the end of {list.table} ({size})"

/-- The two stacks of scopes that are opened and closed in pairs. -/
inductive ScopeStack where
  | declarations | environment
  deriving DecidableEq, Repr

def ScopeStack.leftOpen : ScopeStack → String
  | declarations => "shadow scopes left open"
  | environment => "scope left open"

inductive Fault where
  /-- An index or a slice outside its table. -/
  | outOfBounds
  | tableFull (table : Table) (size : Nat)
  | listTooLong (list : ListKind) (length : Nat)
  /-- The end of a slice is past what an index can hold. -/
  | sliceEnd
  | routeTooFar (index : Nat)
  | noOpenScope
  | scopeLeftOpen (stack : ScopeStack) (depth expected : Nat)
  | unresolved (name : String) (v : VarId) (why : Unresolved)
  | invalid (id : ExprId) (defect : Defect)
  /-- A walk deeper than any walk that ends. -/
  | endless
  deriving DecidableEq, Repr

/-- The words of a fault, if it has any. -/
def Fault.message : Fault → Option String
  | outOfBounds => none
  | tableFull table size => some s!"too many {table.name}: {size} exceeds u32::MAX"
  | listTooLong list length => some s!"too many {list.entries}: {length} exceeds u16::MAX"
  | sliceEnd => some "attempt to add with overflow"
  | routeTooFar index => some s!"route index {index} exceeds i64::MAX"
  | noOpenScope => some "exit_scope called with no open scope"
  | scopeLeftOpen stack depth expected => some <|
    s!"assertion `left == right` failed: {stack.leftOpen}\n  left: {depth}\n right: {expected}"
  | unresolved name v why =>
    some s!"internal invariant violated: captured variable `{name}` ({v}) {why.detail}"
  | invalid id defect => some (defect.message id)
  | endless => some "the walk does not end"

/-- The text of a slice, whose end has to be an index. -/
def Slice.describe {α : Type} (s : Slice α) (list : ListKind) : Except Fault String :=
  if s.stop < indexLimit then .ok (s.text list.label) else .error .sliceEnd

end Quotation
