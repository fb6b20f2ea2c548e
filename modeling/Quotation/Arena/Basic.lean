import Quotation.Node
import Quotation.Fault

/-!
# Arenas

An arena holds the nodes of all fragments, the flat tables that their lists are slices of, and the
names of the declared variables. It only ever grows: `Builder` is the monad of the operations that
add to it, and each of them answers with the index or the slice under which the new entries are
found.
-/

namespace Quotation

structure Arena where
  nodes : Array Node := #[]
  exprEntries : Array ExprId := #[]
  varEntries : Array VarId := #[]
  handlerEntries : Array Handler := #[]
  /-- What each variable was declared as, for messages and traces only. -/
  names : Array String := #[]
  deriving DecidableEq, Inhabited, Repr

namespace Arena

/-! ## Reading -/

def size (a : Arena) : Nat := a.nodes.size

def node? (a : Arena) (id : ExprId) : Option Node := a.nodes[id.index]?

def exprs? (a : Arena) (s : Slice ExprId) : Option (List ExprId) := s.read? a.exprEntries

def vars? (a : Arena) (s : Slice VarId) : Option (List VarId) := s.read? a.varEntries

def handlers? (a : Arena) (s : Slice Handler) : Option (List Handler) := s.read? a.handlerEntries

def name? (a : Arena) (v : VarId) : Option String := a.names[v.index]?

end Arena

/-- What is traced: a setting of the surroundings, and nothing unless it is turned on. A trace looks
up the names of what it shows. -/
class Tracing where
  /-- Calls of functions are traced. -/
  calls : Bool
  /-- Captured variables are traced as they are given their cells. -/
  captures : Bool

instance Tracing.off : Tracing := ⟨false, false⟩

abbrev Tracing.on : Tracing := ⟨true, true⟩

/-! ## Adding -/

/-- The index of the next entry of a table that has `size` entries. -/
def nextIndex (table : Table) (size : Nat) : Except Fault Nat :=
  if size < indexLimit then .ok size else .error (.tableFull table size)

/-- The slice that a list of `length` entries takes at the end of a table of `size` entries. -/
def nextSlice {α : Type} (table : Table) (list : ListKind) (size length : Nat) :
    Except Fault (Slice α) := do
  let start ← nextIndex table size
  if length < sliceLimit then return ⟨start, length⟩ else throw (.listTooLong list length)

abbrev Builder := StateT Arena (Except Fault)

namespace Builder

/-- What is read must be there. -/
def require {α : Type} : Option α → Builder α
  | some a => pure a
  | none => throw .outOfBounds

def node (id : ExprId) : Builder Node := do
  require ((← get).node? id)

def exprs (s : Slice ExprId) : Builder (List ExprId) := do
  require ((← get).exprs? s)

def vars (s : Slice VarId) : Builder (List VarId) := do
  require ((← get).vars? s)

def handlers (s : Slice Handler) : Builder (List Handler) := do
  require ((← get).handlers? s)

def add (kind : Kind) (span : Span) : Builder ExprId := fun a => do
  let index ← nextIndex .expressions a.nodes.size
  return (⟨index⟩, { a with nodes := a.nodes.push ⟨kind, span⟩ })

/-- A new variable, whatever has been declared under that name before. -/
def declare (name : String) : Builder VarId := fun a => do
  let index ← nextIndex .names a.names.size
  return (⟨index⟩, { a with names := a.names.push name })

def addExprs (xs : List ExprId) : Builder (Slice ExprId) := fun a => do
  let slice ← nextSlice .exprEntries .exprs a.exprEntries.size xs.length
  return (slice, { a with exprEntries := a.exprEntries ++ xs })

/-- The variables in order, duplicates included. -/
def addVars (vs : List VarId) : Builder (Slice VarId) := fun a => do
  let slice ← nextSlice .varEntries .vars a.varEntries.size vs.length
  return (slice, { a with varEntries := a.varEntries ++ vs })

/-- The variables in the order of their first occurrences, each of them once. -/
def addVarSet (vs : List VarId) : Builder (Slice VarId) :=
  addVars vs.eraseDups

def addHandlers (hs : List Handler) : Builder (Slice Handler) := fun a => do
  let slice ← nextSlice .handlers .handlers a.handlerEntries.size hs.length
  return (slice, { a with handlerEntries := a.handlerEntries ++ hs })

end Builder

end Quotation
