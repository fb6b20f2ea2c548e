import Quotation.Fault

/-!
# Open scopes

While a walk is inside a function, a block or a handler, the variables that these declare hide
captured ones. The open scopes are the sets of declared variables, innermost first.
-/

namespace Quotation

structure OpenScopes where
  scopes : List (List VarId) := []
  deriving DecidableEq, Inhabited, Repr

namespace OpenScopes

/-- Opens a scope that declares exactly `vs`. -/
def enter (o : OpenScopes) (vs : List VarId) : OpenScopes := ⟨vs.eraseDups :: o.scopes⟩

/-- Closes the innermost scope. There has to be one. -/
def exit : OpenScopes → Except Fault OpenScopes
  | ⟨[]⟩ => .error .noOpenScope
  | ⟨_ :: scopes⟩ => .ok ⟨scopes⟩

@[simp] theorem exit_enter (o : OpenScopes) (vs : List VarId) : (o.enter vs).exit = .ok o := rfl

/-- Some open scope declares `v`. -/
def declares (o : OpenScopes) (v : VarId) : Bool := o.scopes.any (·.contains v)

theorem declares_enter (o : OpenScopes) (vs : List VarId) (v : VarId) :
    (o.enter vs).declares v = (vs.contains v || o.declares v) := by
  simp [declares, enter, List.mem_eraseDups]

def depth (o : OpenScopes) : Nat := o.scopes.length

@[simp] theorem depth_enter (o : OpenScopes) (vs : List VarId) :
    (o.enter vs).depth = o.depth + 1 := rfl

end OpenScopes

end Quotation
