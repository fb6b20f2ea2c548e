import Quotation.Value.Scope

/-!
# Environments

An environment is a stack of scopes that is never empty: variables are bound in the innermost scope
and looked up from there outwards. It knows its depth without counting, since every scope that is
opened and closed asks for it.
-/

namespace Quotation

structure Environment where
  innermost : Scope
  /-- The enclosing scopes, from the inside out. -/
  outer : List Scope
  outerDepth : Nat
  outerDepth_eq : outerDepth = outer.length
  deriving DecidableEq, Repr

namespace Environment

/-- The environment of a function body: the captured cells, and nothing around them. -/
def ofCaptures (captures : Scope) : Environment := ⟨captures, [], 0, rfl⟩

instance : EmptyCollection Environment := ⟨ofCaptures {}⟩

instance : Inhabited Environment := ⟨{}⟩

def scopes (e : Environment) : List Scope := e.innermost :: e.outer

def depth (e : Environment) : Nat := e.outerDepth + 1

theorem depth_eq_length (e : Environment) : e.depth = e.scopes.length := by
  simp [depth, scopes, e.outerDepth_eq]

def push (e : Environment) : Environment where
  innermost := {}
  outer := e.scopes
  outerDepth := e.depth
  outerDepth_eq := e.depth_eq_length

/-- The outermost scope stays. -/
def pop : Environment → Environment
  | ⟨innermost, [], depth, h⟩ => ⟨innermost, [], depth, h⟩
  | ⟨_, s :: outer, depth, h⟩ => ⟨s, outer, depth - 1, by simp [h]⟩

def define (e : Environment) (v : VarId) (c : Cell) : Environment :=
  { e with innermost := e.innermost.insert v c }

def lookup (e : Environment) (v : VarId) : Option Cell :=
  e.scopes.findSome? (·.find? v)

@[simp] theorem pop_push (e : Environment) : e.push.pop = e := rfl

@[simp] theorem depth_push (e : Environment) : e.push.depth = e.depth + 1 := rfl

@[simp] theorem depth_define (e : Environment) (v : VarId) (c : Cell) :
    (e.define v c).depth = e.depth := rfl

theorem lookup_define (e : Environment) (v w : VarId) (c : Cell) :
    (e.define v c).lookup w = if v = w then some c else e.lookup w := by
  by_cases h : v = w <;> simp [lookup, define, scopes, List.findSome?_cons, Scope.find?_insert, h]

@[simp] theorem lookup_push (e : Environment) (v : VarId) : e.push.lookup v = e.lookup v := rfl

/-- Every visible binding. The scopes are merged from the outside in, since merging a small scope
into a large one is cheap. -/
def capture (e : Environment) : Scope :=
  e.scopes.foldr Scope.union {}

theorem find?_capture (e : Environment) (v : VarId) : e.capture.find? v = e.lookup v := by
  unfold capture lookup
  induction e.scopes with
  | nil => rfl
  | cons s ss ih => cases h : s.find? v <;> simp [ih, h]

end Environment

end Quotation
