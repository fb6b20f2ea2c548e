import Quotation.Proofs.Eval.Run
import Mathlib.Data.List.Forall2

/-!
# Environments as stacks of definitions

An environment is changed by opening a scope, closing the innermost one, and defining a variable
there (`Change`). What it shows after any changes is told by the definitions in the scopes that are
still open (`Definitions`): the latest one in the innermost scope that has one counts
(`lookup_after`). An environment that is made of what another one has captured shows the same
(`lookup_captured`), also where the captured bindings are collected one by one, those of each scope
in any order (`captureIn_eq`).
-/

namespace Quotation

/-! ## Bindings -/

/-- The first cell that a list of bindings has for a variable. -/
def firstCell (es : List (VarId × Cell)) (v : VarId) : Option Cell :=
  (es.find? (·.1 = v)).map (·.2)

@[simp] theorem firstCell_nil (v : VarId) : firstCell [] v = none := rfl

theorem firstCell_cons (e : VarId × Cell) (es : List (VarId × Cell)) (v : VarId) :
    firstCell (e :: es) v = if e.1 = v then some e.2 else firstCell es v := by
  by_cases h : e.1 = v <;> simp [firstCell, h]

theorem firstCell_eq_some_iff {es : List (VarId × Cell)} (hes : es.Pairwise (·.1 ≠ ·.1))
    {v : VarId} {c : Cell} : firstCell es v = some c ↔ (v, c) ∈ es := by
  induction es with
  | nil => simp
  | cons e es ih =>
    obtain ⟨w, d⟩ := e
    obtain ⟨hw, hes⟩ := List.pairwise_cons.1 hes
    rw [firstCell_cons, List.mem_cons, Prod.mk.injEq]
    split
    · rename_i heq
      have heq : w = v := heq
      subst heq
      -- the variable is bound only here
      have hnot : (w, c) ∉ es := fun hmem => hw _ hmem rfl
      simp [hnot, eq_comm]
    · rename_i hne
      have hne : v ≠ w := fun h => hne h.symm
      simp [ih hes, hne]

/-- If each variable has one binding, their order makes no difference. -/
theorem firstCell_perm {es ds : List (VarId × Cell)} (hes : es.Pairwise (·.1 ≠ ·.1))
    (h : ds.Perm es) : firstCell ds = firstCell es := by
  have hds : ds.Pairwise (·.1 ≠ ·.1) := (h.pairwise_iff fun hne => hne.symm).2 hes
  funext v
  refine Option.ext fun c => ?_
  rw [firstCell_eq_some_iff hds, firstCell_eq_some_iff hes, h.mem_iff]

namespace Scope

theorem distinct (s : Scope) : s.entries.Pairwise (·.1 ≠ ·.1) :=
  s.sorted.imp fun hlt heq => Nat.ne_of_lt hlt (congrArg VarId.index heq)

theorem find?_eq_some_iff {s : Scope} {v : VarId} {c : Cell} :
    s.find? v = some c ↔ (v, c) ∈ s.entries :=
  firstCell_eq_some_iff s.distinct

theorem ext_find? {s t : Scope} (h : ∀ v, s.find? v = t.find? v) : s = t := by
  have hnodup : ∀ s : Scope, s.entries.Nodup := fun s =>
    s.distinct.imp fun hne heq => hne (congrArg Prod.fst heq)
  have hperm : s.entries.Perm t.entries := by
    rw [List.perm_ext_iff_of_nodup (hnodup s) (hnodup t)]
    rintro ⟨v, c⟩
    rw [← find?_eq_some_iff, ← find?_eq_some_iff, h]
  have heq : s.entries = t.entries :=
    hperm.eq_of_pairwise (fun _ _ _ _ hlt hgt => absurd hgt (Nat.lt_asymm hlt)) s.sorted t.sorted
  cases s
  cases t
  congr

/-- Adds the bindings in order. What is bound already is left as it is. -/
def fill (s : Scope) (es : List (VarId × Cell)) : Scope :=
  es.foldl (fun s e => if (s.find? e.1).isSome then s else s.insert e.1 e.2) s

theorem find?_fill (s : Scope) (es : List (VarId × Cell)) (v : VarId) :
    (s.fill es).find? v = (s.find? v).or (firstCell es v) := by
  induction es generalizing s with
  | nil => simp [fill]
  | cons e es ih =>
    rw [fill, List.foldl_cons, ← fill, ih, firstCell_cons]
    by_cases hbound : (s.find? e.1).isSome
    · obtain ⟨c, hc⟩ := Option.isSome_iff_exists.1 hbound
      by_cases hv : e.1 = v
      · subst hv
        simp [hc]
      · simp [hbound, hv]
    · have hnone : s.find? e.1 = none := Option.not_isSome_iff_eq_none.1 hbound
      by_cases hv : e.1 = v
      · subst hv
        simp [hnone, find?_insert]
      · simp [hnone, find?_insert, hv]

end Scope

/-! ## Capturing -/

namespace Environment

/-- Every visible binding, collected one by one from the scopes with these entries, the innermost
first. -/
def captureIn (orders : List (List (VarId × Cell))) : Scope :=
  orders.foldl Scope.fill {}

theorem find?_foldl_fill {scopes : List Scope} {orders : List (List (VarId × Cell))}
    (h : List.Forall₂ (fun s es => es.Perm s.entries) scopes orders) (s : Scope) (v : VarId) :
    (orders.foldl Scope.fill s).find? v = (s.find? v).or (scopes.findSome? (·.find? v)) := by
  induction h generalizing s with
  | nil => simp
  | @cons t es _ _ hperm _ ih =>
    have hfirst : firstCell es = t.find? := firstCell_perm t.distinct hperm
    rw [List.foldl_cons, ih, Scope.find?_fill, hfirst, List.findSome?_cons, Option.or_assoc]
    cases t.find? v <;> simp

/-- In whatever order the bindings of each scope come, the same is captured. -/
theorem captureIn_eq {env : Environment} {orders : List (List (VarId × Cell))}
    (h : List.Forall₂ (fun s es => es.Perm s.entries) env.scopes orders) :
    captureIn orders = env.capture := by
  refine Scope.ext_find? fun v => ?_
  rw [captureIn, find?_foldl_fill h, Scope.find?_empty, Option.none_or, find?_capture]
  rfl

theorem lookup_captured (env : Environment) (v : VarId) :
    (ofCaptures env.capture).lookup v = env.lookup v := by
  rw [lookup_ofCaptures, find?_capture]

/-! ## Changes -/

/-- What is done to an environment. -/
inductive Change where
  | push
  | pop
  | define (v : VarId) (c : Cell)
  deriving DecidableEq, Repr

def change (env : Environment) : Change → Environment
  | .push => env.push
  | .pop => env.pop
  | .define v c => env.define v c

def after (env : Environment) (changes : List Change) : Environment :=
  changes.foldl change env

theorem after_append (env : Environment) (cs ds : List Change) :
    env.after (cs ++ ds) = (env.after cs).after ds :=
  List.foldl_append

/-- The definitions in the open scopes, those of one scope the latest first. -/
structure Definitions where
  innermost : List (VarId × Cell)
  /-- Those of the enclosing scopes, from the inside out. -/
  outer : List (List (VarId × Cell))
  deriving DecidableEq, Repr

namespace Definitions

def change : Definitions → Change → Definitions
  | ⟨innermost, outer⟩, .push => ⟨[], innermost :: outer⟩
  | ⟨innermost, []⟩, .pop => ⟨innermost, []⟩
  | ⟨_, next :: outer⟩, .pop => ⟨next, outer⟩
  | ⟨innermost, outer⟩, .define v c => ⟨(v, c) :: innermost, outer⟩

/-- The definitions after some changes, from an environment that is made of captured bindings. -/
def after (captures : Scope) (changes : List Change) : Definitions :=
  changes.foldl change ⟨captures.entries, []⟩

def scopes (d : Definitions) : List (List (VarId × Cell)) := d.innermost :: d.outer

/-- The cell of the latest definition in the innermost scope that has one. -/
def cell? (d : Definitions) (v : VarId) : Option Cell :=
  d.scopes.findSome? (firstCell · v)

/-- In each open scope a variable is bound as the definitions say. -/
def Describe (d : Definitions) (env : Environment) : Prop :=
  List.Forall₂ (fun es (s : Scope) => ∀ v, s.find? v = firstCell es v) d.scopes env.scopes

namespace Describe

variable {d : Definitions} {env : Environment}

theorem change (h : d.Describe env) (c : Change) : (d.change c).Describe (env.change c) := by
  obtain ⟨defs, outerDefs⟩ := d
  obtain ⟨scope, outer, n, hn⟩ := env
  obtain ⟨hinner, houter⟩ := List.forall₂_cons.1 h
  cases c with
  | push => exact .cons (fun _ => rfl) h
  | pop =>
    cases houter with
    | nil => exact h
    | cons hnext hrest => exact .cons hnext hrest
  | define v c =>
    refine .cons (fun w => ?_) houter
    show (scope.insert v c).find? w = firstCell ((v, c) :: defs) w
    rw [Scope.find?_insert, firstCell_cons, hinner]

theorem foldl (h : d.Describe env) (changes : List Change) :
    (changes.foldl Definitions.change d).Describe (env.after changes) := by
  induction changes generalizing d env with
  | nil => exact h
  | cons c cs ih => exact ih (h.change c)

theorem lookup_eq (h : d.Describe env) (v : VarId) : env.lookup v = d.cell? v := by
  have hsome : ∀ {defs scopes},
      List.Forall₂ (fun es (s : Scope) => ∀ v, s.find? v = firstCell es v) defs scopes →
      scopes.findSome? (·.find? v) = defs.findSome? (firstCell · v) := by
    intro defs scopes hall
    induction hall with
    | nil => rfl
    | cons hscope _ ih => rw [List.findSome?_cons, List.findSome?_cons, hscope, ih]
  exact hsome h

theorem depth_eq (h : d.Describe env) : env.depth = d.scopes.length := by
  rw [depth_eq_length, h.length_eq]

end Describe

theorem describe_after (captures : Scope) (changes : List Change) :
    (after captures changes).Describe ((ofCaptures captures).after changes) :=
  Describe.foldl (.cons (fun _ => rfl) .nil) changes

end Definitions

/-- What is defined last in the innermost open scope that defines the variable is found. -/
theorem lookup_after (captures : Scope) (changes : List Change) (v : VarId) :
    ((ofCaptures captures).after changes).lookup v = (Definitions.after captures changes).cell? v :=
  (Definitions.describe_after captures changes).lookup_eq v

/-! ## Scopes that are closed again -/

/-- Each scope that is opened is closed again, and no other is. -/
inductive Balanced : List Change → Prop where
  | nil : Balanced []
  | define (v : VarId) (c : Cell) {cs : List Change} (hcs : Balanced cs) :
    Balanced (.define v c :: cs)
  | scope {cs ds : List Change} (hcs : Balanced cs) (hds : Balanced ds) :
    Balanced (.push :: cs ++ .pop :: ds)

namespace Balanced

variable {cs : List Change}

/-- The enclosing scopes are as they were. -/
theorem outer_after (h : Balanced cs) (env : Environment) : (env.after cs).outer = env.outer := by
  induction h generalizing env with
  | nil => rfl
  | define v c _ ih => exact ih (env.define v c)
  | @scope cs ds _ _ ihcs ihds =>
    have hpop : (env.push.after cs).pop = env := pop_eq (ihcs env.push)
    rw [after_append]
    show (((env.push.after cs).pop).after ds).outer = env.outer
    rw [hpop, ihds]

theorem after_scope (h : Balanced cs) (env : Environment) :
    env.after (.push :: cs ++ [.pop]) = env := by
  rw [after_append]
  exact pop_eq (h.outer_after env.push)

end Balanced

/-- An environment of captured bindings, or none at all, shows after any changes what has been
defined last in the innermost open scope. What it captures then, the bindings of each scope in any
order, makes an environment that shows the same. There is always a scope open, and one that is
closed again after changes inside it has left no trace. -/
theorem captured_is_environment (captures : Scope) (changes : List Change) :
    let env := (ofCaptures captures).after changes
    let defs := Definitions.after captures changes
    (∀ v, (ofCaptures env.capture).lookup v = env.lookup v) ∧
    (∀ orders, List.Forall₂ (fun s es => es.Perm s.entries) env.scopes orders →
      captureIn orders = env.capture) ∧
    (∀ v, env.lookup v = defs.cell? v) ∧
    (1 ≤ env.depth ∧ env.depth = defs.scopes.length) ∧
    ∀ cs, Balanced cs → env.after (.push :: cs ++ [.pop]) = env := by
  intro env defs
  refine ⟨lookup_captured env, fun orders => captureIn_eq, lookup_after captures changes,
    ⟨Nat.le_add_left 1 _, (Definitions.describe_after captures changes).depth_eq⟩,
    fun cs hcs => hcs.after_scope env⟩

/-- `x` and `y` are captured, and `y` is defined twice in a second scope, after another scope has
been closed and the outermost one has stayed. The captured bindings come in the other order. -/
theorem captured_is_environment_definedTwice :
    let env := (ofCaptures (.ofList [(⟨0⟩, ⟨7⟩), (⟨1⟩, ⟨8⟩)])).after
      [.push, .define ⟨0⟩ ⟨9⟩, .pop, .pop, .push, .define ⟨1⟩ ⟨10⟩, .define ⟨1⟩ ⟨11⟩]
    env.lookup ⟨0⟩ = some ⟨7⟩ ∧ env.lookup ⟨1⟩ = some ⟨11⟩ ∧
    captureIn [[(⟨1⟩, ⟨11⟩)], [(⟨1⟩, ⟨8⟩), (⟨0⟩, ⟨7⟩)]] = env.capture ∧
    env.after [.push, .define ⟨0⟩ ⟨12⟩, .pop] = env := by
  intro env
  obtain ⟨-, horders, hlookup, -, hbalanced⟩ := captured_is_environment
    (.ofList [(⟨0⟩, ⟨7⟩), (⟨1⟩, ⟨8⟩)])
    [.push, .define ⟨0⟩ ⟨9⟩, .pop, .pop, .push, .define ⟨1⟩ ⟨10⟩, .define ⟨1⟩ ⟨11⟩]
  refine ⟨(hlookup ⟨0⟩).trans rfl, (hlookup ⟨1⟩).trans rfl, horders _ ?_, ?_⟩
  · exact .cons (.refl _) (.cons (.swap ..) .nil)
  · exact hbalanced [.define ⟨0⟩ ⟨12⟩] (.define _ _ .nil)

end Environment

end Quotation
