import Quotation.Proofs.Eval.Lockstep
import Mathlib.Logic.Relation

/-!
# What an evaluation reaches

From the cells that are bound and the constants that a fragment refers to, other values are led to:
what a cell holds, the cells of a list, the cells that a function has captured, and the constants
that its body refers to (`Program.Leads`). An evaluation comes to no other cells that were there
before. It leaves them as they are, and what they hold makes no difference (`Program.TouchesOnly`,
`eval_touchesOnly`): on two heaps that agree on what is reached it runs in lockstep.
-/

namespace Quotation

open EvalM

/-! ## Reaching -/

/-- The node of `id`, or one below it, refers to the constant. -/
def Program.Mentions (p : Program) (id : ExprId) (v : Value) : Prop :=
  ∃ d, Relation.ReflTransGen p.arena.Child id d ∧ p.Names d v

/-- What is led to from some values on a heap. -/
inductive Program.Leads (p : Program) (h : Heap) (start : Value → Prop) : Value → Prop where
  | start {v : Value} (hv : start v) : Leads p h start v
  | content {c : Cell} (hc : Leads p h start (.cell c)) : Leads p h start (h.read c)
  | listed {l : CellList} {c : Cell} (hl : Leads p h start (.cellList l)) (hc : c ∈ l.leaves) :
    Leads p h start (.cell c)
  | captured {f : Closure} {v : VarId} {c : Cell} (hf : Leads p h start (.function f))
    (hc : f.captures.find? v = some c) : Leads p h start (.cell c)
  | named {f : Closure} {v : Value} (hf : Leads p h start (.function f))
    (hv : p.Mentions f.body v) : Leads p h start v

/-- What an evaluation starts from: the cells of the visible variables, and the constants of the
fragment. -/
def Program.Starts (p : Program) (id : ExprId) (env : Environment) (v : Value) : Prop :=
  (∃ x c, env.lookup x = some c ∧ v = .cell c) ∨ p.Mentions id v

/-- The cell can be reached by an evaluation of the fragment. -/
def Program.Reaches (p : Program) (h : Heap) (id : ExprId) (env : Environment) (c : Cell) : Prop :=
  p.Leads h (p.Starts id env) (.cell c)

theorem Value.Within.imp {cells cells' : Cell → Prop} {nodes nodes' : ExprId → Prop} {v : Value}
    (h : v.Within cells nodes) (hcells : ∀ c, cells c → cells' c)
    (hnodes : ∀ id, nodes id → nodes' id) : v.Within cells' nodes' := by
  cases v with
  | function f => exact ⟨hnodes _ h.1, fun x c hc => hcells c (h.2 x c hc)⟩
  | cell c => exact hcells c h
  | cellList l => exact fun c hc => hcells c (h c hc)
  | _ => trivial

namespace Program.Leads

variable {p : Program} {h : Heap} {start start' : Value → Prop} {v : Value}

/-- The node of `id` is in the body of a function that is led to. -/
def body (p : Program) (h : Heap) (start : Value → Prop) (id : ExprId) : Prop :=
  ∃ f, p.Leads h start (.function f) ∧ Relation.ReflTransGen p.arena.Child f.body id

/-- What a value holds is led to where the value is. -/
theorem within (hv : p.Leads h start v) :
    v.Within (fun c => p.Leads h start (.cell c)) (body p h start) := by
  cases v with
  | function f => exact ⟨⟨f, hv, .refl⟩, fun x c hc => .captured hv hc⟩
  | cell c => exact hv
  | cellList l => exact fun c hc => .listed hv hc
  | _ => trivial

/-- What is led to is the least region that has all values to start from. -/
theorem least {cells : Cell → Prop} {nodes : ExprId → Prop} (hv : p.Leads h start v)
    (hstart : ∀ v, start v → v.Within cells nodes)
    (hcontent : ∀ c, cells c → (h.read c).Within cells nodes)
    (hnamed : ∀ id v, nodes id → p.Mentions id v → v.Within cells nodes) :
    v.Within cells nodes := by
  induction hv with
  | start hv => exact hstart _ hv
  | content _ ih => exact hcontent _ ih
  | listed _ hc ih => exact ih _ hc
  | captured _ hc ih => exact ih.2 _ _ hc
  | named _ hv ih => exact hnamed _ _ ih.1 hv

/-- From what others lead to, no more is led to than from them. -/
theorem of_within (hv : p.Leads h start (.cell c))
    (hstart : ∀ v, start v → v.Within (fun c => p.Leads h start' (.cell c)) (body p h start')) :
    p.Leads h start' (.cell c) := by
  refine hv.least hstart (fun c hc => hc.content.within) ?_
  rintro id v ⟨f, hf, hbody⟩ ⟨d, hd, hv⟩
  exact (named hf ⟨d, hbody.trans hd, hv⟩).within

end Program.Leads

/-! ## Touching -/

section
variable {α : Type}

/-- The heap when an evaluation has ended. -/
def finalHeap : EStateM.Result Stop Machine α → Heap
  | .ok _ m | .error _ m => m.heap

/-- The value, the error or the fault that an evaluation has ended in. -/
def outcome : EStateM.Result Stop Machine α → Except Stop α
  | .ok v _ => .ok v
  | .error e _ => .error e

end

/-- The heaps have as many cells, have handed out as many stamps, and hold the same in `cells`. -/
structure Heap.AgreeOn (cells : Cell → Prop) (h h' : Heap) : Prop where
  size : h'.cells.size = h.cells.size
  stamp : h'.nextStamp = h.nextStamp
  read : ∀ c, cells c → h'.read c = h.read c

/-- On any heap that agrees on `cells` the evaluation leaves all other cells as they are, and what
they hold makes no difference to what it ends in, nor to what `cells` and new cells hold then. -/
structure Program.TouchesOnly (p : Program) (cells : Cell → Prop) (id : ExprId) (env : Environment)
    (depth : Nat) (h : Heap) : Prop where
  frame : ∀ h', h.AgreeOn cells h' → ∀ c, c.index < h.cells.size → ¬cells c →
    (finalHeap (p.eval id ⟨h', env, depth⟩)).read c = h'.read c
  outcome : ∀ h', h.AgreeOn cells h' →
    outcome (p.eval id ⟨h', env, depth⟩) = outcome (p.eval id ⟨h, env, depth⟩)
  contents : ∀ h', h.AgreeOn cells h' →
    (finalHeap (p.eval id ⟨h, env, depth⟩)).AgreeOn (fun c => cells c ∨ h.cells.size ≤ c.index)
      (finalHeap (p.eval id ⟨h', env, depth⟩))

section
variable {p : Program} {cells cells' : Cell → Prop} {id : ExprId} {env : Environment} {depth : Nat}
  {h h' : Heap}

theorem Heap.AgreeOn.refl (cells : Cell → Prop) (h : Heap) : h.AgreeOn cells h :=
  ⟨rfl, rfl, fun _ _ => rfl⟩

theorem Heap.AgreeOn.mono (hh : h.AgreeOn cells' h') (hle : ∀ c, cells c → cells' c) :
    h.AgreeOn cells h' :=
  ⟨hh.size, hh.stamp, fun c hc => hh.read c (hle c hc)⟩

/-- More cells may be said to be touched than are. -/
theorem Program.TouchesOnly.mono (ht : p.TouchesOnly cells id env depth h)
    (hle : ∀ c, cells c → cells' c) : p.TouchesOnly cells' id env depth h where
  frame h' hh c hc hnot := ht.frame h' (hh.mono hle) c hc fun hcell => hnot (hle c hcell)
  outcome h' hh := ht.outcome h' (hh.mono hle)
  contents h' hh := by
    have hagree := ht.contents h' (hh.mono hle)
    refine ⟨hagree.size, hagree.stamp, fun c hc => ?_⟩
    by_cases hcell : cells c ∨ h.cells.size ≤ c.index
    · exact hagree.read c hcell
    · -- the cell is left alone on both heaps, and they agree on it
      have hold : c.index < h.cells.size := Nat.lt_of_not_le fun hle => hcell (.inr hle)
      have hnot : ¬cells c := fun hc => hcell (.inl hc)
      rw [ht.frame h' (hh.mono hle) c hold hnot, ht.frame h (.refl cells h) c hold hnot]
      exact hh.read c (hc.resolve_right (Nat.not_le_of_lt hold))

/-! ## In lockstep -/

/-- The cells that can be reached and the new ones, and the nodes of the fragment and of all
functions that can be reached. -/
def Lockstep.reaching (p : Program) (id : ExprId) (env : Environment) (h h' : Heap) :
    Lockstep p where
  cells c := p.Reaches h id env c ∨ h.cells.size ≤ c.index
  nodes d := Relation.ReflTransGen p.arena.Child id d ∨ Program.Leads.body p h (p.Starts id env) d
  left := h
  right := h'
  exact := True
  call := callFunction p
  child := by
    rintro d c (hd | ⟨f, hf, hd⟩) hc
    · exact .inl (hd.tail hc)
    · exact .inr ⟨f, hf, hd.tail hc⟩
  constant := by
    rintro d v hd hv
    have hleads : p.Leads h (p.Starts id env) v := by
      rcases hd with hd | ⟨f, hf, hd⟩
      · exact .start (.inr ⟨d, hd, hv⟩)
      · exact .named hf ⟨d, hd, hv⟩
    exact hleads.within.imp (fun _ => .inl) fun _ => .inr
  fresh := .inr
  call_eq _ _ _ _ _ := rfl

theorem Lockstep.reaching_heaps (hh : h.AgreeOn (p.Reaches h id env) h') :
    (Lockstep.reaching p id env h h').Heaps h h' where
  size := hh.size
  stamp := hh.stamp
  grown := Nat.le_refl _
  inside c hc := by
    rcases hc with hc | hc
    · exact ⟨hh.read c hc, (Program.Leads.content hc).within.imp (fun _ => .inl) fun _ => .inr⟩
    · have hnone : ∀ {g : Heap}, g.cells.size = h.cells.size → g.read c = .unit := fun hg => by
        rw [Heap.read, Array.getElem?_eq_none (hg ▸ hc)]
        rfl
      rw [hnone hh.size, hnone rfl]
      exact ⟨rfl, trivial⟩
  outside _ _ := ⟨rfl, rfl⟩

/-- In lockstep both sides end in the same way, on heaps that agree. -/
theorem Lockstep.Ends.same {l : Lockstep p} {α : Type} {post : α → Prop}
    {a b : EStateM.Result Stop Machine α} (hends : l.Ends env depth post a b) (hexact : l.exact) :
    outcome b = outcome a ∧ l.Heaps (finalHeap a) (finalHeap b) := by
  cases hends with
  | ok heaps _ => exact ⟨rfl, heaps⟩
  | error heaps _ => exact ⟨rfl, heaps⟩
  | fault heaps => exact ⟨rfl, heaps⟩
  | limit loose => exact absurd hexact loose

/-- An evaluation touches only what it can reach. -/
theorem eval_touchesOnly (hlimit : p.maxCallDepth < UInt64.size) (id : ExprId) (env : Environment)
    (depth : Nat) (h : Heap) : p.TouchesOnly (p.Reaches h id env) id env depth h := by
  have hsame : ∀ h', h.AgreeOn (p.Reaches h id env) h' →
      outcome (p.eval id ⟨h', env, depth⟩) = outcome (p.eval id ⟨h, env, depth⟩) ∧
        (Lockstep.reaching p id env h h').Heaps (finalHeap (p.eval id ⟨h, env, depth⟩))
          (finalHeap (p.eval id ⟨h', env, depth⟩)) := by
    intro h' hh
    have hright : p.evalBy (kindCalling (callFunction p) p) p.levels = p.evalWithin p.levels :=
      (evalWithin_limit p p.maxCallDepth p.levels).symm
    have hsees : (Lockstep.reaching p id env h h').Sees env := fun x c hc =>
      .inl (.start (.inl ⟨x, c, hc, rfl⟩))
    have hstep : (Lockstep.reaching p id env h h').InStep env depth (p.evalWithin p.levels id)
        (p.evalBy (kindCalling (callFunction p) p) p.levels id) _ :=
      Lockstep.evalWithin_inStep hlimit p.levels (.inl .refl) hsees
    rw [hright] at hstep
    exact (hstep h h' (Lockstep.reaching_heaps hh)).same trivial
  refine ⟨fun h' hh c hc hnot => ?_, fun h' hh => (hsame h' hh).1, fun h' hh => ?_⟩
  · exact ((hsame h' hh).2.outside c fun hcell => hcell.elim hnot (Nat.not_le_of_lt hc)).2
  · have hheaps := (hsame h' hh).2
    exact ⟨hheaps.size, hheaps.stamp, fun c hc => (hheaps.inside c hc).1⟩

end

end Quotation
