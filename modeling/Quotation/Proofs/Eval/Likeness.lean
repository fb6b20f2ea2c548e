import Mathlib.Logic.Function.Basic
import Quotation.Proofs.Capture.Rewritten
import Quotation.Proofs.Eval.Watch

/-!
# Two evaluations that are alike

Two evaluations that start from the same heap make their cells in the same order, so the cells of
one are those of the other. The stamps that they give to functions and lists need not be the same:
a `Renaming` says which stamp of the right evaluation corresponds to which of the left one. A
`Likeness` says which fragments correspond, and with that when two values, errors and heaps do.

A function corresponds to one of the same name and parameters if their bodies correspond where the
variables that were declared around them have the same cells in both. A list corresponds to one that
has the same cells.
-/

namespace Quotation

open EvalM

/-! ## Identity -/

/-- The cells by position. -/
def CellList.cells (m : CellList) : List (Option Cell) :=
  (List.range m.count).map fun i => (m.locate i).toOption

/-- The stamp of the value, if it has one, comes before `next`. -/
def Value.StampedBefore (next : Stamp) : Value → Prop
  | .function f => f.stamp < next
  | .cellList m => m.stamp < next
  | _ => True

/-- Which stamps of the right evaluation correspond to those of the left one. Stamps below `base`
are the same in both; `left` and `right` are the stamps that are given next. -/
structure Renaming (base : Stamp) where
  map : Stamp → Stamp
  left : Stamp
  right : Stamp
  base_le_left : base ≤ left
  base_le_right : base ≤ right
  map_old {s : Stamp} : s < base → map s = s
  map_lt {s : Stamp} : s < left → map s < right
  /-- No two stamps correspond to one that the right evaluation has given. -/
  map_inj {s t : Stamp} : s < left → t < left → base ≤ map s → map s = map t → s = t

namespace Renaming

variable {base : Stamp}

/-- Nothing has been stamped yet. -/
def start (base : Stamp) : Renaming base where
  map := id
  left := base
  right := base
  base_le_left := Nat.le_refl base
  base_le_right := Nat.le_refl base
  map_old _ := rfl
  map_lt := id
  map_inj _ _ _ := id

/-- `r'` is `r` after more stamps may have been given. -/
def Grows (r r' : Renaming base) : Prop := r.left ≤ r'.left ∧ ∀ s < r.left, r'.map s = r.map s

theorem Grows.refl (r : Renaming base) : r.Grows r := ⟨Nat.le_refl _, fun _ _ => rfl⟩

theorem Grows.trans {r r' r'' : Renaming base} (h : r.Grows r') (h' : r'.Grows r'') :
    r.Grows r'' :=
  ⟨Nat.le_trans h.1 h'.1, fun s hs => (h'.2 s (Nat.lt_of_lt_of_le hs h.1)).trans (h.2 s hs)⟩

/-- The left evaluation gives its next stamp; `s` corresponds to it, which is old or has just been
given on the right, where `right` comes next. -/
def next (r : Renaming base) (s right : Stamp) (hright : r.right ≤ right) (hlt : s < right)
    (hnew : base ≤ s → r.right ≤ s) : Renaming base where
  map := Function.update r.map r.left s
  left := r.left + 1
  right := right
  base_le_left := Nat.le_succ_of_le r.base_le_left
  base_le_right := Nat.le_trans r.base_le_right hright
  map_old {t} ht := by
    rw [Function.update_of_ne (Nat.ne_of_lt (Nat.lt_of_lt_of_le ht r.base_le_left))]
    exact r.map_old ht
  map_lt {t} ht := by
    by_cases h : t = r.left
    · rwa [h, Function.update_self]
    · rw [Function.update_of_ne h]
      exact Nat.lt_of_lt_of_le (r.map_lt (Nat.lt_of_le_of_ne (Nat.le_of_lt_succ ht) h)) hright
  map_inj {t u} ht hu hbase heq := by
    have hlt : ∀ {t}, t < r.left + 1 → t ≠ r.left → t < r.left := fun ht h =>
      Nat.lt_of_le_of_ne (Nat.le_of_lt_succ ht) h
    by_cases h : t = r.left <;> by_cases h' : u = r.left
    · rw [h, h']
    · rw [h, Function.update_self] at hbase heq
      rw [Function.update_of_ne h'] at heq
      exact absurd (r.map_lt (hlt hu h')) (Nat.not_lt_of_le (heq ▸ hnew hbase))
    · rw [Function.update_of_ne h] at hbase heq
      rw [h', Function.update_self] at heq
      exact absurd (r.map_lt (hlt ht h)) (Nat.not_lt_of_le (heq ▸ hnew (heq ▸ hbase)))
    · rw [Function.update_of_ne h] at hbase heq
      rw [Function.update_of_ne h'] at heq
      exact r.map_inj (hlt ht h) (hlt hu h') hbase heq

section
variable {r : Renaming base} {s right : Stamp} {hright : r.right ≤ right} {hlt : s < right}
  {hnew : base ≤ s → r.right ≤ s}

theorem grows_next : r.Grows (r.next s right hright hlt hnew) :=
  ⟨Nat.le_succ _, fun _ ht => Function.update_of_ne (Nat.ne_of_lt ht) ..⟩

@[simp] theorem next_map : (r.next s right hright hlt hnew).map r.left = s :=
  Function.update_self ..

end

end Renaming

/-! ## Values -/

/-- The variables of `S` have the same cells on both sides, and the others have on the left the
cells that the chain has for them. Unless `S` is everything, its variables are bound. -/
structure Shared (frames : List Frame) (storages : List Storage) (S : VarId → Bool)
    (left right : VarId → Option Cell) : Prop where
  declared {v : VarId} : S v = true → left v = right v
  captured {v : VarId} {c : Cell} : S v = false → cellOf frames storages v = some c →
    left v = some c
  bound {u v : VarId} : S u = false → S v = true → (left v).isSome

namespace Shared

variable {frames : List Frame} {storages : List Storage} {S : VarId → Bool}

/-- In a scope of their own both sides bind its variables to the same new cells. -/
theorem under {env env' : Environment} (h : Shared frames storages S env.lookup env'.lookup)
    (next : Nat) (l : Label) : Shared frames storages (l.under S)
      (env.push.bindFrom next l.declares).lookup (env'.push.bindFrom next l.declares).lookup where
  declared {v} hv := by
    rcases Bool.or_eq_true_iff.1 hv with hdeclared | hS
    · rw [Environment.lookup_bindFrom_of_contains _ _ hdeclared,
        Environment.lookup_bindFrom_of_contains _ _ hdeclared]
    · rw [Environment.lookup_bindFrom, Environment.lookup_bindFrom, Environment.lookup_push,
        Environment.lookup_push, h.declared hS]
  captured {v c} hv hc := by
    obtain ⟨hdeclared, hS⟩ := Bool.or_eq_false_iff.1 hv
    rw [Environment.lookup_bindFrom_of_not_contains _ _ hdeclared]
    exact h.captured hS hc
  bound {u v} hu hv := by
    obtain ⟨-, hu⟩ := Bool.or_eq_false_iff.1 hu
    rcases Bool.or_eq_true_iff.1 hv with hdeclared | hS
    · rw [Environment.lookup_bindFrom_of_contains _ _ hdeclared, Environment.isSome_boundFrom,
        hdeclared]
    · rw [Environment.lookup_bindFrom, Environment.lookup_push, Option.isSome_or, h.bound hu hS,
        Bool.or_true]

end Shared

/-- What is evaluated alike in two evaluations of a program that start with the same stamps. -/
structure Likeness (p : Program) where
  base : Stamp
  /-- The chain of the variables that only the left evaluation looks up. -/
  frames : List Frame
  storages : List Storage
  /-- The nodes that correspond where these variables are declared around them. -/
  node : (VarId → Bool) → ExprId → ExprId → Prop
  /-- The lists from before. -/
  lists : CellList → Prop
  /-- A list from before that is in the place of one that the left evaluation has made. -/
  stands : CellList → CellList → Prop
  /-- All faults correspond too. -/
  exact : Prop

namespace Likeness

variable {p : Program} (l : Likeness p)

structure Functions (r : Renaming l.base) (f g : Closure) : Prop where
  given : f.stamp < r.left
  stamp : r.map f.stamp = g.stamp
  /-- A function that the left evaluation has made was made by the right one. -/
  made : l.base ≤ f.stamp → l.base ≤ g.stamp
  name : g.name = f.name
  params : g.params = f.params
  body : ∃ S, l.node ((Label.lambda f.params f.name).under S) f.body g.body ∧
    Shared l.frames l.storages S f.captures.find? g.captures.find?

structure Lists (r : Renaming l.base) (m n : CellList) : Prop where
  given : m.stamp < r.left
  stamp : r.map m.stamp = n.stamp
  made : l.base ≤ m.stamp → n.stamp < l.base → l.stands m n
  old : n.stamp < l.base → l.lists n
  count : n.count = m.count
  locate : ∀ i, n.locate i = m.locate i

inductive Values (r : Renaming l.base) : Value → Value → Prop where
  | unit : Values r .unit .unit
  | int (n : Int64) : Values r (.int n) (.int n)
  | bool (b : Bool) : Values r (.bool b) (.bool b)
  | function {f g : Closure} (h : l.Functions r f g) : Values r (.function f) (.function g)
  | cell (c : Cell) : Values r (.cell c) (.cell c)
  | cellList {m n : CellList} (h : l.Lists r m n) : Values r (.cellList m) (.cellList n)
  | routing (codes : Array Int64) : Values r (.routing codes) (.routing codes)
  | builtin (b : Builtin) : Values r (.builtin b) (.builtin b)

inductive Errors (r : Renaming l.base) : EvalError → EvalError → Prop where
  | thrown {v w : Value} (h : l.Values r v w) : Errors r (.thrown v) (.thrown w)
  | same {e : EvalError} (h : ∀ v, e ≠ .thrown v) : Errors r e e

structure Heaps (r : Renaming l.base) (h h' : Heap) : Prop where
  left : h.nextStamp = r.left
  right : h'.nextStamp = r.right
  size : h'.cells.size = h.cells.size
  read : ∀ c, l.Values r (h.read c) (h'.read c)

section
variable {l} {r r' : Renaming l.base} (hr : r.Grows r')
include hr

theorem Functions.grows {f g : Closure} (h : l.Functions r f g) : l.Functions r' f g where
  given := Nat.lt_of_lt_of_le h.given hr.1
  stamp := (hr.2 _ h.given).trans h.stamp
  made := h.made
  name := h.name
  params := h.params
  body := h.body

theorem Lists.grows {m n : CellList} (h : l.Lists r m n) : l.Lists r' m n where
  given := Nat.lt_of_lt_of_le h.given hr.1
  stamp := (hr.2 _ h.given).trans h.stamp
  made := h.made
  old := h.old
  count := h.count
  locate := h.locate

theorem Values.grows {v w : Value} (h : l.Values r v w) : l.Values r' v w := by
  cases h with
  | function h => exact .function (h.grows hr)
  | cellList h => exact .cellList (h.grows hr)
  | unit => exact .unit
  | int n => exact .int n
  | bool b => exact .bool b
  | cell c => exact .cell c
  | routing codes => exact .routing codes
  | builtin b => exact .builtin b

theorem Errors.grows {e e' : EvalError} (h : l.Errors r e e') : l.Errors r' e e' := by
  cases h with
  | thrown h => exact .thrown (h.grows hr)
  | same h => exact .same h

end

section
variable {l} {r : Renaming l.base}

/-- Stamps that correspond to one stamp from before are the same, if both are from before. -/
theorem map_inj_of_old {s t : Stamp} (hs : s < l.base) (ht : t < l.base) (h : r.map s = r.map t) :
    s = t := by
  rwa [r.map_old hs, r.map_old ht] at h

theorem Functions.stamp_inj {f g f' g' : Closure} (h : l.Functions r f g)
    (h' : l.Functions r f' g') : g.stamp = g'.stamp ↔ f.stamp = f'.stamp := by
  rw [← h.stamp, ← h'.stamp]
  refine ⟨fun heq => ?_, congrArg r.map⟩
  rcases Nat.lt_or_ge (r.map f.stamp) l.base with hold | hmade
  · refine map_inj_of_old (Nat.lt_of_not_le fun hle => ?_) (Nat.lt_of_not_le fun hle => ?_) heq
    · exact absurd (h.made hle) (Nat.not_le_of_lt (h.stamp ▸ hold))
    · exact absurd (h'.made hle) (Nat.not_le_of_lt (h'.stamp ▸ heq ▸ hold))
  · exact r.map_inj h.given h'.given hmade heq

/-- A list that both evaluations have made. -/
theorem Lists.new {m n : CellList} (hgiven : m.stamp < r.left) (hstamp : r.map m.stamp = n.stamp)
    (hnew : l.base ≤ n.stamp) (hcount : n.count = m.count)
    (hlocate : ∀ i, n.locate i = m.locate i) : l.Lists r m n where
  given := hgiven
  stamp := hstamp
  made _ hlt := absurd hnew (Nat.not_le_of_lt hlt)
  old hlt := absurd hnew (Nat.not_le_of_lt hlt)
  count := hcount
  locate := hlocate

theorem Lists.cells {m n : CellList} (h : l.Lists r m n) : n.cells = m.cells := by
  rw [CellList.cells, CellList.cells, h.count, funext h.locate]

/-- A list from before corresponds to itself, or is in the place of a list that has been made. -/
theorem Lists.of_old {m n : CellList} (h : l.Lists r m n) (hold : n.stamp < l.base) :
    m.stamp = n.stamp ∨ l.base ≤ m.stamp ∧ l.stands m n := by
  rcases Nat.lt_or_ge m.stamp l.base with hlt | hle
  · exact .inl ((r.map_old hlt).symm.trans h.stamp)
  · exact .inr ⟨hle, h.made hle hold⟩

/-- Different lists correspond to the same one only if this is from before. -/
theorem Lists.old_of_confused {m n m' n' : CellList} (h : l.Lists r m n) (h' : l.Lists r m' n')
    (heq : n.stamp = n'.stamp) (hne : m.stamp ≠ m'.stamp) : n.stamp < l.base := by
  refine Nat.lt_of_not_le fun hle => hne (r.map_inj h.given h'.given (h.stamp.symm ▸ hle) ?_)
  rw [h.stamp, h'.stamp, heq]

end

end Likeness

/-! ## Watching comparisons -/

/-- The comparisons of lists before which the left evaluation stops, and the right one. -/
structure Watch where
  left : CellList → CellList → Bool
  right : CellList → CellList → Bool

def Watch.none : Watch := ⟨fun _ _ => false, fun _ _ => false⟩

namespace Likeness

variable {p : Program} {l : Likeness p} {r : Renaming l.base} {watch : Watch}

/-- One of the two evaluations stops before it compares two lists that are the same only on the
right. If all faults are to correspond, none stops at all. -/
structure Guarded (l : Likeness p) (watch : Watch) : Prop where
  sure : l.exact → watch = .none
  stops {r : Renaming l.base} {m n m' n' : CellList} : l.Lists r m n → l.Lists r m' n' →
    n.stamp = n'.stamp → m.stamp ≠ m'.stamp → watch.left m m' = true ∨ watch.right n n' = true

/-- What neither evaluation stops to compare is the same on both sides. -/
theorem Values.same {v w v' w' : Value} (hguarded : l.Guarded watch) (h : l.Values r v w)
    (h' : l.Values r v' w') (hleft : v.watched watch.left v' = false)
    (hright : w.watched watch.right w' = false) : w.same w' = v.same v' := by
  cases h with
  | function h =>
    cases h' with
    | function h' => exact decide_eq_decide.2 (h.stamp_inj h')
    | _ => rfl
  | cellList h =>
    cases h' with
    | cellList h' =>
      refine decide_eq_decide.2 ⟨fun heq => ?_, fun heq => by rw [← h.stamp, ← h'.stamp, heq]⟩
      by_contra hne
      rcases hguarded.stops h h' heq hne with hstops | hstops
      · exact Bool.noConfusion (hleft.symm.trans hstops)
      · exact Bool.noConfusion (hright.symm.trans hstops)
    | _ => rfl
  | _ => cases h' <;> rfl

/-! ## Heaps -/

theorem Heaps.append {h h' : Heap} (hh : l.Heaps r h h') {vs ws : List Value}
    (hvs : List.Forall₂ (l.Values r) vs ws) :
    l.Heaps r { h with cells := h.cells ++ vs } { h' with cells := h'.cells ++ ws } where
  left := hh.left
  right := hh.right
  size := by simp [append_list_eq, hh.size, hvs.length_eq]
  read c := by
    rw [Heap.read_append, Heap.read_append, hh.size]
    split
    · exact hh.read c
    · cases hv : vs[c.index - h.cells.size]? with
      | none =>
        rw [List.getElem?_eq_none (hvs.length_eq ▸ List.getElem?_eq_none_iff.1 hv)]
        exact .unit
      | some v =>
        obtain ⟨w, hw, hvw⟩ := forall₂_getElem? hvs hv
        rwa [hw]

theorem Heaps.write {h h' : Heap} (hh : l.Heaps r h h') {v w : Value} (hv : l.Values r v w)
    (c : Cell) : l.Heaps r (h.write c v) (h'.write c w) where
  left := hh.left
  right := hh.right
  size := by simp [Heap.write, hh.size]
  read d := by
    rw [Heap.read_write_eq, Heap.read_write_eq, hh.size]
    split
    · exact hv
    · exact hh.read d

theorem Heaps.stamped {h h' : Heap} (hh : l.Heaps r h h') {r' : Renaming l.base} (hr : r.Grows r')
    {left right : Stamp} (hleft : left = r'.left) (hright : right = r'.right) :
    l.Heaps r' { h with nextStamp := left } { h' with nextStamp := right } where
  left := hleft
  right := hright
  size := hh.size
  read c := (hh.read c).grows hr

/-! ## Before the two evaluations -/

/-- A value from before the two evaluations, which corresponds to itself: the body of a function
looks up nothing but what it has captured. -/
structure Known (l : Likeness p) (v : Value) : Prop where
  stamp : v.StampedBefore l.base
  body : ∀ f, v = .function f → l.node (fun _ => true) f.body f.body
  list : ∀ m, v = .cellList m → l.lists m

theorem Known.values {v : Value} (h : l.Known v) : l.Values r v v := by
  obtain ⟨hstamp, hbody, hlist⟩ := h
  cases v with
  | function f =>
    have hunder : (Label.lambda f.params f.name).under (fun _ => true) = fun _ => true :=
      funext (Label.under_eq_true (fun _ => rfl) _)
    exact .function {
      given := Nat.lt_of_lt_of_le hstamp r.base_le_left
      stamp := r.map_old hstamp
      made := fun hle => absurd hstamp (Nat.not_lt_of_le hle)
      name := rfl
      params := rfl
      body := ⟨fun _ => true, by rw [hunder]; exact hbody f rfl, fun _ => rfl, nofun, nofun⟩ }
  | cellList m =>
    exact .cellList {
      given := Nat.lt_of_lt_of_le hstamp r.base_le_left
      stamp := r.map_old hstamp
      made := fun hle => absurd hstamp (Nat.not_lt_of_le hle)
      old := fun _ => hlist m rfl
      count := rfl
      locate := fun _ => rfl }
  | unit => exact .unit
  | int n => exact .int n
  | bool b => exact .bool b
  | cell c => exact .cell c
  | routing codes => exact .routing codes
  | builtin b => exact .builtin b

/-- A heap of known values corresponds to itself before anything has been stamped. -/
theorem Heaps.start {h : Heap} (hbase : h.nextStamp = l.base) (hknown : ∀ v ∈ h.cells, l.Known v) :
    l.Heaps (.start l.base) h h where
  left := hbase
  right := hbase
  size := rfl
  read c := by
    rw [Heap.read]
    cases hv : h.cells[c.index]? with
    | none => exact .unit
    | some v => exact (hknown v (Array.mem_of_getElem? hv)).values

end Likeness

end Quotation
