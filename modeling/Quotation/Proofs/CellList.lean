import Quotation.Capture.Quote
import Quotation.Proofs.Route

/-!
# Lists of variables

A list of variables is known by its cells, one for each position (`CellList.Lists`): reading and
writing it at a position is reading and writing the cell there. The routes of a quoted list hit each
position of its two sources exactly once (`routes_perm`), so the merged list has at each position
the cell that the variable there denotes (`lists_merged`).
-/

namespace Quotation

/-! ## Cells by position -/

/-- The list has the cells `cells`, and no position past them. -/
def CellList.Lists (l : CellList) (cells : List Cell) : Prop :=
  l.count = cells.length ∧ ∀ i, l.locate i =
    match cells[i]? with
    | some c => .ok c
    | none => .error ⟨i, cells.length⟩

/-- Reading is reading the cell at the position. -/
theorem Heap.readAt_eq (h : Heap) (l : CellList) (i : Nat) :
    h.readAt l i = (l.locate i).map h.read := by
  induction l generalizing i with
  | direct stamp cells =>
    rw [Heap.readAt, CellList.locate]
    split <;> rfl
  | merged stamp first second routing ih₁ ih₂ =>
    rw [Heap.readAt, CellList.locate]
    split
    · split
      · exact ih₁ _
      · exact ih₂ _
    · rfl

/-- Writing is writing the cell at the position. -/
theorem Heap.writeAt_eq (h : Heap) (v : Value) (l : CellList) (i : Nat) :
    h.writeAt v l i = (l.locate i).map (h.write · v) := by
  induction l generalizing i with
  | direct stamp cells =>
    rw [Heap.writeAt, CellList.locate]
    split <;> rfl
  | merged stamp first second routing ih₁ ih₂ =>
    rw [Heap.writeAt, CellList.locate]
    split
    · split
      · exact ih₁ _
      · exact ih₂ _
    · rfl

namespace CellList

theorem lists_direct (stamp : Stamp) (cells : List Cell) :
    (direct stamp cells.toArray).Lists cells := by
  refine ⟨by simp [count], fun i => ?_⟩
  rw [locate, List.getElem?_toArray]
  rfl

section
variable {stamp : Stamp} {l m : CellList} {routing : Array Int64} {raw : Int64} {i j : Nat}

theorem locate_first (hraw : routing[i]? = some raw) (hroute : Route.decode raw = .first j) :
    (merged stamp l m routing).locate i = l.locate j := by
  rw [locate, hraw]
  simp only [hroute]

theorem locate_second (hraw : routing[i]? = some raw) (hroute : Route.decode raw = .second j) :
    (merged stamp l m routing).locate i = m.locate j := by
  rw [locate, hraw]
  simp only [hroute]

theorem locate_past (hraw : routing[i]? = none) :
    (merged stamp l m routing).locate i = .error ⟨i, routing.size⟩ := by
  rw [locate, hraw]

end

namespace Lists

variable {l : CellList} {cells : List Cell} (h : l.Lists cells)
include h

theorem locate_eq {i : Nat} {c : Cell} (hc : cells[i]? = some c) : l.locate i = .ok c := by
  rw [h.2, hc]

/-- At a position of the list its cell is read and written, and nothing else. -/
theorem access {i : Nat} {c : Cell} (hc : cells[i]? = some c) (heap : Heap) :
    heap.readAt l i = .ok (heap.read c) ∧ ∀ v, heap.writeAt v l i = .ok (heap.write c v) := by
  refine ⟨?_, fun v => ?_⟩
  · rw [heap.readAt_eq, h.locate_eq hc]
    rfl
  · rw [heap.writeAt_eq, h.locate_eq hc]
    rfl

/-- Past its positions a list is neither read nor written. -/
theorem past {i : Nat} (hi : cells.length ≤ i) (heap : Heap) :
    heap.readAt l i = .error ⟨i, cells.length⟩ ∧
      ∀ v, heap.writeAt v l i = .error ⟨i, cells.length⟩ := by
  have hlocate : l.locate i = .error ⟨i, cells.length⟩ := by
    rw [h.2, List.getElem?_eq_none hi]
  refine ⟨?_, fun v => ?_⟩
  · rw [heap.readAt_eq, hlocate]
    rfl
  · rw [heap.writeAt_eq, hlocate]
    rfl

end Lists

end CellList

/-! ## Routes -/

section
variable {declared : VarId → Bool} {free bound : Nat}

/-- Each position of the two sources is hit by exactly one route. -/
theorem routes_perm (vars : List VarId) :
    (routes declared free bound vars).Perm
      ((List.range' free (vars.filter declared).length).map .first ++
        (List.range' bound (vars.filter fun v => !declared v).length).map .second) := by
  induction vars generalizing free bound with
  | nil => exact .nil
  | cons v vars ih =>
    cases hd : declared v with
    | true =>
      rw [routes, if_pos hd, List.filter_cons_of_pos hd, List.filter_cons_of_neg (by simp [hd]),
        List.length_cons, List.range'_succ, List.map_cons, List.cons_append]
      exact ih.cons _
    | false =>
      rw [routes, if_neg (by simp [hd]), List.filter_cons_of_neg (by simp [hd]),
        List.filter_cons_of_pos (by simp [hd]), List.length_cons, List.range'_succ, List.map_cons]
      exact (ih.cons _).trans List.perm_middle.symm

/-- The route at the position of a variable leads to that variable in its source. -/
theorem routes_getElem? (declared : VarId → Bool) (free bound : Nat) {vars : List VarId} {i : Nat}
    {v : VarId} (hv : vars[i]? = some v) :
    ∃ j, (declared v = true ∧ (routes declared free bound vars)[i]? = some (.first (free + j)) ∧
        (vars.filter declared)[j]? = some v) ∨
      (declared v = false ∧ (routes declared free bound vars)[i]? = some (.second (bound + j)) ∧
        (vars.filter fun v => !declared v)[j]? = some v) := by
  induction vars generalizing free bound i with
  | nil => cases hv
  | cons w vars ih =>
    cases i with
    | zero =>
      obtain rfl := Option.some.inj hv
      refine ⟨0, ?_⟩
      cases hd : declared w <;> simp [routes, hd]
    | succ i =>
      cases hd : declared w with
      | true =>
        obtain ⟨j, ⟨hv', hr, hj⟩ | ⟨hv', hr, hj⟩⟩ := ih (free + 1) bound hv
        · exact ⟨j + 1, .inl ⟨hv', by simpa [routes, hd, Nat.add_assoc, Nat.add_comm 1] using hr,
            by simpa [hd] using hj⟩⟩
        · exact ⟨j, .inr ⟨hv', by simpa [routes, hd] using hr, by simpa [hd] using hj⟩⟩
      | false =>
        obtain ⟨j, ⟨hv', hr, hj⟩ | ⟨hv', hr, hj⟩⟩ := ih free (bound + 1) hv
        · exact ⟨j, .inl ⟨hv', by simpa [routes, hd] using hr, by simpa [hd] using hj⟩⟩
        · exact ⟨j + 1, .inr ⟨hv', by simpa [routes, hd, Nat.add_assoc, Nat.add_comm 1] using hr,
            by simpa [hd] using hj⟩⟩

theorem decode_routes {vars : List VarId} (hfree : free + vars.length ≤ Route.limit)
    (hbound : bound + vars.length ≤ Route.limit) :
    ((routes declared free bound vars).map Route.code).map Route.decode =
      routes declared free bound vars := by
  induction vars generalizing free bound with
  | nil => rfl
  | cons v vars ih =>
    rw [List.length_cons] at hfree hbound
    have hf : free < Route.limit := by omega
    have hb : bound < Route.limit := by omega
    rw [routes]
    split
    · rw [List.map_cons, List.map_cons, Route.decode_code (r := .first free) hf,
        ih (by omega) (by omega)]
    · rw [List.map_cons, List.map_cons, Route.decode_code (r := .second bound) hb,
        ih (by omega) (by omega)]

theorem length_routes (vars : List VarId) :
    (routes declared free bound vars).length = vars.length := by
  induction vars generalizing free bound with
  | nil => rfl
  | cons v vars ih => cases hd : declared v <;> simp [routes, hd, ih]

theorem getElem?_filterMap {α β : Type} {f : α → Option β} {xs : List α}
    (h : ∀ x ∈ xs, (f x).isSome) (j : Nat) : (xs.filterMap f)[j]? = xs[j]?.bind f := by
  induction xs generalizing j with
  | nil => simp
  | cons x xs ih =>
    obtain ⟨y, hy⟩ := Option.isSome_iff_exists.1 (h x List.mem_cons_self)
    rw [List.filterMap_cons_some hy]
    cases j with
    | zero => simp [hy]
    | succ j => simpa using ih (fun z hz => h z (List.mem_cons_of_mem x hz)) j

theorem length_filterMap_of_isSome {α β : Type} {f : α → Option β} {xs : List α}
    (h : ∀ x ∈ xs, (f x).isSome) : (xs.filterMap f).length = xs.length := by
  induction xs with
  | nil => rfl
  | cons x xs ih =>
    obtain ⟨y, hy⟩ := Option.isSome_iff_exists.1 (h x List.mem_cons_self)
    rw [List.filterMap_cons_some hy, List.length_cons, List.length_cons,
      ih fun z hz => h z (List.mem_cons_of_mem x hz)]

/-- A list of the cells of some variables has the cell of the variable at each position, and no
position past the variables. -/
theorem CellList.Lists.positions {l : CellList} {f : VarId → Option Cell} {vars : List VarId}
    (h : l.Lists (vars.filterMap f)) (hsome : ∀ v ∈ vars, (f v).isSome) :
    l.count = vars.length ∧
      (∀ i (hi : i < vars.length), ∃ c, f vars[i] = some c ∧ ∀ heap : Heap,
        heap.readAt l i = .ok (heap.read c) ∧ ∀ x, heap.writeAt x l i = .ok (heap.write c x)) ∧
      ∀ i, vars.length ≤ i → ∀ heap : Heap,
        heap.readAt l i = .error ⟨i, vars.length⟩ ∧
          ∀ x, heap.writeAt x l i = .error ⟨i, vars.length⟩ := by
  have hcount := length_filterMap_of_isSome hsome
  refine ⟨h.1.trans hcount, fun i hi => ?_, fun i hi heap => ?_⟩
  · obtain ⟨c, hc⟩ := Option.isSome_iff_exists.1 (hsome _ (List.getElem_mem hi))
    have hcell : (vars.filterMap f)[i]? = some c := by
      rw [getElem?_filterMap hsome, List.getElem?_eq_getElem hi, Option.bind_some, hc]
    exact ⟨c, hc, h.access hcell⟩
  · rw [← hcount] at hi ⊢
    exact h.past hi heap

/-- A list that is merged along its routes has at each position the cell of the variable there. -/
theorem lists_merged {inside outside : VarId → Option Cell} {vars : List VarId}
    (hinside : ∀ v ∈ vars, declared v = true → (inside v).isSome)
    (houtside : ∀ v ∈ vars, declared v = false → (outside v).isSome)
    (hroutable : Routable declared vars) (s₁ s₂ s₃ : Stamp) :
    (CellList.merged s₁ (.direct s₂ ((vars.filter declared).filterMap inside).toArray)
        (.direct s₃ ((vars.filter fun v => !declared v).filterMap outside).toArray)
        ((routes declared 0 0 vars).map Route.code).toArray).Lists
      (vars.filterMap fun v => if declared v then inside v else outside v) := by
  have hall : ∀ v ∈ vars, (if declared v then inside v else outside v).isSome := by
    intro v hv
    split
    · exact hinside v hv ‹_›
    · rename_i hd
      exact houtside v hv (by simpa using hd)
  have hfree : ∀ v ∈ vars.filter declared, (inside v).isSome := fun v hv =>
    hinside v (List.mem_filter.1 hv).1 (List.mem_filter.1 hv).2
  have hbound : ∀ v ∈ vars.filter fun v => !declared v, (outside v).isSome := fun v hv =>
    houtside v (List.mem_filter.1 hv).1 (by simpa using (List.mem_filter.1 hv).2)
  have hcount := length_filterMap_of_isSome hall
  refine ⟨by simp [CellList.count, length_routes, hcount], fun i => ?_⟩
  rw [getElem?_filterMap hall, hcount]
  cases hv : vars[i]? with
  | none =>
    have hi : vars.length ≤ i := List.getElem?_eq_none_iff.1 hv
    have hnone : ((routes declared 0 0 vars).map Route.code).toArray[i]? = none := by
      simp [length_routes, hi]
    rw [CellList.locate_past hnone]
    simp [length_routes]
  | some v =>
    have hlt : ∀ {p : VarId → Bool} {j}, (vars.filter p).length ≤ Route.limit →
        (vars.filter p)[j]? = some v → j < Route.limit := fun hle hj =>
      Nat.lt_of_lt_of_le (List.getElem?_eq_some_iff.1 hj).1 hle
    obtain ⟨j, ⟨hd, hr, hj⟩ | ⟨hd, hr, hj⟩⟩ := routes_getElem? declared 0 0 hv
    · have hcode : ((routes declared 0 0 vars).map Route.code).toArray[i]? =
          some (Route.first j).code := by simp [hr]
      obtain ⟨c, hc⟩ := Option.isSome_iff_exists.1 (hinside v (List.mem_of_getElem? hv) hd)
      have hcell : ((vars.filter declared).filterMap inside)[j]? = some c := by
        rw [getElem?_filterMap hfree, hj, Option.bind_some, hc]
      rw [CellList.locate_first hcode (Route.decode_code (r := .first j) (hlt hroutable.1 hj)),
        Option.bind_some, if_pos hd, hc]
      exact (CellList.lists_direct s₂ _).locate_eq hcell
    · have hcode : ((routes declared 0 0 vars).map Route.code).toArray[i]? =
          some (Route.second j).code := by simp [hr]
      obtain ⟨c, hc⟩ := Option.isSome_iff_exists.1 (houtside v (List.mem_of_getElem? hv) hd)
      have hcell : ((vars.filter fun v => !declared v).filterMap outside)[j]? = some c := by
        rw [getElem?_filterMap hbound, hj, Option.bind_some, hc]
      rw [CellList.locate_second hcode (Route.decode_code (r := .second j) (hlt hroutable.2 hj)),
        Option.bind_some, if_neg (by simp [hd]), hc]
      exact (CellList.lists_direct s₃ _).locate_eq hcell

end

end Quotation
