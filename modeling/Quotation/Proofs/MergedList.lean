import Quotation.Proofs.CellList

/-!
# Merged lists

A list of variables is a view of cells. A position is routed through the merges until it is the
position of a cell, which the list then addresses there (`CellList.Addresses`), or is past the end
of the list that it has come to. Reading and writing follow the same routes, so they reach the same
cell or fail in the same way, and a write is seen at the positions that address its cell and at no
others (`readAt_write`).

A list with exact routes (`CellList.Exact`) has its leaves in another order (`Exact.exists_lists`).
Where the leaves are distinct, so are the cells at its positions, and a write at one of them leaves
the others as they were.
-/

namespace Quotation

namespace CellList

/-! ## Following the routes -/

/-- The routes lead from position `i` of `l` to position `j` of `m`. -/
inductive Leads : CellList → Nat → CellList → Nat → Prop where
  | here (l : CellList) (i : Nat) : Leads l i l i
  | first {stamp : Stamp} {l₁ l₂ m : CellList} {routing : Array Int64} {i j k : Nat} {raw : Int64}
      (hraw : routing[i]? = some raw) (hroute : Route.decode raw = .first j)
      (h : Leads l₁ j m k) : Leads (merged stamp l₁ l₂ routing) i m k
  | second {stamp : Stamp} {l₁ l₂ m : CellList} {routing : Array Int64} {i j k : Nat} {raw : Int64}
      (hraw : routing[i]? = some raw) (hroute : Route.decode raw = .second j)
      (h : Leads l₂ j m k) : Leads (merged stamp l₁ l₂ routing) i m k

/-- The routes lead from position `i` to the position of the cell in a list of cells. -/
def Addresses (l : CellList) (i : Nat) (c : Cell) : Prop :=
  ∃ stamp cells j, l.Leads i (direct stamp cells) j ∧ cells[j]? = some c

/-- The cells of all lists of cells underneath, from left to right. -/
def leaves : CellList → List Cell
  | direct _ cells => cells.toList
  | merged _ first second _ => first.leaves ++ second.leaves

section
variable {l m : CellList} {i j : Nat} {c : Cell}

theorem Leads.locate_eq (h : l.Leads i m j) : l.locate i = m.locate j := by
  induction h with
  | here => rfl
  | first hraw hroute _ ih => rw [locate_first hraw hroute, ih]
  | second hraw hroute _ ih => rw [locate_second hraw hroute, ih]

theorem locate_past_end (h : l.count ≤ i) : l.locate i = .error ⟨i, l.count⟩ := by
  cases l with
  | direct stamp cells =>
    rw [locate, Array.getElem?_eq_none h]
    rfl
  | merged stamp first second routing =>
    exact locate_past (Array.getElem?_eq_none h)

/-- The routes end at a cell or past the end of a list. -/
theorem addresses_or_past (l : CellList) (i : Nat) :
    (∃ c, l.Addresses i c) ∨ ∃ m j, l.Leads i m j ∧ m.count ≤ j := by
  induction l generalizing i with
  | direct stamp cells =>
    cases hc : cells[i]? with
    | some c => exact .inl ⟨c, stamp, cells, i, .here .., hc⟩
    | none => exact .inr ⟨_, i, .here .., Array.getElem?_eq_none_iff.1 hc⟩
  | merged stamp first second routing ih₁ ih₂ =>
    cases hraw : routing[i]? with
    | none => exact .inr ⟨_, i, .here .., Array.getElem?_eq_none_iff.1 hraw⟩
    | some raw =>
      cases hroute : Route.decode raw with
      | first j =>
        obtain ⟨c, s, cells, k, hk, hc⟩ | ⟨m, k, hk, hpast⟩ := ih₁ j
        · exact .inl ⟨c, s, cells, k, .first hraw hroute hk, hc⟩
        · exact .inr ⟨m, k, .first hraw hroute hk, hpast⟩
      | second j =>
        obtain ⟨c, s, cells, k, hk, hc⟩ | ⟨m, k, hk, hpast⟩ := ih₂ j
        · exact .inl ⟨c, s, cells, k, .second hraw hroute hk, hc⟩
        · exact .inr ⟨m, k, .second hraw hroute hk, hpast⟩

theorem addresses_iff : l.Addresses i c ↔ l.locate i = .ok c := by
  have hok : ∀ {d}, l.Addresses i d → l.locate i = .ok d := by
    rintro d ⟨stamp, cells, j, hlead, hd⟩
    rw [hlead.locate_eq, locate, hd]
  refine ⟨hok, fun h => ?_⟩
  obtain ⟨d, hd⟩ | ⟨m, j, hlead, hpast⟩ := addresses_or_past l i
  · obtain rfl : d = c := Except.ok.inj ((hok hd).symm.trans h)
    exact hd
  · rw [hlead.locate_eq, locate_past_end hpast] at h
    cases h

theorem Leads.leaves_subset (h : l.Leads i m j) : m.leaves ⊆ l.leaves := by
  induction h with
  | here => exact List.Subset.refl _
  | first _ _ _ ih => exact List.Subset.trans ih (List.subset_append_left ..)
  | second _ _ _ ih => exact List.Subset.trans ih (List.subset_append_right ..)

theorem Addresses.mem_leaves (h : l.Addresses i c) : c ∈ l.leaves := by
  obtain ⟨stamp, cells, j, hlead, hc⟩ := h
  exact hlead.leaves_subset (Array.mem_toList_iff.2 (Array.mem_of_getElem? hc))

end

end CellList

/-! ## Reading and writing -/

namespace Heap

variable {h : Heap} {l m : CellList} {i j : Nat} {c : Cell} {v : Value}

/-- The heap after an attempt to write. -/
def afterWrite (h : Heap) (v : Value) (l : CellList) (i : Nat) : Heap :=
  match h.writeAt v l i with
  | .ok h' => h'
  | .error _ => h

theorem readAt_of_addresses (hc : l.Addresses i c) : h.readAt l i = .ok (h.read c) := by
  rw [readAt_eq, CellList.addresses_iff.1 hc]
  rfl

theorem writeAt_of_addresses (hc : l.Addresses i c) : h.writeAt v l i = .ok (h.write c v) := by
  rw [writeAt_eq, CellList.addresses_iff.1 hc]
  rfl

theorem readAt_of_past (hlead : l.Leads i m j) (hpast : m.count ≤ j) :
    h.readAt l i = .error ⟨j, m.count⟩ := by
  rw [readAt_eq, hlead.locate_eq, CellList.locate_past_end hpast]
  rfl

theorem writeAt_of_past (hlead : l.Leads i m j) (hpast : m.count ≤ j) :
    h.writeAt v l i = .error ⟨j, m.count⟩ := by
  rw [writeAt_eq, hlead.locate_eq, CellList.locate_past_end hpast]
  rfl

theorem afterWrite_of_addresses (hc : l.Addresses i c) : h.afterWrite v l i = h.write c v := by
  rw [afterWrite, writeAt_of_addresses hc]

theorem afterWrite_of_past (hlead : l.Leads i m j) (hpast : m.count ≤ j) :
    h.afterWrite v l i = h := by
  rw [afterWrite, writeAt_of_past hlead hpast]

/-- A write is seen at the positions of its cell, in whatever list, and nowhere else. -/
theorem readAt_write (hc : c.index < h.cells.size) (v : Value) (l : CellList) (i : Nat) :
    (l.Addresses i c → (h.write c v).readAt l i = .ok v) ∧
      (¬l.Addresses i c → (h.write c v).readAt l i = h.readAt l i) := by
  refine ⟨fun haddr => ?_, fun hnot => ?_⟩
  · rw [readAt_of_addresses haddr, read_write hc, if_pos rfl]
  · obtain ⟨d, hd⟩ | ⟨m, j, hlead, hpast⟩ := CellList.addresses_or_past l i
    · have hne : c ≠ d := by
        rintro rfl
        exact hnot hd
      rw [readAt_of_addresses hd, readAt_of_addresses hd, read_write hc, if_neg hne]
    · rw [readAt_of_past hlead hpast, readAt_of_past hlead hpast]

end Heap

/-! ## Exact routes -/

namespace CellList

/-- Every merge uses each position of its two sources exactly once. -/
def Exact : CellList → Prop
  | direct _ _ => True
  | merged _ first second routing => first.Exact ∧ second.Exact ∧
    (routing.toList.map Route.decode).Perm
      ((List.range first.count).map .first ++ (List.range second.count).map .second)

/-- The cell that a route leads to, in sources with these cells. -/
def cellAt (first second : List Cell) : Route → Option Cell
  | .first i => first[i]?
  | .second i => second[i]?

theorem filterMap_getElem?_range {α : Type} (xs : List α) :
    (List.range xs.length).filterMap (xs[·]?) = xs := by
  have hsome : ∀ i ∈ List.range xs.length, (xs[i]?).isSome := fun i hi => by
    simpa using hi
  refine List.ext_getElem? fun i => ?_
  rw [getElem?_filterMap hsome]
  by_cases hi : i < xs.length <;> simp [hi]

theorem filterMap_cellAt (first second : List Cell) :
    ((List.range first.length).map Route.first ++
        (List.range second.length).map Route.second).filterMap (cellAt first second) =
      first ++ second := by
  rw [List.filterMap_append, List.filterMap_map, List.filterMap_map]
  exact congrArg₂ (· ++ ·) (filterMap_getElem?_range first) (filterMap_getElem?_range second)

/-- With exact routes the positions of a merged list have the cells of its sources, in some
order. -/
theorem Lists.merged {first second : CellList} {routing : Array Int64} {cells₁ cells₂ : List Cell}
    (h₁ : first.Lists cells₁) (h₂ : second.Lists cells₂)
    (hexact : (routing.toList.map Route.decode).Perm
      ((List.range first.count).map .first ++ (List.range second.count).map .second))
    (stamp : Stamp) :
    ∃ cells, (CellList.merged stamp first second routing).Lists cells ∧
      cells.Perm (cells₁ ++ cells₂) := by
  rw [h₁.1, h₂.1] at hexact
  have hsome : ∀ r ∈ routing.toList.map Route.decode, (cellAt cells₁ cells₂ r).isSome := by
    intro r hr
    rcases List.mem_append.1 (hexact.mem_iff.1 hr) with hr | hr
    all_goals
      obtain ⟨i, hi, rfl⟩ := List.mem_map.1 hr
      simpa [cellAt] using hi
  refine ⟨(routing.toList.map Route.decode).filterMap (cellAt cells₁ cells₂), ⟨?_, fun i => ?_⟩, ?_⟩
  · rw [length_filterMap_of_isSome hsome, List.length_map]
    rfl
  · rw [length_filterMap_of_isSome hsome, getElem?_filterMap hsome, List.getElem?_map,
      Array.getElem?_toList, List.length_map]
    cases hraw : routing[i]? with
    | none => exact locate_past hraw
    | some raw =>
      have hmem : Route.decode raw ∈ routing.toList.map Route.decode :=
        List.mem_map_of_mem (Array.mem_toList_iff.2 (Array.mem_of_getElem? hraw))
      obtain ⟨c, hc⟩ := Option.isSome_iff_exists.1 (hsome _ hmem)
      rw [Option.map_some, Option.bind_some, hc]
      cases hroute : Route.decode raw with
      | first j =>
        rw [hroute] at hc
        exact (locate_first hraw hroute).trans (h₁.locate_eq hc)
      | second j =>
        rw [hroute] at hc
        exact (locate_second hraw hroute).trans (h₂.locate_eq hc)
  · rw [← filterMap_cellAt cells₁ cells₂]
    exact hexact.filterMap _

/-- A list with exact routes has its leaves at its positions, in some order. -/
theorem Exact.exists_lists {l : CellList} (h : l.Exact) :
    ∃ cells, l.Lists cells ∧ cells.Perm l.leaves := by
  induction l with
  | direct stamp cells => exact ⟨cells.toList, lists_direct stamp cells.toList, .refl _⟩
  | merged stamp first second routing ih₁ ih₂ =>
    obtain ⟨hfirst, hsecond, hexact⟩ := h
    obtain ⟨cells₁, h₁, hperm₁⟩ := ih₁ hfirst
    obtain ⟨cells₂, h₂, hperm₂⟩ := ih₂ hsecond
    obtain ⟨cells, hcells, hperm⟩ := h₁.merged h₂ hexact stamp
    exact ⟨cells, hcells, hperm.trans (hperm₁.append hperm₂)⟩

/-- Exact routes leave out no position of a source. -/
theorem Exact.count_merged {stamp : Stamp} {first second : CellList} {routing : Array Int64}
    (h : (merged stamp first second routing).Exact) :
    (merged stamp first second routing).count = first.count + second.count := by
  have hlen := h.2.2.length_eq
  simpa [count] using hlen

namespace Lists

variable {l : CellList} {cells : List Cell} {i j : Nat} {c : Cell} (h : l.Lists cells)
include h

theorem addresses_iff : l.Addresses i c ↔ cells[i]? = some c := by
  rw [CellList.addresses_iff, h.2]
  cases cells[i]? <;> simp

theorem exists_addresses (hi : i < l.count) : ∃ c, l.Addresses i c := by
  rw [h.1] at hi
  exact ⟨cells[i], h.addresses_iff.2 (List.getElem?_eq_getElem hi)⟩

theorem eq_of_addresses (hnodup : cells.Nodup) (hi : l.Addresses i c) (hj : l.Addresses j c) :
    i = j := by
  rw [h.addresses_iff] at hi hj
  exact (List.getElem?_inj (List.getElem?_eq_some_iff.1 hi).1 hnodup).1 (hi.trans hj.symm)

end Lists

end CellList

/-- A list of variables, however merged, is a view of cells. Reading and writing at a position
succeed together, at the one cell that the routes lead to, or fail together, with the position and
the count of the list whose end the routes pass, and then no cell changes; what is written is read
at the positions of the cell, and every other position of every list holds what it held. Where the
routes are exact and the leaves distinct, a merged list has a position for each position of its
sources, different positions address different cells, and a write disturbs no other position. -/
theorem cellList_view :
    (∀ (l : CellList) (h : Heap), (∀ c ∈ l.leaves, c.index < h.cells.size) →
      ∀ (i : Nat) (v : Value),
        (∃ c, l.Addresses i c ∧ h.readAt l i = .ok (h.read c) ∧
          h.writeAt v l i = .ok (h.write c v) ∧ h.afterWrite v l i = h.write c v ∧
          ∀ m j, (m.Addresses j c → (h.afterWrite v l i).readAt m j = .ok v) ∧
            (¬m.Addresses j c → (h.afterWrite v l i).readAt m j = h.readAt m j)) ∨
        ∃ m j, l.Leads i m j ∧ m.count ≤ j ∧ h.readAt l i = .error ⟨j, m.count⟩ ∧
          h.writeAt v l i = .error ⟨j, m.count⟩ ∧ h.afterWrite v l i = h) ∧
    ∀ (stamp : Stamp) (first second : CellList) (routing : Array Int64),
      (CellList.merged stamp first second routing).Exact →
      (first.leaves ++ second.leaves).Nodup →
      (∀ i, i < first.count + second.count →
        ∃ c, (CellList.merged stamp first second routing).Addresses i c) ∧
      (∀ i j c, (CellList.merged stamp first second routing).Addresses i c →
        (CellList.merged stamp first second routing).Addresses j c → i = j) ∧
      ∀ (h : Heap), (∀ c ∈ first.leaves ++ second.leaves, c.index < h.cells.size) →
        ∀ (v : Value) (i j : Nat), i ≠ j →
          (h.afterWrite v (.merged stamp first second routing) i).readAt
            (.merged stamp first second routing) j =
          h.readAt (.merged stamp first second routing) j := by
  refine ⟨fun l h hl i v => ?_, fun stamp first second routing hexact hnodup => ?_⟩
  · obtain ⟨c, hc⟩ | ⟨m, j, hlead, hpast⟩ := CellList.addresses_or_past l i
    · refine .inl ⟨c, hc, Heap.readAt_of_addresses hc, Heap.writeAt_of_addresses hc,
        Heap.afterWrite_of_addresses hc, ?_⟩
      rw [Heap.afterWrite_of_addresses hc]
      exact Heap.readAt_write (hl c hc.mem_leaves) v
    · exact .inr ⟨m, j, hlead, hpast, Heap.readAt_of_past hlead hpast,
        Heap.writeAt_of_past hlead hpast, Heap.afterWrite_of_past hlead hpast⟩
  · obtain ⟨cells, hlists, hperm⟩ := hexact.exists_lists
    have hinj := fun i j c => hlists.eq_of_addresses (i := i) (j := j) (c := c)
      (hperm.nodup_iff.2 hnodup)
    refine ⟨fun i hi => hlists.exists_addresses (hexact.count_merged ▸ hi), hinj, ?_⟩
    intro h hl v i j hij
    obtain ⟨c, hc⟩ | ⟨m, k, hlead, hpast⟩ :=
      CellList.addresses_or_past (.merged stamp first second routing) i
    · rw [Heap.afterWrite_of_addresses hc]
      exact (Heap.readAt_write (hl c hc.mem_leaves) v _ _).2 fun hj => hij (hinj i j c hc hj)
    · rw [Heap.afterWrite_of_past hlead hpast]

/-- A merge of two cells in turned order, merged with two more. -/
def turnedList : CellList :=
  .merged 4 (.merged 2 (.direct 0 #[⟨2⟩]) (.direct 1 #[⟨0⟩]) #[-1, 0]) (.direct 3 #[⟨1⟩, ⟨3⟩])
    #[-2, 1, 0, -1]

def turnedHeap : Heap := ⟨#[.int 10, .int 11, .int 12, .int 13], 5⟩

/-- The first position of the list is the last cell. -/
theorem cellList_view_turnedList :
    (∀ c ∈ turnedList.leaves, c.index < turnedHeap.cells.size) ∧ turnedList.Exact ∧
      turnedList.leaves.Nodup ∧
      (turnedHeap.afterWrite .unit turnedList 0).readAt (.direct 6 #[⟨3⟩]) 0 = .ok .unit ∧
      ∀ j, 0 ≠ j → (turnedHeap.afterWrite .unit turnedList 0).readAt turnedList j =
        turnedHeap.readAt turnedList j := by
  have hin : ∀ c ∈ turnedList.leaves, c.index < turnedHeap.cells.size := by decide
  have hexact : turnedList.Exact := ⟨⟨trivial, trivial, by decide⟩, trivial, by decide⟩
  have hnodup : turnedList.leaves.Nodup := by decide
  have hzero : turnedList.Addresses 0 ⟨3⟩ := CellList.addresses_iff.2 (by decide)
  refine ⟨hin, hexact, hnodup, ?_, ?_⟩
  · obtain ⟨c, hc, -, -, -, hseen⟩ | ⟨m, j, hlead, hpast, hread, -⟩ :=
      cellList_view.1 turnedList turnedHeap hin 0 .unit
    · obtain rfl : ⟨3⟩ = c := Except.ok.inj
        ((CellList.addresses_iff.1 hzero).symm.trans (CellList.addresses_iff.1 hc))
      exact (hseen _ 0).1 ⟨6, _, 0, .here .., rfl⟩
    · rw [Heap.readAt_of_addresses hzero] at hread
      cases hread
  · exact (cellList_view.2 _ _ _ _ hexact hnodup).2.2 turnedHeap hin .unit 0

end Quotation
