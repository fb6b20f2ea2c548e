import Quotation.Value.Picture
import Quotation.Proofs.Eval.Environment
import Quotation.Proofs.Eval.Lockstep
import Mathlib.Data.Finset.Card
import Mathlib.Data.Finset.Range

/-!
# Debug text ends

What a cell shows is drawn under the cells that are open, and a cell is opened once at most on the
way down, so drawing ends on every heap (`Heap.shown`, by recursion on the cells that are not open
yet): functions and lists of variables are finite by themselves, and every way back to where it came
from passes through a cell. The levels that `Heap.picture` draws with are enough (`picture_eq`).

`Picture.Shows` says where a part of a picture is. Along the way down to any part the open cells are
distinct, a cell is drawn as locked exactly where it is open, and with what it holds anywhere else
(`picture_opens_once`).
-/

namespace Quotation

/-! ## Drawing -/

namespace Heap

/-- How many cells of the heap are not open. -/
def unopened (h : Heap) (opened : List Cell) : Nat :=
  ((Finset.range h.cells.size).filter fun i => ⟨i⟩ ∉ opened).card

theorem unopened_cons_lt {h : Heap} {opened : List Cell} {c : Cell} (hc : c ∉ opened)
    (hmade : c.index < h.cells.size) : h.unopened (c :: opened) < h.unopened opened := by
  refine Finset.card_lt_card (Finset.ssubset_iff_subset_ne.2 ⟨fun i hi => ?_, fun heq => ?_⟩)
  · obtain ⟨hi, hnot⟩ := Finset.mem_filter.1 hi
    exact Finset.mem_filter.2 ⟨hi, fun hmem => hnot (List.mem_cons_of_mem c hmem)⟩
  · have hmem : c.index ∈ (Finset.range h.cells.size).filter fun i => ⟨i⟩ ∉ opened :=
      Finset.mem_filter.2 ⟨Finset.mem_range.2 hmade, hc⟩
    rw [← heq] at hmem
    exact (Finset.mem_filter.1 hmem).2 List.mem_cons_self

theorem unopened_le (h : Heap) (opened : List Cell) : h.unopened opened ≤ h.cells.size :=
  (Finset.card_filter_le ..).trans_eq (Finset.card_range _)

theorem read_of_size_le {h : Heap} {c : Cell} (hc : h.cells.size ≤ c.index) : h.read c = .unit := by
  rw [read, Array.getElem?_eq_none hc]
  rfl

/-- The picture of a cell under the cells that are open. -/
def shown (h : Heap) (opened : List Cell) (c : Cell) : Picture :=
  if c ∈ opened then .locked c
  else if c.index < h.cells.size then
    .cell c ((h.read c).picture fun d => h.shown (c :: opened) d)
  else .cell c (Value.unit.picture .locked)
termination_by h.unopened opened
decreasing_by exact unopened_cons_lt ‹_› ‹_›

theorem shown_eq (h : Heap) (opened : List Cell) (c : Cell) :
    h.shown opened c = if c ∈ opened then .locked c
      else .cell c ((h.read c).picture (h.shown (c :: opened))) := by
  rw [shown]
  split
  · rfl
  · split
    · rfl
    · rename_i hout
      rw [read_of_size_le (Nat.le_of_not_lt hout)]
      rfl

theorem cellPicture_eq_shown (h : Heap) {levels : Nat} {opened : List Cell}
    (hle : h.unopened opened < levels) : h.cellPicture levels opened = h.shown opened := by
  induction levels generalizing opened with
  | zero => exact absurd hle (Nat.not_lt_zero _)
  | succ levels ih =>
    funext c
    rw [cellPicture, shown_eq]
    split
    · rfl
    · rename_i hc
      by_cases hmade : c.index < h.cells.size
      · have hlt := unopened_cons_lt hc hmade
        rw [ih (by omega)]
      · rw [read_of_size_le (Nat.le_of_not_lt hmade)]
        rfl

theorem picture_eq (h : Heap) (v : Value) : h.picture v = v.picture (h.shown []) := by
  rw [picture, cellPicture_eq_shown h (Nat.lt_succ_of_le (h.unopened_le []))]

end Heap

/-! ## The cells of a picture -/

namespace Picture

/-- Between text, the picture shows such cells, each of them as `ofCell` draws it. -/
inductive MadeOf (cells : Cell → Prop) (ofCell : Cell → Picture) : Picture → Prop where
  | text (s : String) : MadeOf cells ofCell (.text s)
  | append {p q : Picture} (hp : MadeOf cells ofCell p) (hq : MadeOf cells ofCell q) :
    MadeOf cells ofCell (.append p q)
  | cell {c : Cell} {p : Picture} (hc : cells c) (hp : p = ofCell c) : MadeOf cells ofCell p
  | unordered {p : Unit → Picture} (hp : MadeOf cells ofCell (p ())) :
    MadeOf cells ofCell (.unordered p)

namespace MadeOf

variable {cells : Cell → Prop} {ofCell : Cell → Picture}

theorem separated {ps : List Picture} (h : ∀ p ∈ ps, MadeOf cells ofCell p) :
    MadeOf cells ofCell (.separated ps) := by
  cases ps with
  | nil => exact .text _
  | cons p ps =>
    obtain ⟨hp, hps⟩ := List.forall_mem_cons.1 h
    show MadeOf cells ofCell (ps.foldl _ p)
    clear h
    induction ps generalizing p with
    | nil => exact hp
    | cons q qs ih =>
      obtain ⟨hq, hqs⟩ := List.forall_mem_cons.1 hps
      exact ih _ (.append hp (.append (.text _) hq)) hqs

theorem list {ps : List Picture} (h : ∀ p ∈ ps, MadeOf cells ofCell p) :
    MadeOf cells ofCell (.list ps) :=
  .append (.append (.text _) (separated h)) (.text _)

theorem texts {α : Type} (s : α → String) (xs : List α) :
    MadeOf cells ofCell (.list (xs.map fun x => .text (s x))) :=
  list (List.forall_mem_map.2 fun x _ => .text (s x))

theorem ofCells {cs : List Cell} (h : ∀ c ∈ cs, cells c) :
    MadeOf cells ofCell (.list (cs.map ofCell)) :=
  list (List.forall_mem_map.2 fun c hc => .cell (h c hc) rfl)

end MadeOf

end Picture

open Picture (MadeOf)

section
variable {cells : Cell → Prop} {ofCell : Cell → Picture}

theorem CellList.picture_madeOf {l : CellList} (h : ∀ c ∈ l.leaves, cells c) :
    MadeOf cells ofCell (l.picture ofCell) := by
  induction l with
  | direct stamp cs =>
    exact .append (.append (.text _) (.ofCells h)) (.text _)
  | merged stamp first second routing ihfirst ihsecond =>
    have hfirst := ihfirst fun c hc => h c (List.mem_append_left _ hc)
    have hsecond := ihsecond fun c hc => h c (List.mem_append_right _ hc)
    exact .append (.append (.append (.append (.append (.append (.text _) hfirst) (.text _)) hsecond)
      (.text _)) (.texts ..)) (.text _)

theorem Scope.picture_madeOf {s : Scope} (h : ∀ v c, s.find? v = some c → cells c) :
    MadeOf cells ofCell (s.picture ofCell) := by
  rw [Scope.picture]
  split
  · exact .text _
  · refine .unordered (.append (.append (.text _) (.separated ?_)) (.text _))
    refine List.forall_mem_map.2 fun e he => .append (.text _) (.cell ?_ rfl)
    exact h e.1 e.2 (Scope.find?_eq_some_iff.2 he)

theorem Closure.picture_madeOf {f : Closure} (h : ∀ v c, f.captures.find? v = some c → cells c) :
    MadeOf cells ofCell (f.picture ofCell) := by
  refine .append (.append (.append ?_ (.text _)) (Scope.picture_madeOf h)) (.text _)
  refine .append (.append (.append (.text _) ?_) (.text _)) (.texts ..)
  cases f.name <;> exact .text _

theorem Value.picture_madeOf {v : Value} (h : v.Within cells fun _ => True) :
    MadeOf cells ofCell (v.picture ofCell) := by
  cases v with
  | unit | int | bool | builtin => exact .text _
  | function f => exact .append (.append (.text _) (Closure.picture_madeOf h.2)) (.text _)
  | cell c => exact .append (.append (.text _) (.cell h rfl)) (.text _)
  | cellList l => exact .append (.append (.text _) (CellList.picture_madeOf h)) (.text _)
  | routing codes => exact .append (.append (.text _) (.texts ..)) (.text _)

end

/-! ## The way down -/

/-- The picture shows `part` inside of these open cells, the innermost first. -/
inductive Picture.Shows (whole : Picture) : List Cell → Picture → Prop where
  | whole : Shows whole [] whole
  | left {opened : List Cell} {p q : Picture} (h : Shows whole opened (.append p q)) :
    Shows whole opened p
  | right {opened : List Cell} {p q : Picture} (h : Shows whole opened (.append p q)) :
    Shows whole opened q
  | content {opened : List Cell} {c : Cell} {p : Picture} (h : Shows whole opened (.cell c p)) :
    Shows whole (c :: opened) p
  | entries {opened : List Cell} {p : Unit → Picture} (h : Shows whole opened (.unordered p)) :
    Shows whole opened (p ())

namespace Heap

/-- All cells that the value holds are cells of the heap. -/
def Contains (h : Heap) (v : Value) : Prop :=
  v.Within (fun c => c.index < h.cells.size) fun _ => True

section
variable {h : Heap} {opened : List Cell}

theorem shown_cases (h : Heap) (opened : List Cell) (c : Cell) :
    c ∈ opened ∧ h.shown opened c = .locked c ∨
    c ∉ opened ∧ h.shown opened c = .cell c ((h.read c).picture (h.shown (c :: opened))) := by
  rw [shown_eq]
  split
  · exact .inl ⟨‹_›, rfl⟩
  · exact .inr ⟨‹_›, rfl⟩

section
variable {cells : Cell → Prop}

theorem madeOf_append {p q : Picture} (hmade : MadeOf cells (h.shown opened) (.append p q)) :
    MadeOf cells (h.shown opened) p ∧ MadeOf cells (h.shown opened) q := by
  cases hmade with
  | append hp hq => exact ⟨hp, hq⟩
  | @cell c _ _ hp =>
    rcases h.shown_cases opened c with ⟨-, heq⟩ | ⟨-, heq⟩ <;> cases hp.trans heq

theorem madeOf_unordered {p : Unit → Picture}
    (hmade : MadeOf cells (h.shown opened) (.unordered p)) :
    MadeOf cells (h.shown opened) (p ()) := by
  cases hmade with
  | unordered hp => exact hp
  | @cell c _ _ hp =>
    rcases h.shown_cases opened c with ⟨-, heq⟩ | ⟨-, heq⟩ <;> cases hp.trans heq

theorem madeOf_locked {c : Cell} (hmade : MadeOf cells (h.shown opened) (.locked c)) :
    c ∈ opened := by
  cases hmade with
  | @cell d _ _ hp =>
    rcases h.shown_cases opened d with ⟨hd, heq⟩ | ⟨-, heq⟩
    · exact Picture.locked.inj (hp.trans heq) ▸ hd
    · cases hp.trans heq

theorem madeOf_cell {c : Cell} {p : Picture} (hmade : MadeOf cells (h.shown opened) (.cell c p)) :
    cells c ∧ c ∉ opened ∧ p = (h.read c).picture (h.shown (c :: opened)) := by
  cases hmade with
  | @cell d _ hd hp =>
    rcases h.shown_cases opened d with ⟨-, heq⟩ | ⟨hnot, heq⟩
    · cases hp.trans heq
    · obtain ⟨rfl, rfl⟩ := Picture.cell.inj (hp.trans heq)
      exact ⟨hd, hnot, rfl⟩

/-- Down to any part the open cells are distinct, and only such cells are shown as are held. -/
theorem shows_madeOf {v : Value} (hv : v.Within cells fun _ => True)
    (hh : ∀ c, cells c → (h.read c).Within cells fun _ => True) {part : Picture}
    (hpart : (h.picture v).Shows opened part) :
    opened.Nodup ∧ (∀ c ∈ opened, cells c) ∧ MadeOf cells (h.shown opened) part := by
  induction hpart with
  | whole => exact ⟨.nil, nofun, h.picture_eq v ▸ Value.picture_madeOf hv⟩
  | left _ ih => exact ⟨ih.1, ih.2.1, (madeOf_append ih.2.2).1⟩
  | right _ ih => exact ⟨ih.1, ih.2.1, (madeOf_append ih.2.2).2⟩
  | entries _ ih => exact ⟨ih.1, ih.2.1, madeOf_unordered ih.2.2⟩
  | content _ ih =>
    obtain ⟨hnodup, hcells, hmade⟩ := ih
    obtain ⟨hc, hnot, rfl⟩ := madeOf_cell hmade
    exact ⟨hnodup.cons hnot, List.forall_mem_cons.2 ⟨hc, hcells⟩, Value.picture_madeOf (hh _ hc)⟩

end

/-- Distinct cells of the heap are no more than it has. -/
theorem length_le_of_nodup (hnodup : opened.Nodup) (hmade : ∀ c ∈ opened, c.index < h.cells.size) :
    opened.length ≤ h.cells.size := by
  have hindices : (opened.map Cell.index).Nodup :=
    hnodup.map fun c d heq => congrArg Cell.mk heq
  have hsub : (opened.map Cell.index).toFinset ⊆ Finset.range h.cells.size := fun i hi => by
    obtain ⟨c, hc, rfl⟩ := List.mem_map.1 (List.mem_toFinset.1 hi)
    exact Finset.mem_range.2 (hmade c hc)
  have hle := Finset.card_le_card hsub
  rwa [List.toFinset_card_of_nodup hindices, List.length_map, Finset.card_range] at hle

end

/-- The picture of a value is drawn to the end on every heap. Wherever a cell comes in it, the cell
is shown as locked if it is open there, and otherwise with what it holds. The open cells are
distinct, and if all cells that are held are cells of the heap, no more are open than it has. -/
theorem picture_opens_once (h : Heap) (v : Value) :
    h.picture v = v.picture (h.shown []) ∧
    (∀ opened c, (h.shown opened c).render = if c ∈ opened then "StrongBox(<locked>)"
      else "StrongBox(" ++ ((h.read c).picture (h.shown (c :: opened))).render ++ ")") ∧
    ∀ opened part, (h.picture v).Shows opened part →
      opened.Nodup ∧
      (h.Contains v ∧ (∀ u ∈ h.cells, h.Contains u) → opened.length ≤ h.cells.size) ∧
      (∀ c, part = .locked c → c ∈ opened) ∧
      ∀ c content, part = .cell c content →
        c ∉ opened ∧ content = (h.read c).picture (h.shown (c :: opened)) := by
  refine ⟨h.picture_eq v, fun opened c => ?_, fun opened part hpart => ?_⟩
  · rw [shown_eq]
    split <;> rfl
  · -- only the number of open cells asks for cells of the heap
    have hall : ∀ u : Value, u.Within (fun _ => True) fun _ => True := fun u => by
      cases u <;> simp [Value.Within]
    obtain ⟨hnodup, -, hmade⟩ := shows_madeOf (hall v) (fun c _ => hall _) hpart
    refine ⟨hnodup, fun ⟨hv, hh⟩ => ?_, ?_, ?_⟩
    · obtain ⟨-, hcells, -⟩ := shows_madeOf hv (fun c hc => hh _ (by simp [read, hc])) hpart
      exact length_le_of_nodup hnodup hcells
    · rintro c rfl
      exact madeOf_locked hmade
    · rintro c content rfl
      exact (madeOf_cell hmade).2

/-- The first cell holds a merged list over itself and over the second cell, which holds the first.
The text of the second one comes to both again inside the list, where they are open. -/
theorem picture_opens_once_listOfItself :
    let h : Heap := ⟨#[.cellList (.merged 2 (.direct 0 #[⟨0⟩]) (.direct 1 #[⟨1⟩]) #[0, -1]),
      .cell ⟨0⟩], 3⟩
    (∀ opened part, (h.picture (.cell ⟨1⟩)).Shows opened part → opened.length ≤ 2) ∧
    h.debugText (.cell ⟨1⟩) = some ("Cell(StrongBox(Cell(StrongBox(Variables(" ++
      "MergedRuntimeVariables \x7b first: BoxedVariables " ++
      "\x7b boxes: [StrongBox(<locked>)] \x7d, second: BoxedVariables " ++
      "\x7b boxes: [StrongBox(<locked>)] \x7d, routing: [0, -1] \x7d)))))") := by
  intro h
  obtain ⟨-, -, hshows⟩ := h.picture_opens_once (.cell ⟨1⟩)
  have hheld : h.Contains (.cell ⟨1⟩) ∧ ∀ u ∈ h.cells, h.Contains u := by
    simp [h, Contains, Value.Within, CellList.leaves]
  exact ⟨fun opened part hpart => (hshows opened part hpart).2.1 hheld, by decide +kernel⟩

end Heap

end Quotation
