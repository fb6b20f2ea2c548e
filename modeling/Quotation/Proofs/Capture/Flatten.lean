import Quotation.Proofs.Capture.Quote
import Std.Data.HashMap.Lemmas

/-!
# One frame in place of a chain

A chain of frames says no more than the one frame that lists the variables of all of them, from the
inside out (`Frame.flatten`): that the first slot wins within a frame and the innermost frame within
a chain are one rule. For the slot of a variable it does not matter that frames find it in a table
which they fill once (`Frame.slots_getElem?`); for its cell it does not matter where one frame ends
and the next begins, as long as the storage beside a frame has as many cells as the frame has
variables (`resolve_flatten`). Quoting asks a chain for nothing but cells (`quote_congr`), so it
cannot tell the two apart (`quote_flatten`).
-/

namespace Quotation

/-! ## The slots of a frame -/

deriving instance Hashable for VarId

/-- The variables with their slots, entered in one pass from the first slot on. A variable that has
been entered keeps its slot. -/
def Frame.slots (f : Frame) : Std.HashMap VarId Nat :=
  f.vars.zipIdx.foldl (fun slots entry => slots.insertIfNew entry.1 entry.2) ∅

theorem foldl_insertIfNew_getElem? (vs : List VarId) (slots : Std.HashMap VarId Nat) (start : Nat)
    (v : VarId) :
    ((vs.zipIdx start).foldl (fun slots entry => slots.insertIfNew entry.1 entry.2) slots)[v]? =
      slots[v]?.or ((vs.idxOf? v).map (· + start)) := by
  induction vs generalizing slots start with
  | nil => simp
  | cons w vs ih =>
    rw [List.zipIdx_cons, List.foldl_cons, ih, Std.HashMap.getElem?_insertIfNew, List.idxOf?_cons]
    by_cases hwv : w = v
    · subst hwv
      cases hslot : slots[w]? with
      | none => simp [Std.HashMap.mem_iff_isSome_getElem?, hslot]
      | some slot => simp [Std.HashMap.mem_iff_isSome_getElem?, hslot]
    · have hne : (w == v) = false := beq_false_of_ne hwv
      simp [hne, Nat.add_assoc, Nat.add_comm 1, Function.comp_def]

/-- The table has the first position of each variable. -/
theorem Frame.slots_getElem? (f : Frame) (v : VarId) : f.slots[v]? = f.slot? v := by
  simp [Frame.slots, foldl_insertIfNew_getElem?, Frame.slot?]

/-! ## The chain as one frame -/

/-- The variables of all frames, from the inside out. -/
def Frame.flatten (frames : List Frame) : Frame := ⟨frames.flatMap Frame.vars⟩

/-- The cells of all storages, from the inside out. -/
def Storage.flatten (storages : List Storage) : Storage :=
  ⟨(storages.flatMap fun s => s.cells.toList).toArray⟩

/-- The storage has a cell for each position in the frame, and no more. -/
def Storage.Fits (f : Frame) (s : Storage) : Prop := s.cells.size = f.vars.length

/-- The cell in the storage that the frame gives to a variable. -/
def Frame.cell? (f : Frame) (s : Storage) (v : VarId) : Option Cell := (f.slot? v).bind s.cell?

theorem Storage.ofFrame_fits (f : Frame) (h : Heap) : Storage.Fits f (Storage.ofFrame f h).1 := by
  simp [Storage.Fits, Storage.ofFrame]

section
variable {f : Frame} {s : Storage} {frames : List Frame} {storages : List Storage} {v : VarId}

theorem Frame.slot?_lt {slot : Nat} (h : f.slot? v = some slot) : slot < f.vars.length :=
  (List.findIdx?_eq_some_iff_findIdx_eq.1 h).1

/-- A variable for which there is no cell is looked for further out. -/
theorem resolve_cons (h : f.vars.length ≤ s.cells.size) :
    resolve v (f :: frames) (s :: storages) =
      match f.cell? s v with
      | some c => .ok c
      | none => resolve v frames storages := by
  rw [resolve, Frame.cell?]
  cases hslot : f.slot? v with
  | none => rfl
  | some slot =>
    have hlt : slot < s.cells.size := Nat.lt_of_lt_of_le (Frame.slot?_lt hslot) h
    have hcell : s.cell? slot = some s.cells[slot] := Array.getElem?_eq_getElem hlt
    simp [hcell]

/-- The slots of an inner frame lie in its own part of the cells, and those of the frames around it
past that part. -/
theorem Frame.cell?_append (h : Storage.Fits f s) (g : Frame) (cells : Array Cell) :
    Frame.cell? ⟨f.vars ++ g.vars⟩ ⟨s.cells ++ cells⟩ v = (f.cell? s v).or (g.cell? ⟨cells⟩ v) := by
  have hslot : Frame.slot? ⟨f.vars ++ g.vars⟩ v =
      (f.slot? v).or ((g.slot? v).map (· + f.vars.length)) :=
    List.findIdx?_append
  rw [Frame.cell?, hslot, Frame.cell?, Frame.cell?]
  cases hinner : f.slot? v with
  | some slot =>
    have hlt : slot < s.cells.size := h.symm ▸ Frame.slot?_lt hinner
    simp [Storage.cell?, Array.getElem?_append_left hlt, hlt]
  | none =>
    cases g.slot? v with
    | none => rfl
    | some slot =>
      have hpast : s.cells.size ≤ slot + f.vars.length := h ▸ Nat.le_add_left _ _
      have hpos : slot + f.vars.length - s.cells.size = slot := by rw [h, Nat.add_sub_cancel]
      simp [Storage.cell?, Array.getElem?_append_right hpast, hpos]

theorem Storage.flatten_cons :
    Storage.flatten (s :: storages) = ⟨s.cells ++ (Storage.flatten storages).cells⟩ := by
  simp [Storage.flatten]

theorem Storage.flatten_fits (h : List.Forall₂ Storage.Fits frames storages) :
    Storage.Fits (Frame.flatten frames) (Storage.flatten storages) := by
  induction h with
  | nil => rfl
  | cons hfits _ ih =>
    rw [Storage.flatten_cons]
    simp only [Storage.Fits, Array.size_append, Frame.flatten, List.flatMap_cons,
      List.length_append] at hfits ih ⊢
    rw [hfits, ih]

/-- By induction on the frames: the cell that one frame has for a variable is that of the innermost
frame, or else that of the flattened frames around it. -/
theorem resolve_flatten (h : List.Forall₂ Storage.Fits frames storages)
    (outer outer' : List Storage) (more : Array Cell) :
    resolve v frames (storages ++ outer) =
      resolve v [Frame.flatten frames]
        (⟨(Storage.flatten storages).cells ++ more⟩ :: outer') := by
  have hfits := Storage.flatten_fits h
  rw [Storage.Fits] at hfits
  rw [resolve_cons (by rw [Array.size_append, hfits]; exact Nat.le_add_right _ _)]
  clear hfits
  induction h with
  | nil => rfl
  | @cons f s frames storages hfits _ ih =>
    have hcell := Frame.cell?_append (v := v) hfits (Frame.flatten frames)
      ((Storage.flatten storages).cells ++ more)
    rw [List.cons_append, resolve_cons (Nat.le_of_eq hfits.symm), ih, Storage.flatten_cons,
      Array.append_assoc]
    rw [show Frame.flatten (f :: frames) = ⟨f.vars ++ (Frame.flatten frames).vars⟩ from rfl, hcell]
    cases f.cell? s v <;> rfl

end

/-! ## Quoting -/

section
variable {frames frames' : List Frame} {storages storages' : List Storage}
  (h : ∀ v, resolve v frames storages = resolve v frames' storages')

include h

theorem captured_congr (v : VarId) : captured frames storages v = captured frames' storages' v := by
  rw [captured, captured, h]

theorem part_congr (vs : List VarId) : part frames storages vs = part frames' storages' vs := by
  simp only [part, captured_congr h]

theorem quotePass_congr [Tracing] : quotePass frames storages = quotePass frames' storages' := by
  simp only [quotePass, quoteVar, quoteCellList, captured_congr h, part_congr h]

/-- Two chains that have the same cells for all variables, and the same reasons where they have
none, make no difference to quoting. -/
theorem quote_congr [Tracing] : quote frames storages = quote frames' storages' := by
  funext arena pool stamp root
  simp only [quote, quotePass_congr h]

end

/-- Quoting against a chain has the outcome of quoting against one frame that lists the variables of
all frames, beside a storage with all cells in the same order. Storages further out make no
difference, and neither do further cells. The slots of a frame are those that it enters in its table
in one pass. -/
theorem quote_flatten [Tracing] {frames : List Frame} {storages : List Storage}
    (h : List.Forall₂ Storage.Fits frames storages) (outer outer' : List Storage)
    (more : Array Cell) :
    quote frames (storages ++ outer) =
      quote [Frame.flatten frames] (⟨(Storage.flatten storages).cells ++ more⟩ :: outer') ∧
    ∀ f ∈ Frame.flatten frames :: frames, ∀ v, f.slots[v]? = f.slot? v :=
  ⟨quote_congr fun _ => resolve_flatten h outer outer' more, fun f _ => f.slots_getElem?⟩

/-- A frame that names one variable twice, and one around it that names the variable as well. -/
def overlapping : List Frame := [⟨[⟨0⟩, ⟨2⟩, ⟨0⟩]⟩, ⟨[⟨1⟩, ⟨0⟩]⟩]

/-- Storages for them, the outer one made first. -/
def overlappingStorages : List Storage :=
  let (outer, heap) := Storage.ofFrame ⟨[⟨1⟩, ⟨0⟩]⟩ {}
  [(Storage.ofFrame ⟨[⟨0⟩, ⟨2⟩, ⟨0⟩]⟩ heap).1, outer]

/-- Of the three cells for the captured variable, the first of the inner storage is taken. -/
theorem quote_flatten_overlapping :
    List.Forall₂ Storage.Fits overlapping overlappingStorages ∧
      quote overlapping (overlappingStorages ++ [⟨#[⟨8⟩]⟩]) listFunction {} 0 ⟨1⟩ =
        quote [⟨[⟨0⟩, ⟨2⟩, ⟨0⟩, ⟨1⟩, ⟨0⟩]⟩] [⟨#[⟨2⟩, ⟨3⟩, ⟨4⟩, ⟨0⟩, ⟨1⟩]⟩] listFunction {} 0 ⟨1⟩ ∧
      (quote overlapping (overlappingStorages ++ [⟨#[⟨8⟩]⟩]) listFunction {} 0 ⟨1⟩).map
        (fun q => q.pool.values[0]?) = .ok (some (.cellList (.direct 0 #[⟨2⟩]))) := by
  have hfits : List.Forall₂ Storage.Fits overlapping overlappingStorages :=
    .cons (Storage.ofFrame_fits _ _) (.cons (Storage.ofFrame_fits _ _) .nil)
  have hcells : Storage.flatten overlappingStorages = ⟨#[⟨2⟩, ⟨3⟩, ⟨4⟩, ⟨0⟩, ⟨1⟩]⟩ := by
    decide +kernel
  obtain ⟨hquote, -⟩ := quote_flatten hfits [⟨#[⟨8⟩]⟩] [] #[]
  refine ⟨hfits, ?_, by decide +kernel⟩
  rw [hquote, hcells]
  rfl

end Quotation
