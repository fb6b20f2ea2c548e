import Quotation.Index

/-!
# Scopes

A scope binds variables to cells. Its entries are kept in the order of the variables, each variable
once, so two scopes are merged in one go along both. Looking a variable up is the view of a scope:
`find?_insert` and `find?_union` say what binding and merging do to it.
-/

namespace Quotation

structure Scope where
  entries : List (VarId × Cell)
  sorted : entries.Pairwise (·.1.index < ·.1.index)
  deriving DecidableEq, Repr

namespace Scope

def empty : Scope := ⟨[], .nil⟩

instance : EmptyCollection Scope := ⟨empty⟩

instance : Inhabited Scope := ⟨{}⟩

/-! ## Sorted entries -/

/-- Puts `e` into its place in a sorted list of entries, over an earlier binding of its variable.
What comes after `e` goes through `rest`. -/
def placeEntry (e : VarId × Cell) (rest : List (VarId × Cell) → List (VarId × Cell)) :
    List (VarId × Cell) → List (VarId × Cell)
  | [] => e :: rest []
  | d :: ds =>
    if e.1.index < d.1.index then e :: rest (d :: ds)
    else if e.1 = d.1 then e :: rest ds
    else d :: placeEntry e rest ds

/-- The entries of two sorted lists; of two for one variable that of the first list counts. -/
def mergeEntries : List (VarId × Cell) → List (VarId × Cell) → List (VarId × Cell)
  | [] => id
  | e :: es => placeEntry e (mergeEntries es)

section

variable {e : VarId × Cell} {es ds : List (VarId × Cell)}
  {rest : List (VarId × Cell) → List (VarId × Cell)}

theorem mem_of_mem_placeEntry {p : VarId × Cell → Prop}
    (hrest : ∀ ds, ∀ x ∈ rest ds, p x ∨ x ∈ ds) (he : p e) {x : VarId × Cell}
    (h : x ∈ placeEntry e rest ds) : p x ∨ x ∈ ds := by
  induction ds with
  | nil =>
    rcases List.mem_cons.1 h with rfl | h
    · exact .inl he
    · exact hrest _ x h
  | cons d ds ih => grind [placeEntry]

theorem sorted_placeEntry (hrest : ∀ ds, ∀ x ∈ rest ds, e.1.index < x.1.index ∨ x ∈ ds)
    (hsorted : ∀ ds, ds.Pairwise (·.1.index < ·.1.index) →
      (rest ds).Pairwise (·.1.index < ·.1.index))
    (h : ds.Pairwise (·.1.index < ·.1.index)) :
    (placeEntry e rest ds).Pairwise (·.1.index < ·.1.index) := by
  induction ds with
  | nil =>
    refine List.pairwise_cons.2 ⟨fun x hx => ?_, hsorted _ h⟩
    exact (hrest _ x hx).resolve_right List.not_mem_nil
  | cons d ds ih =>
    obtain ⟨hd, hds⟩ := List.pairwise_cons.1 h
    unfold placeEntry
    split
    · rename_i hlt
      refine List.pairwise_cons.2 ⟨fun x hx => ?_, hsorted _ h⟩
      rcases hrest _ x hx with hx | hx
      · exact hx
      · rcases List.mem_cons.1 hx with rfl | hx
        · exact hlt
        · exact Nat.lt_trans hlt (hd x hx)
    · rename_i hge
      split
      · rename_i heq
        refine List.pairwise_cons.2 ⟨fun x hx => ?_, hsorted _ hds⟩
        rcases hrest _ x hx with hx | hx
        · exact hx
        · exact heq ▸ hd x hx
      · rename_i hne
        have hde : d.1.index < e.1.index := by
          have : e.1.index ≠ d.1.index := fun h => hne (by
            obtain ⟨⟨i⟩, _⟩ := e; obtain ⟨⟨j⟩, _⟩ := d; simp_all)
          omega
        refine List.pairwise_cons.2 ⟨fun x hx => ?_, ih hds⟩
        have hx := mem_of_mem_placeEntry (p := fun x => e.1.index ≤ x.1.index)
          (fun ds x hx => (hrest ds x hx).imp_left Nat.le_of_lt) (Nat.le_refl _) hx
        rcases hx with hx | hx
        · exact Nat.lt_of_lt_of_le hde hx
        · exact hd x hx

/-- The look-up that `rest` adds to, `found`, must not find a variable that comes before `e`: such a
one is left in its place without asking `rest`. -/
theorem find?_placeEntry {w : VarId} {found : Option Cell}
    (hfound : found.isSome → e.1.index < w.index)
    (hrest : ∀ ds, ds.Pairwise (·.1.index < ·.1.index) →
      ((rest ds).find? (·.1 = w)).map (·.2) = found.or ((ds.find? (·.1 = w)).map (·.2)))
    (h : ds.Pairwise (·.1.index < ·.1.index)) :
    ((placeEntry e rest ds).find? (·.1 = w)).map (·.2) =
      if e.1 = w then some e.2 else found.or ((ds.find? (·.1 = w)).map (·.2)) := by
  induction ds with
  | nil => by_cases hew : e.1 = w <;> simp [placeEntry, hew, hrest]
  | cons d ds ih =>
    obtain ⟨_, hds⟩ := List.pairwise_cons.1 h
    unfold placeEntry
    split
    · by_cases hew : e.1 = w
      · simp [hew]
      · simp [hew, List.find?_cons_of_neg, hrest _ h]
    · rename_i hge
      split
      · rename_i heq
        by_cases hew : e.1 = w
        · simp [hew]
        · have hdw : ¬ d.1 = w := fun hd => hew (heq.trans hd)
          simp [hew, hdw, hrest _ hds]
      · rename_i hne
        by_cases hdw : d.1 = w
        · have hew : ¬ e.1 = w := fun he => hne (he.trans hdw.symm)
          have hnone : found = none := by
            cases found with
            | none => rfl
            | some c => exact absurd (hfound rfl) (hdw ▸ hge)
          simp [hdw, hew, hnone]
        · simp [hdw, ih hds]

theorem mem_of_mem_mergeEntries {x : VarId × Cell} (h : x ∈ mergeEntries es ds) :
    x ∈ es ∨ x ∈ ds := by
  induction es generalizing ds x with
  | nil => exact .inr h
  | cons e es ih =>
    exact mem_of_mem_placeEntry (p := (· ∈ e :: es))
      (fun _ _ hx => (ih hx).imp_left (List.mem_cons_of_mem e)) List.mem_cons_self h

theorem sorted_mergeEntries (hes : es.Pairwise (·.1.index < ·.1.index))
    (hds : ds.Pairwise (·.1.index < ·.1.index)) :
    (mergeEntries es ds).Pairwise (·.1.index < ·.1.index) := by
  induction es generalizing ds with
  | nil => exact hds
  | cons e es ih =>
    obtain ⟨he, hes⟩ := List.pairwise_cons.1 hes
    exact sorted_placeEntry
      (fun _ x hx => (mem_of_mem_mergeEntries hx).imp_left (he x)) (fun _ => ih hes) hds

theorem find?_mergeEntries {w : VarId} (hes : es.Pairwise (·.1.index < ·.1.index))
    (hds : ds.Pairwise (·.1.index < ·.1.index)) :
    ((mergeEntries es ds).find? (·.1 = w)).map (·.2) =
      ((es.find? (·.1 = w)).map (·.2)).or ((ds.find? (·.1 = w)).map (·.2)) := by
  induction es generalizing ds with
  | nil => simp [mergeEntries]
  | cons e es ih =>
    obtain ⟨he, hes⟩ := List.pairwise_cons.1 hes
    have hfound : ((es.find? (·.1 = w)).map (·.2)).isSome → e.1.index < w.index := by
      intro h
      rw [Option.isSome_map] at h
      obtain ⟨x, hx⟩ := Option.isSome_iff_exists.1 h
      have hw : x.1 = w := by simpa using List.find?_some hx
      exact hw ▸ he x (List.mem_of_find?_eq_some hx)
    rw [mergeEntries, find?_placeEntry hfound (fun _ => ih hes) hds]
    by_cases hew : e.1 = w <;> simp [hew]

end

/-! ## Binding -/

def insert (s : Scope) (v : VarId) (c : Cell) : Scope where
  entries := placeEntry (v, c) id s.entries
  sorted := sorted_placeEntry (fun _ _ => .inr) (fun _ => id) s.sorted

def find? (s : Scope) (v : VarId) : Option Cell :=
  (s.entries.find? (·.1 = v)).map (·.2)

theorem find?_insert (s : Scope) (v w : VarId) (c : Cell) :
    (s.insert v c).find? w = if v = w then some c else s.find? w :=
  find?_placeEntry (fun h : (none : Option Cell).isSome => nomatch h) (fun _ _ => rfl) s.sorted

@[simp] theorem find?_empty (v : VarId) : ({} : Scope).find? v = none := rfl

/-- The bindings of `s`, and those of `t` for the variables that `s` does not bind. -/
def union (s t : Scope) : Scope where
  entries := mergeEntries s.entries t.entries
  sorted := sorted_mergeEntries s.sorted t.sorted

@[simp] theorem find?_union (s t : Scope) (v : VarId) :
    (s.union t).find? v = (s.find? v).or (t.find? v) :=
  find?_mergeEntries s.sorted t.sorted

def isEmpty (s : Scope) : Bool := s.entries.isEmpty

/-- The scope with the given bindings; of two for one variable the later counts. -/
def ofList (es : List (VarId × Cell)) : Scope :=
  es.foldl (fun s e => s.insert e.1 e.2) {}

end Scope

end Quotation
