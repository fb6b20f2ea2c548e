import Quotation.Arena.Basic
import Quotation.Pool

/-!
# Growth

Arenas and pools only ever have entries added at the end of their tables. `Arena.Grows` and
`Pool.Grows` say so of two arenas and of two pools, and what could be read before growing is read
unchanged afterwards (`node?`, `exprs?`, `vars?`, `handlers?`, `get?`). Quoting declares no
variable; where variables may have been declared as well, the one arena is `Arena.PartOf` the other.
-/

namespace Quotation

/-! ## Tables -/

theorem append_list_eq {α : Type} (xs : Array α) (l : List α) : xs ++ l = xs ++ l.toArray :=
  Array.ext' (by simp)

/-- `ys` has the entries of `xs`, and maybe more after them. -/
def Extends {α : Type} (xs ys : Array α) : Prop := ∃ zs, ys = xs ++ zs

namespace Extends

variable {α : Type} {xs ys zs : Array α}

theorem refl (xs : Array α) : Extends xs xs := ⟨#[], by simp⟩

theorem trans (h : Extends xs ys) (h' : Extends ys zs) : Extends xs zs := by
  obtain ⟨us, rfl⟩ := h
  obtain ⟨vs, rfl⟩ := h'
  exact ⟨us ++ vs, Array.append_assoc⟩

theorem push (xs : Array α) (x : α) : Extends xs (xs.push x) := ⟨#[x], by simp⟩

theorem append (xs : Array α) (l : List α) : Extends xs (xs ++ l) :=
  ⟨l.toArray, append_list_eq xs l⟩

theorem size_le (h : Extends xs ys) : xs.size ≤ ys.size := by
  obtain ⟨us, rfl⟩ := h
  simp

theorem getElem? (h : Extends xs ys) {i : Nat} {x : α} (hx : xs[i]? = some x) :
    ys[i]? = some x := by
  obtain ⟨us, rfl⟩ := h
  obtain ⟨hi, -⟩ := Array.getElem?_eq_some_iff.1 hx
  rw [Array.getElem?_append_left hi, hx]

theorem read? (h : Extends xs ys) {s : Slice α} {l : List α} (hl : s.read? xs = some l) :
    s.read? ys = some l := by
  obtain ⟨us, rfl⟩ := h
  unfold Slice.read? at hl ⊢
  split at hl
  · rename_i hstop
    have hbeyond : (us.extract (s.start - xs.size) (s.stop - xs.size)) = #[] := by
      rw [Nat.sub_eq_zero_of_le hstop]
      simp
    rw [if_pos (by simp; omega), Array.extract_append, hbeyond]
    simpa using hl
  · cases hl

end Extends

/-- A list stored at the end of a table is what its slice reads. -/
theorem Slice.read?_append {α : Type} (xs : Array α) (l : List α) :
    (⟨xs.size, l.length⟩ : Slice α).read? (xs ++ l) = some l := by
  rw [append_list_eq, Slice.read?, if_pos (by simp [Slice.stop]), Array.extract_append]
  simp [Slice.stop]

theorem Slice.length_of_read? {α : Type} {s : Slice α} {table : Array α} {l : List α}
    (h : s.read? table = some l) : l.length = s.len := by
  unfold Slice.read? at h
  split at h
  · rename_i hstop
    obtain rfl := Option.some.inj h
    simp only [Slice.stop] at hstop ⊢
    simp
    omega
  · cases h

/-! ## Arenas -/

/-- `b` is `a` after entries may have been added to it. No variable has been declared. -/
structure Arena.Grows (a b : Arena) : Prop where
  nodes : Extends a.nodes b.nodes
  exprEntries : Extends a.exprEntries b.exprEntries
  varEntries : Extends a.varEntries b.varEntries
  handlerEntries : Extends a.handlerEntries b.handlerEntries
  names : b.names = a.names

namespace Arena.Grows

variable {a b c : Arena}

theorem refl (a : Arena) : a.Grows a :=
  ⟨.refl _, .refl _, .refl _, .refl _, rfl⟩

theorem trans (h : a.Grows b) (h' : b.Grows c) : a.Grows c where
  nodes := h.nodes.trans h'.nodes
  exprEntries := h.exprEntries.trans h'.exprEntries
  varEntries := h.varEntries.trans h'.varEntries
  handlerEntries := h.handlerEntries.trans h'.handlerEntries
  names := h'.names.trans h.names

theorem node? (h : a.Grows b) {id : ExprId} {n : Node} (hn : a.node? id = some n) :
    b.node? id = some n :=
  h.nodes.getElem? hn

theorem exprs? (h : a.Grows b) {s : Slice ExprId} {l : List ExprId} (hl : a.exprs? s = some l) :
    b.exprs? s = some l :=
  h.exprEntries.read? hl

theorem vars? (h : a.Grows b) {s : Slice VarId} {l : List VarId} (hl : a.vars? s = some l) :
    b.vars? s = some l :=
  h.varEntries.read? hl

theorem handlers? (h : a.Grows b) {s : Slice Handler} {l : List Handler}
    (hl : a.handlers? s = some l) : b.handlers? s = some l :=
  h.handlerEntries.read? hl

theorem name? (h : a.Grows b) (v : VarId) : b.name? v = a.name? v := by
  rw [Arena.name?, Arena.name?, h.names]

end Arena.Grows

/-- `b` is `a` after entries may have been added to any of its tables. -/
structure Arena.PartOf (a b : Arena) : Prop where
  nodes : Extends a.nodes b.nodes
  exprEntries : Extends a.exprEntries b.exprEntries
  varEntries : Extends a.varEntries b.varEntries
  handlerEntries : Extends a.handlerEntries b.handlerEntries
  names : Extends a.names b.names

theorem Arena.Grows.partOf {a b : Arena} (h : a.Grows b) : a.PartOf b :=
  ⟨h.nodes, h.exprEntries, h.varEntries, h.handlerEntries, h.names ▸ .refl _⟩

namespace Arena.PartOf

variable {a b c : Arena}

theorem refl (a : Arena) : a.PartOf a := (Grows.refl a).partOf

theorem empty (a : Arena) : ({} : Arena).PartOf a :=
  ⟨⟨a.nodes, by simp⟩, ⟨a.exprEntries, by simp⟩, ⟨a.varEntries, by simp⟩,
    ⟨a.handlerEntries, by simp⟩, ⟨a.names, by simp⟩⟩

theorem trans (h : a.PartOf b) (h' : b.PartOf c) : a.PartOf c where
  nodes := h.nodes.trans h'.nodes
  exprEntries := h.exprEntries.trans h'.exprEntries
  varEntries := h.varEntries.trans h'.varEntries
  handlerEntries := h.handlerEntries.trans h'.handlerEntries
  names := h.names.trans h'.names

theorem size_le (h : a.PartOf b) : a.size ≤ b.size := h.nodes.size_le

theorem node? (h : a.PartOf b) {id : ExprId} {n : Node} (hn : a.node? id = some n) :
    b.node? id = some n :=
  h.nodes.getElem? hn

theorem exprs? (h : a.PartOf b) {s : Slice ExprId} {l : List ExprId} (hl : a.exprs? s = some l) :
    b.exprs? s = some l :=
  h.exprEntries.read? hl

theorem vars? (h : a.PartOf b) {s : Slice VarId} {l : List VarId} (hl : a.vars? s = some l) :
    b.vars? s = some l :=
  h.varEntries.read? hl

theorem handlers? (h : a.PartOf b) {s : Slice Handler} {l : List Handler}
    (hl : a.handlers? s = some l) : b.handlers? s = some l :=
  h.handlerEntries.read? hl

theorem name? (h : a.PartOf b) {v : VarId} {name : String} (hv : a.name? v = some name) :
    b.name? v = some name :=
  h.names.getElem? hv

end Arena.PartOf

/-- A node that can be read lies in the arena. -/
theorem Arena.index_lt_of_node? {a : Arena} {id : ExprId} {n : Node} (h : a.node? id = some n) :
    id.index < a.size :=
  (Array.getElem?_eq_some_iff.1 h).1

/-! ## Adding -/

theorem nextSlice_eq {α : Type} {table : Table} {list : ListKind} {size length : Nat} :
    nextSlice (α := α) table list size length =
      if size < indexLimit then
        if length < sliceLimit then .ok ⟨size, length⟩ else .error (.listTooLong list length)
      else .error (.tableFull table size) := by
  unfold nextSlice nextIndex
  split <;> rfl

theorem Builder.add_eq {kind : Kind} {span : Span} {a : Arena} : Builder.add kind span a =
    if a.nodes.size < indexLimit then
      .ok (⟨a.nodes.size⟩, { a with nodes := a.nodes.push ⟨kind, span⟩ })
    else .error (.tableFull .expressions a.nodes.size) := by
  unfold Builder.add nextIndex
  split <;> rfl

/-! ## Pools -/

/-- `q` is `p` after constants may have been added to it. -/
def Pool.Grows (p q : Pool) : Prop := Extends p.values q.values

namespace Pool.Grows

variable {p q r : Pool}

theorem refl (p : Pool) : p.Grows p := Extends.refl _

theorem trans (h : p.Grows q) (h' : q.Grows r) : p.Grows r := Extends.trans h h'

theorem get? (h : p.Grows q) {c : ConstantId} {v : Value} (hv : p.get? c = some v) :
    q.get? c = some v :=
  Extends.getElem? h hv

end Pool.Grows

theorem Pool.push_ok {p q : Pool} {v : Value} {c : ConstantId} (h : p.push v = .ok (c, q)) :
    p.Grows q ∧ q.get? c = some v := by
  unfold push at h
  split at h
  · obtain ⟨rfl, rfl⟩ := Prod.mk.inj (Except.ok.inj h)
    exact ⟨Extends.push _ _, by simp [Pool.get?]⟩
  · cases h

end Quotation
