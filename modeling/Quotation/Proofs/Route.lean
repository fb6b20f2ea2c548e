import Quotation.Eval.Operator
import Quotation.Proofs.Capture.Tree

/-!
# Codes of routes

A route stands for an integer, `i` for position `i` of the first source and `-1 - i` for position
`i` of the second, and no two routes stand for the same one (`toInt_injective`). A code is that
integer as a word (`encode_eq_ok_iff`), and a word is read as the integer that it is
(`toInt_decode`). The largest position of each source is the last one whose integer is a word: the
integers of the first source end at the largest word, and those of the second at the smallest.
-/

namespace Quotation

/-! ## Words -/

theorem word?_eq_some_iff {n : Int} {w : Int64} : word? n = some w ↔ w.toInt = n := by
  have hlow := Int64.minValue_le_toInt w
  have hhigh := Int64.toInt_le w
  rw [word?, Option.ite_none_right_eq_some, Option.some.injEq]
  constructor
  · rintro ⟨⟨hle, hge⟩, rfl⟩
    rw [Int64.toInt_minValue] at hle
    rw [Int64.toInt_maxValue] at hge
    exact Int64.toInt_ofInt_of_le hle (by omega)
  · rintro rfl
    exact ⟨⟨hlow, hhigh⟩, Int64.ofInt_toInt w⟩

/-- As many words lie below `0` as lie above `-1`, so the difference is always a word. -/
theorem toInt_neg_one_sub (w : Int64) : (-1 - w).toInt = -1 - w.toInt := by
  have hone : (-1 : Int64).toInt = -1 := rfl
  have hlow := Int64.le_toInt w
  have hhigh := Int64.toInt_lt w
  rw [Int64.toInt_sub, hone]
  exact Int.bmod_eq_of_le (by omega) (by omega)

theorem neg_one_sub_nonneg {w : Int64} (h : ¬0 ≤ w) : 0 ≤ -1 - w := by
  rw [Int64.le_iff_toInt_le, Int64.toInt_zero] at h ⊢
  rw [toInt_neg_one_sub]
  omega

/-- The position that a word stands for. Positions have 64 bits and no sign. -/
def position? (w : Int64) : Option Nat :=
  if 0 ≤ w.toInt ∧ w.toInt < UInt64.size then some w.toInt.toNat else none

theorem position?_of_nonneg {w : Int64} (h : 0 ≤ w) : position? w = some w.toNatClampNeg := by
  have hhigh := Int64.toInt_lt w
  rw [Int64.le_iff_toInt_le, Int64.toInt_zero] at h
  rw [position?, if_pos ⟨h, by rw [UInt64.size]; omega⟩, Int64.toNatClampNeg]

namespace Route

/-- All routes to the positions of a list have codes. -/
theorem sliceLimit_le_limit : sliceLimit ≤ limit := by
  decide

def index : Route → Nat
  | first i => i
  | second i => i

theorem limit_le_index_iff {r : Route} : limit ≤ r.index ↔ Int64.maxValue.toInt < r.index := by
  rw [Int64.toInt_maxValue, limit, UInt64.size]
  omega

/-! ## Routes as integers -/

/-- The integer that the route stands for, be it a word or not. -/
def toInt : Route → Int
  | first i => i
  | second i => -1 - i

theorem toInt_injective : Function.Injective toInt := by
  rintro (i | i) (j | j) h <;> simp only [toInt] at h
  · exact congrArg first (by omega)
  · omega
  · omega
  · exact congrArg second (by omega)

theorem toInt_code {r : Route} (h : r.index < limit) : r.code.toInt = r.toInt := by
  have hofNat : (Int64.ofNat r.index).toInt = r.index := Int64.toInt_ofNat_of_lt h
  cases r with
  | first i => exact hofNat
  | second i => exact (toInt_neg_one_sub _).trans (congrArg (-1 - ·) hofNat)

theorem toInt_decode (raw : Int64) : (decode raw).toInt = raw.toInt := by
  rw [decode]
  split
  · rename_i h
    exact Int64.cast_toNatClampNeg raw h
  · rename_i h
    rw [toInt, Int64.cast_toNatClampNeg _ (neg_one_sub_nonneg h), toInt_neg_one_sub]
    omega

/-- The route is read back from its code. -/
theorem decode_code {r : Route} (h : r.index < limit) : decode r.code = r :=
  toInt_injective ((toInt_decode _).trans (toInt_code h))

/-! ## Encoding -/

theorem encode_eq (r : Route) :
    r.encode = if r.index < limit then .ok r.code else .error (.routeTooFar r.index) := by
  cases r <;> rfl

/-- Only routes whose integer is a word can stand for one. -/
theorem index_lt_of_toInt_eq {r : Route} {raw : Int64} (h : raw.toInt = r.toInt) :
    r.index < limit := by
  have hlow := Int64.le_toInt raw
  have hhigh := Int64.toInt_lt raw
  rw [limit, UInt64.size]
  cases r <;> simp only [toInt, index] at h ⊢ <;> omega

theorem encode_eq_ok_iff {r : Route} {raw : Int64} : r.encode = .ok raw ↔ raw.toInt = r.toInt := by
  rw [encode_eq]
  constructor
  · intro h
    split at h
    · rename_i hlt
      cases h
      exact toInt_code hlt
    · cases h
  · intro h
    have hlt := index_lt_of_toInt_eq h
    rw [if_pos hlt, Int64.toInt_inj.1 ((toInt_code hlt).trans h.symm)]

theorem encode_eq_error_iff {r : Route} {f : Fault} :
    r.encode = .error f ↔ Int64.maxValue.toInt < r.index ∧ f = .routeTooFar r.index := by
  rw [encode_eq, ← limit_le_index_iff]
  split
  · simp only [reduceCtorEq, false_iff]
    omega
  · simp only [Except.error.injEq, eq_comm (b := f)]
    exact ⟨fun h => ⟨by omega, h⟩, fun h => h.2⟩

/-! ## Checked steps -/

/-- The code, where every step has to stay in its range. -/
def encodeChecked? : Route → Option Int64
  | first i => word? i
  | second i => (word? i).bind fun w => word? (-1 - w.toInt)

/-- The route, where every step has to stay in its range: the difference is a word, and what is
taken for a position is one. -/
def decodeChecked? (raw : Int64) : Option Route :=
  if 0 ≤ raw then (position? raw).map first
  else ((word? (-1 - raw.toInt)).bind position?).map second

theorem encodeChecked?_eq_some_iff {r : Route} {raw : Int64} :
    encodeChecked? r = some raw ↔ raw.toInt = r.toInt := by
  cases r with
  | first i => exact word?_eq_some_iff
  | second i =>
    rw [encodeChecked?, Option.bind_eq_some_iff]
    simp only [word?_eq_some_iff]
    constructor
    · rintro ⟨w, hw, hraw⟩
      rw [hraw, hw, toInt]
    · intro h
      -- `-1 - i` is a word, and so is `i` on the way to it
      have hlt : i < limit := index_lt_of_toInt_eq h
      have hw : (Int64.ofNat i).toInt = i := Int64.toInt_ofNat_of_lt hlt
      exact ⟨Int64.ofNat i, hw, by rw [hw, h, toInt]⟩

theorem decodeChecked?_eq (raw : Int64) : decodeChecked? raw = some (decode raw) := by
  rw [decodeChecked?, decode]
  split
  · rename_i h
    rw [position?_of_nonneg h, Option.map_some]
  · rename_i h
    have hword : word? (-1 - raw.toInt) = some (-1 - raw) :=
      word?_eq_some_iff.2 (toInt_neg_one_sub raw)
    rw [hword, Option.bind_some, position?_of_nonneg (neg_one_sub_nonneg h), Option.map_some]

/-- Every word is the code of the route that is read from it, and every route up to the largest word
is read from its code, without a step that leaves its range. No code is one of both sources, and the
routes past the largest word are those that have none. -/
theorem codes_exact :
    (∀ raw, (decode raw).encode = .ok raw ∧ encodeChecked? (decode raw) = some raw ∧
      decodeChecked? raw = some (decode raw)) ∧
    (∀ r : Route, r.index ≤ Int64.maxValue.toInt →
      ∃ raw, r.encode = .ok raw ∧ encodeChecked? r = some raw ∧
        decode raw = r ∧ decodeChecked? raw = some r) ∧
    (∀ i j raw, (first i).encode = .ok raw → (second j).encode ≠ .ok raw) ∧
    ∀ (r : Route) f,
      r.encode = .error f ↔ Int64.maxValue.toInt < r.index ∧ f = .routeTooFar r.index := by
  refine ⟨fun raw => ?_, fun r hr => ?_, fun i j raw hi hj => ?_, fun r f => encode_eq_error_iff⟩
  · have hraw : raw.toInt = (decode raw).toInt := (toInt_decode raw).symm
    exact ⟨encode_eq_ok_iff.2 hraw, encodeChecked?_eq_some_iff.2 hraw, decodeChecked?_eq raw⟩
  · have hlt : r.index < limit := by
      rw [← Nat.not_le, limit_le_index_iff]
      omega
    have hcode := toInt_code hlt
    have hback := decode_code hlt
    exact ⟨r.code, encode_eq_ok_iff.2 hcode, encodeChecked?_eq_some_iff.2 hcode, hback,
      (decodeChecked?_eq _).trans (congrArg some hback)⟩
  · have hsame := (encode_eq_ok_iff.1 hi).symm.trans (encode_eq_ok_iff.1 hj)
    exact Route.noConfusion (toInt_injective hsame)

/-- The smallest word is the code of the last position of the second source that has one, and the
largest that of the last position of the first. -/
theorem codes_exact_extremes :
    (decode Int64.minValue).encode = .ok Int64.minValue ∧
    decodeChecked? Int64.minValue = some (second (limit - 1)) ∧
    (first (limit - 1)).index ≤ Int64.maxValue.toInt ∧
    (∃ raw, (first (limit - 1)).encode = .ok raw ∧
      encodeChecked? (first (limit - 1)) = some raw ∧
      decode raw = first (limit - 1) ∧ decodeChecked? raw = some (first (limit - 1))) ∧
    (first 0).encode = .ok 0 ∧ (second 0).encode ≠ .ok 0 ∧
    (second limit).encode = .error (.routeTooFar limit) := by
  obtain ⟨hword, hroute, happart, hfar⟩ := codes_exact
  have hlast : (first (limit - 1)).index ≤ Int64.maxValue.toInt := by decide
  have hzero : (first 0).encode = .ok 0 := rfl
  exact ⟨(hword _).1, (hword _).2.2, hlast, hroute _ hlast, hzero, happart _ _ _ hzero,
    (hfar (second limit) _).2 ⟨by decide, rfl⟩⟩

end Route

end Quotation
