/-
`base_blob`'s `operator<` is the lexicographic order on `m_data`, read as
unsigned bytes from index 0 (`operatorLt_iff`), pulled back along the
injective `m_data` (`ltEmbedding`). So it is a strict total order whose
incomparability relation is exactly `operator==`, which is what the ordered
containers keyed by `uint256`, `uint160`, `uint512` or `blob88` rely on
(`compare_lex_strict_total_order`). Everything follows from two facts of
`Compare`: its sign is the lexicographic comparison, and swapping the
operands negates it.

The null blob `base_blob()` is the least element, and every blob that is
not `IsNull` lies above it (`null_blob_least`).
-/
import OpaqueBlob.BaseBlob

namespace OpaqueBlob.BaseBlob

variable {BITS : Nat}

/-! ## The sign of `Compare` -/

theorem compare_neg_iff (a b : BaseBlob BITS) :
    a.compare b < 0 ↔ List.Lex (· < ·) a.mData b.mData := by
  rw [compare_eq]
  exact memcmp_neg_iff (by simp)

theorem compare_eq_zero_iff (a b : BaseBlob BITS) : a.compare b = 0 ↔ a.mData = b.mData := by
  rw [compare_eq]
  exact memcmp_eq_zero_iff (by simp)

theorem compare_pos_iff (a b : BaseBlob BITS) :
    0 < a.compare b ↔ List.Lex (· < ·) b.mData a.mData := by
  rw [compare_eq]
  exact memcmp_pos_iff (by simp)

theorem compare_swap (a b : BaseBlob BITS) : b.compare a = -a.compare b := by
  rw [compare, compare, size_eq, size_eq, memcmp_swap]

/-! ## The operators -/

@[simp] theorem operatorEq_iff (a b : BaseBlob BITS) : a.operatorEq b = true ↔ a = b := by
  rw [operatorEq, beq_iff_eq, compare_eq_zero_iff, BaseBlob.ext_iff]

theorem operatorNe_eq (a b : BaseBlob BITS) : a.operatorNe b = !a.operatorEq b := rfl

@[simp] theorem operatorLt_iff (a b : BaseBlob BITS) :
    a.operatorLt b = true ↔ List.Lex (· < ·) a.mData b.mData := by
  rw [operatorLt, decide_eq_true_iff, compare_neg_iff]

/-- `operator<` read from the other side: `b < a` is `a.Compare(b) > 0`. -/
theorem operatorLt_flip (a b : BaseBlob BITS) : b.operatorLt a = decide (0 < a.compare b) := by
  rw [operatorLt, compare_swap, decide_eq_decide]
  omega

/-- `m_data` embeds the blobs under `operator<` into the byte strings under
the lexicographic order. -/
def ltEmbedding : (fun a b : BaseBlob BITS => a.operatorLt b = true) ↪r List.Lex (α := UInt8) (· < ·) :=
  ⟨⟨mData, mData_injective⟩, fun {a b} => (operatorLt_iff a b).symm⟩

instance isStrictTotalOrder_operatorLt : IsStrictTotalOrder (BaseBlob BITS) (fun a b => a.operatorLt b = true) :=
  ltEmbedding.isStrictTotalOrder

theorem count_operatorLt_operatorEq (a b : BaseBlob BITS) :
    [a.operatorLt b, a.operatorEq b, b.operatorLt a].count true = 1 := by
  rw [operatorLt_flip a b, operatorLt, operatorEq]
  rcases Int.lt_trichotomy (a.compare b) 0 with h | h | h
  · simp [h, Int.not_lt.mpr (Int.le_of_lt h), Int.ne_of_lt h]
  · simp [h]
  · simp [h, Int.not_lt.mpr (Int.le_of_lt h), Int.ne_of_gt h]

theorem incomparable_iff_operatorEq (a b : BaseBlob BITS) :
    (a.operatorLt b = false ∧ b.operatorLt a = false) ↔ a.operatorEq b = true := by
  rw [operatorLt_flip a b, operatorLt, operatorEq]
  simp only [decide_eq_false_iff_not, beq_iff_eq]
  omega

/-- **`operator<` is the lexicographic order, and a strict total order.**
For every width: the sign of `Compare` is the lexicographic comparison of
the two `m_data` arrays as unsigned bytes from index 0, so `a < b` exactly
when `m_data` of `a` is lexicographically below that of `b`; `==` is
equality of the arrays and `!=` its negation; exactly one of `a < b`, `a == b`, `b < a`
holds, and `a`, `b` are incomparable exactly when `a == b`; and `<` is
irreflexive, transitive and trichotomous. -/
theorem compare_lex_strict_total_order (BITS : Nat) :
    (∀ a b : BaseBlob BITS,
      (a.compare b < 0 ↔ List.Lex (· < ·) a.mData b.mData) ∧
      (a.compare b = 0 ↔ a.mData = b.mData) ∧
      (0 < a.compare b ↔ List.Lex (· < ·) b.mData a.mData) ∧
      (a.operatorLt b = true ↔ List.Lex (· < ·) a.mData b.mData) ∧
      (a.operatorEq b = true ↔ a.mData = b.mData) ∧
      a.operatorNe b = !a.operatorEq b ∧
      [a.operatorLt b, a.operatorEq b, b.operatorLt a].count true = 1 ∧
      ((a.operatorLt b = false ∧ b.operatorLt a = false) ↔ a.operatorEq b = true)) ∧
    IsStrictTotalOrder (BaseBlob BITS) (fun a b => a.operatorLt b = true) :=
  ⟨fun a b => ⟨compare_neg_iff a b, compare_eq_zero_iff a b, compare_pos_iff a b, operatorLt_iff a b,
    (operatorEq_iff a b).trans BaseBlob.ext_iff, operatorNe_eq a b,
    count_operatorLt_operatorEq a b, incomparable_iff_operatorEq a b⟩, inferInstance⟩

/-! ## The null blob -/

theorem isNull_iff (b : BaseBlob BITS) : b.isNull = true ↔ b = zero := by
  simp only [isNull, List.all_eq_true, beq_iff_eq, BaseBlob.ext_iff, zero_mData,
    List.eq_replicate_iff, length_mData, true_and]

theorem not_lex_replicate_zero (l : List UInt8) : ¬List.Lex (· < ·) l (List.replicate l.length 0) := by
  induction l with
  | nil => exact List.Lex.not_nil_right _ _
  | cons x l ih =>
    intro h
    cases h with
    | cons h => exact ih h
    | rel h => exact Nat.not_lt_zero _ h

theorem not_operatorLt_zero (b : BaseBlob BITS) : b.operatorLt zero = false := by
  rw [Bool.eq_false_iff, ne_eq, operatorLt_iff, zero_mData, ← b.length_mData]
  exact not_lex_replicate_zero _

theorem zero_operatorLt (b : BaseBlob BITS) : zero.operatorLt b = !b.isNull := by
  -- nothing lies below `zero`, so `zero` and `b` are incomparable exactly when equal
  have h := incomparable_iff_operatorEq zero b
  simp only [not_operatorLt_zero, and_true, operatorEq_iff, eq_comm (a := zero), ← isNull_iff] at h
  cases hb : b.isNull <;> simpa [hb] using h

/-- **The null blob.** `IsNull` holds exactly of `base_blob()` (what
`SetNull` leaves), and that is the least blob: no blob lies below it, and
every blob that is not `IsNull` lies above it. -/
theorem null_blob_least (b : BaseBlob BITS) :
    (b.isNull = true ↔ b = zero) ∧ b.setNull.isNull = true ∧ b.operatorLt zero = false ∧
      zero.operatorLt b = !b.isNull :=
  ⟨isNull_iff b, (isNull_iff _).2 rfl, not_operatorLt_zero b, zero_operatorLt b⟩

end OpaqueBlob.BaseBlob
