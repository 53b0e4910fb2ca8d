/-
The blobs of `uint256.h` are opaque: no integer operations, and two ways of
reading `m_data` as a number that do not agree. `operator<` compares with
`memcmp`, byte `0` first, so it is the order of the number `m_data` holds
big-endian, `m_data[0]` the most significant byte
(`operatorLt_iff_beValue_lt`, from the lexicographic order by induction,
`lex_beValue_lt`). `GetUint64` reads the other way: its words are the limbs
of the number `m_data` holds little-endian (`leValue_words`). As soon as a
blob has a whole word, `operator<` is not the order of that number
(`operatorLt_big_endian`): a map keyed by `uint256` iterates in byte order,
not in the order of the values `GetUint64` reads.
-/
import OpaqueBlob.Order
import OpaqueBlob.GetUint64

namespace OpaqueBlob

/-- The number a byte string holds big-endian, the first byte the most
significant. -/
def beValue (l : List UInt8) : Nat := leValue 8 (l.reverse.map UInt8.toNat)

theorem beValue_cons (x : UInt8) (l : List UInt8) :
    beValue (x :: l) = beValue l + 2 ^ (8 * l.length) * x.toNat := by
  simp [beValue, leValue_append]

theorem beValue_lt (l : List UInt8) : beValue l < 2 ^ (8 * l.length) := by
  simpa [beValue] using leValue_lt (toNat_mem_lt l.reverse)

/-- On byte strings of one length, the lexicographic order is the order of
the numbers they hold big-endian. -/
theorem lex_beValue_lt {xs ys : List UInt8} (hl : xs.length = ys.length)
    (h : List.Lex (· < ·) xs ys) : beValue xs < beValue ys := by
  induction h with
  | nil => simp at hl
  | @cons a l₁ l₂ _ ih =>
    have hl' : l₁.length = l₂.length := by simpa using hl
    have := ih hl'
    rw [beValue_cons, beValue_cons, hl']
    omega
  | @rel a₁ l₁ a₂ l₂ h =>
    -- the first bytes differ: the rest of `xs` stays below one unit of that byte
    have hl' : l₁.length = l₂.length := by simpa using hl
    have ha : a₁.toNat + 1 ≤ a₂.toNat := h
    calc beValue (a₁ :: l₁) = beValue l₁ + 2 ^ (8 * l₁.length) * a₁.toNat := beValue_cons ..
      _ < 2 ^ (8 * l₁.length) * (a₁.toNat + 1) := by rw [Nat.mul_succ]; have := beValue_lt l₁; omega
      _ ≤ 2 ^ (8 * l₁.length) * a₂.toNat := Nat.mul_le_mul_left _ ha
      _ ≤ beValue (a₂ :: l₂) := by rw [beValue_cons, hl']; omega

@[simp] theorem leValue_replicate_zero (w n : Nat) : leValue w (List.replicate n 0) = 0 := by
  induction n with
  | zero => rfl
  | succ n ih => rw [List.replicate_succ, leValue_cons, ih, Nat.mul_zero]

namespace BaseBlob

variable {BITS : Nat}

theorem operatorLt_iff_beValue_lt (a b : BaseBlob BITS) :
    a.operatorLt b = true ↔ beValue a.mData < beValue b.mData := by
  have hl : a.mData.length = b.mData.length := by simp
  rw [operatorLt_iff]
  refine ⟨lex_beValue_lt hl, fun h => ?_⟩
  rcases trichotomous_of (List.Lex (α := UInt8) (· < ·)) a.mData b.mData with hab | hab | hab
  · exact hab
  · exact absurd h (by rw [hab]; exact Nat.lt_irrefl _)
  · exact absurd (lex_beValue_lt hl.symm hab) (Nat.lt_asymm h)

/-- A blob at least one word wide whose bytes are `x, y, 0, 0, ...`: its
limbs denote `x + 2 ^ 8 * y`. -/
theorem leValue_words_of_mData (b : BaseBlob BITS) (h : 8 ≤ width BITS) (x y : UInt8)
    (hb : b.mData = x :: y :: List.replicate (width BITS - 2) 0) :
    leValue 64 (b.words.map UInt64.toNat) = x.toNat + 2 ^ 8 * y.toNat := by
  obtain ⟨m, hm⟩ : ∃ m, width BITS / 8 * 8 = m + 2 := ⟨width BITS / 8 * 8 - 2, by omega⟩
  rw [leValue_words, hb, hm]
  simp

/-- **`operator<` orders blobs as big-endian numbers, not as the number
`GetUint64` reads.** For every width, `a < b` exactly when the number
`m_data` of `a` holds big-endian, `m_data[0]` the most significant byte, is
below that of `b`; and once a blob holds a whole word, some `a < b` have the
number their words `GetUint64(0)`, `GetUint64(1)`, ... denote as limbs in
the other order. -/
theorem operatorLt_big_endian (BITS : Nat) :
    (∀ a b : BaseBlob BITS, a.operatorLt b = true ↔ beValue a.mData < beValue b.mData) ∧
    (8 ≤ width BITS → ∃ a b : BaseBlob BITS, a.operatorLt b = true ∧
      leValue 64 (b.words.map UInt64.toNat) < leValue 64 (a.words.map UInt64.toNat)) := by
  refine ⟨operatorLt_iff_beValue_lt, fun h => ?_⟩
  -- `a` is `0, 1, 0, ...` and `b` is `base_blob(1)`, `1, 0, 0, ...`
  let a : BaseBlob BITS := ⟨0 :: 1 :: List.replicate (width BITS - 2) 0, by simp; omega⟩
  let b : BaseBlob BITS := ofUInt8 1 (by omega)
  have hb : b.mData = 1 :: 0 :: List.replicate (width BITS - 2) 0 := by
    rw [ofUInt8_mData, show width BITS - 1 = width BITS - 2 + 1 by omega, List.replicate_succ]
  refine ⟨a, b, (operatorLt_iff a b).2 (List.Lex.rel (by decide)), ?_⟩
  rw [leValue_words_of_mData a h 0 1 rfl, leValue_words_of_mData b h 1 0 hb]
  decide

end BaseBlob

end OpaqueBlob
