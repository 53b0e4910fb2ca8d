/-
`memcmp` of the C library, as `base_blob::Compare` calls it: the bytes of
both buffers are read as `unsigned char` from index 0, and the answer has
the sign of the first pair that differs. Over two buffers of one length the
answer is negative, zero or positive exactly as the first buffer is below,
equal to or above the second in the lexicographic order on bytes
(`memcmp_neg_iff`, `memcmp_eq_zero_iff`, `memcmp_pos_iff`).
-/
import Mathlib.Data.List.Lex
import Mathlib.Order.RelIso.Basic

namespace OpaqueBlob

/-- `<` on `UInt8` compares the unsigned values, a strict total order. -/
instance isStrictTotalOrder_uint8 : IsStrictTotalOrder UInt8 (· < ·) where
  trichotomous a b := by
    rcases Nat.lt_trichotomy a.toNat b.toNat with h | h | h
    · exact .inl h
    · exact .inr (.inl (UInt8.toNat.inj h))
    · exact .inr (.inr h)
  irrefl := UInt8.lt_irrefl
  trans _ _ _ := UInt8.lt_trans

/-- `memcmp(s1, s2, n)`: the difference of the first of the `n` byte pairs
that differ, read as `unsigned char`, or `0` when none does. Reading past a
buffer is undefined in C; `Compare` passes two buffers of `n` bytes. -/
def memcmp : List UInt8 → List UInt8 → Nat → Int
  | a :: s1, b :: s2, n + 1 => if a = b then memcmp s1 s2 n else (a.toNat : Int) - b.toNat
  | _, _, _ => 0

theorem memcmp_cons (a b : UInt8) (s1 s2 : List UInt8) (n : Nat) :
    memcmp (a :: s1) (b :: s2) (n + 1) =
      if a = b then memcmp s1 s2 n else (a.toNat : Int) - b.toNat := rfl

/-- Swapping the buffers negates the answer. -/
theorem memcmp_swap (s1 s2 : List UInt8) (n : Nat) : memcmp s2 s1 n = -memcmp s1 s2 n := by
  induction s1 generalizing s2 n with
  | nil => cases s2 <;> cases n <;> rfl
  | cons a s1 ih =>
    rcases s2 with _ | ⟨b, s2⟩ <;> rcases n with _ | n <;> try rfl
    simp only [memcmp_cons, eq_comm (a := b)]
    split
    · exact ih s2 n
    · omega

/-- Two distinct bytes differ as unsigned values. -/
theorem toNat_ne_of_ne {a b : UInt8} (h : a ≠ b) : a.toNat ≠ b.toNat :=
  fun e => h (UInt8.toNat.inj e)

theorem memcmp_neg_iff {s1 s2 : List UInt8} (h : s1.length = s2.length) :
    memcmp s1 s2 s1.length < 0 ↔ List.Lex (· < ·) s1 s2 := by
  induction s1 generalizing s2 with
  | nil => cases s2 <;> simp_all [memcmp]
  | cons a s1 ih =>
    cases s2 with
    | nil => simp at h
    | cons b s2 =>
      rw [List.length_cons, memcmp_cons]
      by_cases hab : a = b
      · subst hab
        rw [if_pos rfl, ih (by simpa using h), List.Lex.cons_iff]
      · rw [if_neg hab]
        have hne := toNat_ne_of_ne hab
        refine ⟨fun hlt => List.Lex.rel (show a.toNat < b.toNat by omega), fun hl => ?_⟩
        cases hl with
        | cons => exact absurd rfl hab
        | rel hr => exact Int.sub_neg_of_lt (Int.ofNat_lt.mpr hr)

theorem memcmp_eq_zero_iff {s1 s2 : List UInt8} (h : s1.length = s2.length) :
    memcmp s1 s2 s1.length = 0 ↔ s1 = s2 := by
  induction s1 generalizing s2 with
  | nil => cases s2 <;> simp_all [memcmp]
  | cons a s1 ih =>
    cases s2 with
    | nil => simp at h
    | cons b s2 =>
      rw [List.length_cons, memcmp_cons, List.cons.injEq]
      by_cases hab : a = b
      · rw [if_pos hab, ih (by simpa using h)]
        exact ⟨fun e => ⟨hab, e⟩, And.right⟩
      · have hne := toNat_ne_of_ne hab
        rw [if_neg hab]
        exact ⟨fun e => by omega, fun e => absurd e.1 hab⟩

theorem memcmp_pos_iff {s1 s2 : List UInt8} (h : s1.length = s2.length) :
    0 < memcmp s1 s2 s1.length ↔ List.Lex (· < ·) s2 s1 := by
  rw [← memcmp_neg_iff h.symm, ← h, memcmp_swap]
  omega

end OpaqueBlob
