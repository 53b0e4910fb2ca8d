/-
`base_blob::GetUint64(pos)` assembles the eight bytes from `m_data + pos * 8`
into a `uint64_t` by shifts and `|`, the first byte the least significant.
The shifted bytes never overlap, so each `|` is an addition
(`toNat_lor_shiftLeft`), and the word is the little-endian value (`leValue`)
of the bytes `m_data[pos * 8 .. pos * 8 + 8)` (`toNat_getUint64`). So byte `k`
of the word is `m_data[pos * 8 + k]`, and the words of a blob whose width is
a multiple of eight bytes determine it (`getUint64_little_endian`); and the
words `GetUint64(0)`, `GetUint64(1)`, ... are the 64-bit limbs of the number
`m_data` holds little-endian (`getUint64_limbs`).
-/
import OpaqueBlob.BaseBlob
import Mathlib.Data.List.OfFn
import Mathlib.Algebra.Group.Nat.Basic

namespace OpaqueBlob

/-! ## Little-endian values -/

/-- The number a string of base-`2 ^ w` digits denotes, the first digit the
least significant. -/
def leValue (w : Nat) : List Nat → Nat
  | [] => 0
  | d :: ds => d + 2 ^ w * leValue w ds

@[simp] theorem leValue_nil (w : Nat) : leValue w [] = 0 := rfl

@[simp] theorem leValue_cons (w d : Nat) (ds : List Nat) :
    leValue w (d :: ds) = d + 2 ^ w * leValue w ds := rfl

theorem leValue_append (w : Nat) (xs ys : List Nat) :
    leValue w (xs ++ ys) = leValue w xs + 2 ^ (w * xs.length) * leValue w ys := by
  induction xs with
  | nil => simp
  | cons x xs ih =>
    rw [List.cons_append, leValue_cons, leValue_cons, ih, List.length_cons, Nat.mul_succ, Nat.pow_add,
      Nat.mul_add, ← Nat.add_assoc, ← Nat.mul_assoc, Nat.mul_comm (2 ^ (w * xs.length)) (2 ^ w)]

theorem leValue_lt {w : Nat} {ds : List Nat} (hds : ∀ d ∈ ds, d < 2 ^ w) :
    leValue w ds < 2 ^ (w * ds.length) := by
  induction ds with
  | nil => simp
  | cons d ds ih =>
    have hd := hds d (List.mem_cons_self ..)
    have hv := ih fun d h => hds d (List.mem_cons_of_mem _ h)
    calc leValue w (d :: ds) = d + 2 ^ w * leValue w ds := rfl
      _ < 2 ^ w * (leValue w ds + 1) := by rw [Nat.mul_succ]; omega
      _ ≤ 2 ^ w * 2 ^ (w * ds.length) := Nat.mul_le_mul_left _ hv
      _ = 2 ^ (w * (d :: ds).length) := by rw [← Nat.pow_add, List.length_cons, Nat.mul_succ, Nat.add_comm]

/-- Digit `k` of a little-endian value is the `k`-th digit, when every digit
is below the base. -/
theorem leValue_div_mod {w : Nat} {ds : List Nat} (hds : ∀ d ∈ ds, d < 2 ^ w) (k : Nat) :
    leValue w ds / 2 ^ (w * k) % 2 ^ w = ds.getD k 0 := by
  induction ds generalizing k with
  | nil => simp
  | cons d ds ih =>
    have hd : d < 2 ^ w := hds d (List.mem_cons_self ..)
    cases k with
    | zero => simp [Nat.mod_eq_of_lt hd]
    | succ k =>
      rw [Nat.mul_succ, Nat.pow_add, Nat.mul_comm, ← Nat.div_div_eq_div_mul, leValue_cons,
        Nat.add_mul_div_left _ _ (Nat.two_pow_pos w), Nat.div_eq_of_lt hd, Nat.zero_add,
        ih (fun d h => hds d (List.mem_cons_of_mem _ h)), List.getD_cons_succ]

/-- Bytes read as numbers are digits in base `2 ^ 8`. -/
theorem toNat_mem_lt (l : List UInt8) : ∀ d ∈ l.map UInt8.toNat, d < 2 ^ 8 := by
  simpa using fun (x : UInt8) _ => x.toBitVec.isLt

/-- Eight-byte chunks of a byte string, read little-endian, are the base-`2 ^ 64`
digits of its value. -/
theorem leValue_chunks (l : List Nat) :
    ∀ n, n * 8 ≤ l.length →
      leValue 64 (List.ofFn fun i : Fin n => leValue 8 ((l.drop (i * 8)).take 8)) =
        leValue 8 (l.take (n * 8))
  | 0, _ => rfl
  | n + 1, hl => by
    have h8 : (l.take 8).length = 8 := List.length_take_of_le (by omega)
    have hsucc : ∀ j : Nat, (j + 1) * 8 = 8 + j * 8 := fun j => by omega
    simp only [List.ofFn_succ, Fin.val_zero, Fin.val_succ, hsucc, ← List.drop_drop, Nat.zero_mul,
      List.drop_zero, leValue_cons]
    rw [leValue_chunks (l.drop 8) n (by rw [List.length_drop]; omega), List.take_add, leValue_append, h8]

/-! ## `|` of shifted bytes -/

theorem lor_two_pow_mul {x k : Nat} (p : Nat) (hx : x < 2 ^ k) : x ||| 2 ^ k * p = x + 2 ^ k * p := by
  apply Nat.eq_of_testBit_eq
  intro j
  rw [Nat.add_comm, Nat.testBit_mul_pow_two_add _ hx, Nat.testBit_or, Nat.mul_comm,
    ← Nat.shiftLeft_eq, Nat.testBit_shiftLeft]
  split
  · simp [show ¬j ≥ k by omega]
  · rw [Nat.testBit_lt_two_pow (Nat.lt_of_lt_of_le hx (Nat.pow_le_pow_right (by decide) (by omega)))]
    simp [show j ≥ k by omega]

/-- `x | (uint64_t)v << s` adds the byte `v` above the bits of `x`. -/
theorem toNat_lor_shiftLeft {x s : UInt64} {n : Nat} (v : UInt8) (k : Nat) (hk : s.toNat = k)
    (hs : k + 8 ≤ 64) (hn : n < 2 ^ k) (hx : x.toNat = n) :
    (x ||| v.toUInt64 <<< s).toNat = n + 2 ^ k * v.toNat := by
  subst hx hk
  have hv : v.toNat < 2 ^ 8 := v.toBitVec.isLt
  have hv64 : v.toUInt64.toBitVec.toNat = v.toNat := rfl
  have hmod : (UInt64.mod s 64).toBitVec.toNat = s.toNat :=
    (BitVec.toNat_umod ..).trans (Nat.mod_eq_of_lt (show s.toNat < 64 by omega))
  have hlt : 2 ^ s.toNat * v.toNat < 2 ^ 64 :=
    calc 2 ^ s.toNat * v.toNat < 2 ^ s.toNat * 2 ^ 8 := Nat.mul_lt_mul_of_pos_left hv (Nat.two_pow_pos _)
      _ = 2 ^ (s.toNat + 8) := (Nat.pow_add ..).symm
      _ ≤ 2 ^ 64 := Nat.pow_le_pow_right (by decide) hs
  show (x.toBitVec ||| (v.toUInt64.toBitVec <<< (UInt64.mod s 64).toBitVec)).toNat = _
  rw [BitVec.toNat_or, BitVec.shiftLeft_eq', BitVec.toNat_shiftLeft, hmod, hv64, Nat.shiftLeft_eq,
    Nat.mul_comm, Nat.mod_eq_of_lt hlt]
  exact lor_two_pow_mul _ hn

namespace BaseBlob

variable {BITS : Nat}

/-- The eight reads of `GetUint64(pos)` stay inside `m_data`. -/
theorem word_index_lt (b : BaseBlob BITS) {pos : Nat} (h : pos * 8 + 8 ≤ width BITS) (i : Fin 8) :
    pos * 8 + i < b.mData.length := by
  have := i.isLt
  rw [length_mData]
  omega

/-- `ptr[i]` for `ptr = m_data + pos * 8`; `h` keeps the eight reads inside
`m_data` (past it the C++ is undefined). -/
def ptrAt (b : BaseBlob BITS) (pos : Nat) (h : pos * 8 + 8 ≤ width BITS) (i : Fin 8) : UInt8 :=
  b.mData.get ⟨pos * 8 + i, b.word_index_lt h i⟩

/-- `GetUint64(pos)`: `(uint64_t)ptr[0] | (uint64_t)ptr[1] << 8 | ... |
(uint64_t)ptr[7] << 56` for `ptr = m_data + pos * 8`. -/
def getUint64 (b : BaseBlob BITS) (pos : Nat) (h : pos * 8 + 8 ≤ width BITS) : UInt64 :=
  let ptr := b.ptrAt pos h
  (ptr 0).toUInt64 ||| (ptr 1).toUInt64 <<< 8 ||| (ptr 2).toUInt64 <<< 16 |||
    (ptr 3).toUInt64 <<< 24 ||| (ptr 4).toUInt64 <<< 32 ||| (ptr 5).toUInt64 <<< 40 |||
    (ptr 6).toUInt64 <<< 48 ||| (ptr 7).toUInt64 <<< 56

/-- The eight bytes `GetUint64(pos)` reads are `m_data[pos * 8 .. pos * 8 + 8)`. -/
theorem ofFn_ptrAt (b : BaseBlob BITS) (pos : Nat) (h : pos * 8 + 8 ≤ width BITS) :
    List.ofFn (b.ptrAt pos h) = (b.mData.drop (pos * 8)).take 8 :=
  List.ext_get (by simp; omega) fun i _ _ => by
    simp only [List.get_eq_getElem, List.getElem_ofFn, List.getElem_take, List.getElem_drop, ptrAt]

/-- `GetUint64(pos)` is the little-endian value of `m_data[pos * 8 .. pos * 8 + 8)`. -/
theorem toNat_getUint64 (b : BaseBlob BITS) (pos : Nat) (h : pos * 8 + 8 ≤ width BITS) :
    (b.getUint64 pos h).toNat = leValue 8 (((b.mData.drop (pos * 8)).take 8).map UInt8.toNat) := by
  let p i := (b.ptrAt pos h i).toNat
  have hp : ∀ i, p i < 2 ^ 8 := fun i => (b.ptrAt pos h i).toBitVec.isLt
  have h0 := hp 0; have h1 := hp 1; have h2 := hp 2; have h3 := hp 3
  have h4 := hp 4; have h5 := hp 5; have h6 := hp 6
  calc (b.getUint64 pos h).toNat
      = p 0 + 2 ^ 8 * p 1 + 2 ^ 16 * p 2 + 2 ^ 24 * p 3 + 2 ^ 32 * p 4 + 2 ^ 40 * p 5 +
          2 ^ 48 * p 6 + 2 ^ 56 * p 7 := by
        -- peel the bytes off from the most significant, `ptr[7] << 56`, down
        repeat refine toNat_lor_shiftLeft _ _ (by decide) (by decide) (by omega) ?_
        rfl
    _ = leValue 8 [p 0, p 1, p 2, p 3, p 4, p 5, p 6, p 7] := by
        simp only [leValue_cons, leValue_nil]
        omega
    _ = leValue 8 (((b.mData.drop (pos * 8)).take 8).map UInt8.toNat) := by
        rw [← ofFn_ptrAt b pos h, List.map_ofFn]
        rfl

theorem getUint64_byte (b : BaseBlob BITS) (pos : Nat) (h : pos * 8 + 8 ≤ width BITS) (k : Fin 8) :
    (b.getUint64 pos h).toNat / 2 ^ (8 * k.val) % 2 ^ 8 = (b.ptrAt pos h k).toNat := by
  rw [toNat_getUint64, leValue_div_mod (toNat_mem_lt _), ← ofFn_ptrAt b pos h, List.map_ofFn,
    List.getD_eq_getElem?_getD, List.getElem?_ofFn]
  simp [List.ofFnNthVal]

theorem eq_of_getUint64_eq (a b : BaseBlob BITS) (hw : width BITS % 8 = 0)
    (hab : ∀ pos (h : pos * 8 + 8 ≤ width BITS), a.getUint64 pos h = b.getUint64 pos h) : a = b := by
  apply BaseBlob.ext
  apply List.ext_get (by simp)
  intro i hi _
  have h : i / 8 * 8 + 8 ≤ width BITS := by rw [length_mData] at hi; omega
  have ha := a.getUint64_byte (i / 8) h ⟨i % 8, Nat.mod_lt _ (by decide)⟩
  rw [hab _ h, getUint64_byte] at ha
  simpa [ptrAt, Nat.div_add_mod'] using (UInt8.toNat.inj ha).symm

/-- **`GetUint64` reads little-endian, and the words determine the blob.**
Byte `k` of `GetUint64(pos)`, counted from the least significant, is
`m_data[pos * 8 + k]`; so when `WIDTH` is a whole number of words, a blob is
equal to every blob with the same words at every position. -/
theorem getUint64_little_endian (a : BaseBlob BITS) :
    (∀ pos (h : pos * 8 + 8 ≤ width BITS) (k : Fin 8),
      (a.getUint64 pos h).toNat / 2 ^ (8 * k.val) % 2 ^ 8 =
        (a.mData.get ⟨pos * 8 + k, a.word_index_lt h k⟩).toNat) ∧
    (width BITS % 8 = 0 → ∀ b : BaseBlob BITS,
      (∀ pos (h : pos * 8 + 8 ≤ width BITS), a.getUint64 pos h = b.getUint64 pos h) → a = b) :=
  ⟨a.getUint64_byte, fun hw b => eq_of_getUint64_eq a b hw⟩

/-! ## The words as limbs -/

theorem word_le (i : Fin (width BITS / 8)) : i.val * 8 + 8 ≤ width BITS := by
  have := i.isLt
  omega

/-- The words `GetUint64(0)`, `GetUint64(1)`, ..., one for each whole word of
`m_data`, the least significant first. -/
def words (b : BaseBlob BITS) : List UInt64 :=
  List.ofFn fun i : Fin (width BITS / 8) => b.getUint64 i (word_le i)

theorem leValue_words (b : BaseBlob BITS) :
    leValue 64 (b.words.map UInt64.toNat) = leValue 8 ((b.mData.take (width BITS / 8 * 8)).map UInt8.toNat) := by
  rw [words, List.map_ofFn, List.map_take]
  simp only [Function.comp_def, toNat_getUint64, List.map_take, List.map_drop]
  exact leValue_chunks _ _ (by simp; omega)

/-- **The words are the limbs of the blob's number.** Read as base-`2 ^ 64`
digits, least significant first, the words `GetUint64(0)`, `GetUint64(1)`,
... denote the number the whole words of `m_data` hold little-endian; when
`WIDTH` is a multiple of eight bytes (`uint256`, `uint512`), that is the
number the whole of `m_data` holds. -/
theorem getUint64_limbs (b : BaseBlob BITS) :
    leValue 64 (b.words.map UInt64.toNat) =
      leValue 8 ((b.mData.take (width BITS / 8 * 8)).map UInt8.toNat) ∧
    (width BITS % 8 = 0 →
      leValue 64 (b.words.map UInt64.toNat) = leValue 8 (b.mData.map UInt8.toNat)) :=
  ⟨b.leValue_words, fun hw => by rw [leValue_words, List.take_of_length_le (by simp; omega)]⟩

end BaseBlob

end OpaqueBlob
