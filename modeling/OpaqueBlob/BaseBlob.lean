/-
`base_blob<BITS>` of `uint256.h`: an opaque array of `WIDTH = BITS / 8`
bytes, with its two constructors, `IsNull`, `SetNull`, `size`, the
comparison `Compare` by `memcmp` and the three operators built on it, and
the blob types the header derives from it. `Serialize`/`Unserialize` are in
`OpaqueBlob.Serialize`, `GetUint64` in `OpaqueBlob.GetUint64`.
-/
import OpaqueBlob.Memcmp

namespace OpaqueBlob

/-- `WIDTH = BITS / 8`, the number of bytes of a `base_blob<BITS>`. -/
def width (BITS : Nat) : Nat := BITS / 8

/-- `base_blob<BITS>`: `m_data` is a `uint8_t[WIDTH]`, so a blob holds
exactly `WIDTH` bytes. -/
@[ext]
structure BaseBlob (BITS : Nat) where
  mData : List UInt8
  length_mData : mData.length = width BITS
deriving DecidableEq, Repr

namespace BaseBlob

variable {BITS : Nat}

attribute [simp] length_mData

theorem mData_injective : Function.Injective (mData : BaseBlob BITS → List UInt8) :=
  fun _ _ => BaseBlob.ext

/-- `base_blob()`: `m_data()` sets every byte to zero. -/
def zero : BaseBlob BITS := ⟨List.replicate (width BITS) 0, List.length_replicate ..⟩

/-- `base_blob(uint8_t v)`: `m_data{v}` sets the first byte to `v` and the
others to zero (the initializer is ill-formed when `WIDTH` is `0`). -/
def ofUInt8 (v : UInt8) (h : 0 < width BITS) : BaseBlob BITS :=
  ⟨v :: List.replicate (width BITS - 1) 0, by simp; omega⟩

/-- `IsNull()`: no byte of `m_data` is nonzero. -/
def isNull (b : BaseBlob BITS) : Bool := b.mData.all (· == 0)

/-- `SetNull()`: `memset(m_data, 0, sizeof(m_data))`. -/
def setNull (_ : BaseBlob BITS) : BaseBlob BITS := zero

/-- `size()`: `sizeof(m_data)`. -/
def size (_ : BaseBlob BITS) : Nat := width BITS

/-- `Compare(other)`: `memcmp(m_data, other.m_data, sizeof(m_data))`. -/
def compare (a other : BaseBlob BITS) : Int := memcmp a.mData other.mData a.size

/-- `operator==`: `a.Compare(b) == 0`. -/
def operatorEq (a b : BaseBlob BITS) : Bool := a.compare b == 0

/-- `operator!=`: `a.Compare(b) != 0`. -/
def operatorNe (a b : BaseBlob BITS) : Bool := a.compare b != 0

/-- `operator<`: `a.Compare(b) < 0`. -/
def operatorLt (a b : BaseBlob BITS) : Bool := decide (a.compare b < 0)

@[simp] theorem zero_mData : (zero : BaseBlob BITS).mData = List.replicate (width BITS) 0 := rfl

@[simp] theorem ofUInt8_mData (v : UInt8) (h : 0 < width BITS) :
    (ofUInt8 v h : BaseBlob BITS).mData = v :: List.replicate (width BITS - 1) 0 := rfl

@[simp] theorem setNull_eq (b : BaseBlob BITS) : b.setNull = zero := rfl

@[simp] theorem size_eq (b : BaseBlob BITS) : b.size = width BITS := rfl

/-- `Compare` runs `memcmp` over the whole of both arrays. -/
theorem compare_eq (a b : BaseBlob BITS) : a.compare b = memcmp a.mData b.mData a.mData.length := by
  rw [compare, size_eq, length_mData]

end BaseBlob

/-- `blob88`, an 88-bit blob (11 bytes). -/
abbrev Blob88 := BaseBlob 88

/-- `uint160`, a 160-bit blob (20 bytes) with no integer operations. -/
abbrev Uint160 := BaseBlob 160

/-- `uint256`, a 256-bit blob (32 bytes) with no integer operations. -/
abbrev Uint256 := BaseBlob 256

/-- `uint512`, a 512-bit blob (64 bytes). -/
abbrev Uint512 := BaseBlob 512

/-- `UINT256_ZERO = uint256()`, the zero `uint256`. -/
def uint256Zero : Uint256 := BaseBlob.zero

end OpaqueBlob
