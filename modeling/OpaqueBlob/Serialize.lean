/-
`base_blob::Serialize` writes the `WIDTH` bytes of `m_data` to a stream and
`Unserialize` reads `WIDTH` bytes back into `m_data`. Over a stream that
queues bytes behind the unread ones and reads them off the front, the two
are inverse framings: reading after writing gives the blob back, consumes
exactly `WIDTH` bytes and leaves what follows untouched; writing after
reading puts back exactly the bytes read; so the encoding is a bijection
between the blobs and the byte strings of length `WIDTH`
(`serialize_unserialize_bijection`). By induction on the fields, a run of
blobs of any widths written one after another is read back field by field
(`unserializeFields_serializeFields`). And the bytes written sort as the
blobs do under `operator<` (`serialize_lex_iff_operatorLt`), so a store
keyed by the serialized bytes orders its keys as the blobs are ordered.
-/
import OpaqueBlob.Order

namespace OpaqueBlob

/-- Modelled from the spec: the stream `Serialize` and `Unserialize` are
templated over (the stream classes are not among the sources), seen as the
bytes queued in it and not read yet. -/
structure DataStream where
  vch : List UInt8
deriving DecidableEq, Repr

namespace DataStream

/-- Modelled from the spec: `write(pch, nSize)` queues the `nSize` bytes at
`pch` behind the bytes already queued. -/
def write (s : DataStream) (pch : List UInt8) (nSize : Nat) : DataStream :=
  ⟨s.vch ++ pch.take nSize⟩

/-- Modelled from the spec: `read(pch, nSize)` takes the next `nSize` bytes
off the front of the stream, and fails at the end of data when fewer are
queued. -/
def read (s : DataStream) (nSize : Nat) :
    Option ({l : List UInt8 // l.length = nSize} × DataStream) :=
  if h : nSize ≤ s.vch.length then
    some (⟨s.vch.take nSize, List.length_take_of_le h⟩, ⟨s.vch.drop nSize⟩)
  else none

theorem read_eq_none_iff (s : DataStream) (nSize : Nat) :
    s.read nSize = none ↔ s.vch.length < nSize := by
  unfold read
  split <;> simp <;> omega

end DataStream

namespace BaseBlob

variable {BITS : Nat}

/-- `Serialize(s)`: `s.write((char*)m_data, sizeof(m_data))`. -/
def serialize (b : BaseBlob BITS) (s : DataStream) : DataStream :=
  s.write b.mData b.size

/-- `Unserialize(s)`: `s.read((char*)m_data, sizeof(m_data))`, which
overwrites the whole of `m_data`. -/
def unserialize (b : BaseBlob BITS) (s : DataStream) : Option (BaseBlob BITS × DataStream) :=
  (s.read b.size).map fun r => (⟨r.1.1, r.1.2⟩, r.2)

@[simp] theorem serialize_vch (b : BaseBlob BITS) (s : DataStream) :
    (b.serialize s).vch = s.vch ++ b.mData := by
  simp [serialize, DataStream.write]

theorem unserialize_of_le (b0 : BaseBlob BITS) (s : DataStream) (h : width BITS ≤ s.vch.length) :
    b0.unserialize s =
      some (⟨s.vch.take (width BITS), List.length_take_of_le h⟩, ⟨s.vch.drop (width BITS)⟩) := by
  simp [unserialize, DataStream.read, h]

theorem unserialize_append (b0 b : BaseBlob BITS) (rest : List UInt8) :
    b0.unserialize ⟨b.mData ++ rest⟩ = some (b, ⟨rest⟩) := by
  rw [unserialize_of_le b0 _ (by simp)]
  simp

/-- **`Serialize` and `Unserialize` frame a blob, and the encoding is a
bijection.** For every width: `Serialize` appends `WIDTH` bytes, from which
`Unserialize` gets the blob back, whatever follows them, consuming exactly
those bytes; from any stream holding `WIDTH` bytes or more, `Unserialize`
consumes `WIDTH` of them and `Serialize` then writes back exactly those; and
the bytes written are a one-to-one encoding onto the strings of length
`WIDTH`. -/
theorem serialize_unserialize_bijection (BITS : Nat) :
    (∀ (b b0 : BaseBlob BITS) (s : DataStream) (rest : List UInt8),
      ∃ bytes : List UInt8, b.serialize s = ⟨s.vch ++ bytes⟩ ∧ bytes.length = width BITS ∧
        b0.unserialize ⟨bytes ++ rest⟩ = some (b, ⟨rest⟩)) ∧
    (∀ (b0 : BaseBlob BITS) (s : DataStream), width BITS ≤ s.vch.length →
      ∃ b : BaseBlob BITS, b0.unserialize s = some (b, ⟨s.vch.drop (width BITS)⟩) ∧
        ∀ t : DataStream, b.serialize t = ⟨t.vch ++ s.vch.take (width BITS)⟩) ∧
    (∀ b1 b2 : BaseBlob BITS, b1.serialize ⟨[]⟩ = b2.serialize ⟨[]⟩ → b1 = b2) ∧
    (∀ l : List UInt8, l.length = width BITS ↔ ∃ b : BaseBlob BITS, (b.serialize ⟨[]⟩).vch = l) := by
  refine ⟨fun b b0 s rest => ⟨b.mData, congrArg DataStream.mk (serialize_vch b s), b.length_mData,
      unserialize_append b0 b rest⟩,
    fun b0 s h => ⟨_, unserialize_of_le b0 s h, fun t => congrArg DataStream.mk (serialize_vch _ t)⟩,
    fun b1 b2 h => ?_, fun l => ?_⟩
  · simpa [BaseBlob.ext_iff] using congrArg DataStream.vch h
  · exact ⟨fun h => ⟨⟨l, h⟩, by simp⟩, by rintro ⟨b, rfl⟩; simp⟩

theorem lex_append_left_iff (s : List UInt8) {t₁ t₂ : List UInt8} :
    List.Lex (· < ·) (s ++ t₁) (s ++ t₂) ↔ List.Lex (· < ·) t₁ t₂ := by
  induction s with
  | nil => rfl
  | cons a s ih => rw [List.cons_append, List.cons_append, List.Lex.cons_iff, ih]

/-- **The encodings sort as the blobs do.** Written after the same bytes,
the encoding of `a` is lexicographically below that of `b` exactly when
`a < b`. -/
theorem serialize_lex_iff_operatorLt (a b : BaseBlob BITS) (s : DataStream) :
    List.Lex (· < ·) (a.serialize s).vch (b.serialize s).vch ↔ a.operatorLt b = true := by
  rw [serialize_vch, serialize_vch, lex_append_left_iff, operatorLt_iff]

/-! ## Consecutive fields -/

/-- Blobs of any widths written one after another, as the consecutive fields
of a message. -/
def serializeFields (fs : List (Σ BITS, BaseBlob BITS)) (s : DataStream) : DataStream :=
  fs.foldl (fun s f => f.2.serialize s) s

/-- Fields of the widths `ws` read one after another, each into a
`base_blob()`. -/
def unserializeFields : List Nat → DataStream → Option (List (Σ BITS, BaseBlob BITS) × DataStream)
  | [], s => some ([], s)
  | BITS :: ws, s => ((zero : BaseBlob BITS).unserialize s).bind fun r =>
      (unserializeFields ws r.2).map fun r' => (⟨BITS, r.1⟩ :: r'.1, r'.2)

theorem serializeFields_vch (fs : List (Σ BITS, BaseBlob BITS)) (s : DataStream) :
    (serializeFields fs s).vch = s.vch ++ fs.flatMap fun f => f.2.mData := by
  induction fs generalizing s with
  | nil => simp [serializeFields]
  | cons f fs ih =>
    rw [serializeFields, List.foldl_cons, ← serializeFields, ih, serialize_vch, List.flatMap_cons,
      List.append_assoc]

/-- **Consecutive blob fields frame correctly.** Whatever the widths of a
run of blobs written one after another, and whatever bytes follow them,
reading back fields of the same widths in the same order gives the same
blobs and leaves the following bytes unread. -/
theorem unserializeFields_serializeFields (fs : List (Σ BITS, BaseBlob BITS)) (rest : List UInt8) :
    unserializeFields (fs.map Sigma.fst) ⟨(serializeFields fs ⟨[]⟩).vch ++ rest⟩ = some (fs, ⟨rest⟩) := by
  rw [serializeFields_vch, List.nil_append]
  induction fs with
  | nil => rfl
  | cons f fs ih =>
    rw [List.flatMap_cons, List.append_assoc, List.map_cons, unserializeFields, unserialize_append,
      Option.some_bind]
    dsimp only
    rw [ih]
    rfl

end BaseBlob

end OpaqueBlob
