/-
A stream that carries whole `base_blob<BITS>` fields, driven by any
sequence of `Serialize` and `Unserialize` calls in any order, is a FIFO
queue of blobs. Two levels: `runStream` makes the calls as the code does on
a `DataStream`; `runQueue` is the queue they describe, where `Serialize`
enqueues and `Unserialize` dequeues the oldest blob or fails on an empty
queue. A stream holding the encodings of a queue of blobs (`encode`) runs
exactly as that queue does (`runStream_encode`, from one step lemma per
call). Over the queue, every run that does not fail reads the blobs queued
and then the blobs written, in order, as a prefix, and keeps the rest
queued (`runQueue_conserves`); and a run fails exactly when some prefix of
the calls reads more fields than it found (`runQueue_isSome_iff`). Together,
on every run of the stream (`runStream_fifo`), no field is lost, duplicated
or reordered, and no `Unserialize` splits a field.

The fields need `WIDTH > 0`: a zero-width read never fails, so an
`Unserialize` on an empty stream of zero-width fields succeeds.
-/
import OpaqueBlob.Serialize

namespace OpaqueBlob.BaseBlob

variable {BITS : Nat}

/-- One call on the stream: `b.Serialize(s)`, or an `Unserialize(s)`. -/
inductive StreamOp (BITS : Nat) where
  | serialize (b : BaseBlob BITS)
  | unserialize

/-- The calls made in order on a stream, every `Unserialize` into the
storage of `b0`: the blobs read, in order, and the stream left; `none` when
an `Unserialize` fails (end of data), which ends the run. -/
def runStream (b0 : BaseBlob BITS) :
    List (StreamOp BITS) → DataStream → Option (List (BaseBlob BITS) × DataStream)
  | [], s => some ([], s)
  | .serialize b :: ops, s => runStream b0 ops (b.serialize s)
  | .unserialize :: ops, s => (b0.unserialize s).bind fun r =>
      (runStream b0 ops r.2).map fun r' => (r.1 :: r'.1, r'.2)

/-- The queue of blobs the calls describe: `Serialize` enqueues, and
`Unserialize` dequeues the oldest blob, failing on an empty queue. -/
def runQueue : List (StreamOp BITS) → List (BaseBlob BITS) →
    Option (List (BaseBlob BITS) × List (BaseBlob BITS))
  | [], q => some ([], q)
  | .serialize b :: ops, q => runQueue ops (q ++ [b])
  | .unserialize :: _, [] => none
  | .unserialize :: ops, b :: q => (runQueue ops q).map fun r => (b :: r.1, r.2)

/-- The stream holding the fields `q`, in order. -/
def encode (q : List (BaseBlob BITS)) : DataStream := ⟨q.flatMap mData⟩

/-- The blobs the `Serialize` calls write, in order. -/
def written : List (StreamOp BITS) → List (BaseBlob BITS)
  | [] => []
  | .serialize b :: ops => b :: written ops
  | .unserialize :: ops => written ops

/-- The number of `Unserialize` calls. -/
def reads : List (StreamOp BITS) → Nat
  | [] => 0
  | .serialize _ :: ops => reads ops
  | .unserialize :: ops => reads ops + 1

/-- No prefix of the calls reads more fields than the `q` queued before it
and the ones it writes: every `Unserialize` finds a field. -/
def ReadsCovered (q : List (BaseBlob BITS)) (ops : List (StreamOp BITS)) : Prop :=
  ∀ p, p <+: ops → reads p ≤ q.length + (written p).length

/-! ## One call on a stream of whole fields -/

theorem serialize_encode (b : BaseBlob BITS) (q : List (BaseBlob BITS)) :
    b.serialize (encode q) = encode (q ++ [b]) :=
  congrArg DataStream.mk (by simp [encode])

theorem unserialize_encode_cons (b0 b : BaseBlob BITS) (q : List (BaseBlob BITS)) :
    b0.unserialize (encode (b :: q)) = some (b, encode q) :=
  unserialize_append b0 b _

theorem unserialize_encode_nil (h : 0 < width BITS) (b0 : BaseBlob BITS) :
    b0.unserialize (encode ([] : List (BaseBlob BITS))) = none := by
  rw [unserialize, Option.map_eq_none', DataStream.read_eq_none_iff]
  exact h

/-! ## The stream runs as the queue -/

/-- **The stream refines the queue.** Started on a stream holding whole
fields `q`, the calls read what the queue of `q` dequeues, fail when it
fails, and leave the encoding of the queue it leaves. -/
theorem runStream_encode (h : 0 < width BITS) (b0 : BaseBlob BITS) :
    ∀ (ops : List (StreamOp BITS)) (q : List (BaseBlob BITS)),
      runStream b0 ops (encode q) = (runQueue ops q).map fun r => (r.1, encode r.2)
  | [], _ => rfl
  | .serialize b :: ops, q => by
    rw [runStream, runQueue, serialize_encode, runStream_encode h b0 ops]
  | .unserialize :: ops, [] => by
    rw [runStream, runQueue, unserialize_encode_nil h]
    rfl
  | .unserialize :: ops, b :: q => by
    rw [runStream, runQueue, unserialize_encode_cons, Option.some_bind, runStream_encode h b0 ops,
      Option.map_map, Option.map_map]
    rfl

/-! ## Every run of the queue -/

/-- **Nothing is lost, duplicated or reordered.** When a run succeeds, the
blobs read and then the blobs left queued are the blobs queued at the start
and then the blobs written. -/
theorem runQueue_conserves :
    ∀ {ops : List (StreamOp BITS)} {q read q' : List (BaseBlob BITS)},
      runQueue ops q = some (read, q') → read ++ q' = q ++ written ops
  | [], _, _, _, h => by
    obtain ⟨rfl, rfl⟩ := Prod.mk.inj (Option.some.inj h)
    simp [written]
  | .serialize b :: ops, q, _, _, h => by
    rw [runQueue] at h
    rw [runQueue_conserves h, written, List.append_assoc, List.singleton_append]
  | .unserialize :: ops, [], _, _, h => by cases h
  | .unserialize :: ops, b :: q, _, _, h => by
    simp only [runQueue, Option.map_eq_some', Prod.mk.injEq] at h
    obtain ⟨⟨r, r'⟩, hr, rfl, rfl⟩ := h
    rw [written, List.cons_append, List.cons_append, runQueue_conserves hr]

theorem readsCovered_cons {q : List (BaseBlob BITS)} {op : StreamOp BITS} {ops : List (StreamOp BITS)} :
    ReadsCovered q (op :: ops) ↔ ∀ t, t <+: ops →
      reads (op :: t) ≤ q.length + (written (op :: t)).length := by
  simp only [ReadsCovered, List.prefix_cons_iff]
  constructor
  · exact fun hc t ht => hc _ (.inr ⟨t, rfl, ht⟩)
  · rintro hc p (rfl | ⟨t, rfl, ht⟩)
    · simp [reads]
    · exact hc t ht

/-- **A run fails exactly when an `Unserialize` finds the queue empty**:
it succeeds exactly when no prefix of the calls reads more fields than were
queued before it or written in it. -/
theorem runQueue_isSome_iff :
    ∀ (ops : List (StreamOp BITS)) (q : List (BaseBlob BITS)),
      (runQueue ops q).isSome = true ↔ ReadsCovered q ops
  | [], q => by
    simp only [runQueue, Option.isSome_some, true_iff]
    intro p hp
    simp [List.prefix_nil.1 hp, reads]
  | .serialize b :: ops, q => by
    rw [runQueue, runQueue_isSome_iff ops, readsCovered_cons, ReadsCovered]
    simp only [reads, written, List.length_append, List.length_cons, List.length_nil]
    refine forall_congr' fun t => imp_congr_right fun _ => ?_
    omega
  | .unserialize :: ops, [] => by
    simp only [runQueue, Option.isSome_none, Bool.false_eq_true, false_iff, readsCovered_cons]
    intro hc
    simpa [reads, written] using hc [] List.nil_prefix
  | .unserialize :: ops, b :: q => by
    rw [runQueue, Option.isSome_map', runQueue_isSome_iff ops, readsCovered_cons, ReadsCovered]
    simp only [reads, written, List.length_cons]
    refine forall_congr' fun t => imp_congr_right fun _ => ?_
    omega

/-! ## Every run of the stream -/

/-- **A stream of blob fields is a FIFO queue.** For every width with
`WIDTH > 0`, every stream holding whole fields `q` (the empty stream among
them) and every sequence of `Serialize` and `Unserialize` calls: the stream
runs as the queue of `q` does, reading what it dequeues and left holding the
fields it keeps; the run fails exactly when some prefix of the calls reads
more fields than were queued before it or written in it; and when it
succeeds, the blobs read followed by the fields the stream still holds are
the fields queued at the start followed by the blobs written, in order. -/
theorem runStream_fifo (h : 0 < width BITS) (b0 : BaseBlob BITS) (ops : List (StreamOp BITS))
    (q : List (BaseBlob BITS)) :
    runStream b0 ops (encode q) = (runQueue ops q).map (fun r => (r.1, encode r.2)) ∧
      ((runStream b0 ops (encode q)).isSome = true ↔ ReadsCovered q ops) ∧
      ∀ read s, runStream b0 ops (encode q) = some (read, s) →
        ∃ q', s = encode q' ∧ read ++ q' = q ++ written ops := by
  rw [runStream_encode h]
  refine ⟨rfl, by rw [Option.isSome_map', runQueue_isSome_iff], fun read s hs => ?_⟩
  obtain ⟨⟨r, q'⟩, hr, he⟩ := Option.map_eq_some'.1 hs
  obtain ⟨rfl, rfl⟩ := Prod.mk.inj he
  exact ⟨q', rfl, runQueue_conserves hr⟩

theorem runStream_fifo_uint256 :
    0 < width 256 ∧
      (runStream uint256Zero [.serialize uint256Zero, .unserialize] (encode ([] : List Uint256)) =
          (runQueue [.serialize uint256Zero, .unserialize] []).map (fun r => (r.1, encode r.2)) ∧
        ((runStream uint256Zero [.serialize uint256Zero, .unserialize]
            (encode ([] : List Uint256))).isSome = true ↔
          ReadsCovered [] [.serialize uint256Zero, .unserialize]) ∧
        ∀ read s, runStream uint256Zero [.serialize uint256Zero, .unserialize]
            (encode ([] : List Uint256)) = some (read, s) →
          ∃ q', s = encode q' ∧ read ++ q' = [] ++ written [.serialize uint256Zero, .unserialize]) :=
  ⟨by decide, runStream_fifo (by decide) uint256Zero _ []⟩

end OpaqueBlob.BaseBlob
