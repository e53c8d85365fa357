import Quiver.Core.Types

/-!
Collection descriptors, vectors as raw `f32` bit patterns, and the encodings the engine
takes from its libraries: the log record and descriptor formats, the frame checksum and the
codec that seals log records.
-/

namespace Quiver.Core

inductive Dtype where
  | f32
  deriving DecidableEq, Repr

def Dtype.elementSize : Dtype → Nat
  | .f32 => 4

inductive DistanceMetric where
  | dot
  | cosine
  | l2
  deriving DecidableEq, Repr

inductive IndexKind where
  | hnsw
  | vamana
  | diskVamana
  | ivf
  | colbert
  deriving DecidableEq, Repr

structure IndexSpec where
  kind : IndexKind := .hnsw
  pqSubspaces : Option Nat := none
  binary : Bool := false
  deriving DecidableEq, Repr

inductive FieldType where
  | keyword
  | numeric
  deriving DecidableEq, Repr

structure FilterableField where
  path : String
  fieldType : FieldType
  deriving DecidableEq, Repr

inductive VectorEncryption where
  | none
  | dcpe
  | clientSide
  deriving DecidableEq, Repr

structure Descriptor where
  dim : Nat
  dtype : Dtype := .f32
  metric : DistanceMetric
  index : IndexSpec := {}
  filterable : List FilterableField := []
  multivector : Bool := false
  vectorEncryption : VectorEncryption := .none
  deriving DecidableEq, Repr

def Descriptor.stride (d : Descriptor) : Nat := d.dim * d.dtype.elementSize

/-- An `f32` as its bit pattern. -/
abbrev F32 := UInt32

def f32ToLeBytes (vector : List F32) : Bytes := vector.flatMap fun x => Codec.le32 x.toNat

/-- Four bytes at a time; an incomplete last chunk is dropped. -/
def leBytesToF32 : Bytes → List F32
  | a :: b :: c :: d :: rest => UInt32.ofNat (Codec.ofLe32 [a, b, c, d]) :: leBytesToF32 rest
  | _ => []

@[simp] theorem length_f32ToLeBytes (vector : List F32) :
    (f32ToLeBytes vector).length = 4 * vector.length := by
  induction vector with
  | nil => rfl
  | cons x rest ih =>
    simp only [f32ToLeBytes, List.flatMap_cons, List.length_append, Codec.length_le32,
      List.length_cons] at ih ⊢
    omega

@[simp] theorem leBytesToF32_f32ToLeBytes (vector : List F32) :
    leBytesToF32 (f32ToLeBytes vector) = vector := by
  induction vector with
  | nil => rfl
  | cons x rest ih =>
    have bits : UInt32.ofNat (Codec.ofLe32 (Codec.le32 x.toNat)) = x := by
      rw [Codec.ofLe32_le32 x.toNat_lt]
      exact UInt32.ofNat_toNat
    simp only [f32ToLeBytes, List.flatMap_cons, Codec.le32, List.cons_append, List.nil_append,
      leBytesToF32, List.cons.injEq] at ih ⊢
    exact ⟨bits, ih⟩

/-- A stored record returned by reads: the decoded vector and opaque payload. -/
structure Record where
  vector : List F32
  payload : Bytes
  deriving DecidableEq, Repr

/-- Seals log records, binding the frame offset. -/
structure PageCodec where
  sealRecord : Option Nat → Bytes → Bytes
  openRecord : Option Nat → Bytes → Except CoreError Bytes
  open_seal : ∀ position plain, openRecord position (sealRecord position plain) = .ok plain
  seal_ne_nil : ∀ position plain, plain ≠ [] → sealRecord position plain ≠ []

/-- What the engine takes from its libraries. -/
structure Encoding where
  walEntry : Codec WalEntry
  descriptor : Codec Descriptor
  /-- The descriptor layouts of earlier versions, tried after the current one. -/
  olderDescriptor : Bytes → Option Descriptor
  crc32c : Bytes → UInt32
  catalogCodec : PageCodec

namespace Encoding

variable (encoding : Encoding)

def decodeDescriptor (bytes : Bytes) : Option Descriptor :=
  (encoding.descriptor.fromBytes bytes).or (encoding.olderDescriptor bytes)

@[simp] theorem decodeDescriptor_encode (d : Descriptor) :
    encoding.decodeDescriptor (encoding.descriptor.encode d) = some d := by
  simp [decodeDescriptor]

end Encoding

end Quiver.Core
