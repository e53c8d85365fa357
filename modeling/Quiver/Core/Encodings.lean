import Quiver.Core.Descriptor

/-!
The encodings the engine ships with: the derived postcard layout of a descriptor, the
Castagnoli checksum, and the codec that leaves records as they are.
-/

namespace Quiver.Core

namespace Postcard

def enumeration {α : Type} (tag : α → Nat) (variants : List α)
    (listed : ∀ a, variants[tag a]? = some a) : Codec α :=
  Codec.varint.via tag (fun index => variants[index]?) listed

def dtype : Codec Dtype :=
  enumeration (fun _ => 0) [.f32] (by intro a; cases a; rfl)

def distanceMetric : Codec DistanceMetric :=
  enumeration (fun | .dot => 0 | .cosine => 1 | .l2 => 2) [.dot, .cosine, .l2] (by intro a; cases a <;> rfl)

def indexKind : Codec IndexKind :=
  enumeration (fun | .hnsw => 0 | .vamana => 1 | .diskVamana => 2 | .ivf => 3 | .colbert => 4)
    [.hnsw, .vamana, .diskVamana, .ivf, .colbert] (by intro a; cases a <;> rfl)

def fieldType : Codec FieldType :=
  enumeration (fun | .keyword => 0 | .numeric => 1) [.keyword, .numeric] (by intro a; cases a <;> rfl)

def vectorEncryption : Codec VectorEncryption :=
  enumeration (fun | .none => 0 | .dcpe => 1 | .clientSide => 2) [.none, .dcpe, .clientSide]
    (by intro a; cases a <;> rfl)

def option {α : Type} (item : Codec α) : Codec (Option α) :=
  Codec.tagged (fun | none => 0 | some _ => 1) (fun | none => [] | some a => item.encode a)
    (fun
      | 0, rest => some (none, rest)
      | 1, rest => item.parseAs some rest
      | _, _ => none)
    (by intro a rest; cases a <;> simp)

def indexSpec : Codec IndexSpec :=
  (indexKind.pair ((option Codec.varint).pair Codec.bool)).via
    (fun s => (s.kind, s.pqSubspaces, s.binary)) (fun (kind, pq, binary) => some ⟨kind, pq, binary⟩)
    (by simp)

def filterableField : Codec FilterableField :=
  (string.pair fieldType).via (fun f => (f.path, f.fieldType)) (fun (path, type) => some ⟨path, type⟩)
    (by simp)

def descriptor : Codec Descriptor :=
  (Codec.varint.pair (dtype.pair (distanceMetric.pair (indexSpec.pair ((Codec.seq filterableField).pair
    (Codec.bool.pair vectorEncryption)))))).via
    (fun d => (d.dim, d.dtype, d.metric, d.index, d.filterable, d.multivector, d.vectorEncryption))
    (fun (dim, dtype, metric, index, filterable, multivector, vectorEncryption) =>
      some ⟨dim, dtype, metric, index, filterable, multivector, vectorEncryption⟩)
    (by simp)

end Postcard

def crc32cBit (crc : UInt32) : UInt32 :=
  if crc &&& 1 = 1 then (crc >>> 1) ^^^ 0x82F63B78 else crc >>> 1

def crc32cByte (crc : UInt32) (b : UInt8) : UInt32 :=
  (List.range 8).foldl (fun crc _ => crc32cBit crc) (crc ^^^ b.toUInt32)

def crc32c (bytes : Bytes) : UInt32 := bytes.foldl crc32cByte 0xFFFFFFFF ^^^ 0xFFFFFFFF

example : crc32c [0x31, 0x32, 0x33, 0x34, 0x35, 0x36, 0x37, 0x38, 0x39] = 0xE3069283 := by decide +kernel

/-- Records as they are. -/
def PageCodec.plain : PageCodec where
  sealRecord _ bytes := bytes
  openRecord _ bytes := .ok bytes
  open_seal _ _ := rfl
  seal_ne_nil _ _ some := some

def Encoding.plain : Encoding where
  walEntry := Postcard.walEntry
  descriptor := Postcard.descriptor
  olderDescriptor _ := none
  crc32c := Core.crc32c
  catalogCodec := .plain

end Quiver.Core
