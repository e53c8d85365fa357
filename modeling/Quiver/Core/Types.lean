import Quiver.Base.Codec
import Mathlib.Data.String.Basic

/-!
The records of the write-ahead log and the errors of the storage engine. Log sequence
numbers, collection ids and segment ids are natural numbers; vectors and payloads are
bytes, as in the log.
-/

namespace Quiver.Core

abbrev Bytes := List UInt8

abbrev Lsn := Nat

abbrev CollectionId := Nat

inductive CoreError where
  | io
  | badMagic (expected found : Nat)
  | unsupportedVersion (found supported : Nat)
  | malformedPage (message : String)
  | serialization
  | tooLarge (message : String)
  | notFound (message : String)
  | alreadyExists (message : String)
  | invalidArgument (message : String)
  deriving DecidableEq, Repr

/-- A single logical mutation recorded in the log. -/
inductive WalOp where
  | createCollection (collectionId : CollectionId) (name : String) (descriptor : Bytes)
  | dropCollection (collectionId : CollectionId)
  | upsert (collectionId : CollectionId) (externalId : String) (vector payload : Bytes)
  | delete (collectionId : CollectionId) (externalId : String)
  | checkpoint (lastCheckpointedLsn : Lsn) (manifestVersion : Nat)
  deriving DecidableEq, Repr

structure WalEntry where
  lsn : Lsn
  op : WalOp
  deriving DecidableEq, Repr

namespace Postcard

def string : Codec String :=
  Codec.bytes.via (fun s => s.toByteArray.data.toList)
    (fun bytes => String.fromUTF8? ⟨bytes.toArray⟩)
    (by
      intro s
      have whole : (⟨s.toByteArray.data.toList.toArray⟩ : ByteArray) = s.toByteArray := by simp
      simp only [whole, String.fromUTF8?]
      rw [dif_pos s.isValidUTF8]
      rfl)

abbrev createFields : Codec (Nat × String × Bytes) :=
  Codec.varint.pair (string.pair Codec.bytes)

abbrev upsertFields : Codec (Nat × String × Bytes × Bytes) :=
  Codec.varint.pair (string.pair (Codec.bytes.pair Codec.bytes))

abbrev deleteFields : Codec (Nat × String) := Codec.varint.pair string

abbrev checkpointFields : Codec (Nat × Nat) := Codec.varint.pair Codec.varint

def walOpTag : WalOp → Nat
  | .createCollection .. => 0
  | .dropCollection .. => 1
  | .upsert .. => 2
  | .delete .. => 3
  | .checkpoint .. => 4

def encodeWalOpFields : WalOp → Bytes
  | .createCollection id name descriptor => createFields.encode (id, name, descriptor)
  | .dropCollection id => Codec.varint.encode id
  | .upsert id externalId vector payload => upsertFields.encode (id, externalId, vector, payload)
  | .delete id externalId => deleteFields.encode (id, externalId)
  | .checkpoint lsn version => checkpointFields.encode (lsn, version)

def parseWalOp : Nat → Bytes → Option (WalOp × Bytes)
  | 0, bytes => createFields.parseAs (fun (id, name, d) => .createCollection id name d) bytes
  | 1, bytes => Codec.varint.parseAs .dropCollection bytes
  | 2, bytes => upsertFields.parseAs (fun (id, externalId, v, p) => .upsert id externalId v p) bytes
  | 3, bytes => deleteFields.parseAs (fun (id, externalId) => .delete id externalId) bytes
  | 4, bytes => checkpointFields.parseAs (fun (lsn, version) => .checkpoint lsn version) bytes
  | _, _ => none

/-- The derived encoding of an operation: its variant index, then its fields. -/
def walOp : Codec WalOp :=
  Codec.tagged walOpTag encodeWalOpFields parseWalOp (by
    intro op rest
    cases op <;> simp only [walOpTag, encodeWalOpFields, parseWalOp, Codec.parseAs_encode])

def walEntry : Codec WalEntry :=
  (Codec.varint.pair walOp).via (fun e => (e.lsn, e.op)) (fun p => some ⟨p.1, p.2⟩) (by simp)

end Postcard

end Quiver.Core
