import Quiver.Embed.Reads

/-!
Sparse and text searches with and without the sparse index. The index is derived from the rows; where a handle
has none, sparse searches scan the rows and text searches find nothing.
-/

namespace Quiver.Query

def SparseVector.validate {W : Type} (sv : SparseVector W) : Bool :=
  decide (sv.indices.length = sv.values.length ∧ sv.indices.Nodup)

end Quiver.Query

namespace Quiver.Embed

open Quiver.Core (Bytes CollectionState F32 Record)
open Json (Value)
open Query (Filter SparseInvertedIndex)
open Query.SparseInvertedIndex (Ranks)
open Std (ExtTreeMap)

def textKey : String := "__quiver_text__"

section Index

variable {D : Type} (lib : Library D)

def Library.textToSparse (text : String) : SparseVector :=
  (lib.terms text).eraseDups.map fun term => (term, lib.frequency ((lib.terms text).count term))

/-- The vector that a row is indexed under: its sparse vector, if that is well-formed, or else that of its text. -/
def Library.sparseVectorFromValue (payload : Value) : Option SparseVector :=
  match payload.get sparseKey with
  | some raw => ((lib.readSparse raw).filter fun sv => sv.validate).map fun sv => sv.indices.zip sv.values
  | none => match payload.get textKey with
    | some (.string text) => some (lib.textToSparse text)
    | _ => none

def Library.sparseVectorFromPayload (payload : Bytes) : Option SparseVector :=
  if payload.isEmpty then none else (lib.parse payload).bind lib.sparseVectorFromValue

/-- A row with a well-formed sparse vector, or with neither vector nor text. -/
def Library.scannable (payload : Value) : Bool :=
  match payload.get sparseKey with
  | some raw => (lib.readSparse raw).all fun sv => sv.validate
  | none => (lib.sparseVectorFromValue payload).isNone

/-- Each row is of this kind. -/
def Library.Plain (m : ExtTreeMap String Record) : Prop := ∀ (id : String) (record : Record), m[id]? = some record →
  ∀ value, lib.parse record.payload = some value → lib.scannable value = true

end Index

section Scan

variable {D : Type} {lib : Library D} {cfg : Setting} {m : ExtTreeMap String Record}

variable [Field D]

variable [LinearOrder D] {c : CollectionState}

/-- A row passes a filter. -/
def Library.admits (lib : Library D) (m : ExtTreeMap String Record) (filter : Option Filter) (id : String) : Bool :=
  filter.all fun f => (m[id]?).any fun record => (lib.parse record.payload).any f.matches

end Scan

/-- Payloads are one byte: a text, and sparse vectors that are well-formed or have a dimension twice. -/
def byteLibrary : Library ℚ :=
  { lineLibrary with
    parse := fun bytes => match bytes with
      | [0] => some (.object [(textKey, .string "cat")])
      | [1] => some (.object [(sparseKey, .bool true)])
      | [2] => some (.object [(sparseKey, .bool false)])
      | _ => none
    readSparse := fun value => match value with
      | .bool true => some ⟨[1], [1]⟩
      | .bool false => some ⟨[1, 1], [1, 1]⟩
      | _ => none
    terms := fun text => if text = "cat" then [1] else [2]
    frequency := fun n => n.toUInt32 }

def byteSetting : Setting := { Setting.plain with sparseVector := byteLibrary.sparseVectorFromPayload }

/-- A replica creates a collection, and a row is written to it. -/
def replicated (payload : UInt8) : List Database.Event :=
  [.replicate (.createCollection 0 "c" (byteSetting.encoding.descriptor.encode Database.lineDescriptor)),
    .upsert "c" ⟨"a", [0], [payload]⟩, .ensureIndexed "c"]

end Quiver.Embed
