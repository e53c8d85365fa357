import Quiver.Base.Bisect
import Quiver.Core.Descriptor
import Mathlib.Data.Finset.Card
import Mathlib.Data.List.Sort

/-!
Sealed segments: a vector column, a payload heap, an id column, a row directory with offsets into
them, and the row numbers ordered by external id, in which a row is found by binary search.
-/

namespace Quiver.Core

def segmentFormatVersion : Nat := 4

structure RowEntry where
  idOff : Nat
  idLen : Nat
  payOff : Nat
  payLen : Nat
  deriving DecidableEq, Repr

structure SegmentDir where
  formatVersion : Nat
  segmentId : Nat
  rows : List RowEntry
  sortedRows : List Nat
  deriving DecidableEq, Repr

/-- A row to seal. -/
structure SealRow where
  externalId : String
  vector : Bytes
  payload : Bytes
  deriving DecidableEq, Repr

structure ByteLoc where
  off : Nat
  len : Nat
  deriving DecidableEq, Repr

/-- Row numbers of a segment, as its tombstone file holds them. -/
abbrev Bitmap := Finset Nat

/-- A secondary index, as the fields and payloads it is built over. -/
structure SecIndex where
  filterable : List FilterableField
  payloads : List Bytes
  deriving DecidableEq, Repr

/-- The contents of a segment's immutable files. -/
structure SegmentFiles where
  vec : Bytes
  pay : Bytes
  ids : Bytes
  dir : SegmentDir
  sec : Option SecIndex
  deriving DecidableEq, Repr

/-- A sealed segment opened for reads. -/
structure SealedSegment where
  segId : Nat
  vec : Bytes
  pay : Bytes
  ids : Bytes
  paylocs : List ByteLoc
  idlocs : List ByteLoc
  sortedRows : List Nat
  idRange : Option (String × String)
  dead : Bitmap
  sec : Option SecIndex
  deriving DecidableEq

def idBytes (id : String) : Bytes := id.toByteArray.data.toList

def readRange (file : Bytes) (off len : Nat) : Except CoreError Bytes :=
  if len = 0 then .ok []
  else if off + len ≤ file.length then .ok ((file.drop off).take len)
  else .error (.malformedPage "block-file page out of range")

namespace SealedSegment

def rowCount (seg : SealedSegment) : Nat := seg.paylocs.length

def isDead (seg : SealedSegment) (row : Nat) : Bool := row ∈ seg.dead

def liveCount (seg : SealedSegment) : Nat := seg.rowCount - seg.dead.card

def markDead (seg : SealedSegment) (rows : Bitmap) : SealedSegment :=
  { seg with dead := seg.dead ∪ rows }

def noRow (seg : SealedSegment) (row count : Nat) : CoreError :=
  .malformedPage s!"segment {seg.segId} has no row {row} (row count {count})"

def readId (seg : SealedSegment) (row : Nat) : Except CoreError String :=
  match seg.idlocs[row]? with
  | none => .error (seg.noRow row seg.idlocs.length)
  | some loc => do
    let bytes ← readRange seg.ids loc.off loc.len
    match String.fromUTF8? ⟨bytes.toArray⟩ with
    | some id => .ok id
    | none => .error (.malformedPage s!"segment {seg.segId} row {row} id is not valid UTF-8")

def readVector (seg : SealedSegment) (row stride : Nat) : Except CoreError Bytes :=
  readRange seg.vec (row * stride) stride

def readPayload (seg : SealedSegment) (row : Nat) : Except CoreError Bytes :=
  match seg.paylocs[row]? with
  | none => .error (seg.noRow row seg.paylocs.length)
  | some loc => readRange seg.pay loc.off loc.len

def sortedId (seg : SealedSegment) (position : Nat) : Except CoreError String :=
  match seg.sortedRows[position]? with
  | none => .error (seg.noRow position seg.sortedRows.length)
  | some row => seg.readId row

/-- The row carrying an external id, dead or not. An id outside the resident range is
rejected before the search. -/
def lookup (seg : SealedSegment) (id : String) : Except CoreError (Option Nat) :=
  match seg.idRange with
  | none => .ok none
  | some (min, max) =>
    if id < min ∨ max < id then .ok none
    else do
      let position ← Bisect.search seg.sortedId id seg.sortedRows.length 0 seg.sortedRows.length
      return position.bind (seg.sortedRows[·]?)

end SealedSegment

def sortedRowsById (ids : List String) : List Nat :=
  (List.range ids.length).insertionSort fun a b => ids.getD a "" ≤ ids.getD b ""

/-- The columns and the directory after the rows written so far. -/
structure SegmentColumns where
  vec : Bytes
  pay : Bytes
  ids : Bytes
  rows : List RowEntry

def SegmentColumns.push (columns : SegmentColumns) (row : SealRow) : SegmentColumns where
  vec := columns.vec ++ row.vector
  pay := columns.pay ++ row.payload
  ids := columns.ids ++ idBytes row.externalId
  rows := columns.rows ++ [{ idOff := columns.ids.length, idLen := (idBytes row.externalId).length,
                             payOff := columns.pay.length, payLen := row.payload.length }]

def segmentColumns (rows : List SealRow) : SegmentColumns :=
  rows.foldl SegmentColumns.push ⟨[], [], [], []⟩

/-- What `write_segment` and `write_segment_streaming` write for these rows. -/
def segmentFiles (segmentId : Nat) (rows : List SealRow) (filterable : List FilterableField) :
    SegmentFiles where
  vec := (segmentColumns rows).vec
  pay := (segmentColumns rows).pay
  ids := (segmentColumns rows).ids
  dir := { formatVersion := segmentFormatVersion, segmentId := segmentId,
           rows := (segmentColumns rows).rows,
           sortedRows := sortedRowsById (rows.map (·.externalId)) }
  sec := if filterable.isEmpty then none else some ⟨filterable, rows.map (·.payload)⟩

/-- Open a sealed segment from the contents of its files. -/
def openSegment (segmentId : Nat) (files : SegmentFiles) (dead : Bitmap) :
    Except CoreError SealedSegment :=
  if files.dir.formatVersion ≠ segmentFormatVersion then
    .error (.unsupportedVersion files.dir.formatVersion segmentFormatVersion)
  else
    let seg : SealedSegment :=
      { segId := segmentId, vec := files.vec, pay := files.pay, ids := files.ids,
        paylocs := files.dir.rows.map fun r => ⟨r.payOff, r.payLen⟩,
        idlocs := files.dir.rows.map fun r => ⟨r.idOff, r.idLen⟩,
        sortedRows := files.dir.sortedRows, idRange := none, dead := dead, sec := files.sec }
    match seg.sortedRows.head?, seg.sortedRows.getLast? with
    | some first, some last => do
      let min ← seg.readId first
      let max ← seg.readId last
      return { seg with idRange := some (min, max) }
    | _, _ => .ok seg

end Quiver.Core
