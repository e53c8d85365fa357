import Quiver.Core.Segment
import Mathlib.Order.Lattice.Nat
import Std.Data.ExtTreeMap.Lemmas

/-!
The in-memory state of one collection: sealed segments in creation order, the rows buffered since
the last checkpoint, and the sealed rows that died since. An id is resolved through the active
buffer and then through the segments, newest first.
-/

namespace Quiver.Core

open Std (ExtTreeMap)

inductive Loc where
  | active (row : Nat)
  | sealed (seg row : Nat)
  deriving DecidableEq, Repr

/-- A row buffered since the last checkpoint. -/
structure ActiveRow where
  vector : Bytes
  payload : Bytes
  deriving DecidableEq, Repr

structure SegmentRef where
  id : Nat
  rowCount : Nat
  lsnLow : Lsn
  lsnHigh : Lsn
  deriving DecidableEq, Repr

structure IndexSnapshotRef where
  id : Nat
  lsn : Lsn
  deriving DecidableEq, Repr

/-- The identity of a data-encryption key. -/
abbrev Key := Nat

structure CollectionState where
  id : CollectionId
  name : String
  descriptor : Descriptor
  /-- The key that seals this collection's files. -/
  codec : Key
  sealed : List SealedSegment := []
  segmentsMeta : List SegmentRef := []
  active : List ActiveRow := []
  activeIndex : ExtTreeMap String Nat := ∅
  deadThisWindow : ExtTreeMap Nat Bitmap := ∅
  indexSnapshot : Option IndexSnapshotRef := none

def ActiveRow.record (row : ActiveRow) : Record := ⟨leBytesToF32 row.vector, row.payload⟩

def Bitmap.iter (bitmap : Bitmap) : List Nat :=
  (List.range (bitmap.sup id + 1)).filter (· ∈ bitmap)

namespace CollectionState

def stride (c : CollectionState) : Nat := c.descriptor.stride

def hasPending (c : CollectionState) : Bool :=
  !c.activeIndex.isEmpty || !c.deadThisWindow.isEmpty

/-- The rows of a segment that died in this window. -/
def windowDead (c : CollectionState) (seg : Nat) : Bitmap := c.deadThisWindow.getD seg ∅

/-- A sealed row is dead if a prior window or this window tombstoned it. -/
def sealedDead (c : CollectionState) (seg row : Nat) : Bool :=
  ((c.sealed[seg]?).any fun s => s.isDead row) || row ∈ c.windowDead seg

/-- Probe the segments below `count`, newest first. The first one that physically holds the
id decides, dead or not. -/
def locateSealed (c : CollectionState) (externalId : String) :
    (count : Nat) → Except CoreError (Option Loc)
  | 0 => .ok none
  | seg + 1 =>
    match c.sealed[seg]? with
    | none => .ok none
    | some segment => do
      match ← segment.lookup externalId with
      | some row => return if c.sealedDead seg row then none else some (.sealed seg row)
      | none => c.locateSealed externalId seg

def locate (c : CollectionState) (externalId : String) : Except CoreError (Option Loc) :=
  match c.activeIndex[externalId]? with
  | some row => .ok (some (.active row))
  | none => c.locateSealed externalId c.sealed.length

def segmentLiveLocs (c : CollectionState) (seg : SealedSegment) (segIdx : Nat) :
    Except CoreError (List (String × Loc)) :=
  ((List.range seg.rowCount).filter fun row => !c.sealedDead segIdx row).mapM fun row => do
    return (← seg.readId row, .sealed segIdx row)

def liveLocsSorted (c : CollectionState) : Except CoreError (List (String × Loc)) := do
  let active := c.activeIndex.toList.map fun (id, row) => (id, Loc.active row)
  let sealed ← c.sealed.zipIdx.mapM fun (seg, segIdx) => c.segmentLiveLocs seg segIdx
  return (active ++ sealed.flatten).insertionSort fun a b => a.1 ≤ b.1

def markDead (c : CollectionState) (seg row : Nat) : CollectionState :=
  { c with deadThisWindow := c.deadThisWindow.insert seg (insert row (c.windowDead seg)) }

/-- The collection with the located sealed row, if there is one, tombstoned. -/
def shadow (c : CollectionState) : Option Loc → CollectionState
  | some (.sealed seg row) => c.markDead seg row
  | _ => c

def pushActive (c : CollectionState) (externalId : String) (vector payload : Bytes) :
    CollectionState :=
  { c with
    active := c.active ++ [⟨vector, payload⟩]
    activeIndex := c.activeIndex.insert externalId c.active.length }

def dropActive (c : CollectionState) (externalId : String) : CollectionState :=
  { c with activeIndex := c.activeIndex.erase externalId }

/-- Record the upsert; a sealed row that held the id is shadowed and dies. -/
def applyUpsert (c : CollectionState) (externalId : String) (vector payload : Bytes) :
    Except CoreError CollectionState := do
  let c := c.shadow (← c.locate externalId)
  return c.pushActive externalId vector payload

/-- Record the delete; the result tells whether the id existed. -/
def applyDelete (c : CollectionState) (externalId : String) :
    Except CoreError (CollectionState × Bool) :=
  if externalId ∈ c.activeIndex then
    .ok (c.dropActive externalId, true)
  else do
    match ← c.locate externalId with
    | some (.sealed seg row) => return (c.markDead seg row, true)
    | _ => return (c, false)

def recordAt (c : CollectionState) : Loc → Except CoreError Record
  | .active row =>
    match c.active[row]? with
    | none => .error (.malformedPage s!"dangling active row {row}")
    | some active => .ok active.record
  | .sealed seg row =>
    match c.sealed[seg]? with
    | none => .error (.malformedPage s!"dangling segment index {seg}")
    | some segment => do
      let vector ← segment.readVector row c.stride
      let payload ← segment.readPayload row
      return ⟨leBytesToF32 vector, payload⟩

def payloadAt (c : CollectionState) : Loc → Except CoreError Bytes
  | .active row =>
    match c.active[row]? with
    | none => .error (.malformedPage s!"dangling active row {row}")
    | some active => .ok active.payload
  | .sealed seg row =>
    match c.sealed[seg]? with
    | none => .error (.malformedPage s!"dangling segment index {seg}")
    | some segment => segment.readPayload row

def get (c : CollectionState) (externalId : String) : Except CoreError (Option Record) := do
  match ← c.locate externalId with
  | some loc => return some (← c.recordAt loc)
  | none => return none

def scan (c : CollectionState) : Except CoreError (List (String × Record)) := do
  (← c.liveLocsSorted).mapM fun (id, loc) => do return (id, ← c.recordAt loc)

end CollectionState

end Quiver.Core
