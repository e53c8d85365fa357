import Quiver.Core.Encodings
import Quiver.Embed.Index

/-!
A loaded collection. Its handle keeps an index over the rows, the map between internal and external
ids, the token counts of its documents, and the sparse vectors of its payloads; a write maintains
them or leaves the handle stale until they are rebuilt. Lock-free readers load a snapshot: the index
as of the last rebuild, and the writes since.

An index is taken as what it holds: the vectors inserted under internal ids, and the ids tombstoned
since.
-/

namespace Quiver.Embed

open Quiver.Core
open Std (ExtTreeMap)

/-- Internal ids are positions. An id that was written again has several, of which the last
counts. -/
structure IdMap where
  ids : List String := []
  deriving DecidableEq

namespace IdMap

def ext (m : IdMap) (internal : Nat) : Option String := m.ids[internal]?

def internal (m : IdMap) (ext : String) : Option Nat :=
  (m.ids.reverse.idxOf? ext).map fun fromEnd => m.ids.length - 1 - fromEnd

def nextInternal (m : IdMap) : Nat := m.ids.length

def push (m : IdMap) (ext : String) : IdMap := ⟨m.ids ++ [ext]⟩

end IdMap

/-- The points of an index by internal id, the ids it has tombstoned, and the number of points
it was built over. -/
structure Nodes where
  vectors : ExtTreeMap Nat (List F32) := ∅
  deleted : List Nat := []
  base : Nat := 0

namespace Nodes

def build (vectors : List (List F32)) : Nodes :=
  { vectors := vectors.zipIdx.foldl (fun nodes (v, i) => nodes.insert i v) ∅, base := vectors.length }

def insert (n : Nodes) (internal : Nat) (vector : List F32) : Nodes :=
  { n with vectors := n.vectors.insert internal vector }

def remove (n : Nodes) (internal : Nat) : Nodes := { n with vectors := n.vectors.erase internal }

def markDeleted (n : Nodes) (internal : Nat) : Nodes :=
  if internal ∈ n.deleted then n else { n with deleted := internal :: n.deleted }

def live (n : Nodes) (internal : Nat) : Option (List F32) :=
  if internal ∈ n.deleted then none else n.vectors[internal]?

/-- A fifth of the points is tombstoned. -/
def deletedCrowded (n : Nodes) : Bool := !n.vectors.isEmpty && n.vectors.size ≤ 5 * n.deleted.length

/-- The inserts and tombstones since the build are a fifth of what it was built over. -/
def pendingCrowded (n : Nodes) : Bool :=
  max n.base 1 ≤ 5 * (n.vectors.size - n.base + n.deleted.length)

end Nodes

/-- A handle's index. All but the graph that takes inserts from the start are absent until
they are built. -/
inductive LiveIndex where
  | none
  | hnsw (nodes : Nodes)
  | vamana (nodes : Option Nodes)
  | ivf (nodes : Option Nodes)
  | disk (nodes : Option Nodes)
  | colbert (nodes : Option Nodes)

namespace LiveIndex

def live : LiveIndex → Nat → Option (List F32)
  | hnsw nodes, i | vamana (some nodes), i | ivf (some nodes), i | disk (some nodes), i
  | colbert (some nodes), i => nodes.live i
  | _, _ => Option.none

end LiveIndex

def emptyIndex (descriptor : Descriptor) : LiveIndex :=
  if descriptor.vectorEncryption = .clientSide then .none
  else match descriptor.index.kind with
    | .vamana => .vamana none
    | .diskVamana => .disk none
    | .ivf => .ivf none
    | .colbert => .colbert none
    | .hnsw => .hnsw {}

/-- The index built over the rows, where it can be built. -/
def builtIndex (descriptor : Descriptor) (vectors : List (List F32)) : LiveIndex :=
  if descriptor.vectorEncryption = .clientSide then .none
  else
    let nodes := Nodes.build vectors
    match descriptor.index.kind with
    | .vamana => .vamana (some nodes)
    | .diskVamana => .disk (some nodes)
    | .ivf => .ivf (some nodes)
    | .colbert => .colbert (some nodes)
    | .hnsw => .hnsw nodes

/-- What lock-free readers see: an index with the external ids of its points, and the writes
since it was published. -/
structure Snapshot where
  base : LiveIndex := .none
  ids : List String := []
  upserts : List (String × List F32) := []
  tombstones : List Nat := []

/-- The points a search of the snapshot can return. -/
def Snapshot.points (s : Snapshot) : List (String × List F32) :=
  (s.ids.zipIdx.filterMap fun (ext, i) =>
    if i ∈ s.tombstones then none else (s.base.live i).map fun v => (ext, v)) ++
  s.upserts.zipIdx.filterMap fun (point, j) =>
    if s.ids.length + j ∈ s.tombstones then none else some point

abbrev SparseVector := List (Nat × F32)

/-- What the model takes from the engine's libraries: the encodings of the log, the sparse
vector a payload carries, and the length of a sealed log record. -/
structure Setting where
  encoding : Encoding
  sparseVector : Bytes → Option SparseVector
  recordLen : WalOp → Nat

def Setting.plain : Setting := ⟨.plain, fun _ => none, fun _ => 0⟩

structure CollectionHandle where
  id : CollectionId
  descriptor : Descriptor
  index : LiveIndex
  idmap : IdMap := {}
  stale : Bool
  everBuilt : Bool := false
  /-- The number of bumps; the engine keeps it modulo `2 ^ 64`. -/
  writeGen : Nat := 0
  /-- Token counts of the documents, which are `u32`. -/
  docs : Option (ExtTreeMap String Nat)
  sparse : Option (ExtTreeMap String SparseVector)
  mvcc : Bool
  snapshot : Snapshot := {}
  /-- When the handle was loaded. With the collection's name, it identifies the cell that
  readers load the snapshot from. -/
  cell : Nat

def usesSparseIndex (descriptor : Descriptor) : Bool :=
  !descriptor.multivector && descriptor.vectorEncryption ≠ .clientSide

def mvccEligible (descriptor : Descriptor) : Bool :=
  !descriptor.multivector && descriptor.vectorEncryption ≠ .clientSide && descriptor.index.kind ≠ .diskVamana

/-- An overlay this large defers a rebuild. -/
def overlayRebuildThreshold (baseLen : Nat) : Nat := max (baseLen / 5) 1024

def unsigned : List Char → List Char
  | '+' :: rest => rest
  | text => text

/-- Decimal digits after an optional sign, below `2 ^ 32`. -/
def parseU32 (text : List Char) : Option Nat :=
  let digits := unsigned text
  if digits.isEmpty || !digits.all Char.isDigit then none
  else if Nat.ofDigitChars 10 digits 0 < 2 ^ 32 then some (Nat.ofDigitChars 10 digits 0)
  else none

/-- Split a row's id at the last separator, into a document and an ordinal. -/
def parseTokenId (ext : String) : Option (String × Nat) :=
  let text := ext.toList.reverse
  match text.dropWhile (· ≠ docTokenSep) with
  | [] => none
  | _ :: doc => (parseU32 (text.takeWhile (· ≠ docTokenSep)).reverse).map fun n => (String.ofList doc.reverse, n)

namespace CollectionHandle

def mvccServed (h : CollectionHandle) : Bool := h.mvcc && mvccEligible h.descriptor

def bumpWriteGen (h : CollectionHandle) : CollectionHandle := { h with writeGen := h.writeGen + 1 }

def markStale (h : CollectionHandle) : CollectionHandle := { h.bumpWriteGen with stale := true }

/-- Publish the index under an empty overlay; the handle's own is left empty. -/
def publishBase (h : CollectionHandle) : CollectionHandle :=
  { h with snapshot := { base := h.index, ids := h.idmap.ids }, index := emptyIndex h.descriptor }

/-- Add points to an overlay, with the handle's id map in step. -/
def overlayPush (s : Snapshot) (m : IdMap) : List (String × List F32) → Snapshot × IdMap
  | [] => (s, m)
  | (ext, vector) :: points =>
    let tombstones := match m.internal ext with
      | some old => old :: s.tombstones
      | none => s.tombstones
    overlayPush { s with upserts := s.upserts ++ [(ext, vector)], tombstones } (m.push ext) points

def overlayUpsertBatch (h : CollectionHandle) (points : List (String × List F32)) : CollectionHandle :=
  let (snapshot, idmap) := overlayPush h.snapshot h.idmap points
  { h.bumpWriteGen with
    snapshot, idmap
    stale := h.stale || overlayRebuildThreshold snapshot.ids.length ≤ snapshot.upserts.length }

def overlayDelete (h : CollectionHandle) (ext : String) : CollectionHandle :=
  match h.idmap.internal ext with
  | none => h.bumpWriteGen
  | some i => { h.bumpWriteGen with snapshot := { h.snapshot with tombstones := i :: h.snapshot.tombstones } }

/-- A stale flag raised by the index itself. -/
def staleIf (h : CollectionHandle) (crowded : Bool) : CollectionHandle := if crowded then h.markStale else h

/-- Fold a write into the index, or leave it to a rebuild. -/
def indexUpsertPoint (h : CollectionHandle) (ext : String) (vector : List F32) : CollectionHandle :=
  if h.mvccServed then h.overlayUpsertBatch [(ext, vector)]
  else
    let h := h.bumpWriteGen
    if h.stale then h
    else
      let existing := h.idmap.internal ext
      let next := h.idmap.nextInternal
      -- A graph takes an update as a new node and tombstones the old one.
      let replaced (n : Nodes) : Nodes := (match existing with
        | some old => n.markDeleted old
        | none => n).insert next vector
      match h.index with
      | .hnsw n =>
        if existing.isNone then { h with index := .hnsw (n.insert next vector), idmap := h.idmap.push ext }
        else h.markStale
      | .ivf (some n) =>
        if n.vectors.isEmpty then h.markStale
        else match existing with
          | some old => { h with index := .ivf (some (n.insert old vector)) }
          | none => { h with index := .ivf (some (n.insert next vector)), idmap := h.idmap.push ext }
      | .vamana (some n) =>
        { h with index := .vamana (some (replaced n)), idmap := h.idmap.push ext }.staleIf (replaced n).pendingCrowded
      | .disk (some n) =>
        { h with index := .disk (some (replaced n)), idmap := h.idmap.push ext }.staleIf (replaced n).pendingCrowded
      | .colbert (some n) =>
        { h with index := .colbert (some (replaced n)), idmap := h.idmap.push ext }.staleIf
          (replaced n).deletedCrowded
      | _ => h.markStale

/-- Take a point out of the index, or leave it to a rebuild. The id map keeps its entry. -/
def indexDeletePoint (h : CollectionHandle) (ext : String) : CollectionHandle :=
  if h.mvccServed then h.overlayDelete ext
  else
    let h := h.bumpWriteGen
    if h.stale then h
    else match h.idmap.internal ext, h.index with
      | some i, .ivf (some n) => { h with index := .ivf (some (n.remove i)) }
      | some i, .hnsw n =>
        let n := if i ∈ n.vectors then n.markDeleted i else n
        { h with index := .hnsw n }.staleIf n.deletedCrowded
      | some i, .vamana (some n) =>
        { h with index := .vamana (some (n.markDeleted i)) }.staleIf (n.markDeleted i).pendingCrowded
      | some i, .disk (some n) =>
        { h with index := .disk (some (n.markDeleted i)) }.staleIf (n.markDeleted i).pendingCrowded
      | some i, .colbert (some n) =>
        { h with index := .colbert (some (n.markDeleted i)) }.staleIf (n.markDeleted i).deletedCrowded
      | _, _ => h.markStale

def sparseUpsertPoint (cfg : Setting) (h : CollectionHandle) (ext : String) (payload : Bytes) : CollectionHandle :=
  if h.stale then h
  else { h with sparse := h.sparse.map fun index => match cfg.sparseVector payload with
    | some v => index.insert ext v
    | none => index.erase ext }

def sparseDeletePoint (h : CollectionHandle) (ext : String) : CollectionHandle :=
  { h with sparse := h.sparse.map (·.erase ext) }

end CollectionHandle

/-- A collection's live rows, as a rebuild takes them. -/
structure RebuildScan where
  intToExt : List String
  vectors : List (List F32)
  docs : Option (ExtTreeMap String Nat)
  sparse : Option (ExtTreeMap String SparseVector)

/-- Count a row for the document it belongs to. -/
def countToken (docs : ExtTreeMap String Nat) (ext : String) : ExtTreeMap String Nat :=
  match parseTokenId ext with
  | some (doc, _) => docs.insert doc ((docs[doc]?.getD 0 + 1) % 2 ^ 32)
  | none => docs

def sparseRow (cfg : Setting) (index : ExtTreeMap String SparseVector) (row : String × Record) :
    ExtTreeMap String SparseVector :=
  match cfg.sparseVector row.2.payload with
  | some v => index.insert row.1 v
  | none => index

def scanCollection (cfg : Setting) (descriptor : Descriptor) (points : ExtTreeMap String Record) : RebuildScan where
  intToExt := points.keys
  vectors := points.toList.map fun row => row.2.vector
  docs := if descriptor.multivector then some (points.keys.foldl countToken ∅) else none
  sparse := if usesSparseIndex descriptor then some (points.toList.foldl (sparseRow cfg) ∅) else none

structure RebuildInputs where
  collection : String
  descriptor : Descriptor
  scan : RebuildScan
  writeGen : Nat

/-- A built index. That of a disk collection is checked and written when it is installed. -/
inductive RebuiltKind where
  | ready (index : LiveIndex)
  | disk (graph : Vamana) (quant : ResidentQuant) (index : LiveIndex)

structure RebuiltIndex where
  collection : String
  kind : RebuiltKind
  intToExt : List String
  docs : Option (ExtTreeMap String Nat)
  sparse : Option (ExtTreeMap String SparseVector)
  writeGen : Nat

def RebuildInputs.buildKind (r : RebuildInputs) : Except BuildError RebuiltKind :=
  let index := builtIndex r.descriptor r.scan.vectors
  if r.descriptor.index.kind = .diskVamana ∧ r.descriptor.vectorEncryption ≠ .clientSide then do
    let (graph, quant) ←
      (buildDiskGraphQuant r.descriptor r.scan.intToExt.length r.scan.vectors.flatten).mapError .index
    return .disk graph quant index
  else do
    let _ ← rebuildIndex r.descriptor r.scan.vectors
    return .ready index

def RebuildInputs.build (r : RebuildInputs) : Except BuildError RebuiltIndex := do
  return ⟨r.collection, ← r.buildKind, r.scan.intToExt, r.scan.docs, r.scan.sparse, r.writeGen⟩

namespace CollectionHandle

/-- Rebuild from the rows at once. A failed build leaves the handle without an index. -/
def rebuild (cfg : Setting) (points : ExtTreeMap String Record) (h : CollectionHandle) :
    Except BuildError Unit × CollectionHandle :=
  let scan := scanCollection cfg h.descriptor points
  match rebuildIndex h.descriptor scan.vectors with
  | .error error => (.error error, { h with index := emptyIndex h.descriptor })
  | .ok _ => (.ok (), { h with
      index := builtIndex h.descriptor scan.vectors
      idmap := ⟨scan.intToExt⟩
      docs := scan.docs
      sparse := scan.sparse
      stale := false
      everBuilt := true })

def publishIfServed (h : CollectionHandle) : CollectionHandle := if h.mvccServed then h.publishBase else h

/-- Install a rebuilt index, and say whether the handle is still stale. -/
def install (h : CollectionHandle) (r : RebuiltIndex) : Except BuildError Bool × CollectionHandle :=
  let placed : Except BuildError LiveIndex := match r.kind with
    | .ready index => .ok index
    | .disk graph quant index => do
      writeDiskIndex graph quant
      let _ ← (Vamana.new graph.dim graph.metric).mapError BuildError.index
      return index
  match placed with
  | .error error => (.error error, { h with index := emptyIndex h.descriptor })
  | .ok index =>
    let stillStale := decide (h.writeGen % 2 ^ 64 ≠ r.writeGen % 2 ^ 64)
    (.ok stillStale, { h with
      index
      idmap := ⟨r.intToExt⟩
      docs := r.docs
      sparse := r.sparse
      everBuilt := true
      stale := stillStale }.publishIfServed)

end CollectionHandle

end Quiver.Embed
