import Quiver.Core.Store

/-!
Maintenance of the data directory: garbage collection, checkpoints, which seal the active buffers
and swap the manifest, and compaction, which merges a collection's segments behind a swap of its
own.
-/

namespace Quiver.Core

open FileSystem
open Std (ExtTreeMap)

def collectionDirs (d : DataDir) : List CollectionId := (d.keys.filterMap Path.collection?).dedup

/-- Everything under a collection's directory, children first. -/
def pathsUnder (d : DataDir) (cid : CollectionId) : List Path :=
  (d.keys.filter fun p => p.collection? = some cid).reverse

def Manifest.isLive (m : Manifest) (cid : CollectionId) : Bool := m.collections.any (·.id = cid)

def Manifest.references (m : Manifest) (cid : CollectionId) (seg : Nat) : Bool :=
  m.collections.any fun entry => entry.id = cid ∧ entry.segments.any (·.id = seg)

/-- A file of a live collection's segments that no reader needs: an interrupted tombstone
rewrite, or a segment the manifest does not reference. -/
def Manifest.isOrphan (m : Manifest) (cid : CollectionId) : Path → Bool
  | .segment owner seg part => owner = cid ∧ (part = .delTmp ∨ !m.references cid seg)
  | _ => false

def gcOrphanSegments (ring : KeyRing) (m : Manifest) : Io Unit := do
  let cids ← Prog.read fun d => .ok (collectionDirs d)
  cids.forM fun cid =>
    if m.isLive cid then do
      let orphans ← Prog.read fun d => .ok (d.keys.filter (m.isOrphan cid))
      Prog.performAll (orphans.map .remove)
    else do
      -- The key goes first, so that a crash in between leaves nothing readable.
      Prog.performAll (ring.shredCollection cid)
      let paths ← Prog.read fun d => .ok (pathsUnder d cid)
      Prog.performAll (paths.map .remove)

/-- A snapshot of a live collection other than the one its entry references. -/
def CollectionEntry.isStaleSnapshot (entry : CollectionEntry) : Path → Bool
  | .snapshot owner id => owner = entry.id ∧ some id ≠ entry.indexSnapshot.map (·.id)
  | _ => false

def gcOrphanIndexSnapshots (m : Manifest) : Io Unit :=
  m.collections.forM fun entry => do
    let stale ← Prog.read fun d => .ok (d.keys.filter entry.isStaleSnapshot)
    Prog.performAll (stale.map .remove)

def walFiles (d : DataDir) : List Nat :=
  (d.keys.filterMap fun | .wal seq => some seq | _ => none).insertionSort (· ≤ ·)

/-- Start a log file; one that is already there is an error. -/
def createWal (seq : Nat) (baseLsn : Lsn) : Io WalWriter := do
  Prog.read fun d => if Path.wal seq ∈ d then .error .io else .ok ()
  let (effects, writer) := WalWriter.create seq baseLsn
  Prog.performAll effects
  return writer

def collectionEntry (encoding : Encoding) (c : CollectionState) (segments : List SegmentRef)
    (snapshot : Option IndexSnapshotRef) : CollectionEntry where
  id := c.id
  name := c.name
  descriptor := encoding.descriptor.encode c.descriptor
  segments := segments
  indexSnapshot := snapshot

namespace Store

variable (encoding : Encoding)

def manifest (s : Store) (lastCheckpointedLsn : Lsn)
    (segments : CollectionState → List SegmentRef)
    (snapshot : CollectionState → Option IndexSnapshotRef) : Manifest where
  formatVersion := manifestFormatVersion
  version := s.manifestVersion + 1
  lastCheckpointedLsn := lastCheckpointedLsn
  nextCollectionId := s.nextCollectionId
  nextSegmentId := s.nextSegmentId
  collections := s.catalog.collections.toList.map fun (_, c) =>
    collectionEntry encoding c (segments c) (snapshot c)

/-- Start a new log file and delete the older ones, whose records are all in segments. -/
def rotateWal (s : Store) : Io Store := do
  let old := s.wal.seq
  let wal ← createWal (old + 1) s.nextLsn
  let files ← Prog.read fun d => .ok (walFiles d)
  Prog.performAll ((files.filter (· ≤ old)).map fun seq => .remove (.wal seq))
  return { s with wal }

def reclaimable (s : Store) (cid : CollectionId) : Bool :=
  (s.catalog.collections[cid]?).any fun c =>
    1 < c.sealed.length || c.sealed.any fun seg => seg.liveCount < seg.rowCount

/-- Many segments, or at least half of the sealed rows dead. -/
def needsCompaction (s : Store) (cid : CollectionId) : Bool :=
  (s.catalog.collections[cid]?).any fun c =>
    let total := (c.sealed.map (·.rowCount)).sum
    let live := (c.sealed.map (·.liveCount)).sum
    !c.sealed.isEmpty &&
      (compactMinSegments ≤ c.sealed.length || (0 < total && total ≤ (total - live) * 2))

/-- The manifest that replaces one collection's segments by a merged one. -/
def compactedManifest (s : Store) (cid : CollectionId) (ref : SegmentRef) : Manifest :=
  { s with nextSegmentId := s.nextSegmentId + 1 }.manifest encoding s.lastCheckpointedLsn
    (fun c => if c.id = cid then [ref] else c.segmentsMeta) (·.indexSnapshot)

/-- Merge a collection's sealed segments into one that holds only its live rows. -/
def compactCollection (s : Store) (cid : CollectionId) : Io Store := do
  let c ← Prog.read fun _ =>
    match s.catalog.collections[cid]? with
    | none => .error (collectionNotFound cid)
    | some c => .ok c
  let rows ← Prog.read fun _ => c.mergedRows
  let seg := s.nextSegmentId
  let ref : SegmentRef :=
    { id := seg
      rowCount := rows.length
      lsnLow := (c.segmentsMeta.map (·.lsnLow)).min?.getD 0
      lsnHigh := (c.segmentsMeta.map (·.lsnHigh)).max?.getD s.lastCheckpointedLsn }
  Prog.performAll [.mkdir (.collectionDir cid), .mkdir (.segmentsDir cid)]
  Prog.performAll (writeSegment cid seg c.codec (segmentFiles seg rows c.descriptor.filterable))
  let merged ← Prog.read fun d => loadSegment d cid seg c.codec
  let m := s.compactedManifest encoding cid ref
  Prog.performAll (writeManifest m)
  gcOrphanSegments s.keyring m
  gcOrphanIndexSnapshots m
  return { s with
    nextSegmentId := seg + 1
    manifestVersion := m.version
    catalog := { s.catalog with
      collections := s.catalog.collections.insert cid (c.replaceSegments ref merged) } }

def compact (s : Store) : Io Store :=
  s.sortedCids.foldlM (fun s cid => if s.reclaimable cid then s.compactCollection encoding cid else pure s) s

def autoCompact (s : Store) : Io Store :=
  match s.sortedCids.find? s.needsCompaction with
  | some cid => s.compactCollection encoding cid
  | none => pure s

/-- Segments written and not yet referenced by a manifest, and the next segment id. -/
structure Sealed where
  pending : ExtTreeMap CollectionId (SegmentRef × SealedSegment) := ∅
  nextSegmentId : Nat

def Sealed.add (done : Sealed) (c : CollectionState) (ref : SegmentRef) (seg : SealedSegment) : Sealed where
  pending := done.pending.insert c.id (ref, seg)
  nextSegmentId := done.nextSegmentId + 1

def Sealed.segments (done : Sealed) (c : CollectionState) : List (SegmentRef × SealedSegment) :=
  (done.pending[c.id]?).toList

/-- Rewrite the tombstones of the segments with rows that died in this window. -/
def writeWindow (c : CollectionState) : Io Unit :=
  c.deadThisWindow.toList.forM fun (segIdx, newlyDead) =>
    match c.sealed[segIdx]? with
    | none => pure ()
    | some seg => Prog.performAll (writeDel c.id seg.segId c.codec (seg.dead ∪ newlyDead))

/-- Persist one collection's pending changes: its tombstones, and its active buffer as a new
segment. -/
def sealCollection (s : Store) (lastLsn : Lsn) (done : Sealed) (c : CollectionState) : Io Sealed :=
  if c.hasPending then do
    Prog.performAll [.mkdir (.collectionDir c.id), .mkdir (.segmentsDir c.id)]
    writeWindow c
    if c.activeIndex.isEmpty then return done
    else do
      let seg := done.nextSegmentId
      let rows := c.sealRows
      Prog.performAll (writeSegment c.id seg c.codec (segmentFiles seg rows c.descriptor.filterable))
      let sealed ← Prog.read fun d => loadSegment d c.id seg c.codec
      let ref : SegmentRef :=
        { id := seg, rowCount := rows.length, lsnLow := s.lastCheckpointedLsn + 1, lsnHigh := lastLsn }
      return done.add c ref sealed
  else return done

/-- Persist a collection's index snapshot, if one was supplied. -/
def writeSnapshot (snapshots : ExtTreeMap CollectionId Bytes) (version : Nat) (c : CollectionState) :
    Io Unit :=
  match snapshots[c.id]? with
  | none => pure ()
  | some blob => Prog.performAll ([.mkdir (.collectionDir c.id), .mkdir (.indexDir c.id)] ++
      writePaged (.snapshot c.id version) (.snapshot c.codec blob))

/-- The reference a checkpoint installs for a supplied snapshot. -/
def snapshotRef (snapshots : ExtTreeMap CollectionId Bytes) (version : Nat) (lastLsn : Lsn)
    (c : CollectionState) : Option IndexSnapshotRef :=
  (snapshots[c.id]?).map fun _ => ⟨version, lastLsn⟩

/-- Seal the active buffers, publish them with the supplied index snapshots in one manifest
swap, and reclaim what the new manifest no longer needs. -/
def checkpointWithIndexSnapshots (s : Store) (snapshots : ExtTreeMap CollectionId Bytes) : Io Store :=
  let lastLsn := s.nextLsn - 1
  if lastLsn ≤ s.lastCheckpointedLsn then return s
  else do
    let states := s.catalog.collections.toList.map Prod.snd
    let version := s.manifestVersion + 1
    let done ← states.foldlM (s.sealCollection lastLsn) { nextSegmentId := s.nextSegmentId }
    states.forM (writeSnapshot snapshots version)
    let snapshot := snapshotRef snapshots version lastLsn
    let m := { s with nextSegmentId := done.nextSegmentId }.manifest encoding lastLsn
      (fun c => c.segmentsMeta ++ (done.segments c).map Prod.fst) snapshot
    Prog.performAll (writeManifest m)
    let s : Store := { s with
      nextSegmentId := done.nextSegmentId
      manifestVersion := version
      lastCheckpointedLsn := lastLsn
      catalog := { s.catalog with
        collections := s.catalog.collections.map fun _ c => c.install (done.segments c) (snapshot c) } }
    let s ← s.rotateWal
    gcOrphanSegments s.keyring m
    gcOrphanIndexSnapshots m
    s.autoCompact encoding

end Store

end Quiver.Core
