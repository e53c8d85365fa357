import Quiver.Core.Checkpoint

/-!
Opening a data directory: load the manifest and the segments it references, replay the log
records above the checkpoint, reclaim orphans, and start a new log file.
-/

namespace Quiver.Core

open FileSystem

section Load

variable (encoding : Encoding) (ring : KeyRing) (d : DataDir)

/-- The manifest `CURRENT` points to, or the empty one. -/
def readManifest : Except CoreError Manifest := do return (← readCurrent d).getD .empty

def loadCollection (entry : CollectionEntry) : Except CoreError CollectionState :=
  match encoding.decodeDescriptor entry.descriptor with
  | none => .error .serialization
  | some descriptor => do
    let codec ← ring.collectionCodec d entry.id
    let sealed ← entry.segments.mapM fun ref => loadSegment d entry.id ref.id codec
    return { CollectionState.new entry.id entry.name descriptor codec with
      sealed, segmentsMeta := entry.segments, indexSnapshot := entry.indexSnapshot }

def loadCatalog (m : Manifest) : Except CoreError Catalog :=
  m.collections.foldlM (fun cat entry => do return cat.add (← loadCollection encoding ring d entry)) {}

/-- What replaying the log found. -/
structure Recovery where
  catalog : Catalog
  maxLsn : Lsn
  walMaxCollectionId : Nat := 0
  maxSeq : Nat := 0
  keepSeqs : List Nat := []

/-- One past the id an operation creates. -/
def WalOp.createdBound : WalOp → Nat
  | .createCollection k _ _ => k + 1
  | _ => 0

/-- Replay one log file; records at or below `floor` are in a segment already. -/
def replayFile (floor : Lsn) (r : Recovery) (seq : Nat) (entries : List WalEntry) :
    Except CoreError Recovery := do
  let live := entries.filter (floor < ·.lsn)
  let catalog ← r.catalog.replay encoding ring d (live.map (·.op))
  return {
    catalog
    maxLsn := (live.map (·.lsn)).foldl max r.maxLsn
    walMaxCollectionId := (live.map (·.op.createdBound)).foldl max r.walMaxCollectionId
    maxSeq := max seq r.maxSeq
    keepSeqs := if live.isEmpty then r.keepSeqs else seq :: r.keepSeqs }

def readWal (seq : Nat) : Except CoreError WalReplay :=
  match d[Path.wal seq]? with
  | none => .error .io
  | some file => readAll encoding (walBytes file.content)

def recover (m : Manifest) : Except CoreError Recovery := do
  let catalog ← loadCatalog encoding ring d m
  (walFiles d).foldlM (fun r seq => do
    replayFile encoding ring d m.lastCheckpointedLsn r seq (← readWal encoding d seq).entries)
    { catalog, maxLsn := m.lastCheckpointedLsn }

end Load

variable (encoding : Encoding)

def openWithKeyring (ring : KeyRing) : Io Store := do
  let m ← Prog.read readManifest
  let files ← Prog.read fun d => .ok (walFiles d)
  let r ← Prog.read fun d => recover encoding ring d m
  let nextLsn := r.maxLsn + 1
  gcOrphanSegments ring m
  gcOrphanIndexSnapshots m
  let wal ← createWal (r.maxSeq + 1) nextLsn
  Prog.performAll ((files.filter (· ∉ r.keepSeqs)).map fun seq => .remove (.wal seq))
  return {
    keyring := ring
    catalog := r.catalog
    nextLsn
    nextCollectionId := max m.nextCollectionId r.walMaxCollectionId
    nextSegmentId := m.nextSegmentId
    manifestVersion := m.version
    lastCheckpointedLsn := m.lastCheckpointedLsn
    wal }

end Quiver.Core
