import Quiver.Base.FileSystem
import Quiver.Core.Collection

/-!
The data directory: the manifest and its `CURRENT` pointer, the log files, and per
collection a directory with segment files, index snapshots and index artifacts. A paged file
holds one sealed body, which a reader gets whole or not at all; log files are bytes.
-/

namespace Quiver.Core

open FileSystem

def manifestFormatVersion : Nat := 2

structure CollectionEntry where
  id : CollectionId
  name : String
  descriptor : Bytes
  segments : List SegmentRef
  indexSnapshot : Option IndexSnapshotRef
  deriving DecidableEq, Repr

structure Manifest where
  formatVersion : Nat
  version : Nat
  lastCheckpointedLsn : Lsn
  nextCollectionId : Nat
  nextSegmentId : Nat
  collections : List CollectionEntry
  deriving DecidableEq, Repr

def Manifest.empty : Manifest := ⟨manifestFormatVersion, 0, 0, 0, 0, []⟩

structure CollectionEntryV1 where
  id : CollectionId
  name : String
  descriptor : Bytes
  segments : List SegmentRef
  deriving DecidableEq, Repr

/-- The body of a manifest of the first format, which had no index snapshots. -/
structure ManifestV1 where
  version : Nat
  lastCheckpointedLsn : Lsn
  nextCollectionId : Nat
  nextSegmentId : Nat
  collections : List CollectionEntryV1
  deriving DecidableEq, Repr

def ManifestV1.into (m : ManifestV1) : Manifest where
  formatVersion := manifestFormatVersion
  version := m.version
  lastCheckpointedLsn := m.lastCheckpointedLsn
  nextCollectionId := m.nextCollectionId
  nextSegmentId := m.nextSegmentId
  collections := m.collections.map fun c => ⟨c.id, c.name, c.descriptor, c.segments, none⟩

inductive SegmentPart where
  | vec
  | pay
  | ids
  | dir
  | sec
  | del
  | delTmp
  deriving DecidableEq, Repr

/-- Index artifacts published by the layer above, outside the manifest. -/
inductive ArtifactPart where
  | idColumn
  | idColumnTmp
  | graph
  | graphTmp
  deriving DecidableEq, Repr

inductive Path where
  | current
  | currentTmp
  | manifest (version : Nat)
  | wal (seq : Nat)
  | collectionDir (cid : CollectionId)
  | segmentsDir (cid : CollectionId)
  | segment (cid : CollectionId) (seg : Nat) (part : SegmentPart)
  | indexDir (cid : CollectionId)
  | snapshot (cid : CollectionId) (id : Nat)
  | artifact (cid : CollectionId) (part : ArtifactPart)
  | dek (cid : CollectionId)
  | dekTmp (cid : CollectionId)
  deriving DecidableEq, Repr

def SegmentPart.index : SegmentPart → Nat
  | .vec => 0
  | .pay => 1
  | .ids => 2
  | .dir => 3
  | .sec => 4
  | .del => 5
  | .delTmp => 6

def ArtifactPart.index : ArtifactPart → Nat
  | .idColumn => 0
  | .idColumnTmp => 1
  | .graph => 2
  | .graphTmp => 3

/-- Where a path sorts: log files by sequence number, a collection's entries together. -/
def Path.key : Path → List Nat
  | .current => [0]
  | .currentTmp => [1]
  | .manifest version => [2, version]
  | .wal seq => [3, seq]
  | .collectionDir cid => [4, cid]
  | .segmentsDir cid => [4, cid, 0]
  | .segment cid seg part => [4, cid, 0, seg, part.index]
  | .indexDir cid => [4, cid, 1]
  | .snapshot cid id => [4, cid, 1, 0, id]
  | .artifact cid part => [4, cid, 1, 1, part.index]
  | .dek cid => [5, cid]
  | .dekTmp cid => [6, cid]

theorem Path.key_injective {p q : Path} (same : p.key = q.key) : p = q := by
  cases p <;> cases q <;> simp_all [Path.key]
  case segment.segment cid seg part cid' seg' part' =>
    obtain ⟨_, _, same⟩ := same
    cases part <;> cases part' <;> simp_all [SegmentPart.index]
  case artifact.artifact cid part cid' part' =>
    obtain ⟨_, same⟩ := same
    cases part <;> cases part' <;> simp_all [ArtifactPart.index]

instance : Ord Path := ⟨compareOn Path.key⟩

instance : Std.TransOrd Path := inferInstanceAs (Std.TransCmp (compareOn Path.key))

instance : Std.LawfulEqOrd Path where
  eq_of_compare same := Path.key_injective (Std.LawfulEqCmp.eq_of_compare same)

/-- The collection whose directory a path is in. -/
def Path.collection? : Path → Option CollectionId
  | .collectionDir cid | .segmentsDir cid | .segment cid _ _ | .indexDir cid | .snapshot cid _
  | .artifact cid _ => some cid
  | _ => none

/-- A unit of file content: a byte of a log file, or the sealed body of a paged file with the
key it was sealed under. -/
inductive Chunk where
  | byte (value : UInt8)
  | current (version : Nat)
  | manifest (manifest : Manifest)
  | manifestV1 (body : ManifestV1)
  | column (key : Key) (bytes : Bytes)
  | segmentDir (key : Key) (dir : SegmentDir)
  | bitmap (key : Key) (dead : Bitmap)
  | sec (key : Key) (sec : SecIndex)
  | snapshot (key : Key) (blob : Bytes)
  | idColumn (key : Key) (ids : List String)
  | graph (key : Key) (nodes : List (Nat × List F32))
  | dek (key : Key)
  deriving DecidableEq

abbrev DataDir := Disk Path Chunk

abbrev Io := Prog Path Chunk CoreError

/-- The codecs a store is opened with: one shared codec, or an envelope with one
data-encryption key per collection, kept in a key file. -/
inductive KeyRing where
  | single (key : Key)
  | envelope
  deriving DecidableEq, Repr

def readPaged (d : DataDir) (path : Path) : Except CoreError Chunk :=
  match d[path]? with
  | none => .error .io
  | some file =>
    match file.content with
    | [body] => .ok body
    | _ => .error (.malformedPage "paged file is not a whole number of blocks")

def sealedUnderAnotherKey : CoreError := .malformedPage "page authentication failed"

def notThisPageType : CoreError := .malformedPage "unexpected page type"

namespace KeyRing

/-- The key that seals a collection's files. -/
def collectionCodec (ring : KeyRing) (d : DataDir) (cid : CollectionId) : Except CoreError Key :=
  match ring with
  | .single key => .ok key
  | .envelope =>
    match d[Path.dek cid]? with
    | none => .error (.notFound s!"the data-encryption key for collection {cid} is gone (crypto-shredded, or a store predating the per-collection envelope)")
    | some file =>
      match file.content with
      | [.dek key] => .ok key
      | _ => .error (.malformedPage "dek unwrap failed: wrong master key or tampered key file")

/-- Provision a key drawn from `entropy`, unless the collection has one. -/
def provisionCollection (ring : KeyRing) (d : DataDir) (cid : CollectionId) (entropy : Key) :
    List (Effect Path Chunk) :=
  match ring with
  | .single _ => []
  | .envelope =>
    if Path.dek cid ∈ d then []
    else [.create (.dekTmp cid), .append (.dekTmp cid) [.dek entropy], .sync (.dekTmp cid),
      .rename (.dekTmp cid) (.dek cid)]

def shredCollection (ring : KeyRing) (cid : CollectionId) : List (Effect Path Chunk) :=
  match ring with
  | .single _ => []
  | .envelope => [.remove (.dek cid)]

end KeyRing

def readCurrent (d : DataDir) : Except CoreError (Option Manifest) :=
  match d[Path.current]? with
  | none => .ok none
  | some file =>
    match file.content with
    | [.current version] => do
      match ← readPaged d (.manifest version) with
      | .manifest m =>
        if m.formatVersion = manifestFormatVersion then return some m
        else .error (.unsupportedVersion m.formatVersion manifestFormatVersion)
      | .manifestV1 body => return some body.into
      | _ => .error notThisPageType
    | _ => .error (.malformedPage "CURRENT is empty")

section SegmentReads

variable (d : DataDir) (cid : CollectionId) (seg : Nat) (codec : Key)

/-- A block file; one without pages is an empty column. -/
def readColumn (path : Path) : Except CoreError Bytes :=
  match d[path]? with
  | none => .error .io
  | some file =>
    match file.content with
    | [] => .ok []
    | [.column key bytes] => if key = codec then .ok bytes else .error sealedUnderAnotherKey
    | _ => .error notThisPageType

def readDir : Except CoreError SegmentDir := do
  match ← readPaged d (.segment cid seg .dir) with
  | .segmentDir key dir => if key = codec then .ok dir else .error sealedUnderAnotherKey
  | _ => .error notThisPageType

/-- The tombstones of a segment; no file means no dead rows. -/
def readDel : Except CoreError Bitmap :=
  if Path.segment cid seg .del ∈ d then do
    match ← readPaged d (.segment cid seg .del) with
    | .bitmap key dead => if key = codec then .ok dead else .error sealedUnderAnotherKey
    | _ => .error notThisPageType
  else .ok ∅

def readSec : Except CoreError (Option SecIndex) :=
  if Path.segment cid seg .sec ∈ d then do
    match ← readPaged d (.segment cid seg .sec) with
    | .sec key sec => if key = codec then .ok (some sec) else .error sealedUnderAnotherKey
    | _ => .error notThisPageType
  else .ok none

def loadSegment : Except CoreError SealedSegment := do
  let dir ← readDir d cid seg codec
  let vec ← readColumn d codec (.segment cid seg .vec)
  let pay ← readColumn d codec (.segment cid seg .pay)
  let ids ← readColumn d codec (.segment cid seg .ids)
  let dead ← readDel d cid seg codec
  let sec ← readSec d cid seg codec
  openSegment seg ⟨vec, pay, ids, dir, sec⟩ dead

end SegmentReads

def writePaged (path : Path) (body : Chunk) : List (Effect Path Chunk) :=
  [.create path, .append path [body], .sync path]

def writeSegment (cid : CollectionId) (seg : Nat) (codec : Key) (files : SegmentFiles) :
    List (Effect Path Chunk) :=
  writePaged (.segment cid seg .vec) (.column codec files.vec) ++
  writePaged (.segment cid seg .pay) (.column codec files.pay) ++
  writePaged (.segment cid seg .ids) (.column codec files.ids) ++
  writePaged (.segment cid seg .dir) (.segmentDir codec files.dir) ++
  match files.sec with
  | some sec => writePaged (.segment cid seg .sec) (.sec codec sec)
  | none => []

/-- Replace a segment's tombstones: a temporary file, then a rename. -/
def writeDel (cid : CollectionId) (seg : Nat) (codec : Key) (dead : Bitmap) :
    List (Effect Path Chunk) :=
  writePaged (.segment cid seg .delTmp) (.bitmap codec dead) ++
    [.rename (.segment cid seg .delTmp) (.segment cid seg .del)]

def writeManifest (m : Manifest) : List (Effect Path Chunk) :=
  writePaged (.manifest m.version) (.manifest m) ++ writePaged .currentTmp (.current m.version) ++
    [.rename .currentTmp .current]

end Quiver.Core
