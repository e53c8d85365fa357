import Quiver.Core.Catalog
import Quiver.Core.WalReplay

/-!
The storage engine: its state, and the operations that log a record, make it durable and then
apply it. An operation that fails before its records are durable leaves the collections as
they were.
-/

namespace Quiver.Core

open FileSystem

def maxCollectionNameLen : Nat := 255

def compactMinSegments : Nat := 8

def validateCollectionName (name : String) : Except CoreError Unit :=
  if name.isEmpty then .error (.invalidArgument "collection name must not be empty")
  else if maxCollectionNameLen < name.utf8ByteSize then
    .error (.invalidArgument
      s!"collection name must be at most {maxCollectionNameLen} bytes, got {name.utf8ByteSize}")
  else
    match name.toList.find? fun c => !(c.isAlphanum || c == '-' || c == '_' || c == '.') with
    | some bad => .error (.invalidArgument (s!"collection name {name.quote} contains an invalid " ++
        s!"character {bad.quote}; allowed: ASCII letters, digits, '-', '_', '.'"))
    | none => .ok ()

/-- The durable storage engine for one data directory. -/
structure Store where
  keyring : KeyRing
  catalog : Catalog
  nextLsn : Lsn
  nextCollectionId : Nat
  nextSegmentId : Nat
  manifestVersion : Nat
  lastCheckpointedLsn : Lsn
  wal : WalWriter

/-- What an operation did: its effects on the disk, the engine after it, and its result. -/
structure Outcome (α : Type) where
  effects : List (Effect Path Chunk)
  store : Store
  result : Except CoreError α

namespace Outcome

/-- An operation refused before it did anything. -/
def refused (s : Store) (error : CoreError) : Outcome α := ⟨[], s, .error error⟩

def answered (s : Store) (a : α) : Outcome α := ⟨[], s, .ok a⟩

end Outcome

def collectionNotFound (cid : CollectionId) : CoreError := .notFound s!"collection {cid}"

namespace Catalog

/-- Change one collection that has to exist. -/
def modify (cat : Catalog) (cid : CollectionId)
    (f : CollectionState → Except CoreError CollectionState) : Except CoreError Catalog :=
  match cat.collections[cid]? with
  | none => .error (collectionNotFound cid)
  | some c => do return { cat with collections := cat.collections.insert cid (← f c) }

/-- Check a write's vectors against the collection's dimensionality. -/
def checkDims (cat : Catalog) (cid : CollectionId) (vectors : List (List F32)) :
    Except CoreError Unit :=
  match cat.collections[cid]? with
  | none => .error (collectionNotFound cid)
  | some c =>
    match vectors.find? fun v => v.length != c.descriptor.dim with
    | none => .ok ()
    | some bad => .error (.invalidArgument
        s!"vector has {bad.length} dims, collection expects {c.descriptor.dim}")

/-- Apply the records of a batch in order, keeping what was applied before a failure. -/
def applyUpserts (cid : CollectionId) : Catalog → List (String × List F32 × Bytes) →
    Catalog × Except CoreError Unit
  | cat, [] => (cat, .ok ())
  | cat, (id, vector, payload) :: records =>
    match cat.modify cid fun c => c.applyUpsert id (f32ToLeBytes vector) payload with
    | .error error => (cat, .error error)
    | .ok cat => applyUpserts cid cat records

end Catalog

namespace Store

variable (encoding : Encoding)

/-- Append records to the log and sync it, then go on with `next`. -/
def logged (s : Store) (entries : List WalEntry) (io : WalIo)
    (next : Store → Store × Except CoreError α) : Outcome α :=
  let out := s.wal.commit encoding entries io
  let s := { s with wal := out.writer }
  match out.result with
  | .error error => ⟨out.effects, s, .error error⟩
  | .ok () => ⟨out.effects, (next s).1, (next s).2⟩

/-- Install a changed catalog and answer, or report why it could not be changed. -/
def install (s : Store) (changed : Except CoreError Catalog) (answer : α) :
    Store × Except CoreError α :=
  match changed with
  | .error error => (s, .error error)
  | .ok catalog => ({ s with catalog }, .ok answer)

def checkCreate (s : Store) (name : String) (descriptor : Descriptor) : Except CoreError Unit := do
  if name ∈ s.catalog.nameIndex then .error (.alreadyExists s!"collection {name}")
  if descriptor.dim = 0 then .error (.invalidArgument "dim must be non-zero")

/-- Create a collection; `entropy` is the key drawn if its data is sealed under its own. -/
def createCollection (s : Store) (d : DataDir) (name : String) (descriptor : Descriptor)
    (entropy : Key) (io : WalIo) : Outcome CollectionId :=
  match validateCollectionName name, s.checkCreate name descriptor with
  | .error error, _ => .refused s error
  | .ok (), .error error => .refused s error
  | .ok (), .ok () =>
    let id := s.nextCollectionId
    let provisioned := s.keyring.provisionCollection d id entropy
    let out := s.logged encoding
      [⟨s.nextLsn, .createCollection id name (encoding.descriptor.encode descriptor)⟩] io fun s =>
        let s := { s with nextLsn := s.nextLsn + 1, nextCollectionId := id + 1 }
        match s.keyring.collectionCodec (applyAll d provisioned) id with
        | .error error => (s, .error error)
        | .ok codec => ({ s with catalog := s.catalog.add (.new id name descriptor codec) }, .ok id)
    { out with effects := provisioned ++ out.effects }

/-- Drop a collection; its files are reclaimed later. The result tells whether it existed. -/
def dropCollection (s : Store) (name : String) (io : WalIo) : Outcome Bool :=
  match s.catalog.nameIndex[name]? with
  | none => .answered s false
  | some id =>
    s.logged encoding [⟨s.nextLsn, .dropCollection id⟩] io fun s =>
      ({ s with
          nextLsn := s.nextLsn + 1
          catalog := ⟨s.catalog.collections.erase id, s.catalog.nameIndex.erase name⟩ }, .ok true)

/-- Insert or replace a point; the result is its log sequence number. -/
def upsert (s : Store) (cid : CollectionId) (externalId : String) (vector : List F32) (payload : Bytes)
    (io : WalIo) : Outcome Lsn :=
  match s.catalog.checkDims cid [vector] with
  | .error error => .refused s error
  | .ok () =>
    let bytes := f32ToLeBytes vector
    s.logged encoding [⟨s.nextLsn, .upsert cid externalId bytes payload⟩] io fun s =>
      let lsn := s.nextLsn
      { s with nextLsn := lsn + 1 }.install
        (s.catalog.modify cid fun c => c.applyUpsert externalId bytes payload) lsn

def batchEntries (cid : CollectionId) (lsn : Lsn) : List (String × List F32 × Bytes) → List WalEntry
  | [] => []
  | (id, vector, payload) :: records =>
    ⟨lsn, .upsert cid id (f32ToLeBytes vector) payload⟩ :: batchEntries cid (lsn + 1) records

/-- Upsert a batch with one sync. The sequence numbers are taken before anything is written. -/
def upsertBatch (s : Store) (cid : CollectionId) (records : List (String × List F32 × Bytes))
    (io : WalIo) : Outcome Nat :=
  if records.isEmpty then .answered s 0
  else
    match s.catalog.checkDims cid (records.map fun r => r.2.1) with
    | .error error => .refused s error
    | .ok () =>
      let entries := batchEntries cid s.nextLsn records
      { s with nextLsn := s.nextLsn + records.length }.logged encoding entries io fun s =>
        match s.catalog.applyUpserts cid records with
        | (catalog, .error error) => ({ s with catalog }, .error error)
        | (catalog, .ok ()) => ({ s with catalog }, .ok records.length)

/-- Delete a point; an id that is not there is not logged. -/
def delete (s : Store) (cid : CollectionId) (externalId : String) (io : WalIo) : Outcome Bool :=
  match s.catalog.collections[cid]? with
  | none => .refused s (collectionNotFound cid)
  | some c =>
    match c.locate externalId with
    | .error error => .refused s error
    | .ok none => .answered s false
    | .ok (some _) =>
      s.logged encoding [⟨s.nextLsn, .delete cid externalId⟩] io fun s =>
        { s with nextLsn := s.nextLsn + 1 }.install
          (s.catalog.modify cid fun c => do return (← c.applyDelete externalId).1) true

def sortedCids (s : Store) : List CollectionId := s.catalog.collections.keys

def collectionId (s : Store) (name : String) : Option CollectionId := s.catalog.nameIndex[name]?

end Store

end Quiver.Core
