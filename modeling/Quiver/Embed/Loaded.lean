import Quiver.Embed.Handle

/-!
The embedded database: the content of its store and the handles of its collections. An
operation first changes the store and then the handle; what a refused operation had done
before it was refused stays done.
-/

namespace Quiver.Embed

open Quiver.Core
open Std (ExtTreeMap)

section Store

variable (cfg : Setting)

/-- The size check of the log. -/
def checkRecord (op : WalOp) : Except CoreError Unit :=
  if maxRecordBytes < cfg.recordLen op then
    .error (.tooLarge s!"wal record {cfg.recordLen op} bytes exceeds cap {maxRecordBytes}")
  else .ok ()

def storeLog (l : Logical) (ops : List WalOp) : Except CoreError Logical := do
  ops.forM (checkRecord cfg)
  return l.applyAll cfg.encoding ops

def storeCheckDims (l : Logical) (k : CollectionId) (vectors : List (List F32)) : Except CoreError Unit :=
  match l.collections[k]? with
  | none => .error (collectionNotFound k)
  | some c =>
    match vectors.find? fun v => v.length != c.descriptor.dim with
    | none => .ok ()
    | some bad => .error (.invalidArgument s!"vector has {bad.length} dims, collection expects {c.descriptor.dim}")

def PointIn.op (k : CollectionId) (p : PointIn) : WalOp := .upsert k p.id (f32ToLeBytes p.vector) p.payload

def storeUpsertBatch (l : Logical) (k : CollectionId) (points : List PointIn) : Except CoreError Logical :=
  if points.isEmpty then .ok l
  else do
    storeCheckDims l k (points.map PointIn.vector)
    storeLog cfg l (points.map (PointIn.op k))

def storeUpsert (l : Logical) (k : CollectionId) (point : PointIn) : Except CoreError Logical := do
  storeCheckDims l k [point.vector]
  storeLog cfg l [point.op k]

def storeDelete (l : Logical) (k : CollectionId) (id : String) : Except CoreError (Logical × Bool) :=
  match l.collections[k]? with
  | none => .error (collectionNotFound k)
  | some c => if id ∈ c.points then do return (← storeLog cfg l [.delete k id], true) else .ok (l, false)

end Store

/-- The database, and the snapshots of dropped collections that readers may still hold. -/
structure Database where
  logical : Logical := .empty
  nextCollectionId : CollectionId := 0
  handles : ExtTreeMap String CollectionHandle := ∅
  mvcc : Bool := false
  nextCell : Nat := 0
  retired : List ((String × Nat) × Snapshot) := []

/-- Take steps until one is refused, keeping what the steps before it did. -/
def forEach {σ α ε : Type} (f : σ → α → Except ε σ) : σ → List α → σ × Except ε Unit
  | s, [] => (s, .ok ())
  | s, a :: rest =>
    match f s a with
    | .error error => (s, .error error)
    | .ok s => forEach f s rest

namespace Database

variable (cfg : Setting)

/-- The handle of a collection that is created or loaded now. -/
def newHandle (db : Database) (id : CollectionId) (descriptor : Descriptor)
    (sparse : Option (ExtTreeMap String SparseVector)) (stale : Bool) : CollectionHandle where
  id := id
  descriptor := descriptor
  index := emptyIndex descriptor
  stale := stale
  docs := if descriptor.multivector then some ∅ else none
  sparse := sparse
  mvcc := db.mvcc
  cell := db.nextCell

def put (db : Database) (name : String) (l : Logical) (h : CollectionHandle) : Database :=
  { db with logical := l, handles := db.handles.insert name h }

/-- The snapshot in a cell that was handed out for a name. -/
def load (db : Database) (name : String) (cell : Nat) : Snapshot :=
  match db.handles[name]? with
  | some h => if h.cell = cell then h.snapshot else (db.retired.lookup (name, cell)).getD {}
  | none => (db.retired.lookup (name, cell)).getD {}

def createCollection (db : Database) (name : String) (descriptor : Descriptor) :
    Database × Except EmbedError Unit :=
  match validateIndex descriptor with
  | .error error => (db, .error error)
  | .ok () =>
    let created : Except CoreError Logical := do
      validateCollectionName name
      if name ∈ db.logical.names then .error (.alreadyExists s!"collection {name}")
      else if descriptor.dim = 0 then .error (.invalidArgument "dim must be non-zero")
      else
        let op := WalOp.createCollection db.nextCollectionId name (cfg.encoding.descriptor.encode descriptor)
        storeLog cfg db.logical [op]
    match created with
    | .error error => (db, .error (.core error))
    | .ok l =>
      let sparse := if usesSparseIndex descriptor then some ∅ else none
      ({ db.put name l (db.newHandle db.nextCollectionId descriptor sparse false) with
          nextCollectionId := db.nextCollectionId + 1
          nextCell := db.nextCell + 1 }, .ok ())

def unload (db : Database) (name : String) : Database :=
  { db with
    handles := db.handles.erase name
    retired := match db.handles[name]? with
      | some h => ((name, h.cell), h.snapshot) :: db.retired
      | none => db.retired }

def dropCollection (db : Database) (name : String) : Database × Except EmbedError Bool :=
  match db.logical.names[name]? with
  | none => (db.unload name, .ok false)
  | some k =>
    match storeLog cfg db.logical [.dropCollection k] with
    | .error error => (db, .error (.core error))
    | .ok l => ({ db.unload name with logical := l }, .ok true)

/-- Write one point. A collection whose vectors the clients encrypt keeps no index. -/
def upsert (db : Database) (collection : String) (point : PointIn) : Database × Except EmbedError Unit :=
  match db.handles[collection]? with
  | none => (db, .error (.collectionNotFound collection))
  | some h =>
    if h.descriptor.multivector then
      (db, .error (.unsupported "collection is multi-vector; use upsert_document / search_multi_vector"))
    else match storeUpsert cfg db.logical h.id point with
      | .error error => (db, .error (.core error))
      | .ok l =>
        if h.descriptor.vectorEncryption = .clientSide then ({ db with logical := l }, .ok ())
        else (db.put collection l
          ((h.indexUpsertPoint point.id point.vector).sparseUpsertPoint cfg point.id point.payload), .ok ())

def indexBatch (h : CollectionHandle) (points : List PointIn) : CollectionHandle :=
  let h := if h.mvccServed then h.overlayUpsertBatch (points.map fun p => (p.id, p.vector))
    else points.foldl (fun h p => h.indexUpsertPoint p.id p.vector) h
  points.foldl (fun h p => h.sparseUpsertPoint cfg p.id p.payload) h

def upsertBatch (db : Database) (collection : String) (points : List PointIn) : Database × Except EmbedError Nat :=
  match db.handles[collection]? with
  | none => (db, .error (.collectionNotFound collection))
  | some h =>
    if h.descriptor.multivector then
      (db, .error (.unsupported "collection is multi-vector; use upsert_document / search_multi_vector"))
    else match storeUpsertBatch cfg db.logical h.id points with
      | .error error => (db, .error (.core error))
      | .ok l =>
        if h.descriptor.vectorEncryption = .clientSide then ({ db with logical := l }, .ok points.length)
        else (db.put collection l (indexBatch cfg h points), .ok points.length)

def upsertBulk (db : Database) (collection : String) (points : List PointIn) : Database × Except EmbedError Nat :=
  match db.handles[collection]? with
  | none => (db, .error (.collectionNotFound collection))
  | some h =>
    if h.descriptor.multivector then
      (db, .error (.unsupported "collection is multi-vector; use upsert_document / search_multi_vector"))
    else match storeUpsertBatch cfg db.logical h.id points with
      | .error error => (db, .error (.core error))
      | .ok l => (db.put collection l h.markStale, .ok points.length)

def delete (db : Database) (collection : String) (id : String) : Database × Except EmbedError Bool :=
  match db.handles[collection]? with
  | none => (db, .error (.collectionNotFound collection))
  | some h =>
    if h.descriptor.multivector then
      (db, .error (.unsupported "collection is multi-vector; use upsert_document / search_multi_vector"))
    else match storeDelete cfg db.logical h.id id with
      | .error error => (db, .error (.core error))
      | .ok (_, false) => (db, .ok false)
      | .ok (l, true) =>
        if h.descriptor.vectorEncryption = .clientSide then ({ db with logical := l }, .ok true)
        else (db.put collection l ((h.indexDeletePoint id).sparseDeletePoint id), .ok true)

abbrev Rows := Logical × CollectionHandle

def deleteToken (docId : String) (s : Rows) (j : Nat) : Except EmbedError Rows :=
  match storeDelete cfg s.1 s.2.id (tokenId docId j) with
  | .error error => .error (.core error)
  | .ok (l, _) => .ok (l, s.2.indexDeletePoint (tokenId docId j))

/-- Write a token's row; the first one carries the payload. -/
def upsertToken (doc : DocumentIn) (s : Rows) (token : List F32 × Nat) : Except EmbedError Rows :=
  let id := tokenId doc.id token.2
  match storeUpsert cfg s.1 s.2.id ⟨id, token.1, if token.2 = 0 then doc.payload else []⟩ with
  | .error error => .error (.core error)
  | .ok l => .ok (l, s.2.indexUpsertPoint id token.1)

/-- The number of tokens the handle knows of a document. -/
def knownTokens (h : CollectionHandle) (docId : String) : Option Nat := h.docs.bind fun docs => docs[docId]?

/-- The rows that a shorter version leaves behind are deleted, then every token is written. -/
def writeDocument (doc : DocumentIn) (s : Rows) : Rows × Except EmbedError Unit :=
  let previous := (knownTokens s.2 doc.id).getD 0
  match forEach (deleteToken cfg doc.id) s ((List.range previous).drop doc.vectors.length) with
  | (s, .error error) => (s, .error error)
  | (s, .ok ()) =>
    match forEach (upsertToken cfg doc) s doc.vectors.zipIdx with
    | (s, .error error) => (s, .error error)
    | (s, .ok ()) =>
      ((s.1, { s.2 with docs := s.2.docs.map (·.insert doc.id (doc.vectors.length % 2 ^ 32)) }), .ok ())

def upsertDocument (db : Database) (collection : String) (doc : DocumentIn) : Database × Except EmbedError Unit :=
  match db.handles[collection]? with
  | none => (db, .error (.collectionNotFound collection))
  | some h =>
    if !h.descriptor.multivector then
      (db, .error (.unsupported "collection is single-vector; use upsert / search"))
    else if docTokenSep ∈ doc.id.toList then
      (db, .error (.unsupported "document id must not contain the reserved 0x1f separator"))
    else if doc.vectors = [] then (db, .error (.unsupported "a document needs at least one vector"))
    else if doc.vectors.any fun v => v.length ≠ h.descriptor.dim then
      (db, .error (.unsupported "every document vector must match the collection dimensionality"))
    else
      let (s, result) := writeDocument cfg doc (db.logical, h)
      (db.put collection s.1 s.2, result)

/-- Delete the tokens the handle knows, and say whether it knew the document. -/
def deleteDocument (db : Database) (collection : String) (docId : String) : Database × Except EmbedError Bool :=
  match db.handles[collection]? with
  | none => (db, .error (.collectionNotFound collection))
  | some h =>
    if !h.descriptor.multivector then
      (db, .error (.unsupported "collection is single-vector; use upsert / search"))
    else match knownTokens h docId with
      | none => (db, .ok false)
      | some count =>
        match forEach (deleteToken cfg docId) (db.logical, h) (List.range count) with
        | (s, .error error) => (db.put collection s.1 s.2, .error error)
        | (s, .ok ()) =>
          (db.put collection s.1 { s.2 with docs := s.2.docs.map (·.erase docId) }, .ok true)

structure DocumentOut where
  payload : Option Bytes
  vectors : List (List F32)
  deriving DecidableEq

/-- The rows of the tokens that are there, in order. -/
def gatherDocument (points : ExtTreeMap String Record) (docId : String) (count : Nat) : DocumentOut where
  payload := match points[tokenId docId 0]? with
    | some row => if 0 < count ∧ row.payload ≠ [] then some row.payload else none
    | none => none
  vectors := (List.range count).filterMap fun j => (points[tokenId docId j]?).map Record.vector

def getDocument (db : Database) (collection : String) (docId : String) : Except EmbedError (Option DocumentOut) :=
  match db.handles[collection]? with
  | none => .error (.collectionNotFound collection)
  | some h =>
    if !h.descriptor.multivector then .error (.unsupported "collection is single-vector; use upsert / search")
    else match knownTokens h docId, db.logical.collections[h.id]? with
      | none, _ => .ok none
      | some _, none => .error (.core (collectionNotFound h.id))
      | some count, some c =>
        let found := gatherDocument c.points docId count
        .ok (if found.vectors = [] then none else some found)

def documentCount (db : Database) (collection : String) : Except EmbedError Nat :=
  match db.handles[collection]? with
  | none => .error (.collectionNotFound collection)
  | some h =>
    if !h.descriptor.multivector then .error (.unsupported "collection is single-vector; use upsert / search")
    else .ok ((h.docs.map ExtTreeMap.size).getD 0)

/-- Apply an operation that another node committed: change the store, then adjust the handles.
A row that was written leaves the handle of its collection stale. -/
def applyReplicated (db : Database) (op : WalOp) : Database × Except EmbedError Unit :=
  match op with
  | .checkpoint .. => (db, .ok ())
  | .createCollection k name bytes =>
    if name ∈ db.handles then (db, .ok ())
    else
      -- The allocator moves before the record is logged.
      let db := { db with nextCollectionId := max db.nextCollectionId (k + 1) }
      match storeLog cfg db.logical [op], cfg.encoding.decodeDescriptor bytes with
      | .error error, _ => (db, .error (.core error))
      | .ok _, none => (db, .error (.core .serialization))
      | .ok l, some descriptor =>
        ({ db.put name l (db.newHandle k descriptor none false) with nextCell := db.nextCell + 1 }, .ok ())
  | .dropCollection k =>
    match storeLog cfg db.logical [op] with
    | .error error => (db, .error (.core error))
    | .ok l =>
      ({ db with
          logical := l
          handles := db.handles.filter fun _ h => h.id ≠ k
          retired := (db.handles.toList.filterMap fun (name, h) =>
            if h.id = k then some ((name, h.cell), h.snapshot) else none) ++ db.retired }, .ok ())
  | .upsert k .. | .delete k _ =>
    match storeLog cfg db.logical [op] with
    | .error error => (db, .error (.core error))
    | .ok l => ({ db with
        logical := l
        handles := db.handles.map fun _ h => if h.id = k then h.markStale else h }, .ok ())

def ensureIndexed (db : Database) (collection : String) : Database × Except EmbedError (Except BuildError Unit) :=
  match db.handles[collection]? with
  | none => (db, .error (.collectionNotFound collection))
  | some h =>
    if h.stale then
      match db.logical.collections[h.id]? with
      | none => (db, .error (.core (collectionNotFound h.id)))
      | some c =>
        match h.rebuild cfg c.points with
        | (.error error, h) => (db.put collection db.logical h, .ok (.error error))
        | (.ok (), h) => (db.put collection db.logical h.publishIfServed, .ok (.ok ()))
    else (db, .ok (.ok ()))

/-- Capture what a rebuild needs; nothing if the handle is fresh. -/
def snapshotRebuildInputs (db : Database) (collection : String) : Except EmbedError (Option RebuildInputs) :=
  match db.handles[collection]? with
  | none => .error (.collectionNotFound collection)
  | some h =>
    if h.stale then
      match db.logical.collections[h.id]? with
      | none => .error (.core (collectionNotFound h.id))
      | some c => .ok (some ⟨collection, h.descriptor, scanCollection cfg h.descriptor c.points, h.writeGen⟩)
    else .ok none

/-- Install a rebuilt index under its collection's name. A name that is not loaded is ignored. -/
def commitRebuild (db : Database) (r : RebuiltIndex) : Database × Except BuildError Bool :=
  match db.handles[r.collection]? with
  | none => (db, .ok false)
  | some h =>
    let (result, h) := h.install r
    (db.put r.collection db.logical h, result)

/-- The handle of a collection when the database is opened. -/
def openedHandle (db : Database) (k : CollectionId) (c : LogicalCollection) : Except BuildError CollectionHandle :=
  match ({ db.newHandle k c.descriptor none true with docs := none }).rebuild cfg c.points with
  | (.error error, _) => .error error
  | (.ok (), h) => .ok { h with stale := h.mvccServed }

/-- Close the database and open it again: every collection is loaded and rebuilt. -/
def reopen (db : Database) : Except BuildError Database := do
  db.logical.collections.toList.forM fun (k, c) => do
    let _ ← db.openedHandle cfg k c
  return { db with
    handles := db.logical.names.filterMap fun _ k =>
      (db.logical.collections[k]?).bind fun c => (db.openedHandle cfg k c).toOption
    nextCell := db.nextCell + 1 }

end Database

end Quiver.Embed
