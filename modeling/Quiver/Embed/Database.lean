import Quiver.Core.Replication
import Quiver.Core.Store

/-!
The embedded database's write operations over its logical content: what they check, the
operations they prepare for consensus and the changes they make directly.
-/

namespace Quiver.Embed

open Quiver.Core

inductive EmbedError where
  | unsupported (message : String)
  | collectionNotFound (name : String)
  | core (error : CoreError)
  deriving DecidableEq, Repr

/-- Reject index and metric combinations the engine cannot serve. -/
def validateIndex (descriptor : Descriptor) : Except EmbedError Unit :=
  if descriptor.multivector && descriptor.metric = .l2 then
    .error (.unsupported "multi-vector collections require a similarity metric (cosine or dot)")
  else if descriptor.vectorEncryption = .clientSide then
    if descriptor.multivector then
      .error (.unsupported "client-side vector encryption is not supported for multi-vector collections")
    else .ok ()
  else if descriptor.vectorEncryption = .dcpe && descriptor.metric ≠ .l2 then
    .error (.unsupported "dcpe-encrypted collections require the l2 metric")
  else if descriptor.index.kind = .colbert && !descriptor.multivector then
    .error (.unsupported "the colbert index is only for multi-vector collections")
  else match descriptor.index.kind with
    | .vamana | .ivf | .diskVamana =>
      if descriptor.metric = .dot then
        .error (.unsupported "vamana, ivf, and the disk index support l2 and cosine; use hnsw for dot")
      else .ok ()
    | _ => .ok ()

def handle (e : Engine) (collection : String) : Except EmbedError (CollectionId × LogicalCollection) :=
  match e.handles[collection]? with
  | none => .error (.collectionNotFound collection)
  | some k =>
    match e.logical.collections[k]? with
    | none => .error (.core (collectionNotFound k))
    | some c => .ok (k, c)

def requireSingleVector (c : LogicalCollection) : Except EmbedError Unit :=
  if c.descriptor.multivector then
    .error (.unsupported "collection is multi-vector; use upsert_document / search_multi_vector")
  else .ok ()

def requireMultivector (c : LogicalCollection) : Except EmbedError Unit :=
  if c.descriptor.multivector then .ok ()
  else .error (.unsupported "collection is single-vector; use upsert / search")

def checkDims (c : LogicalCollection) (vectors : List (List F32)) : Except EmbedError Unit :=
  match vectors.find? fun v => v.length != c.descriptor.dim with
  | none => .ok ()
  | some bad => .error (.core (.invalidArgument
      s!"vector has {bad.length} dims, collection expects {c.descriptor.dim}"))

/-- A point as a client sends it; its payload is encoded. -/
structure PointIn where
  id : String
  vector : List F32
  payload : Bytes

/-- The create that would be logged. Its id is the next one of this engine. -/
def prepareCreateCollection (encoding : Encoding) (e : Engine) (name : String) (descriptor : Descriptor) :
    Except EmbedError WalOp := do
  validateIndex descriptor
  if name ∈ e.logical.names then .error (.core (.alreadyExists s!"collection {name}"))
  else if descriptor.dim = 0 then .error (.core (.invalidArgument "dim must be non-zero"))
  else return .createCollection e.nextCollectionId name (encoding.descriptor.encode descriptor)

def prepareUpsert (e : Engine) (collection : String) (point : PointIn) : Except EmbedError WalOp := do
  let (k, c) ← handle e collection
  requireSingleVector c
  checkDims c [point.vector]
  return .upsert k point.id (f32ToLeBytes point.vector) point.payload

/-- Nothing to propose for a point that this engine does not hold. -/
def prepareDelete (e : Engine) (collection : String) (id : String) : Except EmbedError (Option WalOp) := do
  let (k, c) ← handle e collection
  return if id ∈ c.points then some (.delete k id) else none

section Direct

variable (encoding : Encoding)

def upsertBulk (e : Engine) (collection : String) (points : List PointIn) : Except EmbedError Engine := do
  let (k, c) ← handle e collection
  requireSingleVector c
  checkDims c (points.map PointIn.vector)
  return { e with
    logical := e.logical.applyAll encoding (points.map fun p => .upsert k p.id (f32ToLeBytes p.vector) p.payload) }

def docTokenSep : Char := Char.ofNat 0x1f

def tokenId (docId : String) (ordinal : Nat) : String := docId ++ (docTokenSep.toString ++ toString ordinal)

structure DocumentIn where
  id : String
  vectors : List (List F32)
  payload : Bytes

/-- Write a document's token rows, after the rows that a shorter version leaves behind are
deleted; `previous` is the number of tokens the handle knows. -/
def upsertDocument (e : Engine) (collection : String) (previous : Nat) (doc : DocumentIn) :
    Except EmbedError Engine := do
  let (k, c) ← handle e collection
  requireMultivector c
  if docTokenSep ∈ doc.id.toList then
    .error (.unsupported "document id must not contain the reserved 0x1f separator")
  else if doc.vectors = [] then .error (.unsupported "a document needs at least one vector")
  else if doc.vectors.any fun v => v.length ≠ c.descriptor.dim then
    .error (.unsupported "every document vector must match the collection dimensionality")
  else
    let stale := (List.range previous).drop doc.vectors.length
    let deletes := stale.map fun j => WalOp.delete k (tokenId doc.id j)
    let upserts := doc.vectors.zipIdx.map fun (v, j) =>
      WalOp.upsert k (tokenId doc.id j) (f32ToLeBytes v) (if j = 0 then doc.payload else [])
    return { e with logical := e.logical.applyAll encoding (deletes ++ upserts) }

/-- Delete a document's token rows; `count` is the number the handle knows. -/
def deleteDocument (e : Engine) (collection : String) (count : Option Nat) (docId : String) :
    Except EmbedError Engine := do
  let (k, c) ← handle e collection
  requireMultivector c
  match count with
  | none => return e
  | some count =>
    return { e with
      logical := e.logical.applyAll encoding ((List.range count).map fun j => .delete k (tokenId docId j)) }

end Direct

end Quiver.Embed
