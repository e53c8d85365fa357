import Mathlib.Data.Finset.Sort
import Quiver.Embed.Planner
import Quiver.Embed.SnapshotSearch
import Quiver.Embed.Rebuild
import Quiver.Query.SparseSearch

/-!
Searches of a collection. The hits come from the rows that a filter was narrowed to, from the index
or the snapshot, or from the sparse index; with a filter, the row of a hit is read and its payload
checked. Scores and distances are exact.
-/

namespace Quiver.Embed

open Results
open Quiver.Core (Bytes CollectionState CoreError DistanceMetric F32 Parse Record)
open Json (Value)
open Query (Filter SparseInvertedIndex)
open Query.SparseInvertedIndex (Ranks)
open Std (ExtTreeMap)
open List (mem_cons mem_cons_of_mem mem_cons_self mem_filterMap mem_map perm_insertionSort)

/-- Why a read fails. A search of a snapshot may panic. -/
inductive ReadError where
  | embed (error : EmbedError)
  | json
  | panic
  deriving DecidableEq

structure SearchParams where
  k : Nat
  efSearch : Nat
  filter : Option Filter := none
  withPayload : Bool := true
  withVector : Bool := false

/-- What reads take from the engine's libraries: how payloads, and the sparse vectors in them, are parsed and
texts are cut into terms, the hits of an index, and the arithmetic of distances and scores. -/
structure Library (D : Type) where
  parse : Parse
  readSparse : Value → Option (Query.SparseVector F32)
  terms : String → List Nat
  frequency : Nat → F32
  hits : LiveIndex → List F32 → Nat → Nat → List (Neighbor D)
  distance : DistanceMetric → List F32 → List F32 → D
  value : F32 → D
  ln : D → D
  minPositive : D
  k1 : D
  b : D

def filterOverfetch : Nat := 8

def sparseKey : String := "__quiver_sparse__"

section Rows

variable {D : Type} (lib : Library D) (c : CollectionState)

def Library.payload (bytes : Bytes) : Except ReadError Value :=
  match lib.parse bytes with
  | none => .error .json
  | some value => .ok value

def readPayload (wanted : Bool) : Option Record → Except ReadError (Option Value)
  | some r => if wanted then (lib.payload r.payload).map some else .ok none
  | none => .ok none

end Rows

section Search

variable {D : Type} [Field D] [LinearOrder D] (lib : Library D) (c : CollectionState) (h : CollectionHandle)

/-- What is asked for, so that enough is left once it is filtered. -/
def SearchParams.fetch (params : SearchParams) : Nat :=
  if params.filter.isSome then max (min (params.k * filterOverfetch) (2 ^ 64 - 1)) params.efSearch else params.k

/-- The weights of a vector in exact numbers. -/
def Library.exact (v : SparseVector) : Query.SparseVector D := ⟨v.map Prod.fst, v.map fun e => lib.value e.2⟩

/-- The score of a sparse vector against the weights of a query. -/
def Library.dot (weights : ExtTreeMap Nat D) (v : Query.SparseVector F32) : D :=
  ((v.indices.zip v.values).map fun e => ((weights[e.1]?).map fun w => w * lib.value e.2).getD 0).sum

end Search

/-! What a filtered read returns -/

section Filtered

variable {D : Type} {lib : Library D} {c : CollectionState} {m : ExtTreeMap String Record} {f : Filter}

/-- The payload that a filter sees: null for a row that is gone. -/
def Library.seen (lib : Library D) (row : Option Record) : Option Value :=
  match row with
  | none => some .null
  | some r => lib.parse r.payload

/-- An id passes a filter by what the filter sees. -/
def Library.Passes (lib : Library D) (m : ExtTreeMap String Record) (f : Filter) (id : String) : Prop :=
  ∃ value, lib.seen m[id]? = some value ∧ f.matches value = true

/-- A row that is live and satisfies a filter. -/
def Library.Satisfies (lib : Library D) (m : ExtTreeMap String Record) (f : Filter) (id : String) : Prop :=
  ∃ record value, m[id]? = some record ∧ lib.parse record.payload = some value ∧ f.matches value = true

variable {docs : ExtTreeMap String SparseVector} {params : SearchParams} {ids : List String}
  {query : List F32} {id : String} {depth : Nat}

theorem Library.Satisfies.passes (satisfies : lib.Satisfies m f id) : lib.Passes m f id ∧ id ∈ m := by
  obtain ⟨record, value, held, parsed, holds⟩ := satisfies
  refine ⟨⟨value, ?_, holds⟩, Maps.mem_of_get held⟩
  rw [held]
  exact parsed

/-- Who passes is live, unless the filter accepts null. -/
theorem Library.Passes.satisfies (passes : lib.Passes m f id) (sure : f.matches .null = false ∨ id ∈ m) :
    lib.Satisfies m f id := by
  obtain ⟨value, seen, holds⟩ := passes
  cases row : m[id]? with
  | some record =>
    rw [row] at seen
    exact ⟨record, value, row, seen, holds⟩
  | none =>
    rw [row] at seen
    obtain rfl := Option.some.inj seen
    obtain rejects | live := sure
    · exact absurd (rejects.symm.trans holds) Bool.noConfusion
    · rw [ExtTreeMap.mem_iff_isSome_getElem?, row] at live
      cases live

section

variable (represents : c.Represents m)
include represents

end

variable [Field D] [LinearOrder D] {h : CollectionHandle}

/-- All that a handle names is live; its sparse index has a slot for every document. -/
structure CollectionHandle.NamesLive (h : CollectionHandle) (m : ExtTreeMap String Record) : Prop where
  index : ∀ i id, (h.index.live i).isSome = true → h.idmap.ext i = some id → id ∈ m
  snapshot : ∀ point ∈ h.snapshot.points, point.1 ∈ m
  sparse : ∀ docs, h.sparse = some docs → docs.size ≤ 2 ^ 32 ∧ ∀ id ∈ docs, id ∈ m

/-- An index leaves out the points that are deleted in it. -/
def Library.SkipsDeleted (lib : Library D) : Prop :=
  ∀ index query k efSearch, ∀ n ∈ lib.hits index query k efSearch, (index.live n.id).isSome = true

/-- What a ranking of a filtered search holds: ids that pass, and that are live if all that the handle serves is. -/
def Library.Sound (lib : Library D) (h : CollectionHandle) (m : ExtTreeMap String Record) (f : Filter)
    (ids : List String) : Prop :=
  ∀ id ∈ ids, lib.Passes m f id ∧ (lib.SkipsDeleted ∧ h.NamesLive m → id ∈ m)

end Filtered

/-- Points on a line, all of which the index returns; the first byte of a payload is kept in a field. -/
def lineLibrary : Library ℚ where
  parse bytes := bytes.head?.map fun byte => .object [("x", .bool (byte = 1))]
  readSparse _ := none
  terms _ := []
  frequency _ := 0
  hits index query k _ := ((List.range 4).filterMap fun i => (index.live i).map fun v =>
    ⟨i, ((query.headD 0).toNat - (v.headD 0).toNat) ^ 2⟩).take k
  distance _ query v := ((query.headD 0).toNat - (v.headD 0).toNat) ^ 2
  value weight := weight.toNat
  ln x := x
  minPositive := 1
  k1 := 6 / 5
  b := 3 / 4

end Quiver.Embed
