import Quiver.Embed.SnapshotSearch
import Mathlib.Data.Prod.Lex

/-!
Searches that drop tombstoned points from what a graph returns. The graph is asked for more by the share of its
points that is live; where the tombstones lie is not looked at, so a search can come out short near them.
-/

namespace Quiver.Index

open Quiver.Core (DistanceMetric)
open Quiver.Embed (Neighbor reportMetric)

/-- A scored node of a graph. -/
structure Candidate (D : Type) where
  dist : D
  node : Nat
  deriving DecidableEq

def usizeMax : Nat := 2 ^ 64 - 1

variable {D : Type}

structure Hnsw where
  ids : List Nat
  deleted : Finset Nat

namespace Hnsw

/-- The width of the search of the base layer. -/
def efEff (h : Hnsw) (ef : Nat) : Nat :=
  if h.deleted = ∅ then ef
  else min (min (ef * h.ids.length) usizeMax / max (h.ids.length - h.deleted.card) 1) h.ids.length

variable [InvolutiveNeg D]

/-- A search, with what the search of the base layer returns for a width. -/
def search (h : Hnsw) (metric : DistanceMetric) (layer : Nat → List (Candidate D)) (k efSearch : Nat) :
    List (Neighbor D) :=
  if h.ids = [] ∨ k = 0 then []
  else
    let w := layer (h.efEff (max efSearch k))
    ((w.filter fun c => c.node ∉ h.deleted).take k).map fun c => ⟨h.ids.getD c.node 0, reportMetric metric c.dist⟩

theorem search_eq (h : Hnsw) (metric : DistanceMetric) {layer : Nat → List (Candidate D)} {k efSearch : Nat}
    (none : h.ids = [] → layer (h.efEff (max efSearch k)) = []) : h.search metric layer k efSearch =
      (((layer (h.efEff (max efSearch k))).filter fun c => c.node ∉ h.deleted).take k).map fun c =>
        ⟨h.ids.getD c.node 0, reportMetric metric c.dist⟩ := by
  rw [search]
  split
  case isFalse => rfl
  case isTrue empty =>
    obtain noIds | rfl := empty
    · rw [none noIds]
      simp
    · rw [List.take_zero, List.map_nil]

end Hnsw

def widened (fetch total deleted : Nat) : Nat :=
  if deleted = 0 ∨ total = 0 then fetch
  else
    let live := max (total - deleted) 1
    min ((min (fetch * total) usizeMax + live - 1) / live) total

/-- The first hits under ids that were not seen. -/
def pick : Nat → List Nat → List (Neighbor D) → List (Neighbor D)
  | 0, _, _ | _, _, [] => []
  | k + 1, seen, n :: rest => if n.id ∈ seen then pick (k + 1) seen rest else n :: pick k (n.id :: seen) rest

variable [InvolutiveNeg D]

def orderKey (metric : DistanceMetric) (n : Neighbor D) : D := reportMetric metric n.distance

variable [LinearOrder D]

def merge (metric : DistanceMetric) (baseHits deltaHits : List (Neighbor D)) (deleted : Finset Nat) (k : Nat) :
    List (Neighbor D) :=
  let all := (baseHits ++ deltaHits).filter fun n => n.id ∉ deleted
  pick k [] (Nearest.sorted (fun n => toLex (orderKey metric n, n.id)) all)

/-- The sizes of a base graph and of the graph of recent inserts, and the tombstones on both. -/
structure Fresh where
  baseLen : Nat
  deltaLen : Nat
  deleted : Finset Nat

/-- How much each of the two graphs is asked for. -/
def Fresh.want (f : Fresh) (k l : Nat) : Nat := widened (max l k) (f.baseLen + f.deltaLen) f.deleted.card

def Fresh.search (f : Fresh) (metric : DistanceMetric) (base delta : Nat → List (Neighbor D)) (k l : Nat) :
    List (Neighbor D) :=
  if k = 0 then [] else merge metric (base (f.want k l)) (delta (f.want k l)) f.deleted k

/-- The base is a graph in memory, with its own width beside the count. -/
def FreshVamana.search (f : Fresh) (metric : DistanceMetric) (base delta : (count l : Nat) → List (Neighbor D)) (k l : Nat) :
    List (Neighbor D) :=
  f.search metric (fun want => base want want) (fun want => delta want want) k l

/-- The base is a graph on disk, whose width is a parameter of its search. -/
def FreshDiskVamana.search (f : Fresh) (metric : DistanceMetric) (base : (count lSearch : Nat) → List (Neighbor D))
    (delta : (count l : Nat) → List (Neighbor D)) (k l : Nat) : List (Neighbor D) :=
  f.search metric (fun want => base want want) (fun want => delta want want) k l

section

variable {f : Fresh} {metric : DistanceMetric} {base delta : Nat → List (Neighbor D)} {k l : Nat}
  {basePool deltaPool : List (Neighbor D)} (once : ((basePool ++ deltaPool).map Neighbor.id).Nodup)
  (ofBase : Nearest (orderKey metric) (f.want k l) basePool (base (f.want k l)))
  (ofDelta : Nearest (orderKey metric) (f.want k l) deltaPool (delta (f.want k l)))
include once ofBase ofDelta

end

end Quiver.Index
