import Quiver.Base.Nearest
import Quiver.Embed.Overlay
import Mathlib.Algebra.Ring.Int.Defs

/-!
A search of a snapshot. The base is asked for more than is wanted, by the share of it that has been
tombstoned since; its hits are thinned, and merged with the overlay.
-/

namespace Quiver.Embed

open Quiver.Core

/-- A hit of an index, with the distance it reports. -/
structure Neighbor (D : Type) where
  id : Nat
  distance : D

structure Match (D : Type) where
  id : String
  score : D
  deriving DecidableEq

/-- An entry of a snapshot under its internal id. -/
structure Slot where
  id : Nat
  ext : String
  vector : List F32
  deriving DecidableEq

section

variable {D : Type} [InvolutiveNeg D]

/-- The value of a metric that callers see, from the distance that is searched by, and back. -/
def reportMetric (metric : DistanceMetric) (distance : D) : D :=
  match metric with
  | .l2 => distance
  | .dot | .cosine => -distance

theorem reportMetric_reportMetric (metric : DistanceMetric) (distance : D) :
    reportMetric metric (reportMetric metric distance) = distance := by
  cases metric <;> simp [reportMetric]

end

/-- `n` scaled by the share of the base that is live, between `n` and the base. Nothing where the bounds
cross: the clamp panics. -/
def widen (baseLen liveBase n : Nat) : Option Nat :=
  let scaled := (min (n * baseLen) (2 ^ 64 - 1) + liveBase - 1) / liveBase
  if n ≤ baseLen then some (max n (min scaled baseLen)) else none

namespace Snapshot

def baseTombstones (s : Snapshot) : Nat := s.tombstones.dedup.countP (· < s.ids.length)

/-- How many hits the base is asked for, and how many candidates it is to keep. -/
def askBase (s : Snapshot) (k efSearch : Nat) : Option (Nat × Nat) :=
  if s.baseTombstones = 0 ∨ s.ids.length = 0 then some (k, efSearch)
  else do
    let liveBase := max (s.ids.length - s.baseTombstones) 1
    let kBase ← widen s.ids.length liveBase k
    let efBase ← widen s.ids.length liveBase efSearch
    return (kBase, max efBase kBase)

section

variable {D : Type} [LinearOrder D] [InvolutiveNeg D]

/-- The `k` nearest points, nothing if the search panics. The base and the distance to the query are given. -/
def search (s : Snapshot) (metric : DistanceMetric) (distance : List F32 → D) (base : Nat → Nat → List (Neighbor D))
    (k efSearch : Nat) : Option (List (Match D)) :=
  if k = 0 then some []
  else do
    let (kBase, efBase) ← s.askBase k efSearch
    let hits := (base kBase efBase).filterMap fun n =>
      if n.id ∈ s.tombstones then none else some (reportMetric metric n.distance, n.id)
    let recent := s.upserts.zipIdx.filterMap fun (point, j) =>
      if s.ids.length + j ∈ s.tombstones then none else some (distance point.2, s.ids.length + j)
    let cands := ((hits ++ recent).insertionSort fun a b => a.1 ≤ b.1).take k
    return cands.filterMap fun (ordering, internal) =>
      (s.exts[internal]?).map fun ext => ⟨ext, reportMetric metric ordering⟩

end

def baseSlots (s : Snapshot) : List Slot :=
  s.ids.zipIdx.filterMap fun (ext, i) => (s.base.live i).map fun v => ⟨i, ext, v⟩

def overlaySlots (s : Snapshot) : List Slot :=
  s.upserts.zipIdx.map fun (point, j) => ⟨s.ids.length + j, point.1, point.2⟩

def alive (s : Snapshot) (slot : Slot) : Bool := decide (slot.id ∉ s.tombstones)

def liveSlots (s : Snapshot) : List Slot := s.baseSlots.filter s.alive ++ s.overlaySlots.filter s.alive

theorem exts_of_baseSlots {s : Snapshot} {e : Slot} (inside : e ∈ s.baseSlots) :
    e.id < s.ids.length ∧ s.exts[e.id]? = some e.ext := by
  rw [baseSlots, List.mem_filterMap] at inside
  obtain ⟨⟨ext, i⟩, member, isSlot⟩ := inside
  obtain ⟨v, _, rfl⟩ := Option.map_eq_some_iff.mp isSlot
  have here := List.mk_mem_zipIdx_iff_getElem?.mp member
  have bound := (List.getElem?_eq_some_iff.mp here).1
  exact ⟨bound, by rw [exts, List.getElem?_append_left bound, here]⟩

theorem exts_of_overlaySlots {s : Snapshot} {e : Slot} (inside : e ∈ s.overlaySlots) : s.exts[e.id]? = some e.ext := by
  rw [overlaySlots, List.mem_map] at inside
  obtain ⟨⟨point, j⟩, member, rfl⟩ := inside
  have here := List.mk_mem_zipIdx_iff_getElem?.mp member
  rw [exts, List.getElem?_append_right (Nat.le_add_right ..), Nat.add_sub_cancel_left, List.getElem?_map, here]
  rfl

section

variable {D : Type} [LinearOrder D] [InvolutiveNeg D]
variable {s : Snapshot} {metric : DistanceMetric} {distance : List F32 → D} {base : Nat → Nat → List (Neighbor D)}

theorem search_eq {k efSearch kBase efBase : Nat} (some : k ≠ 0) (asked : s.askBase k efSearch = .some (kBase, efBase))
    {found : List Slot} (inside : ∀ e ∈ found, e ∈ s.baseSlots)
    (hits : base kBase efBase = found.map fun e => ⟨e.id, reportMetric metric (distance e.vector)⟩) :
    s.search metric distance base k efSearch = .some
      (((Nearest.sorted (fun e => distance e.vector) (found.filter s.alive ++ s.overlaySlots.filter s.alive)).take k).map
        fun e => ⟨e.ext, reportMetric metric (distance e.vector)⟩) := by
  have isHits : ((base kBase efBase).filterMap fun n =>
      if n.id ∈ s.tombstones then none else Option.some (reportMetric metric n.distance, n.id)) =
      (found.filter s.alive).map fun e => (distance e.vector, e.id) := by
    rw [hits, List.filterMap_map, ← List.filterMap_eq_filter, List.map_filterMap]
    refine List.filterMap_congr fun e _ => ?_
    by_cases dead : e.id ∈ s.tombstones <;> simp [alive, dead, Option.guard, reportMetric_reportMetric]
  have isRecent : (s.upserts.zipIdx.filterMap fun (point, j) =>
      if s.ids.length + j ∈ s.tombstones then none else Option.some (distance point.2, s.ids.length + j)) =
      (s.overlaySlots.filter s.alive).map fun e => (distance e.vector, e.id) := by
    rw [overlaySlots, ← List.filterMap_eq_filter, List.filterMap_map, List.map_filterMap]
    refine List.filterMap_congr fun p _ => ?_
    obtain ⟨point, j⟩ := p
    by_cases dead : s.ids.length + j ∈ s.tombstones <;> simp [alive, dead, Option.guard]
  rw [search, if_neg some, asked]
  simp only [Option.bind_eq_bind, Option.bind_some, isHits, isRecent, ← List.map_append]
  rw [← List.map_insertionSort (fun a b => distance a.vector ≤ distance b.vector) _ _ _ fun _ _ _ _ => Iff.rfl]
  rw [← List.map_take, List.filterMap_map, ← List.filterMap_eq_map]
  refine congrArg Option.some (List.filterMap_congr fun e member => ?_)
  have live : e ∈ found.filter s.alive ++ s.overlaySlots.filter s.alive :=
    (Nearest.sorted_perm _ _).subset (List.mem_of_mem_take member)
  have isExt : s.exts[e.id]? = .some e.ext := by
    obtain hit | recent := List.mem_append.mp live
    · exact (exts_of_baseSlots (inside e (List.mem_of_mem_filter hit))).2
    · exact exts_of_overlaySlots (List.mem_of_mem_filter recent)
  simp only [Function.comp_apply, isExt, Option.map_some]

/-- How many entries of the base a search for `k` looks at: `k` scaled by the share of them that is live. -/
def depth (s : Snapshot) (k : Nat) : Nat :=
  if s.baseTombstones = 0 then k
  else
    let live := max (s.ids.length - s.baseTombstones) 1
    max k (min ((min (k * s.ids.length) (2 ^ 64 - 1) + live - 1) / live) s.ids.length)

/-- Every base entry among the `k` nearest live ones is one of those that the search looks at. -/
def Reaches (s : Snapshot) (distance : List F32 → D) (k : Nat) : Prop :=
  Nearest.Deep (fun e : Slot => distance e.vector) s.alive k (s.depth k) s.baseSlots s.liveSlots

/-- The answer is the nearest live points, as many as are wanted and there, in ascending order and each id once. -/
def Answered (s : Snapshot) (metric : DistanceMetric) (distance : List F32 → D) (k : Nat)
    (answer : Option (List (Match D))) : Prop :=
  ∃ found, Nearest (fun e : Slot => distance e.vector) k s.liveSlots found ∧
    answer = some (found.map fun e => ⟨e.ext, reportMetric metric (distance e.vector)⟩) ∧ (found.map Slot.ext).Nodup

end

end Snapshot

end Quiver.Embed
