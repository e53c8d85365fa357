import Mathlib.Data.Finset.Card
import Quiver.Base.Nearest
import Quiver.Cluster.Ranking

/-!
Scatter and gather. Each active shard answers with its nearest points; deduplicated by id and merged,
the answers are the nearest points of all shards, whichever of several copies a shard returned.
-/

namespace Quiver.Cluster

open Quiver.Core (F32)
open List (length_map mem_flatMap mem_map mem_toFinset)

variable {T : Type} {scoreOf : T → F32} {idOf : T → String} {items : List T} {seen : List String}

/-- Smaller keys rank first. -/
def rankKey (scoreOf : T → F32) (higher : Bool) (m : T) : Int :=
  if higher then -totalKey (scoreOf m) else totalKey (scoreOf m)

theorem mergeTopK_eq (perShard : List (List T)) (k : Nat) (higher : Bool) :
    mergeTopK scoreOf perShard k higher = (Nearest.sorted (rankKey scoreOf higher) perShard.flatten).take k := by
  have same : (fun a b => ranks scoreOf higher a b = true) = fun a b : T =>
      rankKey scoreOf higher a ≤ rankKey scoreOf higher b := by
    funext a b
    cases higher <;> simp [ranks, rankKey]
  unfold mergeTopK Nearest.sorted
  congr 1
  simp only [same]

theorem mem_of_dedupById {m : T} (inside : m ∈ dedupById idOf items seen) : m ∈ items := by
  fun_induction dedupById idOf items seen with
  | case1 => contradiction
  | case2 a rest seen _ ih => exact List.mem_cons_of_mem a (ih inside)
  | case3 a rest seen _ ih =>
    obtain rfl | later := List.mem_cons.mp inside
    · exact List.mem_cons_self ..
    · exact List.mem_cons_of_mem a (ih later)

theorem mem_ids_dedupById {id : String} :
    id ∈ (dedupById idOf items seen).map idOf ↔ id ∈ items.map idOf ∧ id ∉ seen := by
  fun_induction dedupById idOf items seen with
  | case1 => simp
  | case2 a rest seen old ih => grind
  | case3 a rest seen fresh ih => grind

theorem nodup_dedupById : ((dedupById idOf items seen).map idOf).Nodup := by
  fun_induction dedupById idOf items seen with
  | case1 => exact .nil
  | case2 a rest seen old ih => exact ih
  | case3 a rest seen fresh ih =>
    exact List.nodup_cons.mpr ⟨fun again => (mem_ids_dedupById.mp again).2 (List.mem_cons_self ..), ih⟩

/-- If every shard answers with `k` of its points that rank first, ties broken in any way, and
copies of a point have one score, then the merged answers are distinct points, as many as asked for
or all there are, in order, and no point left out ranks before one of them. -/
theorem search_exact {shards : List (List T × List T)} {k : Nat} {higher : Bool}
    (answered : ∀ s ∈ shards, Nearest (rankKey scoreOf higher) k s.1 s.2)
    (distinct : ∀ s ∈ shards, (s.1.map idOf).Nodup)
    (copies : ∀ a ∈ shards.flatMap (·.1), ∀ b ∈ shards.flatMap (·.1), idOf a = idOf b → scoreOf a = scoreOf b) :
    let found := mergeTopK scoreOf [dedupById idOf (shards.map (·.2)).flatten []] k higher
    (found.map idOf).Nodup ∧ (∀ a ∈ found, a ∈ shards.flatMap (·.1)) ∧
      found.length = min k ((shards.flatMap (·.1)).map idOf).toFinset.card ∧
      (found.Pairwise fun a b => rankKey scoreOf higher a ≤ rankKey scoreOf higher b) ∧
      ∀ b ∈ shards.flatMap (·.1), idOf b ∉ found.map idOf →
        ∀ a ∈ found, rankKey scoreOf higher a ≤ rankKey scoreOf higher b := by
  have ids : ∀ id, id ∈ (dedupById idOf (shards.map (·.2)).flatten []).map idOf ↔ _ := fun _ => mem_ids_dedupById
  have nodup : ((dedupById idOf (shards.map (·.2)).flatten []).map idOf).Nodup := nodup_dedupById
  have inside : ∀ m ∈ dedupById idOf (shards.map (·.2)).flatten [], _ := fun _ => mem_of_dedupById
  rw [mergeTopK_eq]
  simp only [List.flatten_cons, List.flatten_nil, List.append_nil]
  generalize dedupById idOf (shards.map (·.2)).flatten [] = gathered at ids nodup inside ⊢
  generalize isKey : rankKey scoreOf higher = key at answered ⊢
  have nearest := Nearest.take_sorted key k gathered
  have held : ∀ a ∈ gathered, a ∈ shards.flatMap (·.1) := by
    intro a isIn
    obtain ⟨_, isAnswer, member⟩ := List.mem_flatten.mp (inside a isIn)
    obtain ⟨s, isShard, rfl⟩ := mem_map.mp isAnswer
    exact mem_flatMap.mpr ⟨s, isShard, (answered s isShard).subset a member⟩
  have same : ∀ a ∈ gathered, ∀ b ∈ shards.flatMap (·.1), idOf a = idOf b → key a = key b := by
    intro a isIn b isPoint isId
    simp only [← isKey, rankKey, copies a (held a isIn) b isPoint isId]
  -- A point that no shard returned has `k` gathered ones before it.
  have missed : ∀ b ∈ shards.flatMap (·.1), idOf b ∉ gathered.map idOf →
      k ≤ gathered.countP fun a => decide (key a ≤ key b) := by
    intro b isPoint absent
    obtain ⟨s, isShard, member⟩ := mem_flatMap.mp isPoint
    have returned : ∀ a ∈ s.2, idOf a ∈ gathered.map idOf := fun a isIn => (ids _).mpr
      ⟨List.mem_map_of_mem (List.mem_flatten.mpr ⟨s.2, List.mem_map_of_mem isShard, isIn⟩), List.not_mem_nil⟩
    obtain ⟨full, before⟩ := (answered s isShard).missed member fun isIn => absent (returned b isIn)
    have sub : s.2.map idOf ⊆ (gathered.filter fun a => decide (key a ≤ key b)).map idOf := by
      intro id isId
      obtain ⟨a, isIn, rfl⟩ := mem_map.mp isId
      obtain ⟨a', isGathered, isId⟩ := mem_map.mp (returned a isIn)
      have isPoint := mem_flatMap.mpr ⟨s, isShard, (answered s isShard).subset a isIn⟩
      refine mem_map.mpr ⟨a', List.mem_filter.mpr ⟨isGathered, decide_eq_true ?_⟩, isId⟩
      exact same a' isGathered a isPoint isId ▸ before a isIn
    have counted := (((answered s isShard).nodup (distinct s isShard)).subperm sub).length_le
    rwa [length_map, length_map, full, ← List.countP_eq_length_filter] at counted
  refine ⟨nearest.nodup nodup, fun a isIn => held a (nearest.subset a isIn), ?_, nearest.ascending,
    fun b isPoint out a isIn => ?_⟩
  · have sub : (gathered.map idOf).toFinset ⊆ ((shards.flatMap (·.1)).map idOf).toFinset := by
      intro id isId
      obtain ⟨a, isIn, rfl⟩ := mem_map.mp (mem_toFinset.mp isId)
      exact mem_toFinset.mpr (List.mem_map_of_mem (held a isIn))
    have card : (gathered.map idOf).toFinset.card = gathered.length := by
      rw [List.toFinset_card_of_nodup nodup, length_map]
    have fewer := Finset.card_le_card sub
    rw [nearest.length, ← card]
    by_cases all : ((shards.flatMap (·.1)).map idOf).toFinset ⊆ (gathered.map idOf).toFinset
    · rw [sub.antisymm all]
    · obtain ⟨id, isId, absent⟩ := Finset.not_subset.mp all
      obtain ⟨b, isPoint, rfl⟩ := mem_map.mp (mem_toFinset.mp isId)
      have enough := (missed b isPoint fun isIn => absent (mem_toFinset.mpr isIn)).trans List.countP_le_length
      omega
  · by_cases isGathered : idOf b ∈ gathered.map idOf
    · obtain ⟨b', isIn', isId⟩ := mem_map.mp isGathered
      rw [← same b' isIn' b isPoint isId]
      exact (nearest.missed isIn' fun isFound => out (mem_map.mpr ⟨b', isFound, isId⟩)).2 a isIn
    · exact nearest.within (missed b isPoint isGathered) a isIn

/-- Two shards hold a copy of the same point, and each has points of its own. -/
theorem search_exact_copies :
    let shards : List (List (String × F32) × List (String × F32)) :=
      [([("a", 0), ("b", 2), ("c", 3)], [("a", 0), ("b", 2)]), ([("b", 2), ("d", 1)], [("d", 1), ("b", 2)])]
    (mergeTopK Prod.snd [dedupById Prod.fst (shards.map (·.2)).flatten []] 2 false).length = 2 := by
  intro shards
  have nearest : ∀ s ∈ shards, Nearest (rankKey Prod.snd false) 2 s.1 s.2 := by
    intro s isShard
    obtain rfl | rfl : s = _ ∨ s = _ := by simpa [shards] using isShard
    · exact ⟨rfl, by decide +kernel, [("c", 3)], by decide +kernel, by decide +kernel⟩
    · exact ⟨rfl, by decide +kernel, [], by decide +kernel, by decide +kernel⟩
  exact (@search_exact _ Prod.snd Prod.fst _ _ _ nearest (by simp [shards]) (by decide +kernel)).2.2.1.trans (by decide +kernel)

end Quiver.Cluster
