import Quiver.Base.Lists
import Quiver.Embed.Documents

/-!
The snapshot of a collection that lock-free readers load, against the collection's rows. Each
internal id is a slot; a slot is live when it is the last one of its external id and that row
exists. Writes to the overlay keep this, and a rebuild establishes it.
-/

namespace Quiver.Embed

open Quiver.Core Lists Maps
open Std (ExtTreeMap)
open Option (bind_eq_some_iff map_eq_some_iff)

namespace IdMap

variable {m : IdMap} {ext other : String} {i : Nat}

theorem getElem?_of_internal (found : m.internal ext = some i) : m.ids[i]? = some ext := by
  obtain ⟨k, isFirst, rfl⟩ := map_eq_some_iff.mp found
  obtain ⟨inside, isExt, _⟩ := List.idxOf?_eq_some_iff.mp isFirst
  rw [List.length_reverse] at inside
  rw [← List.getElem?_reverse inside, List.getElem?_eq_getElem (by rw [List.length_reverse]; exact inside), isExt]

theorem internal_push_self (m : IdMap) (ext : String) : (m.push ext).internal ext = some m.ids.length := by
  simp [internal, push, List.idxOf?_cons]

theorem internal_push_of_ne (m : IdMap) (differ : other ≠ ext) : (m.push ext).internal other = m.internal other := by
  simp only [internal, push, List.reverse_append, List.reverse_singleton, List.singleton_append, List.idxOf?_cons,
    beq_iff_eq, if_neg (Ne.symm differ), List.length_append, List.length_singleton, Option.map_map]
  congr 1
  funext k
  simp only [Function.comp_apply]
  omega

theorem internal_isSome (inside : ext ∈ m.ids) : ∃ i, m.internal ext = some i := by
  obtain ⟨k, isFirst⟩ := Option.isSome_iff_exists.mp (List.isSome_idxOf?.mpr (List.mem_reverse.mpr inside))
  exact ⟨_, by rw [internal, isFirst]; rfl⟩

theorem internal_of_nodup (nodup : m.ids.Nodup) (inside : m.ids[i]? = some ext) : m.internal ext = some i := by
  obtain ⟨j, found⟩ := internal_isSome (List.mem_of_getElem? inside)
  have there := getElem?_of_internal found
  obtain ⟨bound, isExt⟩ := List.getElem?_eq_some_iff.mp inside
  obtain ⟨bound', isExt'⟩ := List.getElem?_eq_some_iff.mp there
  have same : j = i := nodup.getElem_inj_iff.mp (isExt'.trans isExt.symm)
  rw [found, same]

end IdMap

namespace Snapshot

def slot (s : Snapshot) (i : Nat) : Option (List F32) :=
  if i ∈ s.tombstones then none
  else if i < s.ids.length then s.base.live i
  else (s.upserts[i - s.ids.length]?).map Prod.snd

def exts (s : Snapshot) : List String := s.ids ++ s.upserts.map Prod.fst

/-- The live slots are the rows. -/
structure Serves (s : Snapshot) (m : IdMap) (rows : ExtTreeMap String Record) : Prop where
  ids : m.ids = s.exts
  bounded : ∀ i ∈ s.tombstones, i < m.ids.length
  covers : ∀ ext ∈ rows, ext ∈ m.ids
  live : ∀ {i : Nat} {ext : String}, m.ids[i]? = some ext →
    s.slot i = if m.internal ext = some i then (rows[ext]?).map Record.vector else none

variable {s : Snapshot} {m : IdMap} {rows : ExtTreeMap String Record}

theorem points_eq (s : Snapshot) : s.points =
    (List.range s.exts.length).filterMap fun i => (s.exts[i]?).bind fun ext => (s.slot i).map fun v => (ext, v) := by
  have length : s.exts.length = s.ids.length + s.upserts.length := by simp [exts]
  rw [length, List.range_add, List.filterMap_append, List.filterMap_map, points, filterMap_zipIdx, filterMap_zipIdx]
  congr 1
  · refine List.filterMap_congr fun i inside => ?_
    have bound := List.mem_range.mp inside
    simp only [exts, slot, List.getElem?_append_left bound, bound, if_true]
    cases s.ids[i]? with
    | none => rfl
    | some ext => by_cases dead : i ∈ s.tombstones <;> simp [dead]
  · refine List.filterMap_congr fun j inside => ?_
    have bound := List.mem_range.mp inside
    have past : ¬s.ids.length + j < s.ids.length := by omega
    simp only [exts, slot, Function.comp_apply, List.getElem?_append_right (Nat.le_add_right ..), Nat.add_sub_cancel_left,
      List.getElem?_map, past, if_false]
    cases s.upserts[j]? with
    | none => rfl
    | some point => by_cases dead : s.ids.length + j ∈ s.tombstones <;> simp [dead]

theorem mem_points {p : String × List F32} :
    p ∈ s.points ↔ ∃ i, s.exts[i]? = some p.1 ∧ s.slot i = some p.2 := by
  rw [points_eq, List.mem_filterMap]
  constructor
  · rintro ⟨i, _, found⟩
    obtain ⟨ext, isExt, found⟩ := bind_eq_some_iff.mp found
    obtain ⟨v, isLive, rfl⟩ := map_eq_some_iff.mp found
    exact ⟨i, isExt, isLive⟩
  · rintro ⟨i, isExt, isLive⟩
    refine ⟨i, List.mem_range.mpr (List.getElem?_eq_some_iff.mp isExt).1, ?_⟩
    rw [isExt, isLive]
    rfl

namespace Serves

theorem of_slot (serves : s.Serves m rows) {i : Nat} {ext : String} {v : List F32} (isExt : s.exts[i]? = some ext)
    (isLive : s.slot i = some v) : m.internal ext = some i ∧ ∃ row, rows[ext]? = some row ∧ row.vector = v := by
  have live := serves.live (serves.ids ▸ isExt)
  rw [isLive] at live
  split at live
  · rename_i isLast
    exact ⟨isLast, map_eq_some_iff.mp live.symm⟩
  · cases live

theorem points (serves : s.Serves m rows) : s.points.Perm (rows.toList.map fun row => (row.1, row.2.vector)) := by
  have once : s.points.Nodup := by
    rw [points_eq]
    refine List.Nodup.filterMap (fun i j p here there => ?_) List.nodup_range
    obtain ⟨ext, isExt, found⟩ := bind_eq_some_iff.mp here
    obtain ⟨v, isLive, rfl⟩ := map_eq_some_iff.mp found
    obtain ⟨ext', isExt', found'⟩ := bind_eq_some_iff.mp there
    obtain ⟨v', isLive', same⟩ := map_eq_some_iff.mp found'
    cases same
    exact Option.some.inj ((serves.of_slot isExt isLive).1.symm.trans (serves.of_slot isExt' isLive').1)
  have keys : (rows.toList.map fun row => (row.1, row.2.vector)).Nodup := by
    refine List.Nodup.of_map Prod.fst ?_
    rw [List.map_map]
    exact nodup_fst rows
  refine (List.perm_ext_iff_of_nodup once keys).mpr fun p => ?_
  rw [mem_points, List.mem_map]
  constructor
  · rintro ⟨i, isExt, isLive⟩
    obtain ⟨_, row, held, isVector⟩ := serves.of_slot isExt isLive
    exact ⟨(p.1, row), ExtTreeMap.mem_toList_iff_getElem?_eq_some.mpr held, by rw [isVector]⟩
  · rintro ⟨⟨ext, row⟩, member, rfl⟩
    have held := ExtTreeMap.mem_toList_iff_getElem?_eq_some.mp member
    obtain ⟨i, isLast⟩ := IdMap.internal_isSome
      (serves.covers ext (mem_of_get held))
    have isExt := IdMap.getElem?_of_internal isLast
    refine ⟨i, serves.ids ▸ isExt, ?_⟩
    rw [serves.live isExt, if_pos isLast, held]
    rfl

theorem empty : Serves {} {} ∅ :=
  ⟨rfl, (fun i dead => nomatch dead), fun ext inside => by simp at inside, fun inside => by simp at inside⟩

theorem delete (serves : s.Serves m rows) (ext : String) :
    Serves (match m.internal ext with
      | none => s
      | some i => { s with tombstones := i :: s.tombstones }) m (rows.erase ext) := by
  have covers : ∀ other ∈ rows.erase ext, other ∈ m.ids := fun other inside =>
    serves.covers other (ExtTreeMap.mem_of_mem_erase inside)
  split
  · rename_i unknown
    refine ⟨serves.ids, serves.bounded, covers, fun {i other} inside => ?_⟩
    rw [serves.live inside, get_erase]
    split
    · rename_i isLast
      rw [if_neg fun same => by rw [← same, unknown] at isLast; cases isLast]
    · rfl
  · rename_i last isLast
    have slots : ∀ i, Snapshot.slot { s with tombstones := last :: s.tombstones } i =
        if i = last then none else s.slot i := by
      intro i
      by_cases same : i = last <;> simp [Snapshot.slot, same]
    refine ⟨serves.ids, ?_, covers, fun {i other} inside => ?_⟩
    · exact List.forall_mem_cons.mpr
        ⟨(List.getElem?_eq_some_iff.mp (IdMap.getElem?_of_internal isLast)).1, serves.bounded⟩
    · rw [slots, get_erase]
      by_cases same : i = last
      · subst same
        have isExt : ext = other := Option.some.inj ((IdMap.getElem?_of_internal isLast).symm.trans inside)
        rw [if_pos rfl, if_pos isExt]
        split <;> rfl
      · rw [if_neg same, serves.live inside]
        split
        · rename_i isLast'
          rw [if_neg fun isExt => same (by rw [← isExt, isLast] at isLast'; exact (Option.some.inj isLast').symm)]
        · rfl

theorem push (serves : s.Serves m rows) (ext : String) (row : Record) :
    Serves { s with
      upserts := s.upserts ++ [(ext, row.vector)]
      tombstones := match m.internal ext with
        | some old => old :: s.tombstones
        | none => s.tombstones } (m.push ext) (rows.insert ext row) := by
  have length : m.ids.length = s.ids.length + s.upserts.length := by rw [serves.ids]; simp [exts]
  have deleted := serves.delete ext
  have bounded : ∀ i ∈ (match m.internal ext with
      | some old => old :: s.tombstones
      | none => s.tombstones), i < m.ids.length := by
    intro i dead
    split at dead
    · rename_i old isLast
      obtain rfl | dead := List.mem_cons.mp dead
      · exact (List.getElem?_eq_some_iff.mp (IdMap.getElem?_of_internal isLast)).1
      · exact serves.bounded i dead
    · exact serves.bounded i dead
  refine ⟨?_, ?_, ?_, fun {i other} inside => ?_⟩
  · change m.ids ++ [ext] = s.ids ++ (s.upserts ++ [(ext, row.vector)]).map Prod.fst
    rw [serves.ids, exts]
    simp
  · intro i dead
    exact Nat.lt_of_lt_of_le (bounded i dead) (by simp [IdMap.push])
  · intro other inside
    change other ∈ m.ids ++ [ext]
    rw [ExtTreeMap.mem_insert, compare_eq_iff_eq] at inside
    obtain rfl | inside := inside
    · simp
    · exact List.mem_append_left _ (serves.covers other inside)
  · change (m.ids ++ [ext])[i]? = some other at inside
    have bound : i < m.ids.length ∨ i = m.ids.length := by
      have := (List.getElem?_eq_some_iff.mp inside).1
      simp only [List.length_append, List.length_singleton] at this
      omega
    obtain old | rfl := bound
    · rw [List.getElem?_append_left old] at inside
      -- A slot that was there is as after a delete of the id.
      have sameSlot : Snapshot.slot { s with
            upserts := s.upserts ++ [(ext, row.vector)]
            tombstones := match m.internal ext with
              | some old => old :: s.tombstones
              | none => s.tombstones } i =
          Snapshot.slot (match m.internal ext with
            | none => s
            | some i => { s with tombstones := i :: s.tombstones }) i := by
        have upserts : ¬i < s.ids.length → (s.upserts ++ [(ext, row.vector)])[i - s.ids.length]? =
            s.upserts[i - s.ids.length]? := fun past => List.getElem?_append_left (by omega)
        cases m.internal ext <;> simp only [Snapshot.slot] <;> split <;> try rfl
        all_goals
          split
          · rfl
          · rename_i past
            rw [upserts past]
      rw [sameSlot, deleted.live inside, get_insert]
      simp only [get_erase]
      by_cases same : ext = other
      · subst same
        have past : some m.ids.length ≠ some i := fun isLast => Nat.lt_irrefl i (Option.some.inj isLast ▸ old)
        rw [IdMap.internal_push_self, if_neg past]
        simp only [if_true, Option.map_none, ite_self]
      · rw [IdMap.internal_push_of_ne m (Ne.symm same), if_neg same, if_neg same]
    · have isExt : other = ext := by simpa using inside.symm
      subst isExt
      rw [IdMap.internal_push_self, if_pos rfl, get_insert, if_pos rfl, Snapshot.slot,
        if_neg fun dead => Nat.lt_irrefl _ (bounded _ dead), if_neg (by simp only; omega)]
      simp [length]

end Serves

end Snapshot

section Handles

variable {cfg : Setting} {h : CollectionHandle} {rows : ExtTreeMap String Record}

open CollectionHandle in
theorem Snapshot.Serves.overlayPush {s : Snapshot} {m : IdMap} (serves : s.Serves m rows) (points : List PointIn) :
    (overlayPush s m (points.map fun p => (p.id, p.vector))).1.Serves
      (overlayPush s m (points.map fun p => (p.id, p.vector))).2 (insertPoints rows points) := by
  induction points generalizing s m rows with
  | nil => exact serves
  | cons p points ih => exact ih (serves.push p.id ⟨p.vector, p.payload⟩)

theorem nodes_build_live (vectors : List (List F32)) (i : Nat) : (Nodes.build vectors).live i = vectors[i]? := by
  simp only [Nodes.live, Nodes.build, List.not_mem_nil, if_false]
  refine Option.ext fun v => ?_
  have distinct : (vectors.zipIdx.map Prod.snd).Nodup := by
    rw [List.zipIdx_map_snd]
    exact List.nodup_range'
  have filled := get_foldl_insert (m := (∅ : ExtTreeMap Nat (List F32))) (b := i) (w := v) (k := Prod.snd)
    (f := Prod.fst) distinct
  exact filled.trans (by simp [List.mem_zipIdx_iff_getElem?])

theorem builtIndex_live {descriptor : Descriptor} (eligible : mvccEligible descriptor = true) (vectors : List (List F32))
    (i : Nat) : (builtIndex descriptor vectors).live i = vectors[i]? := by
  simp only [mvccEligible, Bool.and_eq_true, decide_eq_true_eq] at eligible
  unfold builtIndex
  rw [if_neg eligible.1.2]
  rw [← nodes_build_live vectors i]
  dsimp only
  split <;> rfl

theorem serves_scan (cfg : Setting) {descriptor : Descriptor} (eligible : mvccEligible descriptor = true)
    (rows : ExtTreeMap String Record) :
    Snapshot.Serves { base := builtIndex descriptor (scanCollection cfg descriptor rows).vectors
                      ids := (scanCollection cfg descriptor rows).intToExt }
      ⟨(scanCollection cfg descriptor rows).intToExt⟩ rows := by
  have keys : (scanCollection cfg descriptor rows).intToExt = rows.toList.map Prod.fst :=
    ExtTreeMap.map_fst_toList_eq_keys.symm
  have once : (rows.toList.map Prod.fst).Nodup := nodup_fst rows
  refine ⟨by simp [Snapshot.exts], (fun i dead => nomatch dead), fun ext inside => ?_, fun {i ext} inside => ?_⟩
  · exact ExtTreeMap.mem_keys.mpr inside
  · have isLast : IdMap.internal ⟨(scanCollection cfg descriptor rows).intToExt⟩ ext = some i :=
      IdMap.internal_of_nodup (by rw [keys]; exact once) inside
    have bound := (List.getElem?_eq_some_iff.mp inside).1
    rw [if_pos isLast]
    simp only [keys, List.getElem?_map, map_eq_some_iff] at inside
    obtain ⟨⟨ext', row⟩, here, rfl⟩ := inside
    have held := ExtTreeMap.mem_toList_iff_getElem?_eq_some.mp (List.mem_of_getElem? here)
    simp only [Snapshot.slot, List.not_mem_nil, if_false, bound, if_true, builtIndex_live eligible, held, Option.map_some]
    simp [scanCollection, here]

theorem foldl_sparse (cfg : Setting) (points : List PointIn) (h : CollectionHandle) :
    (points.foldl (fun h p => h.sparseUpsertPoint cfg p.id p.payload) h).snapshot = h.snapshot ∧
      (points.foldl (fun h p => h.sparseUpsertPoint cfg p.id p.payload) h).idmap = h.idmap ∧
      (points.foldl (fun h p => h.sparseUpsertPoint cfg p.id p.payload) h).stale = h.stale := by
  induction points generalizing h with
  | nil => exact ⟨rfl, rfl, rfl⟩
  | cons p points ih =>
    have kept : (h.sparseUpsertPoint cfg p.id p.payload).snapshot = h.snapshot ∧
        (h.sparseUpsertPoint cfg p.id p.payload).idmap = h.idmap ∧
        (h.sparseUpsertPoint cfg p.id p.payload).stale = h.stale := by
      unfold CollectionHandle.sparseUpsertPoint
      split
      · exact ⟨rfl, rfl, rfl⟩
      · exact ⟨rfl, rfl, rfl⟩
    obtain ⟨snapshot, idmap, stale⟩ := ih (h.sparseUpsertPoint cfg p.id p.payload)
    exact ⟨snapshot.trans kept.1, idmap.trans kept.2.1, stale.trans kept.2.2⟩

theorem indexBatch_serves (served : h.mvccServed = true) (points : List PointIn)
    (serves : h.stale = false → h.snapshot.Serves h.idmap rows)
    (fresh : (Database.indexBatch cfg h points).stale = false) :
    (Database.indexBatch cfg h points).snapshot.Serves (Database.indexBatch cfg h points).idmap
      (insertPoints rows points) := by
  unfold Database.indexBatch at fresh ⊢
  simp only [served, if_true] at fresh ⊢
  obtain ⟨snapshot, idmap, stale⟩ := foldl_sparse cfg points
    (h.overlayUpsertBatch (points.map fun p => (p.id, p.vector)))
  rw [stale] at fresh
  rw [snapshot, idmap]
  have wasFresh : h.stale = false := (Bool.or_eq_false_iff.mp fresh).1
  exact (serves wasFresh).overlayPush points

theorem overlayDelete_serves (ext : String) (serves : h.stale = false → h.snapshot.Serves h.idmap rows)
    (fresh : h.stale = false) :
    (h.overlayDelete ext).snapshot.Serves (h.overlayDelete ext).idmap (rows.erase ext) := by
  have deleted := (serves fresh).delete ext
  unfold CollectionHandle.overlayDelete
  split
  · rename_i unknown
    rw [unknown] at deleted
    exact deleted
  · rename_i last isLast
    rw [isLast] at deleted
    exact deleted

theorem overlayDelete_stale (ext : String) : (h.overlayDelete ext).stale = h.stale := by
  unfold CollectionHandle.overlayDelete
  split <;> rfl

theorem indexDeletePoint_served (served : h.mvccServed = true) (ext : String) :
    h.indexDeletePoint ext = h.overlayDelete ext := by simp [CollectionHandle.indexDeletePoint, served]

end Handles

end Quiver.Embed
