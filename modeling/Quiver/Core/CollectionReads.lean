import Quiver.Base.Nearest
import Quiver.Core.CollectionProofs

/-!
Whole-collection reads: every live id once, in ascending order, with the record the
represented map holds, and the row count that is derived without reading any id.
-/

namespace Quiver.Core

open Results
open Std (ExtTreeMap)
open List (mem_map)

theorem eq_of_ascending {α : Type} {first second : List (String × α)}
    (ascending₁ : first.Pairwise fun a b => a.1 < b.1)
    (ascending₂ : second.Pairwise fun a b => a.1 < b.1)
    (members : ∀ p, p ∈ first ↔ p ∈ second) : first = second := by
  have nodup : ∀ {l : List (String × α)}, l.Pairwise (fun a b => a.1 < b.1) → l.Nodup := by
    intro l ascending
    refine ascending.imp fun {a b} less same => ?_
    subst same
    exact lt_irrefl _ less
  have perm := (List.perm_ext_iff_of_nodup (nodup ascending₁) (nodup ascending₂)).mpr members
  exact perm.eq_of_pairwise (fun a b _ _ less more => absurd less (lt_asymm more)) ascending₁ ascending₂

theorem toList_ascending {α : Type} (m : ExtTreeMap String α) :
    m.toList.Pairwise fun a b => a.1 < b.1 := by
  refine (ExtTreeMap.ordered_keys_toList (t := m)).imp ?_
  intro a b ordered
  exact compare_lt_iff_lt.mp ordered

namespace CollectionState

variable {c : CollectionState} {rows : List (List SealRow)}

/-- The live locations of one segment, without the reads. -/
def segmentLocs (c : CollectionState) (rows : List (List SealRow)) (segIdx count : Nat) :
    List (String × Loc) :=
  ((List.range count).filter fun row => !c.sealedDead segIdx row).map fun row =>
    (((cell rows segIdx row).map (·.externalId)).getD "", .sealed segIdx row)

def activeLocs (c : CollectionState) : List (String × Loc) :=
  c.activeIndex.toList.map fun (id, row) => (id, Loc.active row)

def sealedLocs (c : CollectionState) (rows : List (List SealRow)) : List (String × Loc) :=
  (c.sealed.zipIdx.map fun (seg, segIdx) => c.segmentLocs rows segIdx seg.rowCount).flatten

def sortedLocs (c : CollectionState) (rows : List (List SealRow)) : List (String × Loc) :=
  Nearest.sorted Prod.fst (c.activeLocs ++ c.sealedLocs rows)

theorem mem_sortedLocs {p : String × Loc} : p ∈ c.sortedLocs rows ↔ p ∈ c.activeLocs ++ c.sealedLocs rows :=
  (Nearest.sorted_perm ..).mem_iff

def recordOf (c : CollectionState) (rows : List (List SealRow)) : Loc → Record
  | .active row => ((c.active[row]?).map ActiveRow.record).getD ⟨[], []⟩
  | .sealed seg row => ((cell rows seg row).map SealRow.record).getD ⟨[], []⟩

variable {id : String} {m : ExtTreeMap String Record} {loc : Loc}

theorem mem_activeLocs :
    (id, loc) ∈ c.activeLocs ↔ ∃ row, loc = .active row ∧ c.activeIndex[id]? = some row := by
  simp only [activeLocs, mem_map, Prod.exists, Prod.mk.injEq,
    ExtTreeMap.mem_toList_iff_getElem?_eq_some]
  constructor
  · rintro ⟨_, row, found, rfl, rfl⟩
    exact ⟨row, rfl, found⟩
  · rintro ⟨row, rfl, found⟩
    exact ⟨id, row, found, rfl, rfl⟩

theorem segmentLocs_nodup (segIdx count : Nat) : (c.segmentLocs rows segIdx count).Nodup := by
  refine List.Nodup.map_on ?_ (List.nodup_range.filter _)
  intro a _ b _ same
  simpa using congrArg Prod.snd same

theorem sealedLocs_nodup : (c.sealedLocs rows).Nodup := by
  rw [sealedLocs, List.nodup_flatten]
  constructor
  · intro l member
    obtain ⟨⟨seg, segIdx⟩, _, rfl⟩ := mem_map.mp member
    exact segmentLocs_nodup segIdx seg.rowCount
  · rw [List.pairwise_map]
    refine (List.pairwise_iff_getElem.mpr ?_)
    intro i j boundI boundJ before
    simp only [List.getElem_zipIdx, segmentLocs]
    intro p inFirst inSecond
    obtain ⟨row, _, rfl⟩ := mem_map.mp inFirst
    obtain ⟨row', _, same⟩ := mem_map.mp inSecond
    have := congrArg Prod.snd same
    simp only [Loc.sealed.injEq] at this
    omega

theorem activeLocs_nodup : c.activeLocs.Nodup := by
  refine List.Nodup.map_on ?_ ?_
  · rintro ⟨id, row⟩ _ ⟨id', row'⟩ _ same
    simpa using same
  · exact (ExtTreeMap.distinct_keys_toList (t := c.activeIndex)).imp fun {a b} differ same => by
      subst same
      exact differ (compare_eq_iff_eq.mpr rfl)

section

variable (inv : c.Inv rows)
include inv

theorem Inv.cell_of_lt {segIdx row : Nat} {seg : SealedSegment}
    (found : c.sealed[segIdx]? = some seg) (bound : row < seg.rowCount) :
    ∃ r, cell rows segIdx row = some r ∧ seg.readId row = .ok r.externalId := by
  obtain ⟨ids, atSeg, holds⟩ := inv.rowsAt found
  rw [holds.rowCount] at bound
  have atRow := List.getElem?_eq_getElem bound
  exact ⟨ids[row], cell_eq_some.mpr ⟨ids, atSeg, atRow⟩, holds.readId atRow⟩

theorem Inv.segmentLiveLocs {segIdx : Nat} {seg : SealedSegment}
    (found : c.sealed[segIdx]? = some seg) :
    c.segmentLiveLocs seg segIdx = .ok (c.segmentLocs rows segIdx seg.rowCount) := by
  refine mapM_ok fun row member => ?_
  have bound : row < seg.rowCount := List.mem_range.mp (List.mem_of_mem_filter member)
  obtain ⟨r, stored, read⟩ := inv.cell_of_lt found bound
  simp only [read, ok_bind, pure_eq_ok, stored, Option.map_some, Option.getD_some]

theorem Inv.liveLocsSorted : c.liveLocsSorted = .ok (c.sortedLocs rows) := by
  have sealed : c.sealed.zipIdx.mapM (fun (seg, segIdx) => c.segmentLiveLocs seg segIdx) =
      .ok (c.sealed.zipIdx.map fun (seg, segIdx) => c.segmentLocs rows segIdx seg.rowCount) := by
    refine mapM_ok fun (seg, segIdx) member => ?_
    exact inv.segmentLiveLocs (List.mem_zipIdx_iff_getElem?.mp member)
  simp only [CollectionState.liveLocsSorted, sealed, ok_bind]
  rfl

theorem Inv.mem_sealedLocs :
    (id, loc) ∈ c.sealedLocs rows ↔
      ∃ seg row r, loc = .sealed seg row ∧ c.LiveAt rows seg row r ∧ r.externalId = id := by
  simp only [sealedLocs, List.mem_flatten, mem_map, Prod.exists, segmentLocs]
  constructor
  · rintro ⟨_, ⟨seg, segIdx, member, rfl⟩, inside⟩
    obtain ⟨row, kept, same⟩ := mem_map.mp inside
    rw [List.mem_filter, List.mem_range, Bool.not_eq_true'] at kept
    obtain ⟨r, stored, _⟩ := inv.cell_of_lt (List.mem_zipIdx_iff_getElem?.mp member) kept.1
    rw [stored, Option.map_some, Option.getD_some, Prod.mk.injEq] at same
    exact ⟨segIdx, row, r, same.2.symm, ⟨stored, kept.2⟩, same.1⟩
  · rintro ⟨segIdx, row, r, rfl, live, rfl⟩
    obtain ⟨ids, atSeg, atRow⟩ := cell_eq_some.mp live.stored
    obtain ⟨seg, found, holds⟩ := inv.heldAt atSeg
    refine ⟨_, ⟨seg, segIdx, List.mem_zipIdx_iff_getElem?.mpr found, rfl⟩, mem_map.mpr ⟨row, ?_, ?_⟩⟩
    · rw [List.mem_filter, List.mem_range, holds.rowCount, live.alive]
      exact ⟨(List.getElem?_eq_some_iff.mp atRow).1, rfl⟩
    · simp [live.stored]

theorem Inv.mem_liveLocs :
    (id, loc) ∈ c.activeLocs ++ c.sealedLocs rows ↔ c.Located rows id (some loc) := by
  rw [List.mem_append, mem_activeLocs, inv.mem_sealedLocs]
  constructor
  · rintro (⟨row, rfl, found⟩ | ⟨seg, row, r, rfl, live, isId⟩)
    · exact .active found
    · exact .sealed (isId ▸ inv.notActive live) live isId
  · intro located
    cases located with
    | active found => exact .inl ⟨_, rfl, found⟩
    | sealed _ live isId => exact .inr ⟨_, _, _, rfl, live, isId⟩

theorem Inv.located_unique {loc loc' : Loc}
    (located : c.Located rows id (some loc)) (located' : c.Located rows id (some loc')) :
    loc = loc' := by
  cases located with
  | active found =>
    cases located' with
    | active found' => rw [Option.some.inj (found.symm.trans found')]
    | sealed absent _ _ => simp [found] at absent
  | sealed absent live isId =>
    cases located' with
    | active found' => simp [absent] at found'
    | sealed _ live' isId' =>
      obtain ⟨rfl, rfl⟩ := inv.live_unique live live' (isId.trans isId'.symm)
      rfl

theorem Inv.liveLocs_nodup : (c.activeLocs ++ c.sealedLocs rows).Nodup := by
  rw [List.nodup_append]
  refine ⟨activeLocs_nodup, sealedLocs_nodup, ?_⟩
  rintro ⟨id, loc⟩ inActive ⟨id', loc'⟩ inSealed same
  obtain ⟨row, rfl, _⟩ := mem_activeLocs.mp inActive
  obtain ⟨seg, row', r, rfl, _⟩ := inv.mem_sealedLocs.mp inSealed
  simp at same

theorem Inv.sortedLocs_ascending : (c.sortedLocs rows).Pairwise fun a b => a.1 < b.1 := by
  have sorted := Nearest.sorted_ascending Prod.fst (c.activeLocs ++ c.sealedLocs rows)
  have nodup := ((Nearest.sorted_perm Prod.fst _).nodup_iff).mpr inv.liveLocs_nodup
  refine (sorted.and nodup).imp_of_mem ?_
  rintro ⟨id, loc⟩ ⟨id', loc'⟩ member member' ⟨below, differ⟩
  refine lt_of_le_of_ne below ?_
  rintro (rfl : id = id')
  rw [(Nearest.sorted_perm ..).mem_iff] at member member'
  exact differ (by rw [inv.located_unique (inv.mem_liveLocs.mp member) (inv.mem_liveLocs.mp member')])

theorem Inv.located_record
    (located : c.Located rows id (some loc)) :
    c.recordAt loc = .ok (c.recordOf rows loc) ∧
    c.payloadAt loc = .ok (c.recordOf rows loc).payload ∧
    c.Contains rows id (c.recordOf rows loc) := by
  cases located with
  | @active row found =>
    obtain ⟨a, atRow⟩ := inv.activeAt found
    have record : c.recordOf rows (.active row) = a.record := by simp [recordOf, atRow]
    rw [record]
    refine ⟨by simp [recordAt, atRow], by simp [payloadAt, atRow, ActiveRow.record],
      .active found atRow⟩
  | @sealed seg row r _ live isId =>
    have record : c.recordOf rows (.sealed seg row) = r.record := by simp [recordOf, live.stored]
    rw [record]
    exact ⟨inv.recordAt_sealed live.stored, inv.payloadAt_sealed live.stored, .sealed live isId⟩

theorem Inv.contains_located {record : Record}
    (contains : c.Contains rows id record) :
    ∃ loc, c.Located rows id (some loc) ∧ c.recordOf rows loc = record := by
  cases contains with
  | active found atRow => exact ⟨_, .active found, by simp [recordOf, atRow]⟩
  | sealed live isId =>
    exact ⟨_, .sealed (isId ▸ inv.notActive live) live isId, by simp [recordOf, live.stored]⟩

theorem Inv.mem_sortedRecords {record : Record} :
    (id, record) ∈ (c.sortedLocs rows).map (fun (id, loc) => (id, c.recordOf rows loc)) ↔ c.Contains rows id record := by
  simp only [mem_map, Prod.exists, Prod.mk.injEq, mem_sortedLocs]
  constructor
  · rintro ⟨_, loc, member, rfl, rfl⟩
    exact (inv.located_record (inv.mem_liveLocs.mp member)).2.2
  · intro contains
    obtain ⟨loc, located, rfl⟩ := inv.contains_located contains
    exact ⟨id, loc, inv.mem_liveLocs.mpr located, rfl, rfl⟩

theorem Inv.sortedLocs_records (content : ∀ id record, m[id]? = some record ↔ c.Contains rows id record) :
    (c.sortedLocs rows).map (fun (id, loc) => (id, c.recordOf rows loc)) = m.toList := by
  refine eq_of_ascending ?_ (toList_ascending m) ?_
  · rw [List.pairwise_map]
    exact inv.sortedLocs_ascending
  · rintro ⟨id, record⟩
    rw [inv.mem_sortedRecords, ExtTreeMap.mem_toList_iff_getElem?_eq_some, content]

end

theorem Represents.locate (represents : c.Represents m) (id : String) :
    ∃ loc, c.locate id = .ok loc ∧ loc.isSome = m[id]?.isSome := by
  obtain ⟨rows, inv, content⟩ := represents
  obtain ⟨loc, located, spec⟩ := inv.locate id
  exact ⟨loc, located, by rw [← ExtTreeMap.contains_eq_isSome_getElem?, inv.contains_eq_isSome content spec]⟩

theorem Represents.scan (represents : c.Represents m) :
    c.scan = .ok m.toList := by
  obtain ⟨rows, inv, content⟩ := represents
  simp only [CollectionState.scan, inv.liveLocsSorted, ok_bind]
  rw [← inv.sortedLocs_records content]
  refine mapM_ok fun (id, loc) member => ?_
  rw [mem_sortedLocs] at member
  simp only [(inv.located_record (inv.mem_liveLocs.mp member)).1, ok_bind,
    pure_eq_ok]

end CollectionState

end Quiver.Core
