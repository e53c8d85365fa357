import Quiver.Core.CollectionReads

/-!
Sealing the active buffer at a checkpoint, merging the segments of a collection, and
rewriting tombstones: each leaves the represented map as it was, or takes the tombstoned ids
out of it.
-/

namespace Quiver.Core

open Results
open Std (ExtTreeMap)
open List (mem_flatten mem_iff_getElem? mem_map mem_of_getElem? pairwise_map)

namespace CollectionState

/-- What the collection's files hold: the state without the rows and tombstones buffered since
the last checkpoint. -/
def base (c : CollectionState) : CollectionState :=
  { c with active := [], activeIndex := ∅, deadThisWindow := ∅ }

def sealRows (c : CollectionState) : List SealRow :=
  c.activeIndex.toList.map fun (id, row) =>
    let a := c.active.getD row ⟨[], []⟩
    ⟨id, a.vector, a.payload⟩

/-- The sealed segments with the window's dead rows folded into their bitmaps. -/
def foldWindow (c : CollectionState) : List SealedSegment :=
  c.sealed.mapIdx fun segIdx seg => seg.markDead (c.windowDead segIdx)

/-- The state after a checkpoint that wrote these segments. -/
def install (c : CollectionState) (pending : List (SegmentRef × SealedSegment))
    (snapshot : Option IndexSnapshotRef) : CollectionState :=
  { c with
    sealed := c.foldWindow ++ pending.map Prod.snd
    segmentsMeta := c.segmentsMeta ++ pending.map Prod.fst
    active := []
    activeIndex := ∅
    deadThisWindow := ∅
    indexSnapshot := snapshot }

/-- The live sealed rows in id order, read from their segments. -/
def mergedRows (c : CollectionState) : Except CoreError (List SealRow) := do
  let plan := (← c.liveLocsSorted).filterMap fun (_, loc) =>
    match loc with
    | .sealed seg row => some (seg, row)
    | .active _ => none
  plan.mapM fun (seg, row) =>
    match c.sealed[seg]? with
    | none => .error (.malformedPage s!"dangling segment index {seg}")
    | some segment => do
      let id ← segment.readId row
      let vector ← segment.readVector row c.stride
      let payload ← segment.readPayload row
      return ⟨id, vector, payload⟩

/-- The state after a compaction that merged the segments into one. -/
def replaceSegments (c : CollectionState) (ref : SegmentRef) (merged : SealedSegment) :
    CollectionState :=
  { c with sealed := [merged], segmentsMeta := [ref], deadThisWindow := ∅ }

variable {c c' : CollectionState} {rows : List (List SealRow)}

theorem Inv.represented (inv : c.Inv rows) :
    ∃ m : ExtTreeMap String Record, ∀ id record, m[id]? = some record ↔ c.Contains rows id record := by
  let locs := c.sortedLocs rows
  let entries := locs.map fun (id, loc) => (id, c.recordOf rows loc)
  have ascending : entries.Pairwise fun a b => a.1 < b.1 := by
    rw [pairwise_map]
    exact inv.sortedLocs_ascending
  have distinct : entries.Pairwise fun a b => ¬ compare a.1 b.1 = .eq := by
    refine ascending.imp fun {a b} less same => ?_
    rw [compare_eq_iff_eq.mp same] at less
    exact lt_irrefl _ less
  have members : ∀ id record, (id, record) ∈ entries ↔ c.Contains rows id record :=
    fun _ _ => inv.mem_sortedRecords
  refine ⟨ExtTreeMap.ofList entries, fun id record => ?_⟩
  rw [← members]
  constructor
  · intro found
    by_cases listed : (entries.map Prod.fst).contains id
    · obtain ⟨⟨id', record'⟩, member, rfl⟩ := mem_map.mp (List.contains_iff_mem.mp listed)
      rw [ExtTreeMap.getElem?_ofList_of_mem Std.ReflCmp.compare_self distinct member] at found
      cases found
      exact member
    · rw [ExtTreeMap.getElem?_ofList_of_contains_eq_false (Bool.not_eq_true _ ▸ listed)] at found
      contradiction
  · intro member
    exact ExtTreeMap.getElem?_ofList_of_mem Std.ReflCmp.compare_self distinct member

theorem Represents.unique {m m' : ExtTreeMap String Record} (first : c.Represents m)
    (second : c.Represents m') : m = m' := by
  refine ExtTreeMap.ext_getElem? fun {id} => ?_
  exact Except.ok.inj ((first.get id).symm.trans (second.get id))

theorem Inv.mem_sealRows (inv : c.Inv rows) {r : SealRow} :
    r ∈ c.sealRows ↔ ∃ row a, c.activeIndex[r.externalId]? = some row ∧ c.active[row]? = some a ∧
      r.vector = a.vector ∧ r.payload = a.payload := by
  simp only [sealRows, mem_map, Prod.exists, ExtTreeMap.mem_toList_iff_getElem?_eq_some]
  constructor
  · rintro ⟨id, row, found, rfl⟩
    obtain ⟨a, atRow⟩ := inv.activeAt found
    exact ⟨row, a, found, atRow, by simp [List.getD_eq_getElem?_getD, atRow],
      by simp [List.getD_eq_getElem?_getD, atRow]⟩
  · rintro ⟨row, a, found, atRow, vector, payload⟩
    refine ⟨r.externalId, row, found, ?_⟩
    simp [List.getD_eq_getElem?_getD, atRow, ← vector, ← payload]

theorem sealRows_distinct : (c.sealRows.map (·.externalId)).Nodup := by
  have ids : c.sealRows.map (·.externalId) = c.activeIndex.toList.map Prod.fst := by
    simp [sealRows, Function.comp_def]
  rw [ids, ExtTreeMap.map_fst_toList_eq_keys]
  exact ExtTreeMap.nodup_keys

theorem Inv.sealRows_stride (inv : c.Inv rows) : ∀ r ∈ c.sealRows, r.vector.length = c.stride := by
  intro r member
  obtain ⟨row, a, _, atRow, vector, _⟩ := inv.mem_sealRows.mp member
  rw [vector]
  exact inv.activeStride a (mem_of_getElem? atRow)

theorem length_foldWindow (c : CollectionState) : c.foldWindow.length = c.sealed.length := by
  simp [foldWindow]

theorem foldWindow_getElem? (c : CollectionState) (seg : Nat) :
    c.foldWindow[seg]? = (c.sealed[seg]?).map (·.markDead (c.windowDead seg)) := by
  simp [foldWindow]

theorem windowDead_of_empty (empty : c.deadThisWindow = ∅) (seg : Nat) : c.windowDead seg = ∅ := by
  simp [windowDead, empty]

theorem sealedDead_foldWindow {extra : List SealedSegment} (sealed : c'.sealed = c.foldWindow ++ extra)
    (empty : c'.deadThisWindow = ∅) {seg : Nat} (old : seg < c.sealed.length) (row : Nat) :
    c'.sealedDead seg row = c.sealedDead seg row := by
  have here : c'.sealed[seg]? = some ((c.sealed[seg]).markDead (c.windowDead seg)) := by
    rw [sealed, List.getElem?_append_left (by rw [length_foldWindow]; exact old), foldWindow_getElem?,
      List.getElem?_eq_getElem old]
    rfl
  simp only [sealedDead, here, windowDead_of_empty empty, List.getElem?_eq_getElem old, Option.any_some,
    SealedSegment.isDead, SealedSegment.markDead]
  simp

theorem cell_append_left {more : List (List SealRow)} {seg : Nat} (old : seg < rows.length) (row : Nat) :
    cell (rows ++ more) seg row = cell rows seg row := by
  simp [cell, List.getElem?_append_left old]

theorem cell_append_right {more : List (List SealRow)} (seg row : Nat) :
    cell (rows ++ more) (rows.length + seg) row = cell more seg row := by
  simp [cell, List.getElem?_append_right]

/-- New segments that hold the active buffer, behind the old ones with the window folded in. -/
structure Sealing (c c' : CollectionState) (extra : List SealedSegment) (more : List (List SealRow)) :
    Prop where
  sealed : c'.sealed = c.foldWindow ++ extra
  stride : c'.stride = c.stride
  held : List.Forall₂ (fun seg ids => seg.Holds c.stride ids) extra more
  undead : ∀ seg ∈ extra, seg.dead = ∅
  single : more.length ≤ 1
  covers : more.flatten = c.sealRows
  active : c'.activeIndex = ∅
  buffer : c'.active = []
  window : c'.deadThisWindow = ∅

section Sealing

variable {extra : List SealedSegment} {more : List (List SealRow)}

variable {seg row : Nat} {r : SealRow}

section

variable (sealing : c.Sealing c' extra more)
include sealing

theorem Sealing.liveAt_old (inv : c.Inv rows)
    (old : seg < rows.length) :
    c'.LiveAt (rows ++ more) seg row r ↔ c.LiveAt rows seg row r := by
  have dead := sealedDead_foldWindow sealing.sealed sealing.window (inv.held.length_eq ▸ old) row
  constructor
  · rintro ⟨stored, alive⟩
    exact ⟨cell_append_left old row ▸ stored, dead ▸ alive⟩
  · rintro ⟨stored, alive⟩
    exact ⟨(cell_append_left old row).trans stored, dead.trans alive⟩

theorem Sealing.liveAt_new (inv : c.Inv rows)
    : c'.LiveAt (rows ++ more) (rows.length + seg) row r ↔ cell more seg row = some r := by
  constructor
  · rintro ⟨stored, _⟩
    rwa [cell_append_right] at stored
  · intro stored
    refine ⟨(cell_append_right seg row).trans stored, ?_⟩
    obtain ⟨ids, found, _⟩ := cell_eq_some.mp stored
    have bound := (List.getElem?_eq_some_iff.mp found).1
    rw [← sealing.held.length_eq] at bound
    have here : c'.sealed[rows.length + seg]? = some extra[seg] := by
      rw [sealing.sealed, List.getElem?_append_right (by rw [length_foldWindow, inv.held.length_eq]; omega),
        length_foldWindow, inv.held.length_eq, Nat.add_sub_cancel_left, List.getElem?_eq_getElem bound]
    simp only [sealedDead, here, windowDead_of_empty sealing.window, Option.any_some,
      SealedSegment.isDead, sealing.undead _ (List.getElem_mem bound)]
    simp

theorem Sealing.liveAt (inv : c.Inv rows)
    (live : c'.LiveAt (rows ++ more) seg row r) :
    seg < rows.length ∧ c.LiveAt rows seg row r ∨
      seg = rows.length ∧ r ∈ c.sealRows := by
  by_cases old : seg < rows.length
  · exact .inl ⟨old, (sealing.liveAt_old inv old).mp live⟩
  · obtain ⟨new, rfl⟩ := Nat.exists_eq_add_of_le (Nat.le_of_not_lt old)
    obtain ⟨ids, found, atRow⟩ := cell_eq_some.mp ((sealing.liveAt_new inv).mp live)
    have bound := (List.getElem?_eq_some_iff.mp found).1
    have := sealing.single
    refine .inr ⟨by omega, ?_⟩
    rw [← sealing.covers]
    exact mem_flatten.mpr ⟨ids, mem_of_getElem? found, mem_of_getElem? atRow⟩

theorem Sealing.inv (inv : c.Inv rows) : c'.Inv (rows ++ more) where
  held := by
    rw [sealing.sealed, sealing.stride]
    refine List.rel_append ?_ sealing.held
    rw [List.forall₂_iff_get]
    refine ⟨by rw [length_foldWindow, inv.held.length_eq], fun i bound bound' => ?_⟩
    rw [length_foldWindow] at bound
    have holds := List.forall₂_iff_get.mp inv.held |>.2 i bound bound'
    simpa [foldWindow] using holds.markDead (c.windowDead i)
  notActive _ := by simp [sealing.active]
  newest := by
    intro seg row r later ids live after found
    have bound := (List.getElem?_eq_some_iff.mp found).1
    rw [List.length_append] at bound
    have := sealing.single
    obtain ⟨old, live⟩ | ⟨rfl, _⟩ := sealing.liveAt inv live
    · by_cases laterOld : later < rows.length
      · rw [List.getElem?_append_left laterOld] at found
        exact inv.newest live after found
      · -- The id of a live sealed row is not in the buffer.
        rw [rowOfId_eq_none_iff]
        intro r' member same
        rw [List.getElem?_append_right (Nat.le_of_not_lt laterOld)] at found
        have sealedNow : r' ∈ c.sealRows := by
          rw [← sealing.covers]
          exact mem_flatten.mpr ⟨ids, mem_of_getElem? found, member⟩
        obtain ⟨row', _, buffered, _⟩ := inv.mem_sealRows.mp sealedNow
        rw [same, inv.notActive live] at buffered
        contradiction
    · omega
  activeRows found := by simp [sealing.active] at found
  activeStride := by simp [sealing.buffer]
  sealedStride := by
    rw [sealing.stride]
    intro ids member r inside
    obtain old | new := List.mem_append.mp member
    · exact inv.sealedStride ids old r inside
    · refine inv.sealRows_stride r ?_
      rw [← sealing.covers]
      exact mem_flatten.mpr ⟨ids, new, inside⟩
  window member := by simp [windowDead_of_empty sealing.window] at member
  dead := by
    intro s member row isDead
    rw [sealing.sealed] at member
    obtain old | new := List.mem_append.mp member
    · obtain ⟨i, atI⟩ := mem_iff_getElem?.mp old
      rw [foldWindow_getElem?, Option.map_eq_some_iff] at atI
      obtain ⟨s, found, rfl⟩ := atI
      obtain before | now := Finset.mem_union.mp isDead
      · exact inv.dead s (mem_of_getElem? found) row before
      · obtain ⟨s', found', below, _⟩ := inv.window now
        rw [found] at found'
        cases found'
        exact below
    · simp [sealing.undead s new] at isDead

theorem Sealing.contains (inv : c.Inv rows) {id : String}
    {record : Record} : c'.Contains (rows ++ more) id record ↔ c.Contains rows id record := by
  constructor
  · intro contains
    cases contains with
    | active found _ => simp [sealing.active] at found
    | @sealed _ _ r live isId =>
      obtain ⟨_, live⟩ | ⟨_, member⟩ := sealing.liveAt inv live
      · exact .sealed live isId
      · obtain ⟨row, a, found, atRow, vector, payload⟩ := inv.mem_sealRows.mp member
        have same : r.record = a.record := by simp [SealRow.record, ActiveRow.record, vector, payload]
        rw [same]
        exact .active (isId ▸ found) atRow
  · intro contains
    cases contains with
    | @active row a found atRow =>
      have member : ⟨id, a.vector, a.payload⟩ ∈ c.sealRows :=
        inv.mem_sealRows.mpr ⟨row, a, found, atRow, rfl, rfl⟩
      rw [← sealing.covers] at member
      obtain ⟨ids, present, inside⟩ := mem_flatten.mp member
      obtain ⟨seg, atSeg⟩ := mem_iff_getElem?.mp present
      obtain ⟨row', atRow'⟩ := mem_iff_getElem?.mp inside
      have stored : cell more seg row' = some ⟨id, a.vector, a.payload⟩ := cell_eq_some.mpr ⟨ids, atSeg, atRow'⟩
      exact .sealed ((sealing.liveAt_new inv).mpr stored) rfl
    | sealed live isId =>
      obtain ⟨ids, found, _⟩ := cell_eq_some.mp live.stored
      have old := (List.getElem?_eq_some_iff.mp found).1
      exact .sealed ((sealing.liveAt_old inv old).mpr live) isId

end

end Sealing

/-- What a checkpoint writes for the active buffer: nothing, or one segment. -/
inductive Pending (c : CollectionState) : List (SegmentRef × SealedSegment) → Prop
  | nothing : c.activeIndex = ∅ → Pending c []
  | buffer (ref : SegmentRef) :
      Pending c [(ref, sealedSegment ref.id c.sealRows c.descriptor.filterable ∅)]

theorem Pending.sealing (inv : c.Inv rows) {pending : List (SegmentRef × SealedSegment)}
    (isPending : c.Pending pending) (snapshot : Option IndexSnapshotRef) :
    ∃ more, c.Sealing (c.install pending snapshot) (pending.map Prod.snd) more := by
  cases isPending with
  | nothing empty =>
    refine ⟨[], rfl, rfl, .nil, by simp, by simp, ?_, rfl, rfl, rfl⟩
    simp [sealRows, empty]
  | buffer ref =>
    refine ⟨[c.sealRows], rfl, rfl, ?_, by simp [sealedSegment], by simp, by simp, rfl, rfl, rfl⟩
    exact .cons (sealedSegment_holds sealRows_distinct inv.sealRows_stride) .nil

variable {m : ExtTreeMap String Record} {w : ExtTreeMap Nat Bitmap} {id other : String}

theorem Represents.install (represents : c.Represents m)
    {pending : List (SegmentRef × SealedSegment)} (isPending : c.Pending pending)
    (snapshot : Option IndexSnapshotRef) : (c.install pending snapshot).Represents m := by
  obtain ⟨rows, inv, content⟩ := represents
  obtain ⟨more, sealing⟩ := isPending.sealing inv snapshot
  exact ⟨rows ++ more, sealing.inv inv, fun id record => (content id record).trans (sealing.contains inv).symm⟩

/-- The rows of the merged segment, out of the sorted locations. -/
def mergedRow (rows : List (List SealRow)) : String × Loc → Option SealRow
  | (_, .sealed seg row) => cell rows seg row
  | (_, .active _) => none

theorem Inv.mergedRows (inv : c.Inv rows) :
    ∃ merged, c.mergedRows = .ok merged ∧ (merged.map (·.externalId)).Nodup ∧
      ∀ r, r ∈ merged ↔ ∃ seg row, c.LiveAt rows seg row r := by
  let locs := c.sortedLocs rows
  have located : ∀ p ∈ locs, c.Located rows p.1 (some p.2) := by
    rintro ⟨id, loc⟩ member
    exact inv.mem_liveLocs.mp (mem_sortedLocs.mp member)
  have live : ∀ p ∈ locs, ∀ r, mergedRow rows p = some r →
      r.externalId = p.1 ∧ ∃ seg row, p.2 = .sealed seg row ∧ c.LiveAt rows seg row r := by
    rintro ⟨id, loc⟩ member r isRow
    cases located _ member with
    | active => contradiction
    | sealed _ live isId =>
      rw [mergedRow, live.stored] at isRow
      cases isRow
      exact ⟨isId, _, _, rfl, live⟩
  refine ⟨locs.filterMap (mergedRow rows), ?_, ?_, ?_⟩
  · let plan : String × Loc → Option (Nat × Nat) := fun p =>
      match p.2 with
      | .sealed seg row => some (seg, row)
      | .active _ => none
    have read : ∀ p ∈ locs.filterMap plan, (match c.sealed[p.1]? with
        | none => .error (.malformedPage s!"dangling segment index {p.1}")
        | some segment => do
          let id ← segment.readId p.2
          let vector ← segment.readVector p.2 c.stride
          let payload ← segment.readPayload p.2
          return ⟨id, vector, payload⟩ : Except CoreError SealRow) =
        .ok ((cell rows p.1 p.2).getD ⟨"", [], []⟩) := by
      rintro ⟨seg, row⟩ member
      obtain ⟨⟨id, loc⟩, inside, isPlan⟩ := List.mem_filterMap.mp member
      cases located _ inside with
      | active => contradiction
      | @sealed seg' row' r _ live _ =>
        cases isPlan
        obtain ⟨ids, found, atRow⟩ := cell_eq_some.mp live.stored
        obtain ⟨s, sealed, holds⟩ := inv.heldAt found
        simp only [sealed, holds.readId atRow, holds.readVector atRow, holds.readPayload atRow,
          ok_bind, pure_eq_ok, live.stored, Option.getD_some]
    have merged : c.mergedRows =
        .ok ((locs.filterMap plan).map fun p => (cell rows p.1 p.2).getD ⟨"", [], []⟩) := by
      simp only [CollectionState.mergedRows, inv.liveLocsSorted, ok_bind]
      exact mapM_ok read
    rw [merged, List.map_filterMap]
    congr 1
    refine List.filterMap_congr fun p member => ?_
    obtain ⟨id, loc⟩ := p
    cases located _ member with
    | active => rfl
    | sealed _ live _ => simp [plan, mergedRow, live.stored]
  · rw [List.nodup_iff_pairwise_ne, pairwise_map, List.pairwise_filterMap]
    refine inv.sortedLocs_ascending.imp_of_mem ?_
    intro p q inP inQ less r isP r' isQ same
    rw [(live p inP r isP).1, (live q inQ r' isQ).1] at same
    exact absurd (same ▸ less) (lt_irrefl _)
  · intro r
    rw [List.mem_filterMap]
    constructor
    · rintro ⟨p, member, isRow⟩
      obtain ⟨_, seg, row, _, live⟩ := live p member r isRow
      exact ⟨seg, row, live⟩
    · rintro ⟨seg, row, live⟩
      refine ⟨(r.externalId, .sealed seg row), ?_, live.stored⟩
      refine mem_sortedLocs.mpr (inv.mem_liveLocs.mpr ?_)
      exact .sealed (inv.notActive live) live rfl

/-- One segment in place of all, with the same live rows. -/
structure Merging (c c' : CollectionState) (rows : List (List SealRow)) (merged : List SealRow) : Prop where
  sealed : ∃ seg, c'.sealed = [seg] ∧ seg.Holds c.stride merged ∧ seg.dead = ∅
  stride : c'.stride = c.stride
  members : ∀ r, r ∈ merged ↔ ∃ seg row, c.LiveAt rows seg row r
  active : c'.activeIndex = c.activeIndex
  buffer : c'.active = c.active
  window : c'.deadThisWindow = ∅

section Merging

variable {merged : List SealRow}

section

variable (merging : c.Merging c' rows merged)
include merging

theorem Merging.liveAt {seg row : Nat} {r : SealRow} :
    c'.LiveAt [merged] seg row r ↔ seg = 0 ∧ merged[row]? = some r := by
  obtain ⟨segment, sealed, _, undead⟩ := merging.sealed
  constructor
  · rintro ⟨stored, _⟩
    obtain ⟨ids, found, atRow⟩ := cell_eq_some.mp stored
    obtain ⟨bound, isMerged⟩ := List.getElem?_eq_some_iff.mp found
    simp only [List.length_singleton, Nat.lt_one_iff] at bound
    subst bound
    simp only [List.getElem_cons_zero] at isMerged
    exact ⟨rfl, isMerged ▸ atRow⟩
  · rintro ⟨rfl, atRow⟩
    refine ⟨cell_eq_some.mpr ⟨merged, rfl, atRow⟩, ?_⟩
    simp [sealedDead, sealed, windowDead_of_empty merging.window, SealedSegment.isDead, undead]

theorem Merging.live {seg row : Nat} {r : SealRow}
    (live : c'.LiveAt [merged] seg row r) : ∃ seg row, c.LiveAt rows seg row r :=
  (merging.members r).mp (mem_of_getElem? (merging.liveAt.mp live).2)

theorem Merging.inv (inv : c.Inv rows) : c'.Inv [merged] where
  held := by
    obtain ⟨segment, sealed, holds, _⟩ := merging.sealed
    rw [sealed, merging.stride]
    exact .cons holds .nil
  notActive live := by
    obtain ⟨_, _, live⟩ := merging.live live
    rw [merging.active]
    exact inv.notActive live
  newest live after found := by
    have bound := (List.getElem?_eq_some_iff.mp found).1
    simp only [List.length_singleton] at bound
    omega
  activeRows found := by
    rw [merging.active] at found
    rw [merging.buffer]
    exact inv.activeRows found
  activeStride := by
    rw [merging.buffer, merging.stride]
    exact inv.activeStride
  sealedStride := by
    rw [merging.stride]
    intro ids member r inside
    rw [List.mem_singleton.mp member] at inside
    obtain ⟨_, _, live⟩ := (merging.members r).mp inside
    obtain ⟨ids', found, atRow⟩ := cell_eq_some.mp live.stored
    exact inv.sealedStride ids' (mem_of_getElem? found) r (mem_of_getElem? atRow)
  window member := by simp [windowDead_of_empty merging.window] at member
  dead := by
    obtain ⟨segment, sealed, _, undead⟩ := merging.sealed
    intro s member row isDead
    rw [sealed, List.mem_singleton] at member
    simp [member, undead] at isDead

theorem Merging.contains {id : String} {record : Record} :
    c'.Contains [merged] id record ↔ c.Contains rows id record := by
  constructor
  · intro contains
    cases contains with
    | active found atRow => exact .active (merging.active ▸ found) (merging.buffer ▸ atRow)
    | sealed live isId =>
      obtain ⟨_, _, live⟩ := merging.live live
      exact .sealed live isId
  · intro contains
    cases contains with
    | active found atRow =>
      rw [← merging.active] at found
      rw [← merging.buffer] at atRow
      exact .active found atRow
    | @sealed _ _ r live isId =>
      obtain ⟨row, atRow⟩ := mem_iff_getElem?.mp ((merging.members r).mpr ⟨_, _, live⟩)
      exact .sealed (merging.liveAt.mpr ⟨rfl, atRow⟩) isId

theorem Merging.represents (inv : c.Inv rows)
    {m : ExtTreeMap String Record}
    (content : ∀ id record, m[id]? = some record ↔ c.Contains rows id record) : c'.Represents m :=
  ⟨[merged], merging.inv inv, fun id record => (content id record).trans merging.contains.symm⟩

end

end Merging

/-- The collection's files with these rows tombstoned as well. -/
def windowed (c : CollectionState) (w : ExtTreeMap Nat Bitmap) : CollectionState :=
  { c.base with deadThisWindow := w }

/-- An id of a row in the window. -/
def Killed (c : CollectionState) (w : ExtTreeMap Nat Bitmap) (id : String) : Prop :=
  ∃ seg row s, row ∈ w.getD seg ∅ ∧ c.sealed[seg]? = some s ∧ s.readId row = .ok id

/-- The rows of a window are rows of the segments that no bitmap covers yet. -/
def WindowOf (c : CollectionState) (w : ExtTreeMap Nat Bitmap) : Prop :=
  ∀ {seg row}, row ∈ w.getD seg ∅ → ∃ s, c.sealed[seg]? = some s ∧ row < s.rowCount ∧ row ∉ s.dead

theorem sealedDead_eq_false_iff {seg row : Nat} : c.sealedDead seg row = false ↔
    (∀ s, c.sealed[seg]? = some s → row ∉ s.dead) ∧ row ∉ c.windowDead seg := by
  rw [sealedDead, Bool.or_eq_false_iff, decide_eq_false_iff_not]
  refine and_congr_left fun _ => ?_
  cases c.sealed[seg]? <;> simp [SealedSegment.isDead]

theorem liveAt_windowed {seg row : Nat} {r : SealRow} :
    (c.windowed w).LiveAt rows seg row r ↔ c.base.LiveAt rows seg row r ∧ row ∉ w.getD seg ∅ := by
  have unwindowed : row ∉ c.base.windowDead seg := by simp [windowDead, base]
  constructor
  · rintro ⟨stored, alive⟩
    obtain ⟨undead, outside⟩ := sealedDead_eq_false_iff.mp alive
    exact ⟨⟨stored, sealedDead_eq_false_iff.mpr ⟨undead, unwindowed⟩⟩, outside⟩
  · rintro ⟨⟨stored, alive⟩, outside⟩
    exact ⟨stored, sealedDead_eq_false_iff.mpr ⟨(sealedDead_eq_false_iff.mp alive).1, outside⟩⟩

theorem Inv.windowed (inv : c.base.Inv rows) (window : c.WindowOf w) :
    (c.windowed w).Inv rows where
  held := inv.held
  notActive live := inv.notActive (liveAt_windowed.mp live).1
  newest live := inv.newest (liveAt_windowed.mp live).1
  activeRows := inv.activeRows
  activeStride := inv.activeStride
  sealedStride := inv.sealedStride
  window := window
  dead := inv.dead

theorem Represents.windowed (represents : c.base.Represents m)
    (window : c.WindowOf w) :
    ∃ m', (c.windowed w).Represents m' ∧ ∀ id : String, ¬ c.Killed w id → m'[id]? = m[id]? := by
  obtain ⟨rows, inv, content⟩ := represents
  obtain ⟨m', content'⟩ := (inv.windowed window).represented
  refine ⟨m', ⟨rows, inv.windowed window, content'⟩, fun id spared => ?_⟩
  have same : ∀ record, m'[id]? = some record ↔ m[id]? = some record := by
    intro record
    rw [content', content]
    constructor
    · intro contains
      cases contains with
      | active found _ => simp [CollectionState.windowed, base] at found
      | sealed live isId => exact .sealed (liveAt_windowed.mp live).1 isId
    · intro contains
      cases contains with
      | active found _ => simp [base] at found
      | @sealed seg row r live isId =>
        refine .sealed (liveAt_windowed.mpr ⟨live, fun inside => spared ?_⟩) isId
        obtain ⟨ids, found, atRow⟩ := cell_eq_some.mp live.stored
        obtain ⟨s, sealed, holds⟩ := inv.heldAt found
        exact ⟨seg, row, s, inside, sealed, isId ▸ holds.readId atRow⟩
  exact Option.ext same

theorem base_shadow (c : CollectionState) (loc : Option Loc) : (c.shadow loc).base = c.base := by
  unfold shadow
  split <;> rfl

theorem base_applyUpsert {id : String} {vector payload : Bytes}
    (applied : c.applyUpsert id vector payload = .ok c') : c'.base = c.base := by
  obtain ⟨loc, _, rest⟩ := bind_eq_ok.mp applied
  cases rest
  exact base_shadow c loc

theorem base_applyDelete {id : String} {existed : Bool}
    (applied : c.applyDelete id = .ok (c', existed)) : c'.base = c.base := by
  rw [applyDelete] at applied
  split at applied
  · cases applied
    rfl
  · obtain ⟨loc, _, rest⟩ := bind_eq_ok.mp applied
    split at rest <;> cases rest <;> rfl

theorem Inv.killed_shadow (inv : c.Inv rows) {loc : Option Loc}
    (located : c.Located rows id loc)
    (killed : (c.shadow loc).Killed (c.shadow loc).deadThisWindow other) :
    c.Killed c.deadThisWindow other ∨ other = id := by
  cases located with
  | active | absent => exact .inl killed
  | @sealed seg row r _ live isId =>
    obtain ⟨seg', row', s, inside, sealed, read⟩ := killed
    change row' ∈ (c.markDead seg row).windowDead seg' at inside
    rw [windowDead_markDead] at inside
    split at inside
    case isFalse => exact .inl ⟨seg', row', s, inside, sealed, read⟩
    case isTrue same =>
      subst same
      obtain rfl | before := Finset.mem_insert.mp inside
      · obtain ⟨ids, found, atRow⟩ := cell_eq_some.mp live.stored
        obtain ⟨s', sealed', holds⟩ := inv.heldAt found
        change c.sealed[seg']? = some s at sealed
        rw [sealed'] at sealed
        cases sealed
        rw [holds.readId atRow] at read
        cases read
        exact .inr isId
      · exact .inl ⟨seg', row', s, before, sealed, read⟩

theorem Represents.killed_applyUpsert (represents : c.Represents m)
    {vector payload : Bytes} (applied : c.applyUpsert id vector payload = .ok c')
    (killed : c'.Killed c'.deadThisWindow other) : c.Killed c.deadThisWindow other ∨ other = id := by
  obtain ⟨rows, inv, _⟩ := represents
  obtain ⟨loc, found, located⟩ := inv.locate id
  rw [CollectionState.applyUpsert, found] at applied
  cases applied
  exact inv.killed_shadow located killed

theorem Represents.killed_applyDelete (represents : c.Represents m)
    {existed : Bool} (applied : c.applyDelete id = .ok (c', existed))
    (killed : c'.Killed c'.deadThisWindow other) : c.Killed c.deadThisWindow other ∨ other = id := by
  obtain ⟨rows, inv, _⟩ := represents
  rw [CollectionState.applyDelete] at applied
  split at applied
  · cases applied
    exact .inl killed
  · obtain ⟨loc, found, located⟩ := inv.locate id
    rw [found] at applied
    cases located with
    | active | absent =>
      cases applied
      exact .inl killed
    | sealed inactive live isId =>
      cases applied
      exact inv.killed_shadow (.sealed inactive live isId) killed

end CollectionState

end Quiver.Core
