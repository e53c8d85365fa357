import Quiver.Core.Segment

/-!
A segment opened from what was written for a list of rows reads those rows back: each row's
id, vector and payload, and the row of each id.
-/

namespace Quiver.Core

open List (getElem?_eq_getElem getElem?_map getElem_mem length_map mem_map)

/-- The row of an id within a segment's rows. -/
def rowOfId (rows : List SealRow) (id : String) : Option Nat :=
  rows.findIdx? fun row => row.externalId = id

variable {ids : List String} {id : String} {i : Nat}

theorem rowOfId_eq_none_iff {rows : List SealRow} :
    rowOfId rows id = none ↔ ∀ row ∈ rows, row.externalId ≠ id := by
  simp [rowOfId]

theorem rowOfId_sound {rows : List SealRow} (found : rowOfId rows id = some i) :
    ∃ row, rows[i]? = some row ∧ row.externalId = id := by
  obtain ⟨bound, isId, _⟩ := List.findIdx?_eq_some_iff_getElem.mp found
  exact ⟨rows[i], by simp, by simpa using isId⟩

theorem rowOfId_eq_some_iff {rows : List SealRow} (distinct : (rows.map (·.externalId)).Nodup)
    :
    rowOfId rows id = some i ↔ ∃ row, rows[i]? = some row ∧ row.externalId = id := by
  refine ⟨rowOfId_sound, ?_⟩
  rintro ⟨row, found, rfl⟩
  cases other : rowOfId rows row.externalId with
  | none => exact absurd rfl (rowOfId_eq_none_iff.mp other row (List.mem_of_getElem? found))
  | some j =>
    obtain ⟨same, atJ, isId⟩ := rowOfId_sound other
    have first : (rows.map (·.externalId))[i]? = some row.externalId := by simp [found]
    have second : (rows.map (·.externalId))[j]? = some row.externalId := by simp [atJ, isId]
    obtain ⟨bound, _⟩ := List.getElem?_eq_some_iff.mp first
    rw [(List.getElem?_inj bound distinct).mp (first.trans second.symm)]

/-- The segment reads back exactly these rows. -/
structure SealedSegment.Holds (seg : SealedSegment) (stride : Nat) (rows : List SealRow) :
    Prop where
  rowCount : seg.rowCount = rows.length
  readId : ∀ {i row}, rows[i]? = some row → seg.readId i = .ok row.externalId
  readVector : ∀ {i row}, rows[i]? = some row → seg.readVector i stride = .ok row.vector
  readPayload : ∀ {i row}, rows[i]? = some row → seg.readPayload i = .ok row.payload
  lookup : ∀ id, seg.lookup id = .ok (rowOfId rows id)
  distinct : (rows.map (·.externalId)).Nodup

theorem SealedSegment.Holds.markDead {seg : SealedSegment} {stride : Nat} {rows : List SealRow}
    (holds : seg.Holds stride rows) (dead : Bitmap) : (seg.markDead dead).Holds stride rows :=
  ⟨holds.rowCount, holds.readId, holds.readVector, holds.readPayload, holds.lookup, holds.distinct⟩

theorem readRange_flatMap (items : List α) (column : α → Bytes) {item : α}
    (found : items[i]? = some item) :
    readRange (items.flatMap column) ((items.take i).flatMap column).length (column item).length =
      .ok (column item) := by
  obtain ⟨bound, rfl⟩ := List.getElem?_eq_some_iff.mp found
  have split : items.flatMap column = (items.take i).flatMap column ++
      (column items[i] ++ (items.drop (i + 1)).flatMap column) := by
    conv_lhs => rw [← List.take_append_drop i items, List.drop_eq_getElem_cons bound]
    simp only [List.flatMap_append, List.flatMap_cons]
  simp only [readRange, split, List.length_append, List.drop_left, List.take_left]
  split
  case isTrue empty => rw [List.eq_nil_of_length_eq_zero empty]
  case isFalse => rw [if_pos (by omega)]

def columnEntry (rows : List SealRow) (i : Nat) (row : SealRow) : RowEntry where
  idOff := ((rows.take i).flatMap fun r => idBytes r.externalId).length
  idLen := (idBytes row.externalId).length
  payOff := ((rows.take i).flatMap (·.payload)).length
  payLen := row.payload.length

theorem segmentColumns_spec (rows : List SealRow) :
    (segmentColumns rows).vec = rows.flatMap (·.vector) ∧
    (segmentColumns rows).pay = rows.flatMap (·.payload) ∧
    (segmentColumns rows).ids = rows.flatMap (fun r => idBytes r.externalId) ∧
    (segmentColumns rows).rows = rows.mapIdx (columnEntry rows) := by
  induction rows using List.reverseRecOn with
  | nil => exact ⟨rfl, rfl, rfl, rfl⟩
  | append_singleton rows row ih =>
    obtain ⟨vec, pay, ids, entries⟩ := ih
    have pushed : segmentColumns (rows ++ [row]) = (segmentColumns rows).push row := by
      simp [segmentColumns]
    simp only [pushed, SegmentColumns.push, vec, pay, ids, entries, List.flatMap_append,
      List.flatMap_singleton, List.mapIdx_append, true_and]
    congr 1
    · apply List.ext_getElem?
      intro i
      simp only [List.getElem?_mapIdx]
      cases found : rows[i]? with
      | none => rfl
      | some row =>
        obtain ⟨bound, _⟩ := List.getElem?_eq_some_iff.mp found
        simp [columnEntry, List.take_append_of_le_length bound.le]
    · simp [columnEntry]

theorem fromUTF8?_idBytes (id : String) :
    String.fromUTF8? ⟨(idBytes id).toArray⟩ = some id := by
  have whole : (⟨(idBytes id).toArray⟩ : ByteArray) = id.toByteArray := by simp [idBytes]
  simp only [whole, String.fromUTF8?]
  rw [dif_pos id.isValidUTF8]
  rfl

def idAt (ids : List String) (position : Nat) : String :=
  ids.getD ((sortedRowsById ids).getD position 0) ""

theorem length_sortedRowsById (ids : List String) : (sortedRowsById ids).length = ids.length := by
  simp [sortedRowsById]

theorem mem_sortedRowsById {row : Nat} :
    row ∈ sortedRowsById ids ↔ row < ids.length := by
  simp [sortedRowsById]

theorem idAt_eq {position : Nat} (bound : position < ids.length) :
    ∃ row id, (sortedRowsById ids)[position]? = some row ∧ ids[row]? = some id ∧
      idAt ids position = id := by
  have inside : position < (sortedRowsById ids).length := by rwa [length_sortedRowsById]
  have rowBound := mem_sortedRowsById.mp (getElem_mem inside)
  refine ⟨(sortedRowsById ids)[position], ids[(sortedRowsById ids)[position]], ?_, ?_, ?_⟩
  · exact getElem?_eq_getElem inside
  · exact getElem?_eq_getElem rowBound
  · simp [idAt, List.getD_eq_getElem?_getD, inside, rowBound]

theorem idAt_lt_idAt (distinct : ids.Nodup) {i j : Nat} (before : i < j)
    (bound : j < ids.length) : idAt ids i < idAt ids j := by
  have sorted : (sortedRowsById ids).Pairwise fun a b => ids.getD a "" ≤ ids.getD b "" :=
    List.pairwise_insertionSort _ _
  have nodup : (sortedRowsById ids).Nodup :=
    ((List.perm_insertionSort _ _).nodup_iff).mpr List.nodup_range
  have insideI : i < (sortedRowsById ids).length := by rw [length_sortedRowsById]; omega
  have insideJ : j < (sortedRowsById ids).length := by rw [length_sortedRowsById]; omega
  have ordered := List.pairwise_iff_getElem.mp sorted i j insideI insideJ before
  have apart : (sortedRowsById ids)[i] ≠ (sortedRowsById ids)[j] := by
    rw [Ne, nodup.getElem_inj_iff]
    omega
  have boundI := mem_sortedRowsById.mp (getElem_mem insideI)
  have boundJ := mem_sortedRowsById.mp (getElem_mem insideJ)
  simp only [idAt, List.getD_eq_getElem?_getD, getElem?_eq_getElem insideI,
    getElem?_eq_getElem insideJ, Option.getD_some, getElem?_eq_getElem boundI,
    getElem?_eq_getElem boundJ] at ordered ⊢
  refine lt_of_le_of_ne ordered ?_
  rw [Ne, distinct.getElem_inj_iff]
  exact apart

theorem exists_idAt_eq (member : id ∈ ids) :
    ∃ position < ids.length, idAt ids position = id := by
  obtain ⟨row, bound, rfl⟩ := List.getElem_of_mem member
  obtain ⟨position, inside, at_⟩ := List.getElem_of_mem (mem_sortedRowsById.mpr bound)
  refine ⟨position, by rwa [length_sortedRowsById] at inside, ?_⟩
  simp [idAt, List.getD_eq_getElem?_getD, inside, at_, bound]

section Lookup

variable {seg : SealedSegment} {rows : List SealRow}

theorem sortedId_eq (reads : ∀ {i row}, rows[i]? = some row → seg.readId i = .ok row.externalId)
    (sorted : seg.sortedRows = sortedRowsById (rows.map (·.externalId))) {position : Nat}
    (bound : position < (rows.map (·.externalId)).length) :
    seg.sortedId position = .ok (idAt (rows.map (·.externalId)) position) := by
  obtain ⟨row, id, atPosition, atRow, isId⟩ := idAt_eq bound
  rw [getElem?_map, Option.map_eq_some_iff] at atRow
  obtain ⟨sealRow, found, rfl⟩ := atRow
  rw [SealedSegment.sortedId, sorted, atPosition, isId]
  exact reads found

theorem lookup_eq (distinct : (rows.map (·.externalId)).Nodup)
    (reads : ∀ {i row}, rows[i]? = some row → seg.readId i = .ok row.externalId)
    (sorted : seg.sortedRows = sortedRowsById (rows.map (·.externalId)))
    (range : seg.idRange = if rows = [] then none else
      some (idAt (rows.map (·.externalId)) 0, idAt (rows.map (·.externalId)) (rows.length - 1)))
    (id : String) : seg.lookup id = .ok (rowOfId rows id) := by
  have keys : ∀ i < (rows.map (·.externalId)).length,
      seg.sortedId i = .ok (idAt (rows.map (·.externalId)) i) :=
    fun _ bound => sortedId_eq reads sorted bound
  have length : seg.sortedRows.length = (rows.map (·.externalId)).length := by
    rw [sorted, length_sortedRowsById]
  have ascending : ∀ i j, i < j → j < (rows.map (·.externalId)).length →
      idAt (rows.map (·.externalId)) i < idAt (rows.map (·.externalId)) j :=
    fun _ _ => idAt_lt_idAt distinct
  by_cases member : id ∈ rows.map (·.externalId)
  · -- The id is at some position of the sorted order, so it is inside the range too.
    obtain ⟨position, bound, at_⟩ := exists_idAt_eq member
    obtain ⟨row, _, atPosition, atRow, isId⟩ := idAt_eq bound
    rw [getElem?_map, Option.map_eq_some_iff] at atRow
    obtain ⟨sealRow, found, sameId⟩ := atRow
    have nonempty : rows ≠ [] := by
      rintro rfl
      simp at bound
    have above : ¬ id < idAt (rows.map (·.externalId)) 0 := by
      rw [← at_]
      obtain rfl | later := Nat.eq_zero_or_pos position
      · exact lt_irrefl _
      · exact lt_asymm (ascending _ _ later bound)
    have below : ¬ idAt (rows.map (·.externalId)) (rows.length - 1) < id := by
      rw [← at_]
      rw [length_map] at bound
      obtain rfl | earlier := Nat.eq_or_lt_of_le (Nat.le_sub_one_of_lt bound)
      · exact lt_irrefl _
      · exact lt_asymm (ascending _ _ earlier (by rw [length_map]; omega))
    have hit : Bisect.search seg.sortedId id seg.sortedRows.length 0 seg.sortedRows.length =
        .ok (some position) :=
      Bisect.search_hit keys ascending (by omega) length.le (Nat.zero_le _) (length ▸ bound) at_
    have isRow : rowOfId rows id = some row :=
      (rowOfId_eq_some_iff distinct).mpr ⟨sealRow, found, sameId.trans (isId.symm.trans at_)⟩
    rw [← sorted] at atPosition
    simp only [SealedSegment.lookup, range, if_neg nonempty, above, below, or_self, if_false, hit,
      bind, Except.bind, pure, Except.pure, Option.bind_some, atPosition, isRow]
  · have absent : ∀ i < (rows.map (·.externalId)).length,
        idAt (rows.map (·.externalId)) i ≠ id := by
      intro i bound same
      obtain ⟨_, _, _, atRow, isId⟩ := idAt_eq bound
      exact member (same ▸ isId ▸ List.mem_of_getElem? atRow)
    have missing : rowOfId rows id = none := by
      rw [rowOfId_eq_none_iff]
      intro row present same
      exact member (mem_map.mpr ⟨row, present, same⟩)
    have miss : Bisect.search seg.sortedId id seg.sortedRows.length 0 seg.sortedRows.length =
        .ok none := Bisect.search_miss keys length.le absent
    simp only [SealedSegment.lookup, range, missing]
    split
    case h_1 => rfl
    case h_2 =>
      split
      · rfl
      · simp only [miss, bind, Except.bind, pure, Except.pure, Option.bind_none]

end Lookup

def sealedSegment (segmentId : Nat) (rows : List SealRow) (filterable : List FilterableField)
    (dead : Bitmap) : SealedSegment where
  segId := segmentId
  vec := rows.flatMap (·.vector)
  pay := rows.flatMap (·.payload)
  ids := rows.flatMap fun r => idBytes r.externalId
  paylocs := (rows.mapIdx (columnEntry rows)).map fun r => ⟨r.payOff, r.payLen⟩
  idlocs := (rows.mapIdx (columnEntry rows)).map fun r => ⟨r.idOff, r.idLen⟩
  sortedRows := sortedRowsById (rows.map (·.externalId))
  idRange := if rows = [] then none else
    some (idAt (rows.map (·.externalId)) 0, idAt (rows.map (·.externalId)) (rows.length - 1))
  dead := dead
  sec := (segmentFiles segmentId rows filterable).sec

section Opened

variable {segmentId stride : Nat} {rows : List SealRow} {filterable : List FilterableField}
  {dead : Bitmap}

theorem readId_column {seg : SealedSegment}
    (ids : seg.ids = rows.flatMap fun r => idBytes r.externalId)
    (idlocs : seg.idlocs = (rows.mapIdx (columnEntry rows)).map fun r => ⟨r.idOff, r.idLen⟩)
    {i : Nat} {row : SealRow} (found : rows[i]? = some row) :
    seg.readId i = .ok row.externalId := by
  have located : seg.idlocs[i]? = some ⟨(columnEntry rows i row).idOff, (columnEntry rows i row).idLen⟩ := by
    simp [idlocs, found]
  have read := readRange_flatMap rows (fun r => idBytes r.externalId) found
  simp only [SealedSegment.readId, located, columnEntry, ids, read, bind, Except.bind,
    fromUTF8?_idBytes]

theorem sealedSegment_readPayload {i : Nat} {row : SealRow} (found : rows[i]? = some row) :
    (sealedSegment segmentId rows filterable dead).readPayload i = .ok row.payload := by
  have located : (sealedSegment segmentId rows filterable dead).paylocs[i]? =
      some ⟨(columnEntry rows i row).payOff, (columnEntry rows i row).payLen⟩ := by
    simp [sealedSegment, found]
  simp only [SealedSegment.readPayload, located]
  exact readRange_flatMap rows (·.payload) found

theorem sealedSegment_holds (distinct : (rows.map (·.externalId)).Nodup)
    (strides : ∀ row ∈ rows, row.vector.length = stride) :
    (sealedSegment segmentId rows filterable dead).Holds stride rows where
  rowCount := by simp [SealedSegment.rowCount, sealedSegment]
  readId := readId_column rfl rfl
  readVector := by
    intro i row found
    have offset : ((rows.take i).flatMap (·.vector)).length = i * stride := by
      obtain ⟨bound, _⟩ := List.getElem?_eq_some_iff.mp found
      have lengths : (rows.take i).map (fun r => r.vector.length) = List.replicate i stride := by
        rw [List.eq_replicate_iff]
        refine ⟨by simp; omega, ?_⟩
        intro length member
        obtain ⟨r, taken, rfl⟩ := mem_map.mp member
        exact strides r (List.mem_of_mem_take taken)
      rw [List.length_flatMap, lengths, List.sum_replicate_nat]
    have read := readRange_flatMap rows (·.vector) found
    rwa [offset, strides row (List.mem_of_getElem? found)] at read
  readPayload := sealedSegment_readPayload
  lookup := lookup_eq distinct (readId_column rfl rfl) rfl rfl
  distinct := distinct

theorem openSegment_segmentFiles :
    openSegment segmentId (segmentFiles segmentId rows filterable) dead =
      .ok (sealedSegment segmentId rows filterable dead) := by
  obtain ⟨vec, pay, ids, entries⟩ := segmentColumns_spec rows
  by_cases empty : rows = []
  · subst empty
    rfl
  · have positive : 0 < (rows.map (·.externalId)).length := by
      rw [length_map]
      exact List.length_pos_iff.mpr empty
    obtain ⟨first, firstId, atFirst, firstRow, isFirst⟩ := idAt_eq positive
    have lastBound : rows.length - 1 < (rows.map (·.externalId)).length := by
      rw [length_map] at positive ⊢
      omega
    obtain ⟨last, lastId, atLast, lastRow, isLast⟩ := idAt_eq lastBound
    have head : (sortedRowsById (rows.map (·.externalId))).head? = some first := by
      rw [List.head?_eq_getElem?, atFirst]
    have tail : (sortedRowsById (rows.map (·.externalId))).getLast? = some last := by
      rw [List.getLast?_eq_getElem?, length_sortedRowsById, length_map, atLast]
    rw [getElem?_map, Option.map_eq_some_iff] at firstRow lastRow
    obtain ⟨firstSeal, firstFound, rfl⟩ := firstRow
    obtain ⟨lastSeal, lastFound, rfl⟩ := lastRow
    simp only [openSegment, segmentFiles, vec, pay, ids, entries, ne_eq, not_true_eq_false,
      if_false, head, tail]
    rw [readId_column rfl rfl firstFound, readId_column rfl rfl lastFound]
    simp only [bind, Except.bind, pure, Except.pure, sealedSegment, if_neg empty, isFirst, isLast,
      segmentFiles]

end Opened

end Quiver.Core
