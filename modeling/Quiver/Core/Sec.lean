import Quiver.Core.CollectionReads
import Quiver.Core.Json

/-!
Secondary indexes. The key of a field orders as its value, so that an equality is a lookup and a
range a window of keys; a query returns the rows whose payloads match, as the direct evaluation
over the active buffer does.
-/

namespace Quiver.Core

open Results
open Std (ExtTreeMap TransCmp)
open Json (Value fieldValue)

inductive SecValue where
  | keyword (s : String)
  | numeric (x : BitVec 64)
  deriving DecidableEq, Repr

inductive SecPredicate where
  | eq (field : String) (value : SecValue)
  | isIn (field : String) (values : List SecValue)
  | range (field : String) (lo hi : Option SecValue) (loInclusive hiInclusive : Bool)
  deriving DecidableEq, Repr

def SecPredicate.field : SecPredicate → String
  | eq field _ | isIn field _ | range field _ _ _ _ => field

def encodeF64 (x : BitVec 64) : Bytes := Double.bigEndian 8 (Double.ordered (Double.addZero x)).toNat

theorem compare_encodeF64 (x y : BitVec 64) :
    compare (encodeF64 x) (encodeF64 y) = compare (Double.units x) (Double.units y) := by
  have bound : ∀ word : BitVec 64, word.toNat < 256 ^ 8 := fun word => word.isLt
  rw [encodeF64, encodeF64, Double.compare_bigEndian 8 (bound _) (bound _), Double.compare_ordered]

def encodeFieldValue : FieldType → Value → Option Bytes
  | .keyword, .string s => some (idBytes s)
  | .numeric, .number n => if Double.isNan n.asF64 then none else some (encodeF64 n.asF64)
  | _, _ => none

def encodeSecValue : FieldType → SecValue → Option Bytes
  | .keyword, .keyword s => some (idBytes s)
  | .numeric, .numeric x => if Double.isNan x then none else some (encodeF64 x)
  | _, _ => none

/-- Whether a key meets a bound from below, and one from above. -/
def aboveLow (fieldType : FieldType) (lo : Option SecValue) (inclusive : Bool) (key : Bytes) : Bool :=
  match lo with
  | none => true
  | some v => (encodeSecValue fieldType v).any fun l =>
      compare key l == .gt || compare key l == .eq && inclusive

def belowHigh (fieldType : FieldType) (hi : Option SecValue) (inclusive : Bool) (key : Bytes) : Bool :=
  match hi with
  | none => true
  | some v => (encodeSecValue fieldType v).any fun h =>
      compare key h == .lt || compare key h == .eq && inclusive

def keyMatches (fieldType : FieldType) (key : Bytes) : SecPredicate → Bool
  | .eq _ value => (encodeSecValue fieldType value).any (· == key)
  | .isIn _ values => values.any fun v => (encodeSecValue fieldType v).any (· == key)
  | .range _ lo hi loInclusive hiInclusive =>
    aboveLow fieldType lo loInclusive key && belowHigh fieldType hi hiInclusive key

/-- The JSON reader of payloads. -/
abbrev Parse := Bytes → Option Value

section Payloads

variable (parse : Parse)

def fieldKey (fieldType : FieldType) (path : String) (payload : Bytes) : Option Bytes :=
  ((parse payload).bind fun value => fieldValue value path).bind (encodeFieldValue fieldType)

/-- The evaluation of a predicate on one payload, for the active buffer. -/
def payloadMatches (predicate : SecPredicate) (fieldType : FieldType) (payload : Bytes) : Bool :=
  (fieldKey parse fieldType predicate.field payload).any fun key => keyMatches fieldType key predicate

/-- The index of one field: its keys in order, with the rows that hold them. -/
structure FieldIndex where
  fieldType : FieldType
  keys : ExtTreeMap Bytes Bitmap

namespace FieldIndex

def addRow (field : FilterableField) (keys : ExtTreeMap Bytes Bitmap) (payload : Bytes) (row : Nat) :
    ExtTreeMap Bytes Bitmap :=
  match fieldKey parse field.fieldType field.path payload with
  | none => keys
  | some key => keys.insert key (insert row (keys.getD key ∅))

def build (field : FilterableField) (payloads : List Bytes) : FieldIndex where
  fieldType := field.fieldType
  keys := payloads.zipIdx.foldl (fun keys (payload, row) => addRow parse field keys payload row) ∅

variable (index : FieldIndex)

def equals (value : SecValue) : Bitmap :=
  match encodeSecValue index.fieldType value with
  | none => ∅
  | some key => index.keys.getD key ∅

def start (lo : Option Bytes) (inclusive : Bool) : Nat :=
  match lo, inclusive with
  | none, _ => 0
  | some l, true => Bisect.partitionPoint (fun e : Bytes × Bitmap => compare e.1 l == .lt) index.keys.toList
  | some l, false => Bisect.partitionPoint (fun e : Bytes × Bitmap => compare e.1 l != .gt) index.keys.toList

def stop (hi : Option Bytes) (inclusive : Bool) : Nat :=
  match hi, inclusive with
  | none, _ => index.keys.toList.length
  | some h, true => Bisect.partitionPoint (fun e : Bytes × Bitmap => compare e.1 h != .gt) index.keys.toList
  | some h, false => Bisect.partitionPoint (fun e : Bytes × Bitmap => compare e.1 h == .lt) index.keys.toList

def window (lo hi : Option Bytes) (loInclusive hiInclusive : Bool) : List (Bytes × Bitmap) :=
  (index.keys.toList.drop (index.start lo loInclusive)).take (index.stop hi hiInclusive - index.start lo loInclusive)

def encodeBound (fieldType : FieldType) : Option SecValue → Option (Option Bytes)
  | none => some none
  | some v => (encodeSecValue fieldType v).map some

def range (lo hi : Option SecValue) (loInclusive hiInclusive : Bool) : Bitmap :=
  match encodeBound index.fieldType lo, encodeBound index.fieldType hi with
  | some lo, some hi => (index.window lo hi loInclusive hiInclusive).foldl (fun out e => out ∪ e.2) ∅
  | _, _ => ∅

def query : SecPredicate → Bitmap
  | .eq _ value => index.equals value
  | .isIn _ values => values.foldl (fun out value => out ∪ index.equals value) ∅
  | .range _ lo hi loInclusive hiInclusive => index.range lo hi loInclusive hiInclusive

end FieldIndex

/-- The rows that match, `none` if the field is not indexed. -/
def SecIndex.query (sec : SecIndex) (predicate : SecPredicate) : Option Bitmap :=
  (sec.filterable.find? fun f => f.path == predicate.field).map fun f =>
    (FieldIndex.build parse f sec.payloads).query predicate

def SealedSegment.secQuery (seg : SealedSegment) (predicate : SecPredicate) : Option Bitmap :=
  seg.sec.bind fun sec => sec.query parse predicate

namespace CollectionState

def segmentMatches (c : CollectionState) (seg : SealedSegment) (segIdx : Nat) (predicate : SecPredicate) :
    Except CoreError (List String) :=
  match seg.secQuery parse predicate with
  | none => .ok []
  | some rows => do
    let ids ← (rows.iter.filter fun row => !c.sealedDead segIdx row).mapM seg.readId
    return ids.filter fun id => !c.activeIndex.contains id

def activeMatches (c : CollectionState) (predicate : SecPredicate) (fieldType : FieldType) : List String :=
  (c.activeIndex.toList.filter fun (_, row) =>
    (c.active[row]?).any fun a => payloadMatches parse predicate fieldType a.payload).map Prod.fst

def matchingIds (c : CollectionState) (predicate : SecPredicate) : Except CoreError (List String) :=
  match c.descriptor.filterable.find? fun f => f.path == predicate.field with
  | none => .error (.invalidArgument s!"field {predicate.field} is not filterable")
  | some f => do
    let sealed ← c.sealed.zipIdx.mapM fun (seg, segIdx) => c.segmentMatches parse seg segIdx predicate
    return ((sealed.flatten ++ c.activeMatches parse predicate f.fieldType).insertionSort (· ≤ ·)).dedup

end CollectionState

end Payloads

section Agreement

variable {parse : Parse}

theorem mem_foldl_union {α : Type} {g : α → Bitmap} {row : Nat} (l : List α) (start : Bitmap) :
    row ∈ l.foldl (fun out a => out ∪ g a) start ↔ row ∈ start ∨ ∃ a ∈ l, row ∈ g a := by
  induction l generalizing start with
  | nil => simp
  | cons a l ih =>
    rw [List.foldl_cons, ih, Finset.mem_union]
    simp [or_assoc]

theorem mem_slice {α : Type} {l : List α} {start stop : Nat} {a : α} :
    a ∈ (l.drop start).take (stop - start) ↔ ∃ i, start ≤ i ∧ i < stop ∧ l[i]? = some a := by
  rw [List.mem_iff_getElem?]
  constructor
  · rintro ⟨i, here⟩
    rw [List.getElem?_take] at here
    split at here
    · rename_i bound
      rw [List.getElem?_drop] at here
      exact ⟨start + i, Nat.le_add_right .., by omega, here⟩
    · contradiction
  · rintro ⟨i, low, high, here⟩
    refine ⟨i - start, ?_⟩
    rw [List.getElem?_take_of_lt (by omega), List.getElem?_drop, Nat.add_sub_cancel' low, here]

namespace FieldIndex

theorem mem_build (field : FilterableField) (payloads : List Bytes) (key : Bytes) (row : Nat) :
    row ∈ (build parse field payloads).keys.getD key ∅ ↔
      ∃ payload, payloads[row]? = some payload ∧ fieldKey parse field.fieldType field.path payload = some key := by
  induction payloads using List.reverseRecOn with
  | nil => simp [build]
  | append_singleton payloads last ih =>
    have grown : (build parse field (payloads ++ [last])).keys =
        addRow parse field (build parse field payloads).keys last payloads.length := by
      simp [build, List.zipIdx_append]
    have split : (∃ payload, (payloads ++ [last])[row]? = some payload ∧
          fieldKey parse field.fieldType field.path payload = some key) ↔
        (∃ payload, payloads[row]? = some payload ∧ fieldKey parse field.fieldType field.path payload = some key) ∨
          row = payloads.length ∧ fieldKey parse field.fieldType field.path last = some key := by
      rcases Nat.lt_trichotomy row payloads.length with inside | rfl | outside
      · rw [List.getElem?_append_left inside]
        simp [inside.ne]
      · simp
      · have longer : (payloads ++ [last]).length ≤ row := by
          rw [List.length_append, List.length_singleton]
          exact outside
        rw [List.getElem?_eq_none longer, List.getElem?_eq_none outside.le]
        simp [outside.ne']
    rw [grown, split, ← ih, addRow]
    cases found : fieldKey parse field.fieldType field.path last with
    | none => simp
    | some own =>
      simp only [ExtTreeMap.getD_insert, Option.some.injEq]
      by_cases same : own = key
      · subst same
        simp [Finset.mem_insert, or_comm]
      · have differ : compare own key ≠ .eq := fun equal => same (Std.LawfulEqCmp.eq_of_compare equal)
        simp [differ, same]

variable {index : FieldIndex} {row : Nat}

theorem mem_equals {value : SecValue} : row ∈ index.equals value ↔
    ∃ key, row ∈ index.keys.getD key ∅ ∧ (encodeSecValue index.fieldType value).any (· == key) = true := by
  rw [equals]
  cases encodeSecValue index.fieldType value with
  | none => simp
  | some key => simp

theorem mem_getD {key : Bytes} : row ∈ index.keys.getD key ∅ ↔ ∃ rows, (key, rows) ∈ index.keys.toList ∧ row ∈ rows := by
  simp only [ExtTreeMap.mem_toList_iff_getElem?_eq_some, ExtTreeMap.getD_eq_getD_getElem?]
  cases index.keys[key]? with
  | none => simp
  | some rows => simp

theorem keys_closed (l : Bytes) :
    (index.keys.toList.Pairwise fun a b => (compare b.1 l == .lt) = true → (compare a.1 l == .lt) = true) ∧
      index.keys.toList.Pairwise fun a b => (compare b.1 l != .gt) = true → (compare a.1 l != .gt) = true := by
  have sorted := ExtTreeMap.ordered_keys_toList (t := index.keys)
  refine ⟨sorted.imp fun {a b} less below => ?_, sorted.imp fun {a b} less below => ?_⟩
  · rw [beq_iff_eq] at below ⊢
    exact TransCmp.lt_trans less below
  · rw [bne_iff_ne] at below ⊢
    have lower : (compare a.1 l).isLE :=
      TransCmp.isLE_trans (Ordering.isLE_of_eq_lt less) (Ordering.isLE_iff_ne_gt.mpr below)
    exact Ordering.isLE_iff_ne_gt.mp lower

variable {e : Bytes × Bitmap}

theorem start_le {lo : Option Bytes} {inclusive : Bool} {i : Nat}
    (here : index.keys.toList[i]? = some e) : index.start lo inclusive ≤ i ↔
      (lo.all fun l => compare e.1 l == .gt || compare e.1 l == .eq && inclusive) = true := by
  cases lo with
  | none => simp [start]
  | some l =>
    cases inclusive with
    | true =>
      have point := Bisect.lt_partitionPoint (keys_closed l).1 here
      rw [start, ← Nat.not_lt, point]
      cases order : compare e.1 l <;> simp [order]
    | false =>
      have point := Bisect.lt_partitionPoint (keys_closed l).2 here
      rw [start, ← Nat.not_lt, point]
      cases order : compare e.1 l <;> simp [order]

theorem lt_stop {hi : Option Bytes} {inclusive : Bool} {i : Nat}
    (here : index.keys.toList[i]? = some e) : i < index.stop hi inclusive ↔
      (hi.all fun h => compare e.1 h == .lt || compare e.1 h == .eq && inclusive) = true := by
  cases hi with
  | none => simpa [stop] using (List.getElem?_eq_some_iff.mp here).1
  | some h =>
    cases inclusive with
    | true =>
      have point := Bisect.lt_partitionPoint (keys_closed h).2 here
      rw [stop, point]
      cases order : compare e.1 h <;> simp [order]
    | false =>
      have point := Bisect.lt_partitionPoint (keys_closed h).1 here
      rw [stop, point]
      cases order : compare e.1 h <;> simp [order]

theorem mem_window {lo hi : Option Bytes} {loInclusive hiInclusive : Bool} :
    e ∈ index.window lo hi loInclusive hiInclusive ↔ e ∈ index.keys.toList ∧
      (lo.all fun l => compare e.1 l == .gt || compare e.1 l == .eq && loInclusive) = true ∧
      (hi.all fun h => compare e.1 h == .lt || compare e.1 h == .eq && hiInclusive) = true := by
  rw [window, mem_slice]
  constructor
  · rintro ⟨i, low, high, here⟩
    exact ⟨List.mem_of_getElem? here, (start_le here).mp low, (lt_stop here).mp high⟩
  · rintro ⟨member, above, below⟩
    obtain ⟨i, here⟩ := List.mem_iff_getElem?.mp member
    exact ⟨i, (start_le here).mpr above, (lt_stop here).mpr below, here⟩

theorem mem_range {lo hi : Option SecValue} {loInclusive hiInclusive : Bool} :
    row ∈ index.range lo hi loInclusive hiInclusive ↔ ∃ key, row ∈ index.keys.getD key ∅ ∧
      (aboveLow index.fieldType lo loInclusive key && belowHigh index.fieldType hi hiInclusive key) = true := by
  have low : ∀ key, aboveLow index.fieldType lo loInclusive key = (encodeBound index.fieldType lo).any fun bound =>
      bound.all fun l => compare key l == .gt || compare key l == .eq && loInclusive := by
    intro key
    cases lo with
    | none => rfl
    | some v => cases isKey : encodeSecValue index.fieldType v <;> simp [aboveLow, encodeBound, isKey]
  have high : ∀ key, belowHigh index.fieldType hi hiInclusive key = (encodeBound index.fieldType hi).any fun bound =>
      bound.all fun h => compare key h == .lt || compare key h == .eq && hiInclusive := by
    intro key
    cases hi with
    | none => rfl
    | some v => cases isKey : encodeSecValue index.fieldType v <;> simp [belowHigh, encodeBound, isKey]
  simp only [low, high, Bool.and_eq_true]
  rw [range]
  split
  · rename_i l h isLow isHigh
    rw [mem_foldl_union, isLow, isHigh]
    simp only [Finset.notMem_empty, false_or, Prod.exists, mem_window, mem_getD, Option.any_some]
    constructor
    · rintro ⟨key, rows, ⟨member, above, below⟩, inside⟩
      exact ⟨key, ⟨rows, member, inside⟩, above, below⟩
    · rintro ⟨key, ⟨rows, member, inside⟩, above, below⟩
      exact ⟨key, rows, ⟨member, above, below⟩, inside⟩
  · rename_i fails
    simp only [Finset.notMem_empty, false_iff, Option.any_eq_true]
    rintro ⟨key, _, ⟨l, isLow, _⟩, h, isHigh, _⟩
    exact fails l h isLow isHigh

theorem mem_query {predicate : SecPredicate} : row ∈ index.query predicate ↔
    ∃ key, row ∈ index.keys.getD key ∅ ∧ keyMatches index.fieldType key predicate = true := by
  cases predicate with
  | eq => exact mem_equals
  | isIn field values =>
    rw [query, mem_foldl_union]
    simp only [Finset.notMem_empty, false_or, mem_equals, keyMatches, List.any_eq_true]
    constructor
    · rintro ⟨value, member, key, inside, same⟩
      exact ⟨key, inside, value, member, same⟩
    · rintro ⟨key, inside, value, member, same⟩
      exact ⟨value, member, key, inside, same⟩
  | range => exact mem_range

/-- Keys of numbers compare as the numbers do, and a range takes the rows of the keys inside its bounds. -/
theorem range_orders_numbers {x y : BitVec 64} (number : Double.isNan x = false) (number' : Double.isNan y = false) :
    some (compare (encodeF64 x) (encodeF64 y)) = Double.partialCmp x y ∧
    (encodeF64 x = encodeF64 y ↔ Double.partialCmp x y = some .eq) ∧
    (∀ inclusive, (aboveLow .numeric (some (.numeric y)) inclusive (encodeF64 x) = true ↔
        Double.partialCmp x y = some .gt ∨ Double.partialCmp x y = some .eq ∧ inclusive = true) ∧
      (belowHigh .numeric (some (.numeric y)) inclusive (encodeF64 x) = true ↔
        Double.partialCmp x y = some .lt ∨ Double.partialCmp x y = some .eq ∧ inclusive = true)) ∧
    ∀ (index : FieldIndex) (lo hi : Option SecValue) (loInclusive hiInclusive : Bool) (row : Nat),
      row ∈ index.range lo hi loInclusive hiInclusive ↔ ∃ key rows, (key, rows) ∈ index.keys.toList ∧ row ∈ rows ∧
        aboveLow index.fieldType lo loInclusive key = true ∧ belowHigh index.fieldType hi hiInclusive key = true := by
  have compared : Double.partialCmp x y = some (compare (encodeF64 x) (encodeF64 y)) := by
    simp [Double.partialCmp, number, number', compare_encodeF64]
  refine ⟨compared.symm, ?_, fun inclusive => ?_, fun index lo hi loInclusive hiInclusive row => ?_⟩
  · rw [compared, Option.some.injEq, Std.LawfulEqCmp.compare_eq_iff_eq]
  · simp [aboveLow, belowHigh, encodeSecValue, number', compared]
  · simp only [mem_range, mem_getD, Bool.and_eq_true]
    constructor
    · rintro ⟨key, ⟨rows, held, member⟩, inside⟩
      exact ⟨key, rows, held, member, inside⟩
    · rintro ⟨key, rows, held, member, inside⟩
      exact ⟨key, ⟨rows, held, member⟩, inside⟩

theorem range_orders_numbers_zeros : some (compare (encodeF64 0#64) (encodeF64 (1#64 <<< 63))) = some .eq :=
  (range_orders_numbers (by decide) (by decide)).1

end FieldIndex

theorem SecIndex.mem_query {sec : SecIndex} {predicate : SecPredicate} {field : FilterableField}
    (found : (sec.filterable.find? fun f => f.path == predicate.field) = some field) {rows : Bitmap}
    (answered : sec.query parse predicate = some rows) (row : Nat) :
    row ∈ rows ↔ ∃ payload, sec.payloads[row]? = some payload ∧
      payloadMatches parse predicate field.fieldType payload = true := by
  rw [SecIndex.query, found, Option.map_some, Option.some.injEq] at answered
  have isPath : field.path = predicate.field := by simpa using List.find?_some found
  rw [← answered, FieldIndex.mem_query]
  simp only [FieldIndex.mem_build, payloadMatches, Option.any_eq_true, isPath]
  constructor
  · rintro ⟨key, ⟨payload, here, hasKey⟩, holds⟩
    exact ⟨payload, here, key, hasKey, holds⟩
  · rintro ⟨payload, here, key, hasKey, holds⟩
    exact ⟨key, ⟨payload, here, hasKey⟩, holds⟩

end Agreement

/-- Every segment's index is over the collection's fields and the segment's rows. -/
def CollectionState.Indexed (c : CollectionState) (rows : List (List SealRow)) : Prop :=
  ∀ (segIdx : Nat) (seg : SealedSegment) (ids : List SealRow), c.sealed[segIdx]? = some seg →
    rows[segIdx]? = some ids → seg.sec = (segmentFiles seg.segId ids c.descriptor.filterable).sec

/-- The collection stands for this map, with its indexes built. -/
def CollectionState.Answers (c : CollectionState) (m : ExtTreeMap String Record) : Prop :=
  ∃ rows, c.Inv rows ∧ c.Indexed rows ∧ ∀ id record, m[id]? = some record ↔ c.Contains rows id record

section Matching

variable {parse : Parse} {c : CollectionState} {rows : List (List SealRow)} {predicate : SecPredicate}
  {field : FilterableField}

theorem Bitmap.mem_iter {bitmap : Bitmap} {row : Nat} : row ∈ bitmap.iter ↔ row ∈ bitmap := by
  rw [Bitmap.iter, List.mem_filter, List.mem_range, decide_eq_true_eq]
  exact ⟨And.right, fun member => ⟨Nat.lt_succ_of_le (Finset.le_sup (f := id) member), member⟩⟩

theorem CollectionState.Inv.segmentMatches (inv : c.Inv rows) (indexed : c.Indexed rows)
    (found : (c.descriptor.filterable.find? fun f => f.path == predicate.field) = some field)
    {seg : SealedSegment} {segIdx : Nat} (isSeg : c.sealed[segIdx]? = some seg) :
    ∃ ids, c.segmentMatches parse seg segIdx predicate = .ok ids ∧ ∀ id, id ∈ ids ↔ ∃ row r,
      c.LiveAt rows segIdx row r ∧ r.externalId = id ∧ payloadMatches parse predicate field.fieldType r.payload = true := by
  obtain ⟨stored, atSeg, holds⟩ := inv.rowsAt isSeg
  have declared : c.descriptor.filterable.isEmpty = false := by
    cases isFields : c.descriptor.filterable with
    | nil => simp [isFields] at found
    | cons => rfl
  have isSec : seg.sec = some ⟨c.descriptor.filterable, stored.map (·.payload)⟩ := by
    rw [indexed segIdx seg stored isSeg atSeg, segmentFiles]
    simp [declared]
  obtain ⟨bitmap, answered⟩ : ∃ bitmap, (⟨c.descriptor.filterable, stored.map (·.payload)⟩ : SecIndex).query parse predicate =
      some bitmap := ⟨_, by rw [SecIndex.query, found, Option.map_some]⟩
  have rowsOf := SecIndex.mem_query found answered
  have inside : ∀ row ∈ bitmap, ∃ r, stored[row]? = some r ∧
      payloadMatches parse predicate field.fieldType r.payload = true := by
    intro row member
    obtain ⟨payload, here, isMatch⟩ := (rowsOf row).mp member
    obtain ⟨r, isRow, rfl⟩ := Option.map_eq_some_iff.mp (List.getElem?_map ▸ here)
    exact ⟨r, isRow, isMatch⟩
  have reads : (bitmap.iter.filter fun row => !c.sealedDead segIdx row).mapM seg.readId =
      .ok ((bitmap.iter.filter fun row => !c.sealedDead segIdx row).map fun row =>
        ((stored[row]?).map (·.externalId)).getD "") := by
    refine mapM_ok fun row member => ?_
    obtain ⟨r, isRow, _⟩ := inside row (Bitmap.mem_iter.mp (List.mem_of_mem_filter member))
    rw [holds.readId isRow, isRow]
    rfl
  refine ⟨_, by
    rw [CollectionState.segmentMatches, SealedSegment.secQuery, isSec, Option.bind_some, answered]
    simp only [reads, ok_bind, pure_eq_ok]
    rfl, fun id => ?_⟩
  simp only [List.mem_filter, List.mem_map, Bitmap.mem_iter]
  constructor
  · rintro ⟨⟨row, ⟨member, alive⟩, isId⟩, _⟩
    obtain ⟨r, isRow, isMatch⟩ := inside row member
    rw [isRow] at isId
    exact ⟨row, r, ⟨cell_eq_some.mpr ⟨stored, atSeg, isRow⟩, by simpa using alive⟩, isId, isMatch⟩
  · rintro ⟨row, r, live, rfl, isMatch⟩
    obtain ⟨stored', atSeg', isRow⟩ := cell_eq_some.mp live.stored
    rw [atSeg] at atSeg'
    cases atSeg'
    refine ⟨⟨row, ⟨(rowsOf row).mpr ⟨r.payload, by simp [isRow], isMatch⟩, by simp [live.alive]⟩, by simp [isRow]⟩, ?_⟩
    rw [ExtTreeMap.contains_eq_isSome_getElem?, inv.notActive live]
    rfl

theorem CollectionState.Inv.matchingIds (inv : c.Inv rows) (indexed : c.Indexed rows)
    (found : (c.descriptor.filterable.find? fun f => f.path == predicate.field) = some field) :
    ∃ ids, c.matchingIds parse predicate = .ok ids ∧ ∀ id, id ∈ ids ↔ ∃ record,
      c.Contains rows id record ∧ payloadMatches parse predicate field.fieldType record.payload = true := by
  have each : ∀ e ∈ c.sealed.zipIdx, ∃ ids, c.segmentMatches parse e.1 e.2 predicate = .ok ids ∧ ∀ id, id ∈ ids ↔
      ∃ row r, c.LiveAt rows e.2 row r ∧ r.externalId = id ∧
        payloadMatches parse predicate field.fieldType r.payload = true := fun e member =>
    inv.segmentMatches indexed found (List.mem_zipIdx_iff_getElem?.mp member)
  choose! idsOf spec using each
  have sealed : c.sealed.zipIdx.mapM (fun (seg, segIdx) => c.segmentMatches parse seg segIdx predicate) =
      .ok (c.sealed.zipIdx.map idsOf) := mapM_ok fun e member => (spec e member).1
  refine ⟨_, by
    rw [CollectionState.matchingIds, found]
    simp only [sealed, ok_bind, pure_eq_ok]
    rfl, fun id => ?_⟩
  rw [List.mem_dedup, List.mem_insertionSort, List.mem_append, List.mem_flatten]
  constructor
  · rintro (⟨_, isIds, inside⟩ | active)
    · obtain ⟨e, member, rfl⟩ := List.mem_map.mp isIds
      obtain ⟨row, r, live, isId, isMatch⟩ := ((spec e member).2 id).mp inside
      exact ⟨r.record, .sealed live isId, isMatch⟩
    · rw [CollectionState.activeMatches, List.mem_map] at active
      obtain ⟨⟨_, row⟩, listed, rfl⟩ := active
      obtain ⟨isActive, isMatch⟩ := List.mem_filter.mp listed
      obtain ⟨a, atRow, isMatch⟩ := (Option.any_eq_true ..).mp isMatch
      exact ⟨a.record, .active (ExtTreeMap.mem_toList_iff_getElem?_eq_some.mp isActive) atRow, isMatch⟩
  · rintro ⟨record, contains, isMatch⟩
    cases contains with
    | @active row a isActive atRow =>
      right
      rw [CollectionState.activeMatches, List.mem_map]
      refine ⟨(id, row), List.mem_filter.mpr ⟨ExtTreeMap.mem_toList_iff_getElem?_eq_some.mpr isActive, ?_⟩, rfl⟩
      exact (Option.any_eq_true ..).mpr ⟨a, atRow, isMatch⟩
    | @sealed seg row r live isId =>
      left
      obtain ⟨stored, atSeg, _⟩ := cell_eq_some.mp live.stored
      obtain ⟨segment, isSeg, _⟩ := inv.heldAt atSeg
      have member : (segment, seg) ∈ c.sealed.zipIdx := List.mem_zipIdx_iff_getElem?.mpr isSeg
      exact ⟨_, List.mem_map_of_mem member, ((spec _ member).2 id).mpr ⟨row, r, live, isId, isMatch⟩⟩

end Matching

end Quiver.Core
