import Quiver.Base.Results
import Quiver.Core.Collection
import Quiver.Core.SegmentProofs

/-!
The map from external ids to records that a collection stands for. A sealed row is live when neither
its segment nor this window tombstoned it; its id is then in no newer segment and not in the active
buffer, so stopping at the first segment that holds an id is right.
-/

namespace Quiver.Core

open Results
open Std (ExtTreeMap)

def SealRow.record (row : SealRow) : Record := ⟨leBytesToF32 row.vector, row.payload⟩

/-- The row stored at a position, given the rows of each segment. -/
def cell (rows : List (List SealRow)) (seg row : Nat) : Option SealRow :=
  (rows[seg]?).bind (·[row]?)

namespace CollectionState

/-- A stored row that no tombstone covers. -/
structure LiveAt (c : CollectionState) (rows : List (List SealRow)) (seg row : Nat) (r : SealRow) :
    Prop where
  stored : cell rows seg row = some r
  alive : c.sealedDead seg row = false

/-- What every operation keeps, for the rows the sealed segments hold. -/
structure Inv (c : CollectionState) (rows : List (List SealRow)) : Prop where
  held : List.Forall₂ (fun seg ids => seg.Holds c.stride ids) c.sealed rows
  notActive : ∀ {seg row r}, c.LiveAt rows seg row r → c.activeIndex[r.externalId]? = none
  newest : ∀ {seg row r later ids}, c.LiveAt rows seg row r → seg < later →
    rows[later]? = some ids → rowOfId ids r.externalId = none
  activeRows : ∀ {id : String} {row : Nat}, c.activeIndex[id]? = some row → row < c.active.length
  activeStride : ∀ a ∈ c.active, a.vector.length = c.stride
  sealedStride : ∀ ids ∈ rows, ∀ r ∈ ids, r.vector.length = c.stride
  window : ∀ {seg row}, row ∈ c.windowDead seg →
    ∃ s, c.sealed[seg]? = some s ∧ row < s.rowCount ∧ row ∉ s.dead
  dead : ∀ s ∈ c.sealed, ∀ row ∈ s.dead, row < s.rowCount

/-- The id's record, in the active buffer or in a live sealed row. -/
inductive Contains (c : CollectionState) (rows : List (List SealRow)) (id : String) :
    Record → Prop
  | active {row a} : c.activeIndex[id]? = some row → c.active[row]? = some a →
      Contains c rows id a.record
  | sealed {seg row r} : c.LiveAt rows seg row r → r.externalId = id → Contains c rows id r.record

/-- The collection stands for this map. -/
def Represents (c : CollectionState) (m : ExtTreeMap String Record) : Prop :=
  ∃ rows, c.Inv rows ∧ ∀ id record, m[id]? = some record ↔ c.Contains rows id record

variable {c : CollectionState} {rows : List (List SealRow)}

theorem Inv.heldAt (inv : c.Inv rows) {seg : Nat} {ids : List SealRow} (found : rows[seg]? = some ids) :
    ∃ s, c.sealed[seg]? = some s ∧ s.Holds c.stride ids := by
  obtain ⟨bound, rfl⟩ := List.getElem?_eq_some_iff.mp found
  have length := inv.held.length_eq
  exact ⟨c.sealed[seg], by simp, List.forall₂_iff_get.mp inv.held |>.2 seg (by omega) bound⟩

theorem Inv.rowsAt (inv : c.Inv rows) {seg : Nat} {s : SealedSegment} (found : c.sealed[seg]? = some s) :
    ∃ ids, rows[seg]? = some ids ∧ s.Holds c.stride ids := by
  obtain ⟨bound, rfl⟩ := List.getElem?_eq_some_iff.mp found
  have length := inv.held.length_eq
  exact ⟨rows[seg], by simp, List.forall₂_iff_get.mp inv.held |>.2 seg bound (by omega)⟩

/-- What `locate` returns for an id. -/
inductive Located (c : CollectionState) (rows : List (List SealRow)) (id : String) :
    Option Loc → Prop
  | active {row} : c.activeIndex[id]? = some row → Located c rows id (some (.active row))
  | sealed {seg row r} : c.activeIndex[id]? = none → c.LiveAt rows seg row r → r.externalId = id →
      Located c rows id (some (.sealed seg row))
  | absent : c.activeIndex[id]? = none → (∀ {seg row r}, c.LiveAt rows seg row r → r.externalId ≠ id) →
      Located c rows id none

/-- The newest segment below `count` that holds the id decides. -/
theorem locateSealed_eq (inv : c.Inv rows) (id : String) {count : Nat}
    (bound : count ≤ c.sealed.length) :
    (∃ seg row r, cell rows seg row = some r ∧ r.externalId = id ∧
      (∀ later ids, seg < later → later < count → rows[later]? = some ids →
        rowOfId ids id = none) ∧
      c.locateSealed id count =
        .ok (if c.sealedDead seg row then none else some (.sealed seg row))) ∨
    (∀ seg ids, seg < count → rows[seg]? = some ids → rowOfId ids id = none) ∧
      c.locateSealed id count = .ok none := by
  induction count with
  | zero => exact .inr ⟨by omega, rfl⟩
  | succ count ih =>
    obtain ⟨ids, found, holds⟩ := inv.rowsAt (List.getElem?_eq_getElem (show count < c.sealed.length by omega))
    have step : c.locateSealed id (count + 1) = (rowOfId ids id).elim (c.locateSealed id count) fun row =>
        .ok (if c.sealedDead count row then none else some (.sealed count row)) := by
      simp only [locateSealed, List.getElem?_eq_getElem (show count < c.sealed.length by omega),
        holds.lookup, ok_bind]
      cases rowOfId ids id with
      | none => rfl
      | some row => rfl
    cases hit : rowOfId ids id with
    | some row =>
      obtain ⟨r, atRow, isId⟩ := rowOfId_sound hit
      refine .inl ⟨count, row, r, by simp [cell, found, atRow], isId, by omega, ?_⟩
      rw [step, hit]
      rfl
    | none =>
      rw [step, hit]
      obtain ⟨seg, row, r, stored, isId, later, located⟩ | ⟨absent, located⟩ := ih (by omega)
      · refine .inl ⟨seg, row, r, stored, isId, fun other otherIds after below otherFound => ?_, located⟩
        obtain rfl | below := Nat.eq_or_lt_of_le (Nat.lt_succ_iff.mp below)
        · exact Option.some.inj (found.symm.trans otherFound) ▸ hit
        · exact later other otherIds after below otherFound
      · refine .inr ⟨fun other otherIds below otherFound => ?_, located⟩
        obtain rfl | below := Nat.eq_or_lt_of_le (Nat.lt_succ_iff.mp below)
        · exact Option.some.inj (found.symm.trans otherFound) ▸ hit
        · exact absent other otherIds below otherFound

variable {seg row : Nat} {r : SealRow} {m : ExtTreeMap String Record} {id : String} {vector payload : Bytes}
  {loc : Option Loc} {record : Record}

theorem cell_eq_some :
    cell rows seg row = some r ↔ ∃ ids, rows[seg]? = some ids ∧ ids[row]? = some r := by
  simp [cell, Option.bind_eq_some_iff]

section

variable (inv : c.Inv rows)
include inv

theorem Inv.rowOfId_cell
    (stored : cell rows seg row = some r) :
    ∃ ids, rows[seg]? = some ids ∧ rowOfId ids r.externalId = some row := by
  obtain ⟨ids, found, atRow⟩ := cell_eq_some.mp stored
  obtain ⟨s, _, holds⟩ := inv.heldAt found
  exact ⟨ids, found, (rowOfId_eq_some_iff holds.distinct).mpr ⟨r, atRow, rfl⟩⟩

/-- Within the invariant every id resolves, to its only live location. -/
theorem Inv.locate (id : String) :
    ∃ loc, c.locate id = .ok loc ∧ c.Located rows id loc := by
  cases inActive : c.activeIndex[id]? with
  | some row => exact ⟨_, by simp [CollectionState.locate, inActive], .active inActive⟩
  | none =>
    simp only [CollectionState.locate, inActive]
    obtain ⟨seg, row, r, stored, isId, later, located⟩ | ⟨absent, located⟩ :=
      locateSealed_eq inv id (Nat.le_refl _)
    · refine ⟨_, located, ?_⟩
      cases isDead : c.sealedDead seg row with
      | false => exact .sealed inActive ⟨stored, isDead⟩ isId
      | true =>
        refine .absent inActive ?_
        -- A live holder is neither this dead row, nor older, nor newer.
        intro other otherRow otherR live sameId
        obtain ⟨ids, found, atRow⟩ := inv.rowOfId_cell live.stored
        obtain ⟨holders, heldHere, atHere⟩ := inv.rowOfId_cell stored
        obtain older | rfl | newer := Nat.lt_trichotomy other seg
        · have := inv.newest live older heldHere
          rw [sameId, ← isId, atHere] at this
          contradiction
        · rw [found] at heldHere
          obtain rfl := Option.some.inj heldHere
          rw [sameId, ← isId, atHere] at atRow
          obtain rfl := Option.some.inj atRow
          exact absurd live.alive (by simp [isDead])
        · have bound := (List.getElem?_eq_some_iff.mp found).1
          rw [← inv.held.length_eq] at bound
          have := later other ids newer bound found
          rw [← sameId, atRow] at this
          contradiction
    · refine ⟨_, located, .absent inActive ?_⟩
      intro seg row r live sameId
      obtain ⟨ids, found, atRow⟩ := inv.rowOfId_cell live.stored
      have bound := (List.getElem?_eq_some_iff.mp found).1
      rw [← inv.held.length_eq] at bound
      have := absent seg ids bound found
      rw [← sameId, atRow] at this
      contradiction

theorem Inv.live_unique {seg row seg' row' : Nat} {r r' : SealRow}
    (live : c.LiveAt rows seg row r) (live' : c.LiveAt rows seg' row' r')
    (sameId : r.externalId = r'.externalId) : seg = seg' ∧ row = row' := by
  obtain ⟨ids, found, atRow⟩ := inv.rowOfId_cell live.stored
  obtain ⟨ids', found', atRow'⟩ := inv.rowOfId_cell live'.stored
  obtain older | rfl | newer := Nat.lt_trichotomy seg seg'
  · have := inv.newest live older found'
    rw [sameId, atRow'] at this
    contradiction
  · rw [found] at found'
    obtain rfl := Option.some.inj found'
    rw [sameId, atRow'] at atRow
    exact ⟨rfl, (Option.some.inj atRow).symm⟩
  · have := inv.newest live' newer found
    rw [← sameId, atRow] at this
    contradiction

theorem Inv.recordAt_sealed
    (stored : cell rows seg row = some r) : c.recordAt (.sealed seg row) = .ok r.record := by
  obtain ⟨ids, found, atRow⟩ := cell_eq_some.mp stored
  obtain ⟨s, sealed, holds⟩ := inv.heldAt found
  simp only [recordAt, sealed, holds.readVector atRow, holds.readPayload atRow, ok_bind]
  rfl

theorem Inv.payloadAt_sealed
    (stored : cell rows seg row = some r) : c.payloadAt (.sealed seg row) = .ok r.payload := by
  obtain ⟨ids, found, atRow⟩ := cell_eq_some.mp stored
  obtain ⟨s, sealed, holds⟩ := inv.heldAt found
  simp only [payloadAt, sealed, holds.readPayload atRow]

theorem Inv.activeAt {row : Nat}
    (found : c.activeIndex[id]? = some row) : ∃ a, c.active[row]? = some a :=
  ⟨_, List.getElem?_eq_getElem (inv.activeRows found)⟩

end

theorem missing_of_absent {m : ExtTreeMap String Record} {id : String}
    (content : ∀ id record, m[id]? = some record ↔ c.Contains rows id record) (notActive : c.activeIndex[id]? = none)
    (noLive : ∀ {seg row r}, c.LiveAt rows seg row r → r.externalId ≠ id) : m[id]? = none := by
  rw [Option.eq_none_iff_forall_ne_some]
  intro record present
  cases (content id record).mp present with
  | active found _ => simp [notActive] at found
  | sealed live isId => exact noLive live isId

/-- An id is held if and only if it is located. -/
theorem Inv.contains_eq_isSome {m : ExtTreeMap String Record} {id : String} {loc : Option Loc} (inv : c.Inv rows)
    (content : ∀ id record, m[id]? = some record ↔ c.Contains rows id record) (located : c.Located rows id loc) :
    m.contains id = loc.isSome := by
  rw [ExtTreeMap.contains_eq_isSome_getElem?]
  cases located with
  | active found =>
    obtain ⟨a, atRow⟩ := inv.activeAt found
    rw [(content id _).mpr (.active found atRow)]
    rfl
  | sealed _ live isId =>
    rw [(content id _).mpr (.sealed live isId)]
    rfl
  | absent notActive noLive =>
    rw [missing_of_absent content notActive noLive]
    rfl

theorem Represents.get (represents : c.Represents m) (id : String) :
    c.get id = .ok m[id]? := by
  obtain ⟨rows, inv, content⟩ := represents
  obtain ⟨loc, located, spec⟩ := inv.locate id
  simp only [CollectionState.get, located, ok_bind]
  cases spec with
  | active found =>
    obtain ⟨a, atRow⟩ := inv.activeAt found
    rw [(content id _).mpr (.active found atRow)]
    simp [recordAt, atRow]
  | sealed _ live isId =>
    rw [(content id _).mpr (.sealed live isId)]
    simp [inv.recordAt_sealed live.stored]
  | absent notActive noLive =>
    rw [missing_of_absent content notActive noLive]
    rfl

theorem windowDead_markDead (c : CollectionState) (seg row other : Nat) :
    (c.markDead seg row).windowDead other =
      if other = seg then insert row (c.windowDead seg) else c.windowDead other := by
  simp only [markDead, windowDead, ExtTreeMap.getD_insert, Nat.compare_eq_eq]
  by_cases same : seg = other
  · simp [same]
  · simp [same, Ne.symm same]

theorem sealedDead_markDead (c : CollectionState) (seg row seg' row' : Nat) :
    (c.markDead seg row).sealedDead seg' row' =
      (c.sealedDead seg' row' || decide (seg' = seg ∧ row' = row)) := by
  simp only [sealedDead, windowDead_markDead, show (c.markDead seg row).sealed = c.sealed from rfl]
  by_cases same : seg' = seg
  · subst same
    by_cases row' = row <;> simp_all [Bool.or_comm]
  · simp [same]

theorem liveAt_markDead {seg row seg' row' : Nat} :
    (c.markDead seg row).LiveAt rows seg' row' r ↔
      c.LiveAt rows seg' row' r ∧ ¬ (seg' = seg ∧ row' = row) := by
  constructor
  · rintro ⟨stored, alive⟩
    rw [sealedDead_markDead, Bool.or_eq_false_iff, decide_eq_false_iff_not] at alive
    exact ⟨⟨stored, alive.1⟩, alive.2⟩
  · rintro ⟨⟨stored, alive⟩, other⟩
    refine ⟨stored, ?_⟩
    rw [sealedDead_markDead, alive, Bool.false_or, decide_eq_false_iff_not]
    exact other

theorem Inv.markDead (inv : c.Inv rows)
    (live : c.LiveAt rows seg row r) : (c.markDead seg row).Inv rows where
  held := inv.held
  notActive live' := inv.notActive (liveAt_markDead.mp live').1
  newest live' := inv.newest (liveAt_markDead.mp live').1
  activeRows := inv.activeRows
  activeStride := inv.activeStride
  sealedStride := inv.sealedStride
  dead := inv.dead
  window := by
    intro seg' row' member
    rw [windowDead_markDead] at member
    split at member
    case isFalse => exact inv.window member
    case isTrue same =>
      subst same
      obtain rfl | before := Finset.mem_insert.mp member
      · obtain ⟨ids, found, atRow⟩ := cell_eq_some.mp live.stored
        obtain ⟨s, sealed, holds⟩ := inv.heldAt found
        refine ⟨s, sealed, ?_, ?_⟩
        · rw [holds.rowCount]
          exact (List.getElem?_eq_some_iff.mp atRow).1
        · have alive := live.alive
          simp only [sealedDead, sealed, Option.any_some, SealedSegment.isDead,
            Bool.or_eq_false_iff, decide_eq_false_iff_not] at alive
          exact alive.1
      · exact inv.window before

theorem shadow_activeIndex (c : CollectionState) (loc : Option Loc) :
    (c.shadow loc).activeIndex = c.activeIndex := by
  unfold shadow
  split <;> rfl

theorem shadow_active (c : CollectionState) (loc : Option Loc) :
    (c.shadow loc).active = c.active := by
  unfold shadow
  split <;> rfl

theorem Inv.shadow (inv : c.Inv rows) (located : c.Located rows id loc) :
    (c.shadow loc).Inv rows := by
  cases located with
  | active => exact inv
  | sealed _ live _ => exact inv.markDead live
  | absent => exact inv

theorem Inv.liveAt_shadow (inv : c.Inv rows)
    (located : c.Located rows id loc) :
    (c.shadow loc).LiveAt rows seg row r ↔ c.LiveAt rows seg row r ∧ r.externalId ≠ id := by
  cases located with
  | active found =>
    refine ⟨fun live => ⟨live, ?_⟩, And.left⟩
    rintro rfl
    exact absurd (inv.notActive live) (by simp [found])
  | @sealed seg' row' r' _ live' isId =>
    simp only [CollectionState.shadow, liveAt_markDead]
    refine and_congr_right fun live => ?_
    rw [not_iff_not]
    constructor
    · rintro ⟨rfl, rfl⟩
      rw [← isId, Option.some.inj (live.stored.symm.trans live'.stored)]
    · intro same
      exact inv.live_unique live live' (same.trans isId.symm)
  | absent _ noLive => exact ⟨fun live => ⟨live, noLive live⟩, And.left⟩

theorem liveAt_congr {c' : CollectionState} (sealed : c'.sealed = c.sealed)
    (window : c'.deadThisWindow = c.deadThisWindow) :
    c'.LiveAt rows seg row r ↔ c.LiveAt rows seg row r := by
  have windowDead : c'.windowDead seg = c.windowDead seg := by rw [windowDead, window, ← windowDead]
  have dead : c'.sealedDead seg row = c.sealedDead seg row := by
    rw [sealedDead, sealed, windowDead, ← sealedDead]
  exact ⟨fun live => ⟨live.stored, dead ▸ live.alive⟩, fun live => ⟨live.stored, dead ▸ live.alive⟩⟩

@[simp] theorem liveAt_pushActive :
    (c.pushActive id vector payload).LiveAt rows seg row r ↔ c.LiveAt rows seg row r :=
  liveAt_congr (by rfl) (by rfl)

@[simp] theorem liveAt_dropActive :
    (c.dropActive id).LiveAt rows seg row r ↔ c.LiveAt rows seg row r :=
  liveAt_congr (by rfl) (by rfl)

theorem activeIndex_pushActive (c : CollectionState) (id other : String) (vector payload : Bytes) :
    (c.pushActive id vector payload).activeIndex[other]? =
      if id = other then some c.active.length else c.activeIndex[other]? := by
  simp [pushActive, ExtTreeMap.getElem?_insert]

theorem activeIndex_dropActive (c : CollectionState) (id other : String) :
    (c.dropActive id).activeIndex[other]? =
      if id = other then none else c.activeIndex[other]? := by
  simp [dropActive, ExtTreeMap.getElem?_erase]

theorem Inv.pushActive (inv : c.Inv rows)
    (noLive : ∀ {seg row r}, c.LiveAt rows seg row r → r.externalId ≠ id)
    (stride : vector.length = c.stride) : (c.pushActive id vector payload).Inv rows where
  held := inv.held
  newest live := inv.newest (liveAt_pushActive.mp live)
  sealedStride := inv.sealedStride
  window := inv.window
  dead := inv.dead
  notActive live := by
    have live := liveAt_pushActive.mp live
    rw [activeIndex_pushActive, if_neg (noLive live).symm, inv.notActive live]
  activeRows := by
    intro other row found
    rw [activeIndex_pushActive] at found
    simp only [CollectionState.pushActive, List.length_append, List.length_singleton]
    split at found
    · cases found
      omega
    · have := inv.activeRows found
      omega
  activeStride := List.forall_mem_append.mpr ⟨inv.activeStride, List.forall_mem_singleton.mpr stride⟩

theorem contains_congr {c' : CollectionState} {id : String} (index : c'.activeIndex[id]? = c.activeIndex[id]?)
    (active : ∀ {row}, c.activeIndex[id]? = some row → c'.active[row]? = c.active[row]?)
    (live : ∀ {seg row r}, r.externalId = id → (c'.LiveAt rows seg row r ↔ c.LiveAt rows seg row r)) :
    c'.Contains rows id record ↔ c.Contains rows id record := by
  constructor
  · intro contains
    cases contains with
    | active found atRow =>
      rw [index] at found
      exact .active found ((active found).symm.trans atRow)
    | sealed isLive isId => exact .sealed ((live isId).mp isLive) isId
  · intro contains
    cases contains with
    | active found atRow => exact .active (index.trans found) ((active found).trans atRow)
    | sealed isLive isId => exact .sealed ((live isId).mpr isLive) isId

theorem Inv.contains_pushActive (inv : c.Inv rows) {id other : String}
    (differ : id ≠ other) :
    (c.pushActive id vector payload).Contains rows other record ↔ c.Contains rows other record := by
  refine contains_congr ?_ (fun found => ?_) fun _ => liveAt_pushActive
  · rw [activeIndex_pushActive, if_neg differ]
  · exact List.getElem?_append_left (inv.activeRows found)

theorem Inv.contains_shadow (inv : c.Inv rows) {id other : String}
    (located : c.Located rows id loc) (differ : id ≠ other) :
    (c.shadow loc).Contains rows other record ↔ c.Contains rows other record := by
  refine contains_congr (by rw [shadow_activeIndex]) (fun _ => by rw [shadow_active]) fun isId => ?_
  rw [inv.liveAt_shadow located]
  exact ⟨fun live => live.1, fun live => ⟨live, isId.symm ▸ differ.symm⟩⟩

theorem Represents.applyUpsert (represents : c.Represents m)
    (id : String) {vector : Bytes} (payload : Bytes) (stride : vector.length = c.stride) :
    ∃ c', c.applyUpsert id vector payload = .ok c' ∧
      c'.Represents (m.insert id ⟨leBytesToF32 vector, payload⟩) := by
  obtain ⟨rows, inv, content⟩ := represents
  obtain ⟨loc, located, spec⟩ := inv.locate id
  have inv' := inv.shadow spec
  have noLive : ∀ {seg row r}, (c.shadow loc).LiveAt rows seg row r → r.externalId ≠ id :=
    fun live => ((inv.liveAt_shadow spec).mp live).2
  simp only [CollectionState.applyUpsert, located, ok_bind]
  refine ⟨_, rfl, rows, inv'.pushActive noLive (by cases spec <;> exact stride), ?_⟩
  intro other record
  rw [ExtTreeMap.getElem?_insert]
  by_cases same : id = other
  · subst same
    simp only [Std.ReflCmp.compare_self, if_true, Option.some.injEq]
    constructor
    · rintro rfl
      refine .active (a := ⟨vector, payload⟩) (by rw [activeIndex_pushActive, if_pos rfl]) ?_
      simp [CollectionState.pushActive]
    · intro contains
      cases contains with
      | active found atRow =>
        rw [activeIndex_pushActive, if_pos rfl, Option.some.injEq] at found
        subst found
        simp only [CollectionState.pushActive, List.getElem?_concat_length, Option.some.injEq] at atRow
        rw [← atRow]
        rfl
      | sealed live isId => exact absurd isId (noLive (liveAt_pushActive.mp live))
  · simp only [compare_eq_iff_eq, same, if_false]
    rw [content, inv'.contains_pushActive same, inv.contains_shadow spec same]

theorem Inv.dropActive (inv : c.Inv rows) (id : String) : (c.dropActive id).Inv rows where
  held := inv.held
  newest live := inv.newest (liveAt_dropActive.mp live)
  sealedStride := inv.sealedStride
  window := inv.window
  dead := inv.dead
  activeStride := inv.activeStride
  notActive live := by
    rw [activeIndex_dropActive, inv.notActive (liveAt_dropActive.mp live), ite_self]
  activeRows := by
    intro other row found
    rw [activeIndex_dropActive] at found
    split at found
    · contradiction
    · exact inv.activeRows found

theorem contains_dropActive {id other : String} (differ : id ≠ other) :
    (c.dropActive id).Contains rows other record ↔ c.Contains rows other record := by
  refine contains_congr ?_ (fun _ => rfl) fun _ => liveAt_dropActive
  rw [activeIndex_dropActive, if_neg differ]

theorem represents_erase {c' : CollectionState}
    (content : ∀ id record, m[id]? = some record ↔ c.Contains rows id record) (inv' : c'.Inv rows)
    (gone : ∀ record, ¬ c'.Contains rows id record)
    (others : ∀ {other record}, id ≠ other → (c'.Contains rows other record ↔ c.Contains rows other record)) :
    c'.Represents (m.erase id) := by
  refine ⟨rows, inv', fun other record => ?_⟩
  rw [ExtTreeMap.getElem?_erase]
  by_cases same : id = other
  · subst same
    simp [gone record]
  · simp [same, others same, content]

theorem Represents.applyDelete (represents : c.Represents m)
    (id : String) :
    ∃ c', c.applyDelete id = .ok (c', m.contains id) ∧ c'.Represents (m.erase id) := by
  obtain ⟨rows, inv, content⟩ := represents
  by_cases buffered : id ∈ c.activeIndex
  · have found := ExtTreeMap.getElem?_eq_some_getElem buffered
    have present : m.contains id = true := inv.contains_eq_isSome content (.active found)
    refine ⟨_, by simp only [CollectionState.applyDelete, if_pos buffered, present],
      represents_erase content (inv.dropActive id) ?_ contains_dropActive⟩
    intro record contains
    cases contains with
    | active dropped _ => simp [activeIndex_dropActive] at dropped
    | sealed live isId =>
      have := inv.notActive (liveAt_dropActive.mp live)
      rw [isId, found] at this
      contradiction
  · obtain ⟨loc, located, spec⟩ := inv.locate id
    have notActive : c.activeIndex[id]? = none := ExtTreeMap.getElem?_eq_none buffered
    have shadowed : (c.shadow loc).Represents (m.erase id) := by
      refine represents_erase content (inv.shadow spec) ?_ (inv.contains_shadow spec)
      intro record contains
      cases contains with
      | active found _ => simp [shadow_activeIndex, notActive] at found
      | sealed live isId => exact ((inv.liveAt_shadow spec).mp live).2 isId
    simp only [CollectionState.applyDelete, if_neg buffered, located, ok_bind, inv.contains_eq_isSome content spec]
    cases spec with
    | active found => simp [notActive] at found
    | sealed | absent => exact ⟨_, rfl, shadowed⟩

end CollectionState

end Quiver.Core
