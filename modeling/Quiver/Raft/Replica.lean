import Quiver.Raft.StateMachine

/-!
A durable voter over its restarts. The engine is written before the applied-state pointer, so a
crash leaves it ahead and the entries between are applied again. A crash in the middle of an
installation leaves an engine in no state of the log.
-/

namespace Quiver.Raft

open Quiver.Core

/-- The applied-state pointer: how many entries are applied, and the last membership. -/
structure StateMachineData where
  lastAppliedLog : Nat := 0
  lastMembership : Option (Nat × List (List NodeId) × List (NodeId × String)) := none

/-- The pointer after one more entry. -/
def StateMachineData.note (sm : StateMachineData) : EntryPayload → StateMachineData
  | .membership configs nodes => ⟨sm.lastAppliedLog + 1, some (sm.lastAppliedLog + 1, configs, nodes)⟩
  | _ => { sm with lastAppliedLog := sm.lastAppliedLog + 1 }

theorem StateMachineData.lastAppliedLog_foldl (sm : StateMachineData) (entries : List EntryPayload) :
    (entries.foldl note sm).lastAppliedLog = sm.lastAppliedLog + entries.length := by
  induction entries generalizing sm with
  | nil => rfl
  | cons entry entries ih =>
    have one : (sm.note entry).lastAppliedLog = sm.lastAppliedLog + 1 := by cases entry <;> rfl
    rw [List.foldl_cons, ih, one, List.length_cons, Nat.add_assoc, Nat.add_comm 1]

def dataAt (log : List EntryPayload) (n : Nat) : StateMachineData := (log.take n).foldl StateMachineData.note {}

/-- What a voter keeps: its engine, the pointer file and the snapshot file; and, as a record, the
entries whose effects the engine has, and whether it is applying some of them again. -/
structure Replica where
  engine : Engine := .empty
  sm : StateMachineData := {}
  currentSnapshot : Option (StateMachineData × List WalOp) := none
  reached : Nat := 0
  settled : Bool := true

/-- The calls of a voter. A cut tells that the node crashed: during a batch after so many entries,
during an installation after so many durable effects. -/
inductive ReplicaEvent
  | apply (count : Nat) (cut : Option Nat)
  | build (data : StateMachineData) (order : List (CollectionId × LogicalCollection))
  | install (index captured : Nat) (order : List (CollectionId × LogicalCollection)) (cut : Option Nat)
  | restart

def ReplicaEvent.Crashes : ReplicaEvent → Prop
  | .apply _ cut => cut ≠ none
  | .build .. => False
  | .install _ _ _ cut => cut ≠ none
  | .restart => True

namespace Replica

variable (encoding : Encoding) (log : List EntryPayload)

/-- The engine effects of the next entries. -/
def applied (v : Replica) (count : Nat) : Replica :=
  { v with
    engine := v.engine.applyAll encoding (opsOf ((log.drop v.sm.lastAppliedLog).take count))
    reached := max v.reached (v.sm.lastAppliedLog + count)
    settled := if count = 0 then v.settled else decide (v.reached ≤ v.sm.lastAppliedLog + count) }

/-- The durable effects of a restore: the drops, then the operations. -/
def restoreEffects (v : Replica) (order : List (CollectionId × LogicalCollection)) : Nat :=
  (collectionNames v.engine).length + (Logical.snapshotOps encoding order).length

/-- A crashed installation: the engine's effects come first, then the pointer, then the snapshot. -/
def installPart (v : Replica) (index captured : Nat) (order : List (CollectionId × LogicalCollection))
    (cut : Nat) : Replica :=
  { v with
    engine := restorePart encoding v.engine (Logical.snapshotOps encoding order) cut
    sm := if v.restoreEffects encoding order < cut then dataAt log index else v.sm
    reached := if cut = 0 then v.reached
      else if v.restoreEffects encoding order ≤ cut then captured else v.reached
    settled := if cut = 0 then v.settled else decide (v.restoreEffects encoding order ≤ cut) }

def after (v : Replica) : ReplicaEvent → Replica
  | .apply count none =>
    { v.applied encoding log count with
      sm := ((log.drop v.sm.lastAppliedLog).take count).foldl StateMachineData.note v.sm }
  | .apply _ (some cut) => v.applied encoding log cut
  | .build data order => { v with currentSnapshot := some (data, Logical.snapshotOps encoding order) }
  | .install index captured order none =>
    ⟨restore encoding v.engine (Logical.snapshotOps encoding order), dataAt log index,
      some (dataAt log index, Logical.snapshotOps encoding order), captured, true⟩
  | .install index captured order (some cut) => v.installPart encoding log index captured order cut
  | .restart => v

/-- Batches are entries of the log from the pointer on; a snapshot is installed only if it is
not behind the pointer, and its engine is not behind its index. -/
def Possible (v : Replica) : ReplicaEvent → Prop
  | .apply count cut => v.sm.lastAppliedLog + count ≤ log.length ∧ ∀ m ∈ cut, m ≤ count
  | .install index captured _ _ => v.sm.lastAppliedLog ≤ index ∧ index ≤ captured ∧ captured ≤ log.length
  | _ => True

def Step (v : Replica) (event : ReplicaEvent) (v' : Replica) : Prop :=
  v.Possible log event ∧ v' = v.after encoding log event

/-- The pointer tells the truth: the engine is in a state of the log that is not before it, and
the entries from it on lead to the state of the whole log. -/
def Truthful (v : Replica) : Prop :=
  ∃ n, v.sm.lastAppliedLog ≤ n ∧ n ≤ log.length ∧ v.engine.logical = stateAt encoding log n ∧
    (v.engine.applyAll encoding (opsOf (log.drop v.sm.lastAppliedLog))).logical =
      Logical.empty.applyAll encoding (opsOf log)

/-- No crash strictly inside an installation's engine effects, no crash while entries that the
engine holds are being applied again, and snapshots of engines in a state of the log. -/
def Undisturbed (v : Replica) : ReplicaEvent → Prop
  | .apply _ (some cut) =>
    (cut = 0 → v.settled = true) ∧ (cut ≠ 0 → v.reached ≤ v.sm.lastAppliedLog + cut)
  | .install _ captured order none => order.Perm (stateAt encoding log captured).collections.toList
  | .install _ captured order (some cut) =>
    order.Perm (stateAt encoding log captured).collections.toList ∧
      (cut = 0 → v.settled = true) ∧ (cut ≠ 0 → v.restoreEffects encoding order ≤ cut)
  | .restart => v.settled = true
  | _ => True

/-- The engine is ahead of the pointer by the entries up to those it reached. -/
structure Invariant (v : Replica) : Prop where
  wf : v.engine.WellFormed
  ordered : v.sm.lastAppliedLog ≤ v.reached
  bounded : v.reached ≤ log.length
  ahead : Ahead encoding (opsOf ((log.drop v.sm.lastAppliedLog).take (v.reached - v.sm.lastAppliedLog)))
    (stateAt encoding log v.sm.lastAppliedLog) v.engine.logical
  known : v.engine.logical.Known (CreatedBy log v.reached)
  exactly : v.settled = true → v.engine.logical = stateAt encoding log v.reached

end Replica

section Engine

variable {encoding : Encoding} {e : Engine} {ops : List WalOp} {used : CollectionId → Prop}

theorem known_applyAll (known : e.logical.Known used) (created : ∀ k, Created ops k → used k) :
    (e.applyAll encoding ops).logical.Known used := by
  induction ops generalizing e with
  | nil => exact known
  | cons op ops ih =>
    refine ih ?_ fun k later => created k (created_cons.mpr (.inr later))
    intro j c found
    obtain same | applied := e.logical_applyReplicated encoding op
    · exact known j c (same ▸ found)
    · rw [applied] at found
      obtain ⟨bytes, rfl, _⟩ | ⟨c', held, _⟩ := Logical.of_apply found
      · exact created j (created_cons.mpr (.inl rfl))
      · exact known j c' held

end Engine

namespace Replica

variable {encoding : Encoding} {log : List EntryPayload} {v : Replica}

theorem take_split (log : List EntryPayload) {r n m : Nat} (first : r ≤ n) (second : n ≤ m) :
    opsOf ((log.drop r).take (m - r)) =
      opsOf ((log.drop r).take (n - r)) ++ opsOf ((log.drop n).take (m - n)) := by
  have total : m - r = (n - r) + (m - n) := by omega
  rw [total, List.take_add, opsOf_append, List.drop_drop, Nat.add_sub_cancel' first]

theorem created_take {r n m : Nat} (bound : r + n ≤ m) {k : CollectionId}
    (created : Created (opsOf ((log.drop r).take n)) k) : CreatedBy log m k := by
  have split := take_split log (Nat.zero_le r) (Nat.le_trans (Nat.le_add_right r n) bound)
  have inner := take_split log (Nat.le_add_right r n) bound
  rw [Nat.add_sub_cancel_left] at inner
  rw [CreatedBy, ← List.drop_zero (l := log), ← Nat.sub_zero m, split, created_append, inner, created_append]
  exact .inr (.inl created)

section

variable (committed : CommittedLog encoding log)
include committed

theorem Invariant.of_state (wf : v.engine.WellFormed)
    (ordered : v.sm.lastAppliedLog ≤ v.reached) (bounded : v.reached ≤ log.length)
    (isState : v.engine.logical = stateAt encoding log v.reached) : v.Invariant encoding log := by
  refine ⟨wf, ordered, bounded, ?_, ?_, fun _ => isState⟩
  · have after := (committed.at_index v.sm.lastAppliedLog).2.2
    rw [opsOf_take_drop log _ (v.reached - v.sm.lastAppliedLog), Logical.Ordered.append_iff] at after
    have last : stateAt encoding log (v.sm.lastAppliedLog + (v.reached - v.sm.lastAppliedLog)) = _ :=
      stateAt_add log _ _
    rw [Nat.add_sub_cancel' ordered] at last
    rw [isState, last]
    exact .applied after.1
  · rw [isState]
    exact (committed.at_index v.reached).2.1

theorem Invariant.truthful (inv : v.Invariant encoding log)
    (settled : v.settled = true) : v.Truthful encoding log := by
  have isState := inv.exactly settled
  obtain ⟨indexed, known, after⟩ := committed.at_index v.sm.lastAppliedLog
  have ahead := committed.ahead v.sm.lastAppliedLog (v.reached - v.sm.lastAppliedLog)
  rw [Nat.add_sub_cancel' inv.ordered, ← isState] at ahead
  refine ⟨v.reached, inv.ordered, inv.bounded, isState, ?_⟩
  rw [(ahead.converges inv.wf indexed known after).1, stateAt_whole]

theorem Invariant.caught_up (inv : v.Invariant encoding log) {count : Nat}
    (caught : v.reached ≤ v.sm.lastAppliedLog + count) :
    (v.applied encoding log count).engine.WellFormed ∧
      (v.applied encoding log count).engine.logical = stateAt encoding log (v.sm.lastAppliedLog + count) := by
  obtain ⟨indexed, known, after⟩ := committed.at_index v.sm.lastAppliedLog
  rw [opsOf_take_drop log _ count, Logical.Ordered.append_iff] at after
  have split := take_split log inv.ordered caught
  rw [Nat.add_sub_cancel_left] at split
  have rest := (committed.at_index v.reached).2.2
  rw [opsOf_take_drop log _ (v.sm.lastAppliedLog + count - v.reached), Logical.Ordered.append_iff] at rest
  have ahead := inv.ahead.append inv.known fun k created => rest.1.unused created
  rw [← split] at ahead
  obtain ⟨isState, wf⟩ := ahead.converges inv.wf indexed known after.1
  exact ⟨wf, isState.trans (stateAt_add log _ _).symm⟩

theorem Invariant.batch (inv : v.Invariant encoding log) {count : Nat}
    (fits : v.sm.lastAppliedLog + count ≤ log.length) :
    (v.after encoding log (.apply count none)).Invariant encoding log := by
  have pointer : (v.after encoding log (.apply count none)).sm.lastAppliedLog = v.sm.lastAppliedLog + count := by
    rw [after, StateMachineData.lastAppliedLog_foldl, List.length_take, List.length_drop, Nat.min_eq_left]
    omega
  by_cases caught : v.reached ≤ v.sm.lastAppliedLog + count
  · obtain ⟨wf, isState⟩ := inv.caught_up committed caught
    have reached : (v.after encoding log (.apply count none)).reached = v.sm.lastAppliedLog + count :=
      Nat.max_eq_right caught
    refine .of_state committed wf (by rw [pointer, reached]) (by rw [reached]; exact fits) ?_
    rw [reached]
    exact isState
  · have before : v.sm.lastAppliedLog + count ≤ v.reached := Nat.le_of_not_le caught
    have reached : (v.after encoding log (.apply count none)).reached = v.reached := Nat.max_eq_left before
    obtain ⟨indexed, known, after⟩ := committed.at_index v.sm.lastAppliedLog
    rw [opsOf_take_drop log _ (v.reached - v.sm.lastAppliedLog), Logical.Ordered.append_iff] at after
    have split := take_split log (Nat.le_add_right v.sm.lastAppliedLog count) before
    rw [Nat.add_sub_cancel_left] at split
    have ahead := inv.ahead
    rw [split] at ahead after
    obtain ⟨ahead', wf⟩ := ahead.applyAll inv.wf indexed known after.1
    rw [← stateAt_add] at ahead'
    refine ⟨wf, by rw [pointer, reached]; exact before, by rw [reached]; exact inv.bounded, ?_, ?_, ?_⟩
    · rw [pointer, reached]
      exact ahead'
    · rw [reached]
      exact known_applyAll inv.known fun k created => created_take before created
    · intro settled
      rw [reached]
      have isSettled : (if count = 0 then v.settled else decide (v.reached ≤ v.sm.lastAppliedLog + count)) = true := settled
      split at isSettled
      · rename_i none
        subst none
        exact inv.exactly isSettled
      · exact absurd (of_decide_eq_true isSettled) caught

end

theorem restorePart_whole (e : Engine) (ops : List WalOp) {cut : Nat}
    (whole : (collectionNames e).length + ops.length ≤ cut) : restorePart encoding e ops cut = restore encoding e ops := by
  rw [restorePart, restore, List.take_of_length_le (by omega), List.take_of_length_le (by omega)]

theorem lastAppliedLog_dataAt {index : Nat} (bound : index ≤ log.length) : (dataAt log index).lastAppliedLog = index := by
  rw [dataAt, StateMachineData.lastAppliedLog_foldl, List.length_take, Nat.min_eq_left bound]
  exact Nat.zero_add index

theorem Invariant.install (committed : CommittedLog encoding log) (inv : v.Invariant encoding log)
    {index captured : Nat} {order : List (CollectionId × LogicalCollection)} {cut : Option Nat}
    (possible : v.Possible log (.install index captured order cut))
    (undisturbed : v.Undisturbed encoding log (.install index captured order cut)) :
    (v.after encoding log (.install index captured order cut)).Invariant encoding log := by
  obtain ⟨behind, ordered, bounded⟩ := possible
  have pointer := lastAppliedLog_dataAt (Nat.le_trans ordered bounded)
  cases cut with
  | none =>
    obtain ⟨wf, isState⟩ := restore_snapshotOps inv.wf (committed.at_index captured).1 undisturbed
    refine .of_state committed wf ?_ bounded isState
    exact Nat.le_trans (Nat.le_of_eq pointer) ordered
  | some cut =>
    obtain ⟨listed, calm, whole⟩ := undisturbed
    obtain ⟨wf, isState⟩ := restore_snapshotOps inv.wf (committed.at_index captured).1 listed
    by_cases none : cut = 0
    · subst none
      have same : v.after encoding log (.install index captured order (some 0)) = v := by
        simp [after, installPart, restorePart]
      rw [same]
      exact inv
    · have done := whole none
      have reached : (v.after encoding log (.install index captured order (some cut))).reached = captured := by
        simp only [after, installPart, if_neg none, if_pos done]
      have engine : (v.after encoding log (.install index captured order (some cut))).engine =
          restore encoding v.engine (Logical.snapshotOps encoding order) := restorePart_whole _ _ done
      refine .of_state committed (engine ▸ wf) ?_ (by rw [reached]; exact bounded)
        (by rw [reached, engine]; exact isState)
      rw [reached]
      change (if v.restoreEffects encoding order < cut then dataAt log index else v.sm).lastAppliedLog ≤ captured
      split
      · exact Nat.le_trans (Nat.le_of_eq pointer) ordered
      · exact Nat.le_trans behind ordered

theorem Invariant.step (committed : CommittedLog encoding log) (inv : v.Invariant encoding log) {event : ReplicaEvent}
    (possible : v.Possible log event) (undisturbed : v.Undisturbed encoding log event) :
    (v.after encoding log event).Invariant encoding log := by
  cases event with
  | apply count cut =>
    obtain ⟨fits, within⟩ := possible
    cases cut with
    | none => exact inv.batch committed fits
    | some cut =>
      by_cases none : cut = 0
      · subst none
        have same : v.after encoding log (.apply count (some 0)) = v := by
          simp [after, applied, opsOf, Nat.max_eq_left inv.ordered]
        rw [same]
        exact inv
      · have caught := undisturbed.2 none
        obtain ⟨wf, isState⟩ := inv.caught_up committed caught
        have reached : (v.after encoding log (.apply count (some cut))).reached = v.sm.lastAppliedLog + cut :=
          Nat.max_eq_right caught
        refine .of_state committed wf ?_ ?_ ?_
        · rw [reached]
          exact Nat.le_add_right _ _
        · rw [reached]
          exact Nat.le_trans (Nat.add_le_add_left (within cut rfl) _) fits
        · rw [reached]
          exact isState
  | build data order => exact ⟨inv.wf, inv.ordered, inv.bounded, inv.ahead, inv.known, inv.exactly⟩
  | install index captured order cut => exact inv.install committed possible undisturbed
  | restart => exact inv

theorem settled_of_crashes {event : ReplicaEvent} (crashes : event.Crashes)
    (undisturbed : v.Undisturbed encoding log event) : (v.after encoding log event).settled = true := by
  cases event with
  | apply count cut =>
    cases cut with
    | none => exact absurd rfl crashes
    | some cut =>
      simp only [after, applied]
      split
      · exact undisturbed.1 ‹_›
      · exact decide_eq_true (undisturbed.2 ‹_›)
  | build data order => exact crashes.elim
  | install index captured order cut =>
    cases cut with
    | none => rfl
    | some cut =>
      simp only [after, installPart]
      split
      · exact undisturbed.2.1 ‹_›
      · exact decide_eq_true (undisturbed.2.2 ‹_›)
  | restart => exact undisturbed

/-- In every run without such crashes, the pointer tells the truth after each restart. -/
theorem restart_truthful (committed : CommittedLog encoding log) {events : List ReplicaEvent}
    (run : Run.Reaches (Run.Guarded (Undisturbed encoding log) (Step encoding log)) {} events v)
    {last : ReplicaEvent} (isLast : events.getLast? = some last) (crashes : last.Crashes) :
    v.Truthful encoding log := by
  have inv := run.invariant (fun events v => v.Invariant encoding log ∧
    ∀ event, events.getLast? = some event → event.Crashes → v.settled = true) ?initial ?preserved
  case initial =>
    refine ⟨.of_state committed Engine.wellFormed_empty (Nat.le_refl _) (Nat.zero_le _) ?_, by simp⟩
    rfl
  case preserved =>
    rintro events v event v' ⟨inv, _⟩ ⟨undisturbed, possible, rfl⟩
    refine ⟨inv.step committed possible undisturbed, fun other isLast crashes => ?_⟩
    rw [List.getLast?_append, List.getLast?_singleton] at isLast
    cases isLast
    exact settled_of_crashes crashes undisturbed
  exact inv.1.truthful committed (inv.2 last isLast crashes)

/-- A crash after two of three entries of a batch. -/
theorem restart_truthful_mid_batch :
    ∃ v, Run.Reaches (Run.Guarded (Undisturbed .plain deletedPoint) (Step .plain deletedPoint)) {}
      [.apply 3 (some 2)] v ∧ v.Truthful .plain deletedPoint := by
  refine Run.shown (.next .refl ⟨⟨by simp, by decide⟩, ⟨by decide, by simp⟩, rfl⟩) fun run => ?_
  exact restart_truthful committed_deletedPoint run rfl (by simp [ReplicaEvent.Crashes])

/-- A crash after the first drop of an installation: the engine is empty, the pointer is not. -/
theorem install_crash_loses_engine :
    let order := (stateAt .plain deletedPoint 4).collections.toList
    ∃ v, Run.Reaches (Step .plain deletedPoint) {} [.apply 3 none, .install 4 4 order (some 1)] v ∧
      v.sm.lastAppliedLog = 3 ∧ ¬ v.Truthful .plain deletedPoint := by
  intro order
  let before : Replica := Replica.after .plain deletedPoint {} (.apply 3 none)
  have pointer : (before.after .plain deletedPoint (.install 4 4 order (some 1))).sm.lastAppliedLog = 3 := by
    decide +kernel
  refine ⟨_, .next (.next .refl ⟨⟨by decide, by simp⟩, rfl⟩) ⟨⟨by decide, by decide, by decide⟩, rfl⟩, pointer,
    fun truthful => ?_⟩
  obtain ⟨n, above, below, isState, _⟩ := truthful
  rw [pointer] at above
  have gone : (before.after .plain deletedPoint (.install 4 4 order (some 1))).engine.logical.collections.contains 0 =
      false := by decide +kernel
  rw [isState] at gone
  have bound : n ≤ 4 := below
  obtain rfl | rfl : n = 3 ∨ n = 4 := by omega
  · exact absurd gone (by decide +kernel)
  · exact absurd gone (by decide +kernel)

end Replica

end Quiver.Raft
