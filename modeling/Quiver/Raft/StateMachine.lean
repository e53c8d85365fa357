import Quiver.Raft.DurableLog
import Quiver.Replication.Follower

/-!
The Raft state machine over the engine: batches of committed entries, snapshots built while
batches are applied, and their installation, which drops every collection and replays the
snapshot's operations.
-/

namespace Quiver.Raft

open Quiver.Core
open Std (ExtTreeMap)

def EntryPayload.ops : EntryPayload → List WalOp
  | .normal op => [op]
  | _ => []

def opsOf (entries : List EntryPayload) : List WalOp := entries.flatMap EntryPayload.ops

@[simp] theorem opsOf_append (first second : List EntryPayload) :
    opsOf (first ++ second) = opsOf first ++ opsOf second := List.flatMap_append

/-- The logical state after the first `n` entries of a log. -/
def stateAt (encoding : Encoding) (log : List EntryPayload) (n : Nat) : Logical :=
  Logical.empty.applyAll encoding (opsOf (log.take n))

/-- The committed log: every create carries a fresh id and a free name. -/
def CommittedLog (encoding : Encoding) (log : List EntryPayload) : Prop :=
  Logical.empty.Committed encoding (fun _ => False) (opsOf log)

/-- The ids created by the first `n` entries. -/
def CreatedBy (log : List EntryPayload) (n : Nat) (k : CollectionId) : Prop := Created (opsOf (log.take n)) k

section Log

variable {encoding : Encoding} {log : List EntryPayload} {n m : Nat}

theorem opsOf_take_add (log : List EntryPayload) (n m : Nat) :
    opsOf (log.take (n + m)) = opsOf (log.take n) ++ opsOf ((log.drop n).take m) := by
  rw [List.take_add, opsOf_append]

theorem stateAt_add (log : List EntryPayload) (n m : Nat) :
    stateAt encoding log (n + m) = (stateAt encoding log n).applyAll encoding (opsOf ((log.drop n).take m)) := by
  rw [stateAt, opsOf_take_add, Logical.applyAll_append, stateAt]

theorem opsOf_take_drop (log : List EntryPayload) (n m : Nat) :
    opsOf (log.drop n) = opsOf ((log.drop n).take m) ++ opsOf (log.drop (n + m)) := by
  rw [← opsOf_append, ← List.drop_drop, List.take_append_drop]

theorem stateAt_whole (log : List EntryPayload) (n : Nat) :
    (stateAt encoding log n).applyAll encoding (opsOf (log.drop n)) = Logical.empty.applyAll encoding (opsOf log) := by
  rw [stateAt, ← Logical.applyAll_append, ← opsOf_append, List.take_append_drop]

namespace CommittedLog

variable (committed : CommittedLog encoding log)

include committed

theorem at_index (n : Nat) :
    (stateAt encoding log n).Indexed ∧ (stateAt encoding log n).Known (CreatedBy log n) ∧
      (stateAt encoding log n).Ordered encoding (CreatedBy log n) (opsOf (log.drop n)) := by
  have split : opsOf log = opsOf (log.take n) ++ opsOf (log.drop n) := by
    rw [← opsOf_append, List.take_append_drop]
  have parts : Logical.empty.Ordered encoding (fun _ => False) (opsOf log) := committed.ordered
  rw [split, Logical.Ordered.append_iff] at parts
  obtain ⟨before, after⟩ := parts
  obtain ⟨indexed, known⟩ := before.applyAll Logical.indexed_empty Logical.known_empty
  have ids : (fun k => False ∨ Created (opsOf (log.take n)) k) = CreatedBy log n := by
    funext k
    simp [CreatedBy]
  rw [ids] at known after
  exact ⟨indexed, known, after⟩

theorem ahead (n m : Nat) : Ahead encoding (opsOf (log.drop n)) (stateAt encoding log n) (stateAt encoding log (n + m)) := by
  obtain ⟨indexed, known, after⟩ := committed.at_index n
  rw [opsOf_take_drop log n m] at after ⊢
  rw [stateAt_add]
  exact .of_take indexed known after

end CommittedLog

end Log

section Restore

variable (encoding : Encoding)

def collectionNames (e : Engine) : List String := e.handles.keys

def restore (e : Engine) (ops : List WalOp) : Engine :=
  ((collectionNames e).foldl Engine.dropCollection e).applyAll encoding ops

/-- The engine after the first `n` durable effects of a restore. -/
def restorePart (e : Engine) (ops : List WalOp) (n : Nat) : Engine :=
  (((collectionNames e).take n).foldl Engine.dropCollection e).applyAll encoding
    (ops.take (n - (collectionNames e).length))

variable {encoding} {e : Engine}

theorem names_dropCollection (e : Engine) (name other : String) :
    (e.dropCollection name).logical.names[other]? = if name = other then none else e.logical.names[other]? := by
  cases found : e.logical.names[name]? with
  | some k => simp only [Engine.dropCollection, found, Maps.get_erase]
  | none =>
    simp only [Engine.dropCollection, found]
    by_cases same : name = other
    · rw [if_pos same, ← same, found]
    · rw [if_neg same]

theorem dropCollection_eq (wf : e.WellFormed) (encoding : Encoding) {name : String} {k : CollectionId}
    (found : e.logical.names[name]? = some k) :
    e.dropCollection name = e.applyReplicated encoding (.dropCollection k) := by
  obtain ⟨c, held, isName⟩ := (wf.indexed name k).mp found
  have handles : e.handles.erase name = e.handles.filter fun _ id => id ≠ k := by
    rw [wf.handles, Engine.filter_names wf.indexed held, isName]
  simp only [Engine.dropCollection, found, Engine.applyReplicated, Logical.apply, held, handles, isName]

theorem wellFormed_dropCollection (wf : e.WellFormed) (name : String) : (e.dropCollection name).WellFormed := by
  cases found : e.logical.names[name]? with
  | some k =>
    rw [dropCollection_eq wf .plain found]
    exact wf.drop k
  | none =>
    simp only [Engine.dropCollection, found]
    refine ⟨wf.indexed, ?_⟩
    rw [wf.handles, Maps.erase_absent found]

theorem foldl_dropCollection (wf : e.WellFormed) (names : List String) :
    (names.foldl Engine.dropCollection e).WellFormed ∧
      ∀ name : String, (names.foldl Engine.dropCollection e).logical.names[name]? =
        if name ∈ names then none else e.logical.names[name]? := by
  induction names generalizing e with
  | nil => exact ⟨wf, fun name => by simp⟩
  | cons first names ih =>
    obtain ⟨wf', lookup⟩ := ih (wellFormed_dropCollection wf first)
    refine ⟨wf', fun name => ?_⟩
    rw [List.foldl_cons, lookup, names_dropCollection]
    by_cases here : first = name
    · simp [here]
    · simp [here, Ne.symm here]

theorem reset_empty (wf : e.WellFormed) :
    ((collectionNames e).foldl Engine.dropCollection e).WellFormed ∧
      ((collectionNames e).foldl Engine.dropCollection e).logical = .empty := by
  obtain ⟨wf', lookup⟩ := foldl_dropCollection wf (collectionNames e)
  have unnamed : ∀ name : String, ((collectionNames e).foldl Engine.dropCollection e).logical.names[name]? = none := by
    intro name
    rw [lookup]
    split
    · rfl
    · rename_i absent
      rw [← wf.handles]
      refine ExtTreeMap.getElem?_eq_none fun inside => absent ?_
      exact ExtTreeMap.mem_keys.mpr inside
  refine ⟨wf', wf'.indexed.ext Logical.indexed_empty (ExtTreeMap.ext_getElem? fun {k} => ?_)⟩
  cases held : ((collectionNames e).foldl Engine.dropCollection e).logical.collections[k]? with
  | none => simp [Logical.empty]
  | some c =>
    have named := (wf'.indexed c.name k).mpr ⟨c, held, rfl⟩
    rw [unnamed] at named
    contradiction

theorem restore_snapshotOps (wf : e.WellFormed) {l : Logical} (indexed : l.Indexed)
    {order : List (CollectionId × LogicalCollection)} (listed : order.Perm l.collections.toList) :
    (restore encoding e (Logical.snapshotOps encoding order)).WellFormed ∧
      (restore encoding e (Logical.snapshotOps encoding order)).logical = l := by
  obtain ⟨wf', isEmpty⟩ := reset_empty wf
  have within : Engine.Within ((collectionNames e).foldl Engine.dropCollection e).logical l := by
    rw [isEmpty]
    exact Engine.within_empty l
  exact wf'.applyAll_snapshotOps indexed within listed

end Restore

section Build

/-- A voter that applies entries while a snapshot is built: the entries its engine holds, the
recorded last-applied index, what the builder cloned and what it captured. -/
structure Building where
  engine : Engine := .empty
  applied : Nat := 0
  lastAppliedLog : Nat := 0
  cloned : Option Nat := none
  built : Option (Nat × List WalOp) := none

inductive BuildEvent
  | applyEntry
  | finishBatch
  | clone
  | capture (order : List (CollectionId × LogicalCollection))

/-- A batch holds the state machine's lock from its first entry to its end, so that the clone
sees the end of a batch; the engine is read at any later moment. -/
inductive BuildStep (encoding : Encoding) (log : List EntryPayload) : Building → BuildEvent → Building → Prop
  | applyEntry {b entry} : log[b.applied]? = some entry →
      BuildStep encoding log b .applyEntry
        { b with engine := b.engine.applyAll encoding entry.ops, applied := b.applied + 1 }
  | finishBatch {b} : BuildStep encoding log b .finishBatch { b with lastAppliedLog := b.applied }
  | clone {b} : b.lastAppliedLog = b.applied →
      BuildStep encoding log b .clone { b with cloned := some b.lastAppliedLog }
  | capture {b order i} : b.cloned = some i → order.Perm b.engine.logical.collections.toList →
      BuildStep encoding log b (.capture order)
        { b with built := some (i, Logical.snapshotOps encoding order) }

/-- The builder's engine is in a state of the log, not before the cloned index. -/
structure BuildInvariant (encoding : Encoding) (log : List EntryPayload) (b : Building) : Prop where
  wf : b.engine.WellFormed
  exactly : b.engine.logical = stateAt encoding log b.applied
  cloned : ∀ i, b.cloned = some i → i ≤ b.applied
  built : ∀ i ops, b.built = some (i, ops) → ∃ j order, i ≤ j ∧
    order.Perm (stateAt encoding log j).collections.toList ∧ ops = Logical.snapshotOps encoding order

variable {encoding : Encoding} {log : List EntryPayload}

theorem BuildInvariant.step (committed : CommittedLog encoding log) {b b' : Building} {event : BuildEvent}
    (inv : BuildInvariant encoding log b) (stepped : BuildStep encoding log b event b') :
    BuildInvariant encoding log b' := by
  cases stepped with
  | @applyEntry entry present =>
    have one : (log.drop b.applied).take 1 = [entry] := by
      obtain ⟨inside, here⟩ := List.getElem?_eq_some_iff.mp present
      rw [List.drop_eq_getElem_cons inside, here]
      rfl
    have ops : opsOf ((log.drop b.applied).take 1) = entry.ops := by
      rw [one]
      exact List.append_nil _
    obtain ⟨_, known, after⟩ := committed.at_index b.applied
    rw [opsOf_take_drop log b.applied 1, Logical.Ordered.append_iff, ← inv.exactly, ops] at after
    rw [← inv.exactly] at known
    obtain ⟨follows, wf⟩ := inv.wf.follows known after.1
    refine ⟨wf, ?_, fun i isCloned => Nat.le_succ_of_le (inv.cloned i isCloned), inv.built⟩
    rw [stateAt_add, ops, ← inv.exactly]
    exact follows
  | finishBatch => exact ⟨inv.wf, inv.exactly, inv.cloned, inv.built⟩
  | clone ended =>
    refine ⟨inv.wf, inv.exactly, fun i isCloned => ?_, inv.built⟩
    cases isCloned
    exact Nat.le_of_eq ended
  | @capture order i isCloned listed =>
    refine ⟨inv.wf, inv.exactly, inv.cloned, fun i' ops isBuilt => ?_⟩
    cases isBuilt
    rw [inv.exactly] at listed
    exact ⟨b.applied, order, inv.cloned i isCloned, listed, rfl⟩

theorem buildInvariant_run (committed : CommittedLog encoding log) {events : List BuildEvent} {b : Building}
    (run : Run.Reaches (BuildStep encoding log) {} events b) : BuildInvariant encoding log b := by
  refine run.invariant (fun _ b => BuildInvariant encoding log b) ?_ fun inv stepped => inv.step committed stepped
  exact ⟨Engine.wellFormed_empty, rfl, by simp, by simp⟩

/-- A snapshot built while batches were applied brings any voter to the state of the log. -/
theorem snapshot_catches_up (committed : CommittedLog encoding log) {events : List BuildEvent} {b : Building}
    (run : Run.Reaches (BuildStep encoding log) {} events b) {i : Nat} {ops : List WalOp}
    (built : b.built = some (i, ops)) {voter : Engine} (wf : voter.WellFormed) :
    ((restore encoding voter ops).applyAll encoding (opsOf (log.drop i))).logical =
      Logical.empty.applyAll encoding (opsOf log) := by
  obtain ⟨j, order, ordered, listed, rfl⟩ := (buildInvariant_run committed run).built i ops built
  obtain ⟨indexed, known, after⟩ := committed.at_index i
  obtain ⟨restored, isState⟩ : (restore encoding voter (Logical.snapshotOps encoding order)).WellFormed ∧
      (restore encoding voter (Logical.snapshotOps encoding order)).logical = stateAt encoding log j :=
    restore_snapshotOps wf (committed.at_index j).1 listed
  have ahead := committed.ahead i (j - i)
  rw [Nat.add_sub_cancel' ordered, ← isState] at ahead
  rw [(ahead.converges restored indexed known after).1, stateAt_whole]

def deletedPoint : List EntryPayload :=
  [.normal (.createCollection 0 "a" (Encoding.plain.descriptor.encode { dim := 1, metric := .l2 })), .blank,
    .normal (.upsert 0 "p" [0, 0, 0, 0] []), .normal (.delete 0 "p")]

theorem committed_deletedPoint : CommittedLog .plain deletedPoint :=
  Replication.valid_onePoint_delete.committed Logical.below_empty Logical.known_empty (by simp)

/-- The snapshot's index is that of the first batch; its engine holds one more entry. -/
theorem snapshot_catches_up_mid_batch :
    ∃ events b ops, Run.Reaches (BuildStep .plain deletedPoint) {} events b ∧ b.built = some (2, ops) ∧
      b.applied = 3 ∧
      ((restore .plain .empty ops).applyAll .plain (opsOf (deletedPoint.drop 2))).logical =
        Logical.empty.applyAll .plain (opsOf deletedPoint) := by
  have run : Run.Reaches (BuildStep .plain deletedPoint) {} _ _ :=
    .next (.next (.next (.next (.next (.next .refl (.applyEntry rfl)) (.applyEntry rfl)) .finishBatch)
      (.clone rfl)) (.applyEntry rfl)) (.capture rfl (.refl _))
  exact ⟨_, _, _, run, rfl, rfl, snapshot_catches_up committed_deletedPoint run rfl Engine.wellFormed_empty⟩

end Build

end Quiver.Raft
