import Quiver.Embed.Serving

/-!
The server around a collection that is read without a lock. A write of this server goes to the
snapshot's overlay or leaves the handle stale, and the writer schedules a rebuild if one is needed.
A search in the cached cell does not, nor does a row from another node, which leaves the handle
stale.
-/

namespace Quiver.Server

open Embed
open Quiver.Core (WalOp)
open Std (ExtTreeMap)

/-- Where a rebuild is in its loop. -/
inductive Phase where
  | capture
  | build (inputs : RebuildInputs)
  | commit (rebuilt : RebuiltIndex)

/-- A running rebuild: one that was scheduled, or one of the first-build gate. -/
structure Task where
  scheduled : Bool
  phase : Phase

/-- One collection of a server: whether its cell is cached, the writers and searches that have still
to schedule a rebuild, the mark that one is scheduled, and the running ones. `searched`: a search
was completed since the last write. -/
structure Reads where
  db : Database
  cached : Bool := false
  writers : Nat := 0
  searches : Nat := 0
  rebuilding : Bool := false
  tasks : List Task := []
  searched : Bool := false

inductive ReadsEvent where
  | upsert (points : List PointIn)
  | upsertBulk (points : List PointIn)
  | deletePoints (ids : List String)
  /-- A row of the collection from another node. -/
  | replicate (op : WalOp)
  | scheduleIfStale
  | searchCached
  | searchLocked
  | searchDone
  | firstBuild
  | advance (i : Nat)
  | release
  | restart
  /-- Anything that leaves the collection alone. -/
  | other (db : Database)

section Model

variable (cfg : Setting) (name : String)

def deleteAll (db : Database) : List String → Database × Except EmbedError Unit
  | [] => (db, .ok ())
  | id :: ids =>
    match db.delete cfg name id with
    | (db, .ok _) => deleteAll db ids
    | (db, .error error) => (db, .error error)

/-- A phase of `run_rebuild`, and the next one unless the loop ends. -/
def Phase.run (db : Database) : Phase → Database × Option Phase
  | .capture =>
    match db.snapshotRebuildInputs cfg name with
    | .ok (some inputs) => (db, some (.build inputs))
    | _ => (db, none)
  | .build inputs =>
    match inputs.build with
    | .ok rebuilt => (db, some (.commit rebuilt))
    | .error _ => (db, none)
  | .commit rebuilt =>
    match db.commitRebuild rebuilt with
    | (db, .ok true) => (db, some .capture)
    | (db, _) => (db, none)

namespace Reads

def scheduleRebuild (s : Reads) : Reads :=
  if s.rebuilding then s else { s with rebuilding := true, tasks := ⟨true, .capture⟩ :: s.tasks }

/-- The end of a write: one that succeeded has a staleness check before it. -/
def wrote {α : Type} (s : Reads) (done : Database × Except EmbedError α) : Reads :=
  { s with db := done.1, writers := if done.2.isOk then s.writers + 1 else s.writers, searched := false }

def scheduleIfStale (s : Reads) : Reads :=
  if s.writers = 0 then s
  else
    let s := { s with writers := s.writers - 1 }
    match s.db.handles[name]? with
    | some h => if h.stale then s.scheduleRebuild else s
    | none => s

/-- The locked part of a search. One that finds the handle fresh is complete with it. -/
def searchLocked (s : Reads) : Reads :=
  match s.db.handles[name]? with
  | some h =>
    if h.stale then { s with searches := s.searches + 1 }
    else { s with cached := s.cached || h.mvccServed, searched := true }
  | none => s

def searchDone (s : Reads) : Reads :=
  if s.searches = 0 then s
  else { { s with searches := s.searches - 1 }.scheduleRebuild with searched := true }

/-- The first-build gate starts a rebuild of its own. -/
def firstBuild (s : Reads) : Reads :=
  match s.db.handles[name]? with
  | some h =>
    if h.everBuilt || !h.stale || (s.db.rows name).isEmpty then s
    else { s with tasks := ⟨false, .capture⟩ :: s.tasks }
  | none => s

def advance (s : Reads) (i : Nat) : Reads :=
  match s.tasks[i]? with
  | none => s
  | some task =>
    let (db, next) := task.phase.run cfg name s.db
    { s with
      db := db
      tasks := match next with
        | some phase => s.tasks.set i ⟨task.scheduled, phase⟩
        | none => s.tasks.eraseIdx i }

def step (s : Reads) : ReadsEvent → Reads
  | .upsert points => s.wrote (s.db.upsertBatch cfg name points)
  | .upsertBulk points => s.wrote (s.db.upsertBulk cfg name points)
  | .deletePoints ids => s.wrote (deleteAll cfg name s.db ids)
  | .replicate op => { s with db := (s.db.applyReplicated cfg op).1, searched := false }
  | .scheduleIfStale => s.scheduleIfStale name
  | .searchCached => if s.cached then { s with searched := true } else s
  | .searchLocked => s.searchLocked name
  | .searchDone => s.searchDone
  | .firstBuild => s.firstBuild name
  | .advance i => s.advance cfg name i
  | .release => if s.tasks.any Task.scheduled then s else { s with rebuilding := false }
  | .restart =>
    match s.db.reopen cfg with
    | .ok db => { db := db }
    | .error _ => s
  | .other db => { s with db := db }

/-- What can happen: a replicated row is one of the collection, other events leave it alone. -/
def Possible (s : Reads) : ReadsEvent → Prop
  | .replicate op => ∃ h id, s.db.handles[name]? = some h ∧ op.Touches h.id id
  | .other db => s.db.Follows db ∧ db.mvcc = s.db.mvcc ∧ db.handles[name]? = s.db.handles[name]? ∧
      db.rows name = s.db.rows name
  | _ => True

def Step (s : Reads) (e : ReadsEvent) (t : Reads) : Prop := s.Possible name e ∧ t = s.step cfg name e

/-- Nothing is under way, and the collection was searched after the last write. -/
structure Quiescent (s : Reads) : Prop where
  writers : s.writers = 0
  searches : s.searches = 0
  tasks : s.tasks = []
  searched : s.searched = true

/-- Rows from other nodes come only while the cell is not cached, no rebuild is wanted between the
end of a scheduled one and the removal of its mark, builds succeed, and the generation does not
come around during one. -/
def Attended (s : Reads) : ReadsEvent → Prop
  | .replicate _ => s.cached = false
  | .scheduleIfStale | .searchDone => s.rebuilding = true → s.tasks ≠ []
  | .advance i => ∀ task, s.tasks[i]? = some task → match task.phase with
    | .capture => True
    | .build inputs => ∃ rebuilt, inputs.build = .ok rebuilt
    | .commit rebuilt => ∀ h, s.db.handles[name]? = some h →
      h.writeGen % 2 ^ 64 = rebuilt.writeGen % 2 ^ 64 → h.writeGen = rebuilt.writeGen
  | _ => True

end Reads

end Model

variable {cfg : Setting} {name : String}

/-- What a rebuild under way has captured is of the handle's collection, and current if no write
came after it. -/
def Phase.Of (cfg : Setting) (name : String) (h : CollectionHandle) (rows : ExtTreeMap String Core.Record) : Phase → Prop
  | .capture => True
  | .build inputs => inputs.collection = name ∧ inputs.descriptor = h.descriptor ∧ inputs.writeGen ≤ h.writeGen ∧
      (h.writeGen = inputs.writeGen → inputs.scan = scanCollection cfg h.descriptor rows)
  | .commit r => r.collection = name ∧ (∃ index, r.kind = .ready index) ∧ r.writeGen ≤ h.writeGen ∧
      (h.writeGen = r.writeGen → r.Of cfg h.descriptor rows)

open Reads

/-- A fresh handle serves the rows. A stale one is attended to, once the collection is cached or
searched. -/
structure Watched (cfg : Setting) (name : String) (s : Reads) (h : CollectionHandle) : Prop where
  ok : s.db.Ok
  mvcc : s.db.mvcc = true
  found : s.db.handles[name]? = some h
  served : h.mvccServed = true
  serves : s.db.Serves name h
  attended : h.stale = true → s.cached = true ∨ s.searched = true → 0 < s.writers ∨ 0 < s.searches ∨ s.tasks ≠ []
  tasks : ∀ task ∈ s.tasks, task.phase.Of cfg name h (s.db.rows name)

theorem Phase.Of.moved {phase : Phase} {db db' : Database} {h h' : CollectionHandle} (isOf : phase.Of cfg name h (db.rows name))
    (found : db.handles[name]? = some h) (served : h.mvccServed = true) (moved : Database.Moved name db h db' h') :
    phase.Of cfg name h' (db'.rows name) := by
  have descriptor := moved.advanced.descriptor
  have generation := moved.advanced.generation
  have sameRows : h'.writeGen = h.writeGen → db'.rows name = db.rows name := by
    intro same
    have kept := (moved.advanced.rows same).resolve_left (Database.plain_of_served served).2
    rw [Database.rows_of_found moved.found, Database.rows_of_found found, moved.advanced.id, rowsOf, kept, rowsOf]
  cases phase with
  | capture => trivial
  | build inputs =>
    obtain ⟨isName, isDescriptor, bound, current⟩ := isOf
    refine ⟨isName, isDescriptor.trans descriptor.symm, bound.trans generation, fun same => ?_⟩
    rw [sameRows (by omega), descriptor]
    exact current (by omega)
  | commit r =>
    obtain ⟨isName, ready, bound, current⟩ := isOf
    refine ⟨isName, ready, bound.trans generation, fun same => ?_⟩
    rw [sameRows (by omega), descriptor]
    exact current (by omega)

namespace Watched

variable {s : Reads} {h : CollectionHandle}

variable {h' : CollectionHandle}

theorem move (watched : Watched cfg name s h) {s' : Reads}
    (moved : Database.Moved name s.db h s'.db h') (sameTasks : s'.tasks = s.tasks)
    (attended : h'.stale = true → s'.cached = true ∨ s'.searched = true → 0 < s'.writers ∨ 0 < s'.searches ∨ s'.tasks ≠ []) :
    Watched cfg name s' h' where
  ok := moved.ok
  mvcc := moved.mvcc.trans watched.mvcc
  found := moved.found
  served := moved.advanced.served.trans watched.served
  serves := moved.serves watched.serves
  attended := attended
  tasks task member :=
    (watched.tasks task (sameTasks ▸ member)).moved watched.found watched.served moved

theorem attended_fresh {s' : Reads} (fresh : h'.stale = false) :
    h'.stale = true → s'.cached = true ∨ s'.searched = true → 0 < s'.writers ∨ 0 < s'.searches ∨ s'.tasks ≠ [] := by
  intro stale
  rw [fresh] at stale
  cases stale

theorem wrote {α : Type} (watched : Watched cfg name s h) {done : Database × Except EmbedError α}
    (cases : (∃ error, done = (s.db, .error error)) ∨
      ∃ value h', done.2 = .ok value ∧ Database.Moved name s.db h done.1 h') :
    ∃ h', Watched cfg name (s.wrote done) h' := by
  obtain ⟨error, rfl⟩ | ⟨value, h', isOk, moved⟩ := cases
  · refine ⟨h, watched.move (.refl watched.ok watched.found) rfl fun stale cached => ?_⟩
    exact watched.attended stale (.inl (cached.resolve_right (by simp [Reads.wrote])))
  · refine ⟨h', watched.move moved rfl fun _ _ => .inl ?_⟩
    simp [Reads.wrote, isOk, Except.isOk, Except.toBool]

theorem deleteAll_moved (cfg : Setting) {db : Database} {h : CollectionHandle} (ok : db.Ok) (found : db.handles[name]? = some h)
    (served : h.mvccServed = true) (ids : List String) :
    ∃ h', Database.Moved name db h (deleteAll cfg name db ids).1 h' ∧ h'.stale = h.stale := by
  induction ids generalizing db h with
  | nil => exact ⟨h, .refl ok found, rfl⟩
  | cons id ids ih =>
    obtain ⟨h', moved, stale⟩ := Database.delete_moved cfg ok found served id
    unfold deleteAll
    split
    · rename_i db' existed isDeleted
      rw [isDeleted] at moved
      obtain ⟨h'', moved', stale'⟩ := ih moved.ok moved.found (moved.advanced.served.trans served)
      exact ⟨h'', moved.trans moved', stale'.trans stale⟩
    · rename_i db' error isDeleted
      rw [isDeleted] at moved
      exact ⟨h', moved, stale⟩

section

variable (watched : Watched cfg name s h)
include watched

theorem deletePoints (ids : List String) :
    ∃ h', Watched cfg name (s.wrote (deleteAll cfg name s.db ids)) h' := by
  obtain ⟨h', moved, stale⟩ := deleteAll_moved cfg watched.ok watched.found watched.served ids
  refine ⟨h', watched.move moved rfl fun isStale cached => ?_⟩
  obtain waiting | rest := watched.attended (stale ▸ isStale) (.inl (cached.resolve_right (by simp [Reads.wrote])))
  · refine .inl (Nat.lt_of_lt_of_le waiting ?_)
    simp only [Reads.wrote]
    split <;> omega
  · exact .inr rest

theorem counted {cached searched rebuilding : Bool} {writers searches : Nat}
    (attended : h.stale = true → cached = true ∨ searched = true → 0 < writers ∨ 0 < searches ∨ s.tasks ≠ []) :
    Watched cfg name ⟨s.db, cached, writers, searches, rebuilding, s.tasks, searched⟩ h :=
  ⟨watched.ok, watched.mvcc, watched.found, watched.served, watched.serves, attended, watched.tasks⟩

theorem scheduled (s' : Reads) (sameDb : s'.db = s.db) (sameTasks : s'.tasks = s.tasks)
    (attended : s'.rebuilding = true → s'.tasks ≠ []) (searched : Bool) :
    Watched cfg name { s'.scheduleRebuild with searched := searched } h := by
  have started : s'.scheduleRebuild.tasks ≠ [] := by
    unfold Reads.scheduleRebuild
    split
    · exact attended ‹_›
    · exact List.cons_ne_nil _ _
  have db : s'.scheduleRebuild.db = s.db := by
    unfold Reads.scheduleRebuild
    split <;> exact sameDb
  refine ⟨?_, ?_, ?_, watched.served, ?_, fun _ _ => .inr (.inr started), fun task member => ?_⟩
  · exact db ▸ watched.ok
  · exact db ▸ watched.mvcc
  · exact db ▸ watched.found
  · exact db ▸ watched.serves
  · have isOf : task.phase.Of cfg name h (s.db.rows name) := by
      unfold Reads.scheduleRebuild at member
      split at member
      · exact watched.tasks task (sameTasks ▸ member)
      · obtain rfl | member := List.mem_cons.mp member
        · trivial
        · exact watched.tasks task (sameTasks ▸ member)
    exact db ▸ isOf

theorem scheduleIfStale (attended : s.rebuilding = true → s.tasks ≠ []) :
    Watched cfg name (s.scheduleIfStale name) h := by
  unfold Reads.scheduleIfStale
  split
  · exact watched
  · simp only [watched.found]
    split
    · exact watched.scheduled { s with writers := s.writers - 1 } rfl rfl attended
        (Reads.scheduleRebuild { s with writers := s.writers - 1 }).searched
    · rename_i fresh
      exact watched.counted fun stale => absurd stale fresh

theorem searchLocked : Watched cfg name (s.searchLocked name) h := by
  unfold Reads.searchLocked
  rw [watched.found]
  dsimp only
  split
  · exact watched.counted fun _ _ => .inr (.inl (Nat.succ_pos _))
  · rename_i fresh
    exact watched.counted fun stale => absurd stale fresh

theorem searchDone (attended : s.rebuilding = true → s.tasks ≠ []) :
    Watched cfg name s.searchDone h := by
  unfold Reads.searchDone
  split
  · exact watched
  · exact watched.scheduled { s with searches := s.searches - 1 } rfl rfl attended true

theorem firstBuild : Watched cfg name (s.firstBuild name) h := by
  unfold Reads.firstBuild
  rw [watched.found]
  dsimp only
  split
  · exact watched
  · refine ⟨watched.ok, watched.mvcc, watched.found, watched.served, watched.serves,
      fun _ _ => .inr (.inr (List.cons_ne_nil _ _)), List.forall_mem_cons.mpr ⟨trivial, watched.tasks⟩⟩

end

section Tasks

variable {i : Nat} {task : Task}

theorem goesOn (watched : Watched cfg name s h) (running : s.tasks[i]? = some task) {phase : Phase}
    (isOf : phase.Of cfg name h (s.db.rows name)) :
    Watched cfg name { s with tasks := s.tasks.set i ⟨task.scheduled, phase⟩ } h := by
  refine ⟨watched.ok, watched.mvcc, watched.found, watched.served, watched.serves, fun _ _ => .inr (.inr ?_), ?_⟩
  · have bound := (List.getElem?_eq_some_iff.mp running).1
    intro none
    have length : (s.tasks.set i ⟨task.scheduled, phase⟩).length = 0 := List.length_eq_zero_iff.mpr none
    rw [List.length_set] at length
    omega
  · intro other member
    obtain member | rfl := List.mem_or_eq_of_mem_set member
    · exact watched.tasks other member
    · exact isOf

theorem ends (watched : Watched cfg name s h) (fresh : h.stale = false) :
    Watched cfg name { s with tasks := s.tasks.eraseIdx i } h :=
  ⟨watched.ok, watched.mvcc, watched.found, watched.served, watched.serves, fun stale => by simp [fresh] at stale,
    fun other member => watched.tasks other (List.mem_of_mem_eraseIdx member)⟩

theorem capture_none (ok : s.db.Ok) (found : s.db.handles[name]? = some h)
    (none : ∀ inputs, s.db.snapshotRebuildInputs cfg name ≠ .ok (some inputs)) : h.stale = false := by
  obtain ⟨c, held, _⟩ := ok.collection found
  cases stale : h.stale with
  | false => rfl
  | true =>
    refine absurd ?_ (none ⟨name, h.descriptor, scanCollection cfg h.descriptor c.points, h.writeGen⟩)
    simp only [Database.snapshotRebuildInputs, found, stale, if_true, held]

theorem advance (watched : Watched cfg name s h) (attended : s.Attended name (.advance i)) :
    ∃ h', Watched cfg name (s.advance cfg name i) h' := by
  unfold Reads.advance
  cases running : s.tasks[i]? with
  | none => exact ⟨h, watched⟩
  | some task =>
    have isOf := watched.tasks task (List.mem_of_getElem? running)
    have succeeds := attended task running
    obtain ⟨scheduled, phase⟩ := task
    cases phase with
    | capture =>
      simp only [Phase.run]
      split
      · rename_i inputs captured
        obtain ⟨h', c, found, held, rfl⟩ := Database.snapshotRebuildInputs_spec watched.ok captured
        rw [watched.found] at found
        cases found
        have isRows : s.db.rows name = c.points := by
          rw [Database.rows_of_found watched.found, rowsOf, held]
          rfl
        exact ⟨h, watched.goesOn running ⟨rfl, rfl, Nat.le_refl _, fun _ => by rw [isRows]⟩⟩
      · rename_i none
        exact ⟨h, watched.ends (capture_none watched.ok watched.found none)⟩
    | build inputs =>
      obtain ⟨rebuilt, built⟩ := succeeds
      obtain ⟨isName, isDescriptor, bound, current⟩ := isOf
      simp only [Phase.run, built]
      obtain ⟨name', index, ids, docs, sparse, generation⟩ := RebuildInputs.build_spec built
      refine ⟨h, watched.goesOn running ⟨name'.trans isName, ?_, generation ▸ bound, fun same => ?_⟩⟩
      · exact Database.build_ready (isDescriptor ▸ Database.eligible_of_served watched.served) built
      · have isScan := current (generation ▸ same)
        rw [isScan, isDescriptor] at index
        rw [isScan] at ids docs sparse
        exact ⟨index, ids, docs, sparse⟩
    | commit rebuilt =>
      obtain ⟨isName, ⟨index, ready⟩, bound, current⟩ := isOf
      obtain ⟨h', moved, decided⟩ := Database.commit_moved watched.ok watched.found watched.served isName ready
        fun same => current (succeeds h watched.found same)
      simp only [Phase.run]
      split
      · rename_i db isCommitted
        rw [isCommitted] at moved
        have afterwards : Watched cfg name { s with db := db } h' :=
          watched.move moved rfl fun _ _ => .inr (.inr (List.ne_nil_of_mem (List.mem_of_getElem? running)))
        exact ⟨h', afterwards.goesOn running trivial⟩
      · rename_i db result notTrue isCommitted
        rw [isCommitted] at moved decided
        have fresh : h'.stale = false := decided.resolve_left notTrue
        have afterwards : Watched cfg name { s with db := db } h' := watched.move moved rfl (attended_fresh fresh)
        exact ⟨h', afterwards.ends fresh⟩

end Tasks

theorem restart (watched : Watched cfg name s h) : ∃ h', Watched cfg name (s.step cfg name .restart) h' := by
  simp only [Reads.step]
  split
  · rename_i db opened
    obtain ⟨h', found, served, stale, mvcc⟩ := Database.reopen_stale watched.ok opened watched.mvcc watched.found
      (Database.eligible_of_served watched.served)
    refine ⟨h', (watched.ok.reopen opened).ok, mvcc, found, served, fun fresh => ?_, fun _ seen => ?_, fun task member => ?_⟩
    · rw [stale] at fresh
      cases fresh
    · simp at seen
    · cases member
  · exact ⟨h, watched⟩

theorem step (watched : Watched cfg name s h) {e : ReadsEvent} (possible : s.Possible name e)
    (attended : s.Attended name e) : ∃ h', Watched cfg name (s.step cfg name e) h' := by
  cases e with
  | upsert points => exact watched.wrote (Database.upsertBatch_moved watched.ok watched.found watched.served points)
  | upsertBulk points => exact watched.wrote (Database.upsertBulk_moved watched.ok watched.found points)
  | deletePoints ids => exact watched.deletePoints ids
  | replicate op =>
    obtain ⟨h', id, found, touches⟩ := possible
    rw [watched.found] at found
    cases found
    obtain ⟨h', moved⟩ := Database.replicate_moved cfg watched.ok watched.found touches
    refine ⟨h', watched.move moved rfl fun _ seen => ?_⟩
    have uncached : s.cached = false := attended
    simp [Reads.step, uncached] at seen
  | scheduleIfStale => exact ⟨h, watched.scheduleIfStale attended⟩
  | searchCached =>
    simp only [Reads.step]
    split
    · rename_i cached
      exact ⟨h, watched.counted fun stale _ => watched.attended stale (.inl cached)⟩
    · exact ⟨h, watched⟩
  | searchLocked => exact ⟨h, watched.searchLocked⟩
  | searchDone => exact ⟨h, watched.searchDone attended⟩
  | firstBuild => exact ⟨h, watched.firstBuild⟩
  | advance i => exact watched.advance attended
  | release =>
    simp only [Reads.step]
    split
    · exact ⟨h, watched⟩
    · exact ⟨h, watched.counted watched.attended⟩
  | restart => exact watched.restart
  | other db =>
    obtain ⟨follows, mvcc, sameHandle, sameRows⟩ := possible
    have found : db.handles[name]? = some h := sameHandle.trans watched.found
    obtain new | ⟨h', found', advanced⟩ := follows.handles found
    · exact absurd new (Nat.not_le.mpr (watched.ok.cells watched.found))
    · rw [watched.found] at found'
      cases found'
      refine ⟨h, watched.move ⟨follows.ok, mvcc, found, advanced, fun serves => ?_⟩ rfl watched.attended⟩
      unfold Database.Serves
      rw [show Database.rows (s.step cfg name (.other db)).db name = s.db.rows name from sameRows]
      exact serves

end Watched

/-- A collection that was just created, or loaded at an open, on a server with lock-free reads: in
every quiescent state its snapshot has exactly its rows. -/
theorem quiescent_snapshot_fresh {db : Database} (ok : db.Ok) (mvcc : db.mvcc = true) {h₀ : CollectionHandle}
    (found₀ : db.handles[name]? = some h₀) (served₀ : h₀.mvccServed = true)
    (loaded : h₀.stale = true ∨ h₀.snapshot = {} ∧ h₀.idmap = {} ∧ db.rows name = ∅)
    {events : List ReadsEvent} {s : Reads}
    (run : Run.Reaches (Run.Guarded (Attended name) (Step cfg name)) { db := db } events s) (quiescent : s.Quiescent) :
    ∃ h, s.db.handles[name]? = some h ∧
      h.snapshot.points.Perm ((s.db.rows name).toList.map fun row => (row.1, row.2.vector)) := by
  have start : Watched cfg name { db := db } h₀ := by
    refine ⟨ok, mvcc, found₀, served₀, fun fresh => ?_, fun _ seen => by simp at seen, fun task member => nomatch member⟩
    obtain stale | ⟨snapshot, idmap, none⟩ := loaded
    · rw [stale] at fresh
      cases fresh
    · rw [snapshot, idmap, none]
      exact .empty
  obtain ⟨h, watched⟩ : ∃ h, Watched cfg name s h :=
    run.invariant (fun _ s => ∃ h, Watched cfg name s h) ⟨h₀, start⟩ fun {_ s e t} inv stepped => by
      obtain ⟨h, watched⟩ := inv
      obtain ⟨attended, possible, rfl⟩ := stepped
      exact watched.step possible attended
  have fresh : h.stale = false := by
    cases stale : h.stale with
    | false => rfl
    | true =>
      have left := watched.attended stale (.inr quiescent.searched)
      simp [quiescent.writers, quiescent.searches, quiescent.tasks] at left
  exact ⟨h, watched.found, (watched.serves fresh).points⟩

/-- A server with lock-free reads and an empty collection. -/
def served : Database := (({ mvcc := true } : Database).createCollection .plain "c" Database.lineDescriptor).1

def writtenAndSearched : List ReadsEvent := [.upsert [Database.linePoint "a"], .scheduleIfStale, .searchLocked]

theorem quiescent_snapshot_fresh_written : ∃ h,
    (writtenAndSearched.foldl (step .plain "c") { db := served }).db.handles["c"]? = some h ∧
      h.snapshot.points.Perm (((writtenAndSearched.foldl (step .plain "c") { db := served }).db.rows "c").toList.map
        fun row => (row.1, row.2.vector)) := by
  have created : ({ mvcc := true } : Database).createCollection .plain "c" Database.lineDescriptor = (served, .ok ()) :=
    Prod.ext rfl rfl
  have ok : served.Ok := ((Database.ok_empty true).create "c" Database.lineDescriptor).ok
  obtain ⟨none, found⟩ := Database.createCollection_new created
  have searched : Run.Reaches (Run.Guarded (Attended "c") (Step .plain "c")) { db := served } writtenAndSearched _ :=
    .next (.next (.next .refl ⟨trivial, trivial, rfl⟩) ⟨(fun running => nomatch running), trivial, rfl⟩)
      ⟨trivial, trivial, rfl⟩
  have quiescent : (writtenAndSearched.foldl (step .plain "c") { db := served }).Quiescent := by
    have rest : (writtenAndSearched.foldl (step .plain "c") { db := served }).tasks.length = 0 := by decide +kernel
    exact ⟨by decide +kernel, by decide +kernel, List.length_eq_zero_iff.mp rest, by decide +kernel⟩
  exact quiescent_snapshot_fresh ok rfl found rfl (.inr ⟨rfl, rfl, none⟩) searched quiescent

def followed : Reads := [.searchLocked, .replicate ((Database.linePoint "a").op 0), .searchCached].foldl
  (step .plain "c") { db := served }

/-- A follower: the empty collection is searched and its cell cached, then a row comes from the
leader. The next search reads the cached cell, and no rebuild will ever be scheduled. -/
theorem replicated_row_stays_invisible :
    (followed.writers = 0 ∧ followed.searches = 0 ∧ followed.tasks.length = 0 ∧ followed.searched = true) ∧
      (followed.db.handles["c"]?).map (fun h => h.snapshot.points.map Prod.fst) = some [] ∧
      (followed.db.rows "c").keys = ["a"] := by
  refine ⟨?_, ?_, ?_⟩
  · decide +kernel
  · decide +kernel
  · decide +kernel

end Quiver.Server
