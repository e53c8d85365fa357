import Quiver.Embed.Effects

/-!
The snapshots of the served collections over whole runs: writes, rebuilds at once and off the lock,
reads without a lock switched on and off, and closing and opening again, in any order.
-/

namespace Quiver.Embed

open Quiver.Core

namespace Database

variable {cfg : Setting} {db db' : Database} {name : String} {h h' : CollectionHandle}

/-- A rebuild under way, with the cell of the handle it was captured from, which it does not carry. -/
structure Captured where
  rebuilt : RebuiltIndex
  cell : Nat

/-- A database, the rebuilds under way, and the collections whose base was created or published since
the database was opened and the reads were last switched. -/
structure Underway where
  db : Database
  captured : List Captured := []
  published : List String := []

inductive Act where
  | create (name : String) (descriptor : Descriptor)
  | upsert (collection : String) (point : PointIn)
  | upsertBatch (collection : String) (points : List PointIn)
  | upsertBulk (collection : String) (points : List PointIn)
  | delete (collection : String) (id : String)
  | ensureIndexed (collection : String)
  | setMvccReads (on : Bool)
  /-- The database is closed, and opened with the reads switched on. -/
  | reopen
  | capture (collection : String)
  | commit (position : Nat)

namespace Underway

def act (cfg : Setting) (s : Underway) : Act → Underway
  | .create name descriptor =>
    let (db, result) := s.db.createCollection cfg name descriptor
    { s with db, published := if result.isOk then name :: s.published else s.published }
  | .upsert collection point => { s with db := (s.db.upsert cfg collection point).1 }
  | .upsertBatch collection points => { s with db := (s.db.upsertBatch cfg collection points).1 }
  | .upsertBulk collection points => { s with db := (s.db.upsertBulk cfg collection points).1 }
  | .delete collection id => { s with db := (s.db.delete cfg collection id).1 }
  | .ensureIndexed collection =>
    let (db, result) := s.db.ensureIndexed cfg collection
    { s with db, published := match result with
      | .ok (.ok ()) => collection :: s.published
      | _ => s.published }
  | .setMvccReads on => { s with db := s.db.setMvccReads on, published := [] }
  | .reopen => match ({ s.db with mvcc := true } : Database).reopen cfg with
    | .ok db => { s with db, published := [] }
    | .error _ => s
  | .capture collection => match s.db.handles[collection]?, Database.capture cfg s.db collection with
    | some h, some rebuilt => { s with captured := s.captured ++ [⟨rebuilt, h.cell⟩] }
    | _, _ => s
  | .commit position => match s.captured[position]? with
    | none => s
    | some c =>
      let (db, result) := s.db.commitRebuild c.rebuilt
      { db
        captured := s.captured.eraseIdx position
        published := if result.isOk then c.rebuilt.collection :: s.published else s.published }

def acts (cfg : Setting) (s : Underway) (list : List Act) : Underway := list.foldl (act cfg) s

/-- A database that was just made, with the reads on or off. -/
def start (mvcc : Bool) : Underway := { db := { mvcc := mvcc } }

/-- A rebuild that is committed was captured from the loaded handle, less than `2 ^ 64` writes ago. -/
def recent (s : Underway) : Act → Bool
  | .commit position => (s.captured[position]?).all fun c => (s.db.handles[c.rebuilt.collection]?).all fun h =>
      h.cell == c.cell && decide (h.writeGen < c.rebuilt.writeGen + 2 ^ 64)
  | _ => true

def allRecent (cfg : Setting) : Underway → List Act → Bool
  | _, [] => true
  | s, a :: list => s.recent a && allRecent cfg (s.act cfg a) list

/-- The fresh and the published handles are in lockstep. -/
def InStep (s : Underway) : Prop :=
  ∀ {name : String} {h : CollectionHandle}, s.db.handles[name]? = some h → h.mvccServed = true →
    h.stale = false ∨ name ∈ s.published → h.Lockstep

/-- The rows captured for a rebuild are those of the handle it was captured from, as long as that
one's generation has not moved. -/
def Holds (cfg : Setting) (db : Database) (c : Captured) : Prop :=
  c.cell < db.nextCell ∧ ∀ {h : CollectionHandle}, db.handles[c.rebuilt.collection]? = some h → h.cell = c.cell →
    c.rebuilt.writeGen ≤ h.writeGen ∧ (h.writeGen = c.rebuilt.writeGen → h.descriptor.vectorEncryption ≠ .clientSide →
      c.rebuilt.Of cfg h.descriptor (db.rows c.rebuilt.collection))

structure Agrees (cfg : Setting) (s : Underway) : Prop where
  ok : s.db.Ok
  serves : ∀ {name : String} {h : CollectionHandle}, s.db.handles[name]? = some h → h.mvccServed = true →
    s.db.Serves name h
  holds : ∀ c ∈ s.captured, Holds cfg s.db c

variable {c : Captured}

theorem Holds.follows (holds : Holds cfg db c) (follows : db.Follows db') :
    Holds cfg db' c := by
  refine ⟨Nat.lt_of_lt_of_le holds.1 follows.cells, fun {h'} found' sameCell => ?_⟩
  obtain new | ⟨h, found, advanced⟩ := follows.handles found'
  · exact absurd (sameCell ▸ holds.1) (Nat.not_lt.mpr new)
  · obtain ⟨low, isOf⟩ := holds.2 found (advanced.cell ▸ sameCell)
    have later := advanced.generation
    refine ⟨by omega, fun same plain => ?_⟩
    rw [advanced.descriptor] at plain ⊢
    obtain client | kept := advanced.rows (by omega)
    · exact absurd client plain
    · rw [rows_of_found found', advanced.id, rowsOf, kept, ← rowsOf, ← rows_of_found found]
      exact isOf (by omega) plain

theorem Holds.setMvccReads (holds : Holds cfg db c) (on : Bool) : Holds cfg (db.setMvccReads on) c := by
  refine ⟨holds.1, fun {h'} switched sameCell => ?_⟩
  obtain ⟨h, found, rfl⟩ := setMvccReads_handles switched
  rw [rows_setMvccReads]
  have before := holds.2 found sameCell
  exact before

theorem holds_capture (ok : db.Ok) (found : db.handles[name]? = some h) {rebuilt : RebuiltIndex}
    (captured : Database.capture cfg db name = some rebuilt) : Holds cfg db ⟨rebuilt, h.cell⟩ := by
  obtain ⟨inputs, asked, built⟩ := capture_eq_some.mp captured
  obtain ⟨h₀, c, found₀, held, rfl⟩ := snapshotRebuildInputs_spec ok asked
  rw [found] at found₀
  cases found₀
  obtain ⟨isName, index, ids, docs, sparse, generation⟩ := RebuildInputs.build_spec built
  have sameName : rebuilt.collection = name := isName
  refine ⟨ok.cells found, fun {h'} found' _ => ?_⟩
  dsimp only at found' ⊢
  rw [sameName, found] at found'
  cases found'
  refine ⟨Nat.le_of_eq generation, fun _ _ => ?_⟩
  have isRows : db.rows rebuilt.collection = c.points := by
    rw [sameName, rows_of_found found, rowsOf, held]
    rfl
  rw [isRows]
  exact ⟨index, ids, docs, sparse⟩

variable {s : Underway} {a : Act}

/-- The rebuild that an act installs in a collection. -/
def installs (s : Underway) (a : Act) (name : String) : Option RebuiltIndex :=
  match a with
  | .commit position => match s.captured[position]? with
    | some c => if name = c.rebuilt.collection then some c.rebuilt else none
    | none => none
  | _ => none

theorem act_follows (cfg : Setting) (ok : s.db.Ok) (a : Act) :
    s.db.Follows (s.act cfg a).db ∨ ∃ on, (s.act cfg a).db = s.db.setMvccReads on := by
  cases a with
  | create name descriptor => exact .inl (ok.create name descriptor)
  | upsert collection point => exact .inl (ok.acted ⟨none, upsert_acted ..⟩)
  | upsertBatch collection points => exact .inl (ok.acted ⟨none, upsertBatch_acted ..⟩)
  | upsertBulk collection points => exact .inl (ok.acted ⟨none, upsertBulk_acted ..⟩)
  | delete collection id => exact .inl (ok.acted ⟨none, delete_acted ..⟩)
  | ensureIndexed collection => exact .inl (ok.acted ⟨none, ensureIndexed_acted ..⟩)
  | setMvccReads on => exact .inr ⟨on, rfl⟩
  | reopen =>
    left
    rw [act]
    split
    case h_1 opened =>
      have switched : Ok { s.db with mvcc := true } := ⟨ok.indexed, ok.below, ok.loaded, ok.descriptor, ok.cells⟩
      have follows := switched.reopen opened
      exact ⟨follows.ok, follows.cells, follows.handles⟩
    case h_2 => exact .refl ok
  | capture collection =>
    left
    rw [act]
    split <;> exact .refl ok
  | commit position =>
    left
    rw [act]
    split
    · exact .refl ok
    · exact ok.acted ⟨_, commit_acted cfg ..⟩

theorem act_ok (ok : s.db.Ok) (a : Act) : (s.act cfg a).db.Ok := by
  obtain follows | ⟨on, switched⟩ := act_follows cfg ok a
  · exact follows.ok
  · rw [switched]
    exact ok.setMvccReads on

theorem Holds.act (holds : Holds cfg s.db c) (ok : s.db.Ok) (a : Act) : Holds cfg (s.act cfg a).db c := by
  obtain follows | ⟨on, switched⟩ := act_follows cfg ok a
  · exact holds.follows follows
  · rw [switched]
    exact holds.setMvccReads on

/-- What an act can do to a served collection. -/
theorem act_handles (ok : s.db.Ok) (found' : (s.act cfg a).db.handles[name]? = some h') (served : h'.mvccServed = true) :
    (∃ h, s.db.handles[name]? = some h ∧ h.mvccServed = true ∧
      h.Effect cfg (s.installs a name) (s.db.rows name) ((s.act cfg a).db.rows name) h') ∨
    (h'.idmap = {} ∧ h'.snapshot = {} ∧ (s.act cfg a).db.rows name = ∅) ∨
    (h'.stale = true ∧ (s.act cfg a).published = []) := by
  have acted : ∀ {installs : Option RebuiltIndex} {collection : String} {db' : Database},
      Acted cfg installs s.db collection db' → db'.handles[name]? = some h' →
      ∃ h, s.db.handles[name]? = some h ∧ h.mvccServed = true ∧
        h.Effect cfg (if name = collection then installs else none) (s.db.rows name) (db'.rows name) h' := by
    intro installs collection db' acted found'
    obtain ⟨h, found, sameServed, effect⟩ := acted.handles ok found'
    exact ⟨h, found, sameServed.symm.trans served, effect⟩
  have plainly : ∀ {collection : String} {db' : Database}, Acted cfg none s.db collection db' →
      db'.handles[name]? = some h' → ∃ h, s.db.handles[name]? = some h ∧ h.mvccServed = true ∧
        h.Effect cfg none (s.db.rows name) (db'.rows name) h' := by
    intro collection db' done found'
    have result := acted done found'
    rw [ite_self] at result
    exact result
  cases a with
  | create collection descriptor =>
    obtain ⟨found, kept⟩ | ⟨idmap, snapshot, empty⟩ := createCollection_handles cfg ok collection descriptor found'
    · refine .inl ⟨h', found, served, ?_⟩
      rw [show (s.act cfg (.create collection descriptor)).db.rows name = s.db.rows name from kept]
      exact .same
    · exact .inr (.inl ⟨idmap, snapshot, empty⟩)
  | upsert collection point => exact .inl (plainly (upsert_acted ..) found')
  | upsertBatch collection points => exact .inl (plainly (upsertBatch_acted ..) found')
  | upsertBulk collection points => exact .inl (plainly (upsertBulk_acted ..) found')
  | delete collection id => exact .inl (plainly (delete_acted ..) found')
  | ensureIndexed collection => exact .inl (plainly (ensureIndexed_acted ..) found')
  | setMvccReads on =>
    obtain ⟨h, _, rfl⟩ := setMvccReads_handles found'
    exact .inr (.inr ⟨served_setMvcc served, rfl⟩)
  | reopen =>
    cases opened : ({ s.db with mvcc := true } : Database).reopen cfg with
    | ok db =>
      have isOpen : s.act cfg .reopen = { s with db, published := [] } := by rw [act, opened]
      rw [isOpen] at found' ⊢
      exact .inr (.inr ⟨(reopen_handles opened found').trans served, rfl⟩)
    | error =>
      have isSame : s.act cfg .reopen = s := by rw [act, opened]
      rw [isSame] at found' ⊢
      exact .inl ⟨h', found', served, .same⟩
  | capture collection =>
    have sameDb : (s.act cfg (.capture collection)).db = s.db := by
      rw [act]
      split <;> rfl
    rw [sameDb] at found' ⊢
    exact .inl ⟨h', found', served, .same⟩
  | commit position =>
    cases isCaptured : s.captured[position]? with
    | none =>
      have isSame : s.act cfg (.commit position) = s := by rw [act, isCaptured]
      rw [isSame] at found' ⊢
      exact .inl ⟨h', found', served, .same⟩
    | some c =>
      have isDb : (s.act cfg (.commit position)).db = (s.db.commitRebuild c.rebuilt).1 := by rw [act, isCaptured]
      rw [isDb] at found' ⊢
      rw [installs, isCaptured]
      exact .inl (acted (commit_acted _ s.db c.rebuilt) found')

/-- A collection is added to those published when it is left fresh or in lockstep. -/
theorem act_published (found' : (s.act cfg a).db.handles[name]? = some h') (served : h'.mvccServed = true)
    (inside : name ∈ (s.act cfg a).published) : name ∈ s.published ∨ h'.stale = false ∨ h'.Lockstep := by
  cases a with
  | create collection descriptor =>
    cases created : s.db.createCollection cfg collection descriptor with
    | mk db result =>
    simp only [act, created] at found' inside
    split at inside
    case isTrue isOk =>
      obtain rfl | inside := List.mem_cons.mp inside
      · cases result with
        | error => cases isOk
        | ok =>
          rw [(createCollection_new created).2] at found'
          cases found'
          exact .inr (.inl rfl)
      · exact .inl inside
    case isFalse => exact .inl inside
  | ensureIndexed collection =>
    cases indexed : s.db.ensureIndexed cfg collection with
    | mk db result =>
    simp only [act, indexed] at found' inside
    split at inside
    · obtain rfl | inside := List.mem_cons.mp inside
      · exact .inr (.inl (ensureIndexed_fresh indexed found'))
      · exact .inl inside
    · exact .inl inside
  | setMvccReads on => cases inside
  | reopen =>
    rw [act] at inside
    split at inside
    · cases inside
    · exact .inl inside
  | capture collection =>
    rw [act] at inside
    split at inside
    · exact .inl inside
    · exact .inl inside
  | commit position =>
    cases isCaptured : s.captured[position]? with
    | none =>
      rw [act, isCaptured] at inside
      exact .inl inside
    | some c =>
      cases committed : s.db.commitRebuild c.rebuilt with
      | mk db result =>
      simp only [act, isCaptured, committed] at found' inside
      split at inside
      case isTrue isOk =>
        obtain rfl | inside := List.mem_cons.mp inside
        · cases result with
          | error => cases isOk
          | ok => exact .inr (.inr (commit_lockstep committed found' served))
        · exact .inl inside
      case isFalse => exact .inl inside
  | upsert | upsertBatch | upsertBulk | delete => exact .inl inside

theorem InStep.act (inStep : s.InStep) (ok : s.db.Ok) (a : Act) : (s.act cfg a).InStep := by
  intro name h' found' served asked
  obtain ⟨h, found, servedBefore, effect⟩ | ⟨idmap, snapshot, _⟩ | ⟨stale, reset⟩ := act_handles ok found' served
  · have fresh : h'.stale = false → h'.Lockstep := fun fresh => by
      obtain freshBefore | done := effect.fresh servedBefore fresh
      · exact effect.lockstep servedBefore (inStep found servedBefore (.inl freshBefore))
      · exact done
    obtain isFresh | inside := asked
    · exact fresh isFresh
    · obtain before | isFresh | done := act_published found' served inside
      · exact effect.lockstep servedBefore (inStep found servedBefore (.inr before))
      · exact fresh isFresh
      · exact done
  · rw [CollectionHandle.Lockstep, idmap, snapshot]
    rfl
  · rw [stale, reset] at asked
    simp at asked

/-- Every served handle is flagged. -/
def AllFlagged (s : Underway) : Prop :=
  ∀ {name : String} {h : CollectionHandle}, s.db.handles[name]? = some h → h.mvccServed = true → h.Flagged

theorem AllFlagged.act (flagged : s.AllFlagged) (ok : s.db.Ok) (a : Act) : (s.act cfg a).AllFlagged := by
  intro name h' found' served
  obtain ⟨h, found, servedBefore, effect⟩ | ⟨_, snapshot, _⟩ | ⟨stale, _⟩ := act_handles ok found' served
  · exact effect.flagged servedBefore (flagged found servedBefore)
  · exact CollectionHandle.flagged_of_no_overlay (by rw [snapshot])
  · exact fun _ => stale

theorem captured_act (inside : c ∈ (s.act cfg a).captured) :
    c ∈ s.captured ∨
      ∃ name h, s.db.handles[name]? = some h ∧ Database.capture cfg s.db name = some c.rebuilt ∧ c.cell = h.cell := by
  cases a with
  | capture collection =>
    rw [act] at inside
    split at inside
    case h_1 h rebuilt found captured =>
      obtain before | new := List.mem_append.mp inside
      · exact .inl before
      · cases List.mem_singleton.mp new
        exact .inr ⟨collection, h, found, captured, rfl⟩
    case h_2 => exact .inl inside
  | commit position =>
    rw [act] at inside
    split at inside
    · exact .inl inside
    · exact .inl (List.mem_of_mem_eraseIdx inside)
  | reopen =>
    rw [act] at inside
    split at inside <;> exact .inl inside
  | create | upsert | upsertBatch | upsertBulk | delete | ensureIndexed | setMvccReads => exact .inl inside

theorem installs_eq_some {r : RebuiltIndex} (isRebuild : s.installs a name = some r) :
    ∃ position c, a = .commit position ∧ s.captured[position]? = some c ∧ name = c.rebuilt.collection ∧ r = c.rebuilt := by
  cases a with
  | commit position =>
    rw [installs] at isRebuild
    split at isRebuild
    case h_1 c isCaptured =>
      split at isRebuild
      case isTrue isName =>
        cases isRebuild
        exact ⟨position, c, rfl, isCaptured, isName, rfl⟩
      case isFalse => cases isRebuild
    case h_2 => cases isRebuild
  | _ => cases isRebuild

theorem Agrees.act (agrees : s.Agrees cfg) (recent : s.recent a = true) : (s.act cfg a).Agrees cfg := by
  refine ⟨act_ok agrees.ok a, fun {name h'} found' served fresh => ?_, fun c inside => ?_⟩
  · obtain ⟨h, found, servedBefore, effect⟩ | ⟨idmap, snapshot, empty⟩ | ⟨stale, _⟩ := act_handles agrees.ok found' served
    · refine effect.serves servedBefore (fun r isRebuild same => ?_) (agrees.serves found servedBefore) fresh
      obtain ⟨position, c, rfl, isCaptured, rfl, rfl⟩ := installs_eq_some isRebuild
      simp only [Underway.recent, isCaptured, Option.all_some, found, Bool.and_eq_true, beq_iff_eq,
        decide_eq_true_eq] at recent
      obtain ⟨low, isOf⟩ := (agrees.holds c (List.mem_of_getElem? isCaptured)).2 found recent.1
      have few := recent.2
      exact isOf (by omega) (plain_of_served servedBefore).2
    · rw [idmap, snapshot, empty]
      exact .empty
    · rw [stale] at fresh
      cases fresh
  · refine Holds.act ?_ agrees.ok a
    obtain before | ⟨collection, h, found, captured, sameCell⟩ := captured_act inside
    · exact agrees.holds c before
    · have holds := holds_capture agrees.ok found captured
      rw [← sameCell] at holds
      exact holds

theorem inStep_start (mvcc : Bool) : (start mvcc).InStep := fun {name h} found => by simp [start] at found

theorem agrees_start (cfg : Setting) (mvcc : Bool) : (start mvcc).Agrees cfg :=
  ⟨ok_empty mvcc, (fun {name h} found => by simp [start] at found), fun c inside => nomatch inside⟩

theorem inStep_acts (ok : s.db.Ok) (inStep : s.InStep) (list : List Act) : (s.acts cfg list).InStep := by
  induction list generalizing s with
  | nil => exact inStep
  | cons a list ih => exact ih (act_ok ok a) (inStep.act ok a)

theorem flagged_acts (ok : s.db.Ok) (flagged : s.AllFlagged) (list : List Act) : (s.acts cfg list).AllFlagged := by
  induction list generalizing s with
  | nil => exact flagged
  | cons a list ih => exact ih (act_ok ok a) (flagged.act ok a)

theorem agrees_acts (agrees : s.Agrees cfg) {list : List Act} (recent : allRecent cfg s list = true) :
    (s.acts cfg list).Agrees cfg := by
  induction list generalizing s with
  | nil => exact agrees
  | cons a list ih =>
    rw [allRecent, Bool.and_eq_true] at recent
    exact ih (agrees.act recent.1) recent.2

/-- In every run whose rebuilds are committed to the handles they were captured from, what a search of
a fresh snapshot can return are the rows of the collection. -/
theorem snapshot_agrees (mvcc : Bool) {list : List Act} (recent : allRecent cfg (start mvcc) list = true)
    {s : Underway} (isRun : s = (start mvcc).acts cfg list) (found : s.db.handles[name]? = some h)
    (served : h.mvccServed = true) (fresh : h.stale = false) :
    h.snapshot.points.Perm ((s.db.rows name).toList.map fun row => (row.1, row.2.vector)) := by
  subst isRun
  exact ((agrees_acts (agrees_start cfg mvcc) recent).serves found served fresh).points

/-- The served handle of a run on given inputs, if it is fresh or stale as said. -/
def serving (s : Underway) (name : String) (stale : Bool) : Bool :=
  (s.db.handles[name]?).any fun h => h.mvccServed && h.stale == stale

theorem serving_spec {stale : Bool} (held : s.serving name stale = true) :
    ∃ h, s.db.handles[name]? = some h ∧ h.mvccServed = true ∧ h.stale = stale := by
  obtain ⟨h, found, facts⟩ := (Option.any_eq_true ..).mp held
  simp only [Bool.and_eq_true, beq_iff_eq] at facts
  exact ⟨h, found, facts.1, facts.2⟩

/-- A bulk load that is rebuilt off the lock while a write lands, and is rebuilt again. -/
def loadedOffLock : List Act :=
  [.create "c" lineDescriptor, .upsertBulk "c" [linePoint "a"], .capture "c", .upsert "c" (linePoint "b"), .commit 0,
    .capture "c", .commit 0, .upsert "c" (linePoint "a")]

theorem snapshot_agrees_off_lock : ∃ h, ((start true).acts .plain loadedOffLock).db.handles["c"]? = some h ∧
    h.snapshot.points.Perm
      ((((start true).acts .plain loadedOffLock).db.rows "c").toList.map fun row => (row.1, row.2.vector)) := by
  obtain ⟨h, found, served, fresh⟩ := serving_spec
    (show ((start true).acts .plain loadedOffLock).serving "c" false = true by decide +kernel)
  exact ⟨h, found, snapshot_agrees true (by decide +kernel) rfl found served fresh⟩

/-- The generations of a handle start anew with every opening. A rebuild that was captured before one is
taken for current when as many writes have followed it. -/
theorem rebuild_survives_reopen :
    (do
      let s := (start true).acts .plain [.create "c" lineDescriptor, .upsertBulk "c" [linePoint "a"], .capture "c",
        .reopen, .upsertBulk "c" [linePoint "b"], .commit 0]
      let h ← s.db.handles["c"]?
      return (h.mvccServed, h.stale, h.snapshot.points.map Prod.fst, (s.db.rows "c").keys)) =
      some (true, false, ["a"], ["a", "b"]) := by
  decide +kernel

/-- In every run, a served collection that is fresh, or whose base was created or published since the
database was opened and the reads were last switched, has as many ids as slots; an overlay entry is
tombstoned under the id it is searched under, and no write fails its assertion. -/
theorem published_in_lockstep (mvcc : Bool) (list : List Act) {s : Underway} (isRun : s = (start mvcc).acts cfg list)
    (found : s.db.handles[name]? = some h) (served : h.mvccServed = true)
    (published : h.stale = false ∨ name ∈ s.published) :
    h.idmap.ids.length = h.snapshot.ids.length + h.snapshot.upserts.length ∧
      (∀ {j : Nat} {ext : String} {v : List F32}, h.snapshot.upserts[j]? = some (ext, v) →
        (∀ k w, j < k → h.snapshot.upserts[k]? ≠ some (ext, w)) →
        h.idmap.internal ext = some (h.snapshot.ids.length + j)) ∧
      ∀ points, h.overlayAgrees points = true := by
  subst isRun
  have lockstep : h.Lockstep := inStep_acts (ok_empty mvcc) (inStep_start mvcc) list found served published
  exact ⟨lockstep.length, fun here last => lockstep.internal here last, CollectionHandle.pushesAgree_of_lockstep lockstep⟩

theorem published_in_lockstep_rebuilt :
    ∃ h, ((start true).acts .plain (loadedOffLock ++ [.upsertBulk "c" [linePoint "d"]])).db.handles["c"]? = some h ∧
      h.idmap.ids.length = h.snapshot.ids.length + h.snapshot.upserts.length := by
  obtain ⟨h, found, served, _⟩ := serving_spec
    (show ((start true).acts .plain (loadedOffLock ++ [.upsertBulk "c" [linePoint "d"]])).serving "c" true = true by
      decide +kernel)
  exact ⟨h, found, (published_in_lockstep true _ rfl found served (.inr (by decide +kernel))).1⟩

/-- In every run, and for every served handle in lockstep, a batch of overlay writes leaves the id map, the
snapshot and the flag of its points written one after the other, and passes its assertions. -/
theorem overlay_batch_sequential (mvcc : Bool) (list : List Act) {s : Underway} (isRun : s = (start mvcc).acts cfg list)
    (found : s.db.handles[name]? = some h) (served : h.mvccServed = true) (lockstep : h.Lockstep)
    (points : List (String × List F32)) :
    (h.overlayUpsertBatch points).idmap = (h.overlayUpserts points).idmap ∧
      (h.overlayUpsertBatch points).snapshot = (h.overlayUpserts points).snapshot ∧
      ((h.overlayUpsertBatch points).stale = true ↔
        ∃ n ≤ points.length, (h.overlayUpserts (points.take n)).stale = true) ∧
      h.overlayAgrees points = true := by
  subst isRun
  have flagged : h.Flagged := flagged_acts (ok_empty mvcc) (fun {_ _} found => by simp [start] at found) list found served
  obtain ⟨idmap, snapshot⟩ := h.overlayUpserts_eq points
  refine ⟨idmap.symm, snapshot.symm, ?_, CollectionHandle.pushesAgree_of_lockstep lockstep points⟩
  rw [← CollectionHandle.stale_overlayUpserts_take]
  cases points with
  | nil =>
    -- Without points only the batch looks at the overlay.
    change (h.stale || h.overlayCrowded) = true ↔ h.stale = true
    rw [Bool.or_eq_true]
    exact ⟨fun stale => stale.elim id flagged, .inl⟩
  | cons p points =>
    rw [CollectionHandle.stale_overlayUpsertBatch, h.stale_overlayUpserts (List.cons_ne_nil p points)]

theorem overlay_batch_sequential_rebuilt :
    ∃ h, ((start true).acts .plain loadedOffLock).db.handles["c"]? = some h ∧
      (h.overlayUpsertBatch [("a", [0]), ("d", [1]), ("a", [1])]).snapshot =
        (h.overlayUpserts [("a", [0]), ("d", [1]), ("a", [1])]).snapshot := by
  obtain ⟨h, found, served, fresh⟩ := serving_spec
    (show ((start true).acts .plain loadedOffLock).serving "c" false = true by decide +kernel)
  have lockstep : h.Lockstep := inStep_acts (ok_empty true) (inStep_start true) loadedOffLock found served (.inl fresh)
  exact ⟨h, found, (overlay_batch_sequential true loadedOffLock rfl found served lockstep _).2.1⟩

/-- Switching the reads on, or opening the database again, leaves the ids of a collection beside an empty
snapshot. The next write fails its assertion; without it, the write is searched under the id of another
point, and is still found after it was deleted. -/
theorem switched_out_of_lockstep :
    (do
      let s := (start false).acts .plain [.create "c" lineDescriptor, .upsert "c" (linePoint "a"), .setMvccReads true]
      let h ← s.db.handles["c"]?
      let g ← (s.acts .plain [.upsert "c" (linePoint "b"), .delete "c" "b"]).db.handles["c"]?
      return (h.mvccServed, h.idmap.ids.length, h.snapshot.ids.length + h.snapshot.upserts.length,
        h.overlayAgrees [("b", [0])], g.snapshot.points.map Prod.fst)) = some (true, 1, 0, false, ["b"]) ∧
    (do
      let s := (start true).acts .plain [.create "c" lineDescriptor, .upsert "c" (linePoint "a"), .reopen]
      let h ← s.db.handles["c"]?
      return (h.mvccServed, h.idmap.ids.length, h.snapshot.ids.length + h.snapshot.upserts.length,
        h.overlayAgrees [("b", [0])])) = some (true, 1, 0, false) := by
  decide +kernel

end Underway

end Database

end Quiver.Embed
