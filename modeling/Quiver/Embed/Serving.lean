import Quiver.Embed.Overlay
import Quiver.Embed.Rebuild

/-!
What the operations of a database do to a collection that is read without a lock: its handle
advances, and as long as the handle is fresh the snapshot has the rows.
-/

namespace Quiver.Embed.Database

open Quiver.Core
open Std (ExtTreeMap)

variable {cfg : Setting} {db : Database} {name : String} {h : CollectionHandle}

/-- The snapshot of a fresh handle has the rows. -/
def Serves (db : Database) (name : String) (h : CollectionHandle) : Prop :=
  h.stale = false → h.snapshot.Serves h.idmap (db.rows name)

/-- The collection after a step. -/
structure Moved (name : String) (db : Database) (h : CollectionHandle) (db' : Database) (h' : CollectionHandle) : Prop where
  ok : db'.Ok
  mvcc : db'.mvcc = db.mvcc
  found : db'.handles[name]? = some h'
  advanced : Advanced db.logical h db'.logical h'
  serves : db.Serves name h → db'.Serves name h'

theorem Moved.refl (ok : db.Ok) (found : db.handles[name]? = some h) : Moved name db h db h :=
  ⟨ok, rfl, found, .of_eq rfl, fun serves => serves⟩

theorem Moved.trans {db' db'' : Database} {h' h'' : CollectionHandle} (first : Moved name db h db' h')
    (second : Moved name db' h' db'' h'') : Moved name db h db'' h'' :=
  ⟨second.ok, second.mvcc.trans first.mvcc, second.found, first.advanced.trans second.advanced,
    fun serves => second.serves (first.serves serves)⟩

theorem rows_put {l : Logical} {h' : CollectionHandle} (sameId : h'.id = h.id) :
    (db.put name l h').rows name = rowsOf l h.id := by
  rw [rows_of_found (handles_put ..), sameId]
  rfl

theorem moved_put (ok : db.Ok) (found : db.handles[name]? = some h) {l : Logical} {h' : CollectionHandle}
    (only : db.logical.OnlyRows h.id l) (advanced : Advanced db.logical h l h')
    (serves : db.Serves name h → h'.stale = false → h'.snapshot.Serves h'.idmap (rowsOf l h.id)) :
    Moved name db h (db.put name l h') h' := by
  refine ⟨(ok.put found only advanced).ok, rfl, handles_put .., advanced, fun old fresh => ?_⟩
  rw [rows_put advanced.id]
  exact serves old fresh

theorem eligible_of_served (served : h.mvccServed = true) : mvccEligible h.descriptor = true :=
  (Bool.and_eq_true_iff.mp served).2

theorem plain_of_served (served : h.mvccServed = true) :
    h.descriptor.multivector = false ∧ h.descriptor.vectorEncryption ≠ .clientSide := by
  have eligible := eligible_of_served served
  simp only [mvccEligible, Bool.and_eq_true, decide_eq_true_eq, Bool.not_eq_true'] at eligible
  exact ⟨eligible.1.1, eligible.1.2⟩

section

variable (ok : db.Ok) (found : db.handles[name]? = some h)
include ok found

theorem upsertBatch_moved (served : h.mvccServed = true) (points : List PointIn) :
    (∃ error, db.upsertBatch cfg name points = (db, .error error)) ∨
      ∃ count h', (db.upsertBatch cfg name points).2 = .ok count ∧
        Moved name db h (db.upsertBatch cfg name points).1 h' := by
  obtain ⟨single, plain⟩ := plain_of_served served
  unfold upsertBatch
  simp only [found, single]
  cases stored : storeUpsertBatch cfg db.logical h.id points with
  | error error => exact .inl ⟨_, rfl⟩
  | ok l =>
    right
    simp only [plain, if_false]
    refine ⟨_, _, rfl, moved_put ok found (storeUpsertBatch_spec stored).1 (advanced_indexBatch stored) ?_⟩
    intro serves fresh
    rw [(storeUpsertBatch_spec stored).2]
    refine indexBatch_serves served points (fun wasFresh => ?_) fresh
    rw [← rows_of_found found]
    exact serves wasFresh

theorem upsertBulk_moved (points : List PointIn) :
    (∃ error, db.upsertBulk cfg name points = (db, .error error)) ∨
      ∃ count h', (db.upsertBulk cfg name points).2 = .ok count ∧
        Moved name db h (db.upsertBulk cfg name points).1 h' := by
  unfold upsertBulk
  simp only [found]
  split
  · exact .inl ⟨_, rfl⟩
  cases stored : storeUpsertBatch cfg db.logical h.id points with
  | error error => exact .inl ⟨_, rfl⟩
  | ok l =>
    right
    refine ⟨_, _, rfl, moved_put ok found (storeUpsertBatch_spec stored).1 (.of_written h.written_markStale) ?_⟩
    intro _ fresh
    cases fresh

variable (cfg) in
theorem delete_moved (served : h.mvccServed = true) (id : String) :
    ∃ h', Moved name db h (db.delete cfg name id).1 h' ∧ h'.stale = h.stale := by
  obtain ⟨single, plain⟩ := plain_of_served served
  unfold delete
  simp only [found, single]
  cases stored : storeDelete cfg db.logical h.id id with
  | error error => exact ⟨h, .refl ok found, rfl⟩
  | ok result =>
    obtain ⟨l, existed⟩ := result
    cases existed with
    | false => exact ⟨h, .refl ok found, rfl⟩
    | true =>
      simp only [plain, if_false]
      rw [indexDeletePoint_served served]
      refine ⟨_, moved_put ok found (storeDelete_spec stored).1
        (.of_written ((h.written_overlayDelete id).sparseDeletePoint id)) ?_, overlayDelete_stale id⟩
      intro serves fresh
      rw [(storeDelete_spec stored).2, ← rows_of_found found]
      exact overlayDelete_serves id serves ((overlayDelete_stale id).symm.trans fresh)

variable (cfg) in
theorem replicate_moved {op : WalOp} {id : String} (touches : op.Touches h.id id) :
    ∃ h', Moved name db h (db.applyReplicated cfg op).1 h' := by
  have only : db.logical.OnlyRows h.id (db.logical.apply cfg.encoding op) := by
    cases op with
    | upsert k other vector payload => exact touches.1 ▸ .upsert ..
    | delete k other => exact touches.1 ▸ .delete ..
    | _ => exact touches.elim
  have row : ∀ l, db.logical.OnlyRows h.id l → Moved name db h ({ db with
      logical := l
      handles := db.handles.map fun _ g => if g.id = h.id then g.markStale else g } : Database) h.markStale := by
    intro l only
    have stale : ({ db with
        logical := l
        handles := db.handles.map fun _ g => if g.id = h.id then g.markStale else g } : Database).handles[name]? =
        some h.markStale := by
      rw [ExtTreeMap.getElem?_map, found]
      exact congrArg some (if_pos rfl)
    exact ⟨(ok.replicateRow h.id only).ok, rfl, stale, .of_written h.written_markStale, fun _ fresh => nomatch fresh⟩
  cases op with
  | upsert | delete =>
    obtain ⟨rfl, rfl⟩ := touches
    unfold applyReplicated
    dsimp only
    split
    · exact ⟨h, .refl ok found⟩
    · rename_i l logged
      exact ⟨_, row l (storeLog_ok logged ▸ only)⟩
  | _ => exact touches.elim

theorem commit_moved (served : h.mvccServed = true) {r : RebuiltIndex} (isName : r.collection = name)
    {index : LiveIndex} (ready : r.kind = .ready index)
    (current : h.writeGen % 2 ^ 64 = r.writeGen % 2 ^ 64 → r.Of cfg h.descriptor (db.rows name)) :
    ∃ h', Moved name db h (db.commitRebuild r).1 h' ∧ ((db.commitRebuild r).2 = .ok true ∨ h'.stale = false) := by
  subst isName
  rw [commitRebuild_eq found]
  have installed : h.install r = (.ok (decide (h.writeGen % 2 ^ 64 ≠ r.writeGen % 2 ^ 64)),
      CollectionHandle.publishBase { h with
        index := index
        idmap := ⟨r.intToExt⟩
        docs := r.docs
        sparse := r.sparse
        everBuilt := true
        stale := decide (h.writeGen % 2 ^ 64 ≠ r.writeGen % 2 ^ 64) }) := by
    have stillServed : h.mvcc && mvccEligible h.descriptor := served
    simp only [CollectionHandle.install, ready, CollectionHandle.publishIfServed, CollectionHandle.mvccServed,
      stillServed, if_true]
  have maintained := h.maintained_install r
  rw [installed] at maintained ⊢
  refine ⟨_, moved_put ok found (.refl _ _) (maintained.advanced _) ?_, ?_⟩
  · intro _ fresh
    have same : h.writeGen % 2 ^ 64 = r.writeGen % 2 ^ 64 := by simpa [CollectionHandle.publishBase] using fresh
    have isOf := current same
    have scanned := serves_scan cfg (eligible_of_served served) (db.rows r.collection)
    rw [← isOf.index, ← isOf.ids, ready] at scanned
    rw [← rows_of_found found]
    exact scanned
  · by_cases same : h.writeGen % 2 ^ 64 = r.writeGen % 2 ^ 64
    · exact .inr (decide_eq_false fun differ => differ same)
    · exact .inl (congrArg Except.ok (decide_eq_true same))

end

theorem reopen_stale (ok : db.Ok) {db' : Database} (opened : db.reopen cfg = .ok db') (mvcc : db.mvcc = true)
    (found : db.handles[name]? = some h) (eligible : mvccEligible h.descriptor = true) :
    ∃ h', db'.handles[name]? = some h' ∧ h'.mvccServed = true ∧ h'.stale = true ∧ db'.mvcc = true := by
  obtain ⟨c, h', held, done, there, _, sameMvcc⟩ := reopen_found ok opened found
  obtain ⟨_, descriptor, _, isMvcc, stale, _⟩ := openedHandle_spec done
  have served : h'.mvccServed = true := by
    rw [CollectionHandle.mvccServed, isMvcc, mvcc, descriptor, ← ok.descriptor found held, eligible]
    rfl
  exact ⟨h', there, served, stale.trans served, sameMvcc.trans mvcc⟩

theorem build_ready {inputs : RebuildInputs} (eligible : mvccEligible inputs.descriptor = true) {r : RebuiltIndex}
    (built : inputs.build = .ok r) : ∃ index, r.kind = .ready index := by
  simp only [mvccEligible, Bool.and_eq_true, decide_eq_true_eq] at eligible
  obtain ⟨kind, made, rest⟩ := Results.bind_eq_ok.mp built
  cases rest
  unfold RebuildInputs.buildKind at made
  rw [if_neg fun disk => eligible.2 disk.1] at made
  obtain ⟨_, _, last⟩ := Results.bind_eq_ok.mp made
  cases last
  exact ⟨_, rfl⟩

end Quiver.Embed.Database
