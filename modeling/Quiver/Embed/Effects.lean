import Quiver.Embed.Lockstep
import Quiver.Embed.Serving

/-!
What an operation of a database can do to the rows and the handle of a collection, said once, and what
follows for a collection that is read without a lock.
-/

namespace Quiver.Embed

open Quiver.Core
open Std (ExtTreeMap)

namespace CollectionHandle

/-- A switch of the reads. A collection that can be served is rebuilt before it is read again. -/
def setMvcc (h : CollectionHandle) (on : Bool) : CollectionHandle :=
  { h with mvcc := on, stale := h.stale || mvccEligible h.descriptor }

variable {cfg : Setting} {installs : Option RebuiltIndex} {rows rows' : ExtTreeMap String Record} {h h' : CollectionHandle}

theorem install_cases (h : CollectionHandle) (r : RebuiltIndex) :
    (∃ error, h.install r = (.error error, { h with index := emptyIndex h.descriptor })) ∨
      (h.install r).2 = publishIfServed { h with
        index := r.kind.index
        idmap := ⟨r.intToExt⟩
        docs := r.docs
        sparse := r.sparse
        everBuilt := true
        stale := decide (h.writeGen % 2 ^ 64 ≠ r.writeGen % 2 ^ 64) } := by
  unfold install
  dsimp only
  cases kind : r.kind with
  | ready index => exact .inr rfl
  | disk graph quant index =>
    dsimp only
    split
    · exact .inl ⟨_, rfl⟩
    · rename_i placed
      obtain ⟨_, _, rest⟩ := Results.bind_eq_ok.mp placed
      obtain ⟨_, _, last⟩ := Results.bind_eq_ok.mp rest
      cases last
      exact .inr rfl

theorem rebuild_error {g : CollectionHandle} {error : BuildError} (built : h.rebuild cfg rows = (.error error, g)) :
    g = { h with index := emptyIndex h.descriptor } := by
  unfold rebuild at built
  dsimp only at built
  split at built
  · cases built
    rfl
  · cases built

theorem lockstep_publishIfServed (served : h.mvccServed = true) : h.publishIfServed.Lockstep := by
  unfold publishIfServed
  rw [if_pos served]
  exact (List.append_nil _).symm

theorem served_publishIfServed (h : CollectionHandle) : h.publishIfServed.mvccServed = h.mvccServed := by
  unfold publishIfServed
  split <;> rfl

theorem indexBatch_spec (cfg : Setting) (served : h.mvccServed = true) (points : List PointIn) :
    (Database.indexBatch cfg h points).snapshot = (h.overlayUpsertBatch (points.map fun p => (p.id, p.vector))).snapshot ∧
      (Database.indexBatch cfg h points).idmap = (h.overlayUpsertBatch (points.map fun p => (p.id, p.vector))).idmap ∧
      (Database.indexBatch cfg h points).stale = (h.overlayUpsertBatch (points.map fun p => (p.id, p.vector))).stale := by
  unfold Database.indexBatch
  simp only [served, if_true]
  exact foldl_sparse cfg points _

namespace Effect

section

variable (effect : h.Effect cfg installs rows rows' h')
include effect

theorem lockstep (served : h.mvccServed = true) (before : h.Lockstep) :
    h'.Lockstep := by
  cases effect with
  | same | sealed | bulk => exact before
  | upserts points =>
    obtain ⟨snapshot, idmap, _⟩ := indexBatch_spec cfg served points
    rw [Lockstep, snapshot, idmap]
    exact lockstep_overlayUpsertBatch before _
  | delete id =>
    rw [indexDeletePoint_served served]
    exact lockstep_overlayDelete before id
  | rebuilt built =>
    obtain rfl := rebuild_ok built
    exact lockstep_publishIfServed served
  | failed built =>
    obtain rfl := rebuild_error built
    exact before
  | installed =>
    obtain ⟨_, failed⟩ | placed := h.install_cases _
    · rw [failed]
      exact before
    · rw [placed]
      exact lockstep_publishIfServed served

theorem flagged (served : h.mvccServed = true) (before : h.Flagged) : h'.Flagged := by
  cases effect with
  | same | sealed => exact before
  | bulk => exact fun _ => rfl
  | upserts points =>
    obtain ⟨snapshot, _, stale⟩ := indexBatch_spec cfg served points
    rw [Flagged, overlayCrowded, snapshot, stale]
    exact flagged_overlayUpsertBatch h _
  | delete id =>
    rw [indexDeletePoint_served served]
    exact flagged_overlayDelete before id
  | rebuilt built =>
    obtain rfl := rebuild_ok built
    exact flagged_publishIfServed served
  | failed built =>
    obtain rfl := rebuild_error built
    exact before
  | installed =>
    obtain ⟨_, failed⟩ | placed := h.install_cases _
    · rw [failed]
      exact before
    · rw [placed]
      exact flagged_publishIfServed served

/-- A served handle that is fresh after an operation was so before it, or its base was published. -/
theorem fresh (served : h.mvccServed = true) (fresh : h'.stale = false) :
    h.stale = false ∨ h'.Lockstep := by
  cases effect with
  | same | sealed => exact .inl fresh
  | upserts points =>
    rw [(indexBatch_spec cfg served points).2.2] at fresh
    exact .inl (Bool.or_eq_false_iff.mp fresh).1
  | bulk => cases fresh
  | delete id =>
    rw [indexDeletePoint_served served] at fresh
    exact .inl ((overlayDelete_stale id).symm.trans fresh)
  | rebuilt built =>
    obtain rfl := rebuild_ok built
    exact .inr (lockstep_publishIfServed served)
  | failed built =>
    obtain rfl := rebuild_error built
    exact .inl fresh
  | installed =>
    obtain ⟨_, failed⟩ | placed := h.install_cases _
    · rw [failed] at fresh
      exact .inl fresh
    · rw [placed]
      exact .inr (lockstep_publishIfServed served)

theorem serves (served : h.mvccServed = true)
    (current : ∀ r, installs = some r → h.writeGen % 2 ^ 64 = r.writeGen % 2 ^ 64 → r.Of cfg h.descriptor rows)
    (before : h.stale = false → h.snapshot.Serves h.idmap rows) (fresh : h'.stale = false) :
    h'.snapshot.Serves h'.idmap rows' := by
  have eligible := Database.eligible_of_served served
  cases effect with
  | same => exact before fresh
  | upserts points => exact indexBatch_serves served points before fresh
  | sealed client => exact absurd client (Database.plain_of_served served).2
  | bulk => cases fresh
  | delete id =>
    rw [indexDeletePoint_served served] at fresh ⊢
    exact overlayDelete_serves id before ((overlayDelete_stale id).symm.trans fresh)
  | rebuilt built =>
    obtain rfl := rebuild_ok built
    have scanned := serves_scan cfg eligible rows
    rw [publishIfServed, if_pos (by exact served)]
    exact scanned
  | failed built =>
    obtain rfl := rebuild_error built
    exact before fresh
  | @installed r isRebuild =>
    obtain ⟨_, failed⟩ | placed := h.install_cases r
    · rw [failed] at fresh ⊢
      exact before fresh
    · rw [publishIfServed, if_pos (by exact served)] at placed
      rw [placed] at fresh ⊢
      have isOf := current r isRebuild (by simpa [publishBase] using fresh)
      have scanned := serves_scan cfg eligible rows
      rw [← isOf.index, ← isOf.ids] at scanned
      exact scanned

end

end Effect

end CollectionHandle

namespace Database

open CollectionHandle

variable {cfg : Setting} {installs : Option RebuiltIndex} {db db' : Database} {name : String} {h h' : CollectionHandle}

variable {other : String}

theorem Acted.handles (acted : Acted cfg installs db name db') (ok : db.Ok)
    (found' : db'.handles[other]? = some h') :
    ∃ h, db.handles[other]? = some h ∧ h'.mvccServed = h.mvccServed ∧
      h.Effect cfg (if other = name then installs else none) (db.rows other) (db'.rows other) h' := by
  cases acted with
  | refused => exact ⟨h', found', rfl, .same⟩
  | @put h g l found only advanced effect =>
    have lookup : (db.put name l g).handles[other]? = if name = other then some g else db.handles[other]? := by
      simp only [Database.put, Maps.get_insert]
    have there := found'
    rw [lookup] at there
    split at there
    case isTrue isName =>
      subst isName
      cases there
      refine ⟨h, found, ?_, ?_⟩
      · exact advanced.served
      · rw [if_pos rfl, rows_of_found found, rows_put advanced.id]
        exact effect
    case isFalse differ =>
      have apart : h'.id ≠ h.id := fun isId => differ (ok.distinct found there isId).symm
      have sameRows : (db.put name l g).rows other = db.rows other := by
        rw [rows_of_found found', rows_of_found there, rowsOf, rowsOf,
          show (db.put name l g).logical.collections[h'.id]? = _ from only.elsewhere h'.id apart]
      rw [sameRows]
      exact ⟨h', there, rfl, .same⟩

theorem createCollection_error {descriptor : Descriptor} {error : EmbedError}
    (refused : db.createCollection cfg name descriptor = (db', .error error)) : db' = db := by
  obtain ⟨_, same⟩ | ⟨_, created⟩ := createCollection_cases cfg db name descriptor
  · cases same.symm.trans refused
    rfl
  · cases created.symm.trans refused

theorem createCollection_elsewhere (ok : db.Ok) {descriptor : Descriptor}
    (created : db.createCollection cfg name descriptor = (db', .ok ())) (differ : other ≠ name) :
    db'.handles[other]? = db.handles[other]? ∧
      ∀ {h : CollectionHandle}, db.handles[other]? = some h →
        db'.logical.collections[h.id]? = db.logical.collections[h.id]? := by
  obtain ⟨_, refused⟩ | ⟨_, done⟩ := createCollection_cases cfg db name descriptor
  · cases refused.symm.trans created
  cases done.symm.trans created
  constructor
  · simp only [put, Maps.get_insert, if_neg (Ne.symm differ)]
  · intro h found
    obtain ⟨c, held, _⟩ := ok.collection found
    have old : db.nextCollectionId ≠ h.id := Nat.ne_of_gt (ok.below h.id c held)
    simp only [put, Maps.get_insert, if_neg old]

theorem createCollection_handles (cfg : Setting) (ok : db.Ok) (name : String) (descriptor : Descriptor)
    (found' : (db.createCollection cfg name descriptor).1.handles[other]? = some h') :
    (db.handles[other]? = some h' ∧ (db.createCollection cfg name descriptor).1.rows other = db.rows other) ∨
      (h'.idmap = {} ∧ h'.snapshot = {} ∧ (db.createCollection cfg name descriptor).1.rows other = ∅) := by
  cases created : db.createCollection cfg name descriptor with
  | mk db' result =>
  rw [created] at found'
  cases result with
  | error error =>
    have same : db' = db := createCollection_error created
    subst same
    exact .inl ⟨found', rfl⟩
  | ok =>
    obtain ⟨empty, isNew⟩ := createCollection_new created
    by_cases isName : other = name
    · subst isName
      rw [isNew] at found'
      cases found'
      exact .inr ⟨rfl, rfl, empty⟩
    · obtain ⟨there, kept⟩ := createCollection_elsewhere ok created isName
      rw [there] at found'
      refine .inl ⟨found', ?_⟩
      rw [rows_of_found (there.trans found'), rows_of_found found', rowsOf, rowsOf, kept found']

theorem reopen_handles (opened : db.reopen cfg = .ok db') (found' : db'.handles[name]? = some h') :
    h'.stale = h'.mvccServed := by
  obtain ⟨_, _, rfl, lookup⟩ := reopen_eq_ok opened
  obtain ⟨k, c, _, _, done⟩ := lookup.mp found'
  exact (openedHandle_spec done).2.2.2.2.1

/-- Reads without a lock are switched on or off for every collection. -/
def setMvccReads (db : Database) (on : Bool) : Database :=
  { db with mvcc := on, handles := db.handles.map fun _ h => h.setMvcc on }

theorem setMvccReads_handles {on : Bool} (found' : (db.setMvccReads on).handles[name]? = some h') :
    ∃ h, db.handles[name]? = some h ∧ h' = h.setMvcc on := by
  rw [setMvccReads, ExtTreeMap.getElem?_map, Option.map_eq_some_iff] at found'
  obtain ⟨h, found, rfl⟩ := found'
  exact ⟨h, found, rfl⟩

theorem rows_setMvccReads (db : Database) (on : Bool) (name : String) : (db.setMvccReads on).rows name = db.rows name := by
  simp only [rows, setMvccReads, ExtTreeMap.getElem?_map]
  cases db.handles[name]? <;> rfl

theorem Ok.setMvccReads (ok : db.Ok) (on : Bool) : (db.setMvccReads on).Ok where
  indexed := ok.indexed
  below := ok.below
  loaded name := by
    rw [Database.setMvccReads, ExtTreeMap.getElem?_map, Option.map_map]
    exact ok.loaded name
  descriptor switched held := by
    obtain ⟨h, found, rfl⟩ := setMvccReads_handles switched
    have same := ok.descriptor found held
    exact same
  cells switched := by
    obtain ⟨h, found, rfl⟩ := setMvccReads_handles switched
    have below := ok.cells found
    exact below

theorem served_setMvcc {on : Bool} (served : (h.setMvcc on).mvccServed = true) : (h.setMvcc on).stale = true := by
  have eligible : mvccEligible h.descriptor = true := (Bool.and_eq_true_iff.mp served).2
  change (h.stale || mvccEligible h.descriptor) = true
  rw [eligible, Bool.or_true]

theorem ensureIndexed_fresh (indexed : db.ensureIndexed cfg name = (db', .ok (.ok ())))
    (found' : db'.handles[name]? = some h') : h'.stale = false := by
  unfold ensureIndexed at indexed
  split at indexed
  · cases indexed
  case h_2 h found =>
    split at indexed
    case isTrue =>
      split at indexed
      · cases indexed
      · split at indexed
        · cases indexed
        case h_2 g built =>
          cases indexed
          rw [handles_put] at found'
          cases found'
          obtain rfl := rebuild_ok built
          unfold publishIfServed
          split <;> rfl
    case isFalse fresh =>
      cases indexed
      rw [found] at found'
      cases found'
      exact Bool.not_eq_true _ ▸ fresh

theorem commit_lockstep {r : RebuiltIndex} {stillStale : Bool} (committed : db.commitRebuild r = (db', .ok stillStale))
    (found' : db'.handles[r.collection]? = some h') (served : h'.mvccServed = true) : h'.Lockstep := by
  cases found : db.handles[r.collection]? with
  | none =>
    rw [commitRebuild, found] at committed
    cases committed
    rw [found] at found'
    cases found'
  | some h =>
    rw [commitRebuild_eq found] at committed
    obtain ⟨rfl, placed⟩ := Prod.mk.inj committed
    rw [handles_put] at found'
    cases found'
    obtain ⟨_, failed⟩ | installed := h.install_cases r
    · rw [failed] at placed
      cases placed
    · rw [installed] at served ⊢
      exact lockstep_publishIfServed (served_publishIfServed _ ▸ served)

end Database

end Quiver.Embed
