import Quiver.Embed.Acted

/-!
The steps of a database, and its runs. A handle lives from the load of its collection to its drop.
-/

namespace Quiver.Embed

open Quiver.Core Results Maps
open Std (ExtTreeMap)

variable {cfg : Setting}

namespace Database

variable {db db' : Database} {name : String} {h h' : CollectionHandle}

/-- What clients, other nodes and the server's rebuilds do to a database. -/
inductive Event where
  | create (name : String) (descriptor : Descriptor)
  | drop (name : String)
  | upsert (collection : String) (point : PointIn)
  | upsertBatch (collection : String) (points : List PointIn)
  | upsertBulk (collection : String) (points : List PointIn)
  | delete (collection : String) (id : String)
  | upsertDocument (collection : String) (doc : DocumentIn)
  | deleteDocument (collection : String) (docId : String)
  | replicate (op : WalOp)
  | ensureIndexed (collection : String)
  | commit (rebuilt : RebuiltIndex)
  | reopen

/-- The database after an event, whatever was answered. An open that fails is not an event. -/
def step (cfg : Setting) (db : Database) : Event → Database
  | .create name descriptor => (db.createCollection cfg name descriptor).1
  | .drop name => (db.dropCollection cfg name).1
  | .upsert collection point => (db.upsert cfg collection point).1
  | .upsertBatch collection points => (db.upsertBatch cfg collection points).1
  | .upsertBulk collection points => (db.upsertBulk cfg collection points).1
  | .delete collection id => (db.delete cfg collection id).1
  | .upsertDocument collection doc => (db.upsertDocument cfg collection doc).1
  | .deleteDocument collection docId => (db.deleteDocument cfg collection docId).1
  | .replicate op => (db.applyReplicated cfg op).1
  | .ensureIndexed collection => (db.ensureIndexed cfg collection).1
  | .commit rebuilt => (db.commitRebuild rebuilt).1
  | .reopen => match db.reopen cfg with
    | .ok db => db
    | .error _ => db

/-- A create from another node brings an id that is not in use here. -/
def Event.Fresh (db : Database) : Event → Prop
  | .replicate (.createCollection k _ _) => db.logical.collections[k]? = none
  | _ => True

theorem createCollection_cases (cfg : Setting) (db : Database) (name : String) (descriptor : Descriptor) :
    (∃ error, db.createCollection cfg name descriptor = (db, .error error)) ∨
    db.logical.names[name]? = none ∧ db.createCollection cfg name descriptor =
      ({ db.put name ⟨db.logical.names.insert name db.nextCollectionId,
            db.logical.collections.insert db.nextCollectionId ⟨name, descriptor, ∅⟩⟩
          (db.newHandle db.nextCollectionId descriptor (if usesSparseIndex descriptor then some ∅ else none) false) with
        nextCollectionId := db.nextCollectionId + 1
        nextCell := db.nextCell + 1 }, .ok ()) := by
  unfold createCollection
  split
  · exact .inl ⟨_, rfl⟩
  dsimp only
  split
  · exact .inl ⟨_, rfl⟩
  case h_2 created =>
    obtain ⟨_, _, rest⟩ := bind_eq_ok.mp created
    split at rest
    · contradiction
    case isFalse unnamed =>
      split at rest
      · contradiction
      · refine .inr ⟨ExtTreeMap.getElem?_eq_none unnamed, ?_⟩
        rw [storeLog_ok rest]
        simp only [Logical.applyAll_cons, Logical.applyAll_nil, Logical.apply, Encoding.decodeDescriptor_encode]

namespace Ok

theorem create (ok : db.Ok) (name : String) (descriptor : Descriptor) :
    db.Follows (db.createCollection cfg name descriptor).1 := by
  obtain ⟨error, refused⟩ | ⟨unnamed, created⟩ := createCollection_cases cfg db name descriptor
  · rw [refused]
    exact .refl ok
  · have fresh : db.logical.collections[db.nextCollectionId]? = none := by
      cases held : db.logical.collections[db.nextCollectionId]? with
      | none => rfl
      | some c => exact absurd (ok.below _ c held) (Nat.lt_irrefl _)
    rw [created]
    exact ok.load unnamed fresh (Nat.le_succ _) (Nat.lt_succ_self _) rfl

theorem drop (ok : db.Ok) (name : String) : db.Follows (db.dropCollection cfg name).1 := by
  unfold dropCollection
  split
  case h_1 unnamed =>
    have absent : db.handles[name]? = none := by
      have none := ok.loaded name
      rw [unnamed, Option.map_eq_none_iff] at none
      exact none
    have same : db.unload name = db := by simp only [Database.unload, absent, erase_absent]
    rw [same]
    exact .refl ok
  case h_2 k named =>
    split
    · exact .refl ok
    case h_2 l logged =>
      have dropped : l = db.logical.apply cfg.encoding (.dropCollection k) := storeLog_ok logged
      refine ok.unload named dropped (fun other => ?_) rfl rfl
      simp only [Database.unload, get_erase]

end Ok

/-- Rows of one collection and its handle, some steps later. -/
def Rows.Kept (s s' : Rows) : Prop := s.1.OnlyRows s.2.id s'.1 ∧ Advanced s.1 s.2 s'.1 s'.2

theorem Rows.Kept.trans {s s' s'' : Rows} (first : s.Kept s') (second : s'.Kept s'') : s.Kept s'' :=
  ⟨first.1.trans (first.2.id ▸ second.1), first.2.trans second.2⟩

theorem forEach_kept {α ε : Type} {f : Rows → α → Except ε Rows}
    (each : ∀ s a s', f s a = .ok s' → s.Kept s') (s : Rows) (items : List α) :
    s.Kept (forEach f s items).1 := by
  induction items generalizing s with
  | nil => exact ⟨.refl _ _, .of_eq rfl⟩
  | cons a items ih =>
    rw [forEach]
    split
    · exact ⟨.refl _ _, .of_eq rfl⟩
    case h_2 s' done => exact (each s a s' done).trans (ih s')

theorem deleteToken_kept (cfg : Setting) (docId : String) (s : Rows) (j : Nat) (s' : Rows)
    (done : deleteToken cfg docId s j = .ok s') : s.Kept s' := by
  unfold deleteToken at done
  split at done
  · contradiction
  case h_2 deleted =>
    cases done
    exact ⟨(storeDelete_spec deleted).1, .of_written (s.2.written_indexDeletePoint _)⟩

theorem upsertToken_kept (cfg : Setting) (doc : DocumentIn) (s : Rows) (token : List F32 × Nat) (s' : Rows)
    (done : upsertToken cfg doc s token = .ok s') : s.Kept s' := by
  unfold upsertToken at done
  dsimp only at done
  split at done
  · contradiction
  case h_2 written =>
    cases done
    exact ⟨(storeUpsert_spec written).1, .of_written (s.2.written_indexUpsertPoint _ _)⟩

theorem Rows.Kept.docs {s s' : Rows} (kept : s.Kept s') (docs : Option (ExtTreeMap String Nat)) :
    s.Kept (s'.1, { s'.2 with docs }) :=
  ⟨kept.1, kept.2.id, kept.2.descriptor, kept.2.mvcc, kept.2.cell, kept.2.built, kept.2.generation, kept.2.rows⟩

theorem writeDocument_kept (cfg : Setting) (doc : DocumentIn) (s : Rows) : s.Kept (writeDocument cfg doc s).1 := by
  have deletes := forEach_kept (deleteToken_kept cfg doc.id) s
    ((List.range ((knownTokens s.2 doc.id).getD 0)).drop doc.vectors.length)
  unfold writeDocument
  dsimp only
  split
  case h_1 stopped =>
    rw [stopped] at deletes
    exact deletes
  case h_2 s₁ done =>
    rw [done] at deletes
    have upserts := forEach_kept (upsertToken_kept cfg doc) s₁ doc.vectors.zipIdx
    split
    case h_1 stopped =>
      rw [stopped] at upserts
      exact deletes.trans upserts
    case h_2 s₂ done' =>
      rw [done'] at upserts
      exact (deletes.trans upserts).docs _

theorem upsertDocument_cases (cfg : Setting) (db : Database) (name : String) (doc : DocumentIn) :
    (∃ error, db.upsertDocument cfg name doc = (db, .error error)) ∨
    ∃ h, db.handles[name]? = some h ∧ h.descriptor.multivector = true ∧ doc.vectors ≠ [] ∧
      db.upsertDocument cfg name doc =
        (db.put name (writeDocument cfg doc (db.logical, h)).1.1 (writeDocument cfg doc (db.logical, h)).1.2,
          (writeDocument cfg doc (db.logical, h)).2) := by
  unfold upsertDocument
  split
  · exact .inl ⟨_, rfl⟩
  case h_2 h found =>
    split
    · exact .inl ⟨_, rfl⟩
    case isFalse multi =>
      split
      · exact .inl ⟨_, rfl⟩
      · split
        · exact .inl ⟨_, rfl⟩
        case isFalse filled =>
          split
          · exact .inl ⟨_, rfl⟩
          · exact .inr ⟨h, found, by simpa using multi, filled, rfl⟩

namespace Ok

theorem upsertDocument (ok : db.Ok) (collection : String) (doc : DocumentIn) :
    db.Follows (db.upsertDocument cfg collection doc).1 := by
  obtain ⟨_, refused⟩ | ⟨h, found, _, _, done⟩ := upsertDocument_cases cfg db collection doc
  · rw [refused]
    exact .refl ok
  · obtain ⟨rows, advanced⟩ := writeDocument_kept cfg doc (db.logical, h)
    rw [done]
    exact ok.put found rows advanced

theorem deleteDocument (ok : db.Ok) (collection : String) (docId : String) :
    db.Follows (db.deleteDocument cfg collection docId).1 := by
  unfold Database.deleteDocument
  split
  · exact .refl ok
  case h_2 h found =>
    split
    · exact .refl ok
    · split
      · exact .refl ok
      case h_2 count known =>
        have deletes := forEach_kept (deleteToken_kept cfg docId) (db.logical, h) (List.range count)
        split
        case h_1 stopped =>
          rw [stopped] at deletes
          exact ok.put found deletes.1 deletes.2
        case h_2 s done =>
          rw [done] at deletes
          have kept := deletes.docs (s.2.docs.map (·.erase docId))
          exact ok.put found kept.1 kept.2

end Ok

theorem openedHandle_spec {k : CollectionId} {c : LogicalCollection} (opened : db.openedHandle cfg k c = .ok h) :
    h.id = k ∧ h.descriptor = c.descriptor ∧ h.cell = db.nextCell ∧ h.mvcc = db.mvcc ∧ h.stale = h.mvccServed ∧
      h.docs = if c.descriptor.multivector then some (c.points.keys.foldl countToken ∅) else none := by
  unfold openedHandle at opened
  split at opened
  · contradiction
  case h_2 rebuilt =>
    obtain rfl := CollectionHandle.rebuild_ok rebuilt
    cases opened
    exact ⟨rfl, rfl, rfl, rfl, rfl, rfl⟩

theorem forM_ok {ε α : Type} {f : α → Except ε Unit} {items : List α} (done : items.forM f = .ok ()) :
    ∀ a ∈ items, f a = .ok () := by
  induction items with
  | nil => exact fun a inside => absurd inside List.not_mem_nil
  | cons a items ih =>
    obtain ⟨_, first, rest⟩ := bind_eq_ok.mp done
    exact List.forall_mem_cons.mpr ⟨first, ih rest⟩

theorem reopen_eq_ok (opened : db.reopen cfg = .ok db') :
    (∀ {k c}, db.logical.collections[k]? = some c → ∃ h, db.openedHandle cfg k c = .ok h) ∧
      ∃ handles, db' = { db with handles := handles, nextCell := db.nextCell + 1 } ∧ ∀ {name : String} {h : CollectionHandle},
        handles[name]? = some h ↔ ∃ k c, db.logical.names[name]? = some k ∧ db.logical.collections[k]? = some c ∧
          db.openedHandle cfg k c = .ok h := by
  obtain ⟨_, each, rest⟩ := bind_eq_ok.mp opened
  cases rest
  refine ⟨fun {k c} held => ?_, _, rfl, fun {name h} => ?_⟩
  · have checked := forM_ok each (k, c) (ExtTreeMap.mem_toList_iff_getElem?_eq_some.mpr held)
    obtain ⟨h, done, _⟩ := bind_eq_ok.mp checked
    exact ⟨h, done⟩
  · simp only [ExtTreeMap.getElem?_filterMap', Option.bind_eq_some_iff, toOption_eq_some, exists_and_left]

theorem reopen_found (ok : db.Ok) (opened : db.reopen cfg = .ok db') (found : db.handles[name]? = some h) :
    ∃ c h', db.logical.collections[h.id]? = some c ∧ db.openedHandle cfg h.id c = .ok h' ∧
      db'.handles[name]? = some h' ∧ db'.logical = db.logical ∧ db'.mvcc = db.mvcc := by
  obtain ⟨loads, handles, rfl, lookup⟩ := reopen_eq_ok opened
  obtain ⟨c, held, _⟩ := ok.collection found
  obtain ⟨h', done⟩ := loads held
  exact ⟨c, h', held, done, lookup.mpr ⟨_, c, ok.names found, held, done⟩, rfl, rfl⟩

namespace Ok

theorem replicateRow (ok : db.Ok) (k : CollectionId) {l : Logical} (rows : db.logical.OnlyRows k l) :
    db.Follows { db with
      logical := l
      handles := db.handles.map fun _ h => if h.id = k then h.markStale else h } := by
  refine ok.advance rows rfl rfl fun other => ?_
  rw [ExtTreeMap.getElem?_map]
  cases db.handles[other]? with
  | none => exact .none
  | some g =>
    refine .some ?_
    dsimp only
    split
    · exact .of_written g.written_markStale
    · rename_i differ
      exact .of_eq (rows.elsewhere g.id differ)

theorem replicate (ok : db.Ok) {op : WalOp} (fresh : Event.Fresh db (.replicate op)) :
    db.Follows (db.applyReplicated cfg op).1 := by
  unfold applyReplicated
  split
  · exact .refl ok
  case h_2 k name bytes =>
    have unnamed : name ∉ db.handles → db.logical.names[name]? = none := by
      intro absent
      rw [← ok.loaded name, ExtTreeMap.getElem?_eq_none absent]
      rfl
    have raised : db.Follows { db with nextCollectionId := max db.nextCollectionId (k + 1) } :=
      ⟨⟨ok.indexed, fun j e held => Nat.lt_of_lt_of_le (ok.below j e held) (Nat.le_max_left _ _), ok.loaded,
        ok.descriptor, ok.cells⟩, Nat.le_refl _, fun {_ g} there => .inr ⟨g, there, .of_eq rfl⟩⟩
    split
    · exact .refl ok
    case isFalse absent =>
      dsimp only
      split
      · exact raised
      · exact raised
      case h_3 l descriptor logged decoded =>
        refine ok.load (unnamed absent) fresh (Nat.le_max_left _ _) (Nat.le_max_right _ _) ?_
        rw [storeLog_ok logged]
        simp only [Logical.applyAll_cons, Logical.applyAll_nil, Logical.apply, decoded]
  case h_3 k =>
    split
    · exact .refl ok
    case h_2 l logged =>
      have dropped : l = db.logical.apply cfg.encoding (.dropCollection k) := storeLog_ok logged
      cases held : db.logical.collections[k]? with
      | some c =>
        have named : db.logical.names[c.name]? = some k := (ok.indexed c.name k).mpr ⟨c, held, rfl⟩
        refine ok.unload named dropped (fun other => ?_) rfl rfl
        obtain ⟨h, found, isId⟩ := ok.handle_of_name named
        simp only [ExtTreeMap.getElem?_filter]
        split
        case isTrue same =>
          subst same
          rw [found]
          simp [isId]
        case isFalse differ =>
          cases there : db.handles[other]? with
          | none => rfl
          | some g =>
            have apart : g.id ≠ k := fun same => differ (ok.distinct found there (same.trans isId.symm)).symm
            simp [apart]
      | none =>
        have same : l = db.logical := by
          rw [dropped]
          simp only [Logical.apply, held]
        have kept : db.handles.filter (fun _ h => decide (h.id ≠ k)) = db.handles := by
          refine ExtTreeMap.ext_getElem? fun other => ?_
          rw [ExtTreeMap.getElem?_filter]
          cases there : db.handles[other]? with
          | none => rfl
          | some g =>
            obtain ⟨c, content, _⟩ := ok.collection there
            have apart : g.id ≠ k := by
              rintro rfl
              rw [held] at content
              contradiction
            simp [apart]
        simp only [same, kept]
        exact ⟨⟨ok.indexed, ok.below, ok.loaded, ok.descriptor, ok.cells⟩, Nat.le_refl _,
          fun {_ g} there => .inr ⟨g, there, .of_eq rfl⟩⟩
  case h_4 k id vector payload =>
    split
    · exact .refl ok
    case h_2 l logged =>
      rw [storeLog_ok logged]
      exact ok.replicateRow k (.upsert cfg.encoding k db.logical id vector payload)
  case h_5 k id =>
    split
    · exact .refl ok
    case h_2 l logged =>
      rw [storeLog_ok logged]
      exact ok.replicateRow k (.delete cfg.encoding k db.logical id)

theorem reopen (ok : db.Ok) (opened : db.reopen cfg = .ok db') : db.Follows db' := by
  obtain ⟨loads, handles, rfl, lookup⟩ := reopen_eq_ok opened
  have spec : ∀ {other : String} {g : CollectionHandle}, handles[other]? = some g →
      db.logical.names[other]? = some g.id ∧ g.cell = db.nextCell ∧
        ∃ c, db.logical.collections[g.id]? = some c ∧ g.descriptor = c.descriptor := by
    intro other g there
    obtain ⟨k, c, named, held, done⟩ := lookup.mp there
    obtain ⟨rfl, descriptor, cell, _⟩ := openedHandle_spec done
    exact ⟨named, cell, c, held, descriptor⟩
  refine ⟨⟨ok.indexed, ok.below, fun other => ?_, ?_, ?_⟩, Nat.le_succ _, ?_⟩
  · refine Option.ext fun k => ?_
    rw [Option.map_eq_some_iff]
    constructor
    · rintro ⟨g, there, rfl⟩
      exact (spec there).1
    · intro named
      obtain ⟨c, held, _⟩ := (ok.indexed other k).mp named
      obtain ⟨h, done⟩ := loads held
      exact ⟨h, lookup.mpr ⟨k, c, named, held, done⟩, (openedHandle_spec done).1⟩
  · intro other g c there content
    obtain ⟨_, _, c', held, descriptor⟩ := spec there
    cases held.symm.trans content
    exact descriptor
  · intro other g there
    rw [(spec there).2.1]
    exact Nat.lt_succ_self _
  · intro other g there
    exact .inl (Nat.le_of_eq (spec there).2.1.symm)

theorem step (ok : db.Ok) {e : Event} (fresh : e.Fresh db) : db.Follows (db.step cfg e) := by
  cases e with
  | create name descriptor => exact ok.create name descriptor
  | drop name => exact ok.drop name
  | upsert collection point => exact ok.acted ⟨none, upsert_acted ..⟩
  | upsertBatch collection points => exact ok.acted ⟨none, upsertBatch_acted ..⟩
  | upsertBulk collection points => exact ok.acted ⟨none, upsertBulk_acted ..⟩
  | delete collection id => exact ok.acted ⟨none, delete_acted ..⟩
  | upsertDocument collection doc => exact ok.upsertDocument collection doc
  | deleteDocument collection docId => exact ok.deleteDocument collection docId
  | replicate op => exact ok.replicate fresh
  | ensureIndexed collection => exact ok.acted ⟨none, ensureIndexed_acted ..⟩
  | commit r => exact ok.acted ⟨_, commit_acted cfg ..⟩
  | reopen =>
    rw [Database.step]
    split
    case h_1 opened => exact ok.reopen opened
    case h_2 => exact .refl ok

end Ok

theorem Follows.trans {db'' : Database} (first : db.Follows db') (second : db'.Follows db'') : db.Follows db'' := by
  refine ⟨second.ok, first.cells.trans second.cells, fun {name h''} found => ?_⟩
  obtain new | ⟨h', found', advanced'⟩ := second.handles found
  · exact .inl (first.cells.trans new)
  · obtain new | ⟨h, here, advanced⟩ := first.handles found'
    · exact .inl (advanced'.cell ▸ new)
    · exact .inr ⟨h, here, advanced.trans advanced'⟩

def run (cfg : Setting) (db : Database) (events : List Event) : Database := events.foldl (step cfg) db

/-- Creates from other nodes bring unused ids, at every point of a run. -/
def AllFresh (cfg : Setting) : Database → List Event → Prop
  | _, [] => True
  | db, e :: events => e.Fresh db ∧ AllFresh cfg (db.step cfg e) events

theorem AllFresh.append {events later : List Event} (fresh : AllFresh cfg db (events ++ later)) :
    AllFresh cfg db events ∧ AllFresh cfg (db.run cfg events) later := by
  induction events generalizing db with
  | nil => exact ⟨trivial, fresh⟩
  | cons e events ih =>
    obtain ⟨first, rest⟩ := ih fresh.2
    exact ⟨⟨fresh.1, first⟩, rest⟩

theorem Ok.run (ok : db.Ok) {events : List Event} (fresh : AllFresh cfg db events) :
    db.Follows (db.run cfg events) := by
  induction events generalizing db with
  | nil => exact .refl ok
  | cons e events ih =>
    have stepped : db.Follows (db.step cfg e) := ok.step fresh.1
    exact stepped.trans (ih stepped.ok fresh.2)

theorem ok_empty (mvcc : Bool) : Ok { mvcc := mvcc } :=
  ⟨fun _ _ => by simp [Logical.empty], fun _ _ held => by simp [Logical.empty] at held,
    fun _ => by simp [Logical.empty], fun found => by simp at found, fun found => by simp at found⟩

end Database

end Quiver.Embed
