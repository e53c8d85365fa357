import Quiver.Embed.Advance

/-!
What the operations on the rows of a collection can do to a database. The handles are those of the
store's collections before and after, and each has advanced.
-/

namespace Quiver.Embed

open Quiver.Core Results Maps
open Std (ExtTreeMap)

variable {cfg : Setting}

namespace Database

/-- The handles are those of the store's collections, and ids and cells are given out in order. -/
structure Ok (db : Database) : Prop where
  indexed : db.logical.Indexed
  below : db.logical.Below db.nextCollectionId
  loaded : ∀ name : String, (db.handles[name]?).map CollectionHandle.id = db.logical.names[name]?
  descriptor : ∀ {name : String} {h : CollectionHandle} {c : LogicalCollection}, db.handles[name]? = some h →
    db.logical.collections[h.id]? = some c → h.descriptor = c.descriptor
  cells : ∀ {name : String} {h : CollectionHandle}, db.handles[name]? = some h → h.cell < db.nextCell

/-- Each handle of the database after a step is new, or was there and has advanced. -/
structure Follows (db db' : Database) : Prop where
  ok : db'.Ok
  cells : db.nextCell ≤ db'.nextCell
  handles : ∀ {name : String} {h' : CollectionHandle}, db'.handles[name]? = some h' → db.nextCell ≤ h'.cell ∨
    ∃ h, db.handles[name]? = some h ∧ Advanced db.logical h db'.logical h'

variable {db db' : Database} {name : String} {h h' : CollectionHandle}

theorem Follows.refl (ok : db.Ok) : db.Follows db :=
  ⟨ok, Nat.le_refl _, fun {_ h} found => .inr ⟨h, found, .of_eq rfl⟩⟩

namespace Ok

theorem names (ok : db.Ok) (found : db.handles[name]? = some h) : db.logical.names[name]? = some h.id := by
  rw [← ok.loaded name, found]
  rfl

theorem collection (ok : db.Ok) (found : db.handles[name]? = some h) :
    ∃ c, db.logical.collections[h.id]? = some c ∧ c.name = name :=
  (ok.indexed name h.id).mp (ok.names found)

theorem distinct (ok : db.Ok) {other : String} (found : db.handles[name]? = some h)
    (found' : db.handles[other]? = some h') (same : h'.id = h.id) : other = name := by
  obtain ⟨c, here, named⟩ := ok.collection found
  obtain ⟨c', there, named'⟩ := ok.collection found'
  rw [same, here] at there
  cases there
  exact named'.symm.trans named

theorem handle_of_name (ok : db.Ok) {k : CollectionId} (named : db.logical.names[name]? = some k) :
    ∃ h, db.handles[name]? = some h ∧ h.id = k := by
  rw [← ok.loaded name, Option.map_eq_some_iff] at named
  exact named

/-- Handles that keep their ids, descriptors and cells fit the new rows of a collection. -/
theorem rows (ok : db.Ok) {k : CollectionId} (rows : db.logical.OnlyRows k db'.logical)
    (sameNext : db'.nextCollectionId = db.nextCollectionId) (sameCell : db'.nextCell = db.nextCell)
    {R : CollectionHandle → CollectionHandle → Prop}
    (keeps : ∀ {h h'}, R h h' → h'.id = h.id ∧ h'.descriptor = h.descriptor ∧ h'.cell = h.cell)
    (lookup : ∀ other : String, Option.Rel R db.handles[other]? db'.handles[other]?) : db'.Ok := by
  have old : ∀ {other : String} {g : CollectionHandle}, db'.handles[other]? = some g →
      ∃ h, db.handles[other]? = some h ∧ g.id = h.id ∧ g.descriptor = h.descriptor ∧ g.cell = h.cell := by
    intro other g there
    obtain ⟨h, found, alike⟩ := rel_right (lookup other) there
    exact ⟨h, found, keeps alike⟩
  refine ⟨rows.indexed ok.indexed, sameNext ▸ rows.below ok.below, fun other => ?_, fun {other g c} there content => ?_,
    fun {other g} there => ?_⟩
  · have related := lookup other
    rw [rows.names, ← ok.loaded other]
    generalize db.handles[other]? = before, db'.handles[other]? = after at related
    cases related with
    | none => rfl
    | some alike => exact congrArg some (keeps alike).1
  · obtain ⟨h, found, isId, descriptor, _⟩ := old there
    rw [isId] at content
    rw [descriptor]
    by_cases same : h.id = k
    · subst same
      obtain ⟨e, here, _, kept⟩ := rows.kept c content
      rw [kept, ok.descriptor found here]
    · exact ok.descriptor found (rows.elsewhere h.id same ▸ content)
  · obtain ⟨h, found, _, _, cell⟩ := old there
    rw [cell, sameCell]
    exact ok.cells found

theorem advance (ok : db.Ok) {k : CollectionId} (rows : db.logical.OnlyRows k db'.logical)
    (sameNext : db'.nextCollectionId = db.nextCollectionId) (sameCell : db'.nextCell = db.nextCell)
    (lookup : ∀ other : String,
      Option.Rel (Advanced db.logical · db'.logical ·) db.handles[other]? db'.handles[other]?) : db.Follows db' := by
  refine ⟨ok.rows rows sameNext sameCell (fun advanced => ⟨advanced.id, advanced.descriptor, advanced.cell⟩) lookup,
    Nat.le_of_eq sameCell.symm, fun {other g} there => .inr ?_⟩
  exact rel_right (lookup other) there

theorem put (ok : db.Ok) (found : db.handles[name]? = some h) {l : Logical}
    (rows : db.logical.OnlyRows h.id l) (advanced : Advanced db.logical h l h') :
    db.Follows (db.put name l h') := by
  refine ok.advance rows rfl rfl fun other => ?_
  simp only [Database.put, get_insert]
  split
  case isTrue same =>
    subst same
    rw [found]
    exact .some advanced
  case isFalse differ =>
    cases there : db.handles[other]? with
    | none => exact .none
    | some g =>
      have other : g.id ≠ h.id := fun same => differ (ok.distinct found there same).symm
      exact .some (.of_eq (rows.elsewhere g.id other))

theorem put_same (found : db.handles[name]? = some h) (l : Logical) : db.put name l h = { db with logical := l } := by
  simp only [Database.put, insert_held found]

theorem unload (ok : db.Ok) {k : CollectionId} (named : db.logical.names[name]? = some k)
    (dropped : db'.logical = db.logical.apply cfg.encoding (.dropCollection k))
    (lookup : ∀ other : String, db'.handles[other]? = if name = other then none else db.handles[other]?)
    (sameNext : db'.nextCollectionId = db.nextCollectionId) (sameCell : db'.nextCell = db.nextCell) :
    db.Follows db' := by
  obtain ⟨h, found, isId⟩ := ok.handle_of_name named
  obtain ⟨c, content, sameName⟩ := ok.collection found
  rw [isId] at content
  have after : db'.logical = ⟨db.logical.names.erase name, db.logical.collections.erase k⟩ := by
    rw [dropped]
    simp only [Logical.apply, content, sameName]
  have survivor : ∀ {other : String} {g : CollectionHandle}, db'.handles[other]? = some g →
      db.handles[other]? = some g ∧ db'.logical.collections[g.id]? = db.logical.collections[g.id]? := by
    intro other g there
    rw [lookup] at there
    split at there
    · contradiction
    case isFalse differ =>
      have apart : k ≠ g.id := fun same => differ (ok.distinct found there (isId ▸ same.symm)).symm
      refine ⟨there, ?_⟩
      simp only [after, get_erase, if_neg apart]
  refine ⟨⟨?_, ?_, fun other => ?_, ?_, ?_⟩, Nat.le_of_eq sameCell.symm, ?_⟩
  · rw [after, ← sameName]
    exact ok.indexed.erase content
  · rw [after, sameNext]
    intro j e there
    exact ok.below j e (of_erase there).2
  · rw [lookup]
    simp only [after, get_erase]
    split
    · rfl
    · exact ok.loaded other
  · intro other g e there content'
    obtain ⟨old, kept⟩ := survivor there
    exact ok.descriptor old (kept ▸ content')
  · intro other g there
    rw [sameCell]
    exact ok.cells (survivor there).1
  · intro other g there
    obtain ⟨old, kept⟩ := survivor there
    exact .inr ⟨g, old, .of_eq kept⟩

theorem load (ok : db.Ok) {k next : CollectionId} {descriptor : Descriptor} {l : Logical}
    {sparse : Option (ExtTreeMap String SparseVector)} (unnamed : db.logical.names[name]? = none)
    (fresh : db.logical.collections[k]? = none) (bound : db.nextCollectionId ≤ next) (above : k < next)
    (created : l = ⟨db.logical.names.insert name k, db.logical.collections.insert k ⟨name, descriptor, ∅⟩⟩) :
    db.Follows { db.put name l (db.newHandle k descriptor sparse false) with
      nextCollectionId := next, nextCell := db.nextCell + 1 } := by
  subst created
  have lookup : ∀ other, (db.handles.insert name (db.newHandle k descriptor sparse false))[other]? =
      if name = other then some (db.newHandle k descriptor sparse false) else db.handles[other]? := by
    intro other
    simp only [get_insert]
  have kept : ∀ {other : String} {g : CollectionHandle}, db.handles[other]? = some g →
      (db.logical.collections.insert k ⟨name, descriptor, ∅⟩)[g.id]? = db.logical.collections[g.id]? := by
    intro other g there
    obtain ⟨c, held, _⟩ := ok.collection there
    rw [get_insert]
    split
    case isTrue same =>
      rw [same, held] at fresh
      contradiction
    case isFalse => rfl
  refine ⟨⟨ok.indexed.insert (c := ⟨name, descriptor, ∅⟩) unnamed fresh, ?_, fun other => ?_, ?_, ?_⟩, Nat.le_succ _, ?_⟩
  · intro j e there
    simp only [Database.put, get_insert] at there
    split at there
    case isTrue same => exact same ▸ above
    case isFalse => exact Nat.lt_of_lt_of_le (ok.below j e there) bound
  · simp only [Database.put, lookup, get_insert]
    split
    · rfl
    · exact ok.loaded other
  · intro other g c there content
    simp only [Database.put, lookup] at there content
    split at there
    case isTrue =>
      cases there
      simp only [newHandle, get_insert, if_true] at content
      cases content
      rfl
    case isFalse => exact ok.descriptor there (kept there ▸ content)
  · intro other g there
    simp only [Database.put, lookup] at there
    split at there
    case isTrue =>
      cases there
      exact Nat.lt_succ_self _
    case isFalse => exact Nat.lt_succ_of_lt (ok.cells there)
  · intro other g there
    simp only [Database.put, lookup] at there
    split at there
    case isTrue =>
      cases there
      exact .inl (Nat.le_refl _)
    case isFalse => exact .inr ⟨g, there, .of_eq (kept there)⟩

end Ok

variable {installs : Option RebuiltIndex}

/-- An operation on one collection was refused, or had its effect on the collection's rows and handle. -/
inductive Acted (cfg : Setting) (installs : Option RebuiltIndex) (db : Database) (name : String) : Database → Prop
  | refused : Acted cfg installs db name db
  | put {h h' : CollectionHandle} {l : Logical} (found : db.handles[name]? = some h) (only : db.logical.OnlyRows h.id l)
      (advanced : Advanced db.logical h l h')
      (effect : h.Effect cfg installs (rowsOf db.logical h.id) (rowsOf l h.id) h') :
      Acted cfg installs db name (db.put name l h')

theorem Ok.acted (ok : db.Ok) (acted : ∃ installs, Acted cfg installs db name db') : db.Follows db' := by
  obtain ⟨_, _ | ⟨found, only, advanced, _⟩⟩ := acted
  · exact .refl ok
  · exact ok.put found only advanced

theorem advanced_indexBatch {l l' : Logical} {points : List PointIn}
    (written : storeUpsertBatch cfg l h.id points = .ok l') : Advanced l h l' (indexBatch cfg h points) := by
  have sparse : ∀ (points : List PointIn) {g : CollectionHandle}, h.Written g →
      h.Written (points.foldl (fun g p => g.sparseUpsertPoint cfg p.id p.payload) g) := by
    intro points
    induction points with
    | nil => exact fun done => done
    | cons p points ih => exact fun done => ih (done.sparseUpsertPoint p.id p.payload)
  have dense : ∀ (points : List PointIn) {g : CollectionHandle}, h.Written g →
      h.Written (points.foldl (fun g p => g.indexUpsertPoint p.id p.vector) g) := by
    intro points
    induction points with
    | nil => exact fun done => done
    | cons p points ih => exact fun {g} done => ih (done.trans (g.written_indexUpsertPoint p.id p.vector))
  unfold indexBatch
  dsimp only
  split
  · exact .of_written (sparse points (h.written_overlayUpsertBatch _))
  · cases points with
    | nil =>
      cases written
      exact .of_eq rfl
    | cons p points =>
      exact .of_written (sparse _ (dense points (h.written_indexUpsertPoint p.id p.vector)))

theorem acted_sealed (found : db.handles[name]? = some h) {l : Logical} (only : db.logical.OnlyRows h.id l)
    (client : h.descriptor.vectorEncryption = .clientSide) : Acted cfg installs db name { db with logical := l } := by
  rw [← Ok.put_same found]
  exact .put found only ⟨rfl, rfl, rfl, rfl, fun built => built, Nat.le_refl _, fun _ => .inl client⟩ (.sealed client)

theorem indexBatch_one (h : CollectionHandle) (p : PointIn) :
    indexBatch cfg h [p] = (h.indexUpsertPoint p.id p.vector).sparseUpsertPoint cfg p.id p.payload := by
  unfold indexBatch CollectionHandle.indexUpsertPoint
  by_cases served : h.mvccServed = true
  · simp only [served, if_true, List.map_cons, List.map_nil, List.foldl_cons, List.foldl_nil]
  · simp only [served, if_false, List.foldl_cons, List.foldl_nil, Bool.false_eq_true]

theorem upsert_acted (db : Database) (name : String) (p : PointIn) : Acted cfg installs db name (db.upsert cfg name p).1 := by
  unfold upsert
  split
  · exact .refused
  case h_2 h found =>
    split
    · exact .refused
    · split
      · exact .refused
      case h_2 l stored =>
        have only := (storeUpsert_spec stored).1
        split
        case isTrue client => exact acted_sealed found only client
        case isFalse =>
          refine .put found only (.of_written ((h.written_indexUpsertPoint _ _).sparseUpsertPoint _ _)) ?_
          rw [(storeUpsert_spec stored).2, ← indexBatch_one]
          exact .upserts [p]

theorem upsertBatch_acted (db : Database) (name : String) (points : List PointIn) :
    Acted cfg installs db name (db.upsertBatch cfg name points).1 := by
  unfold upsertBatch
  split
  · exact .refused
  case h_2 h found =>
    split
    · exact .refused
    · split
      · exact .refused
      case h_2 l stored =>
        have only := (storeUpsertBatch_spec stored).1
        split
        case isTrue client => exact acted_sealed found only client
        case isFalse =>
          refine .put found only (advanced_indexBatch stored) ?_
          rw [(storeUpsertBatch_spec stored).2]
          exact .upserts points

theorem upsertBulk_acted (db : Database) (name : String) (points : List PointIn) :
    Acted cfg installs db name (db.upsertBulk cfg name points).1 := by
  unfold upsertBulk
  split
  · exact .refused
  case h_2 h found =>
    split
    · exact .refused
    · split
      · exact .refused
      case h_2 l stored => exact .put found (storeUpsertBatch_spec stored).1 (.of_written h.written_markStale) .bulk

theorem delete_acted (db : Database) (name : String) (id : String) : Acted cfg installs db name (db.delete cfg name id).1 := by
  unfold delete
  split
  · exact .refused
  case h_2 h found =>
    split
    · exact .refused
    · split
      · exact .refused
      · exact .refused
      case h_3 l deleted =>
        have only := (storeDelete_spec deleted).1
        split
        case isTrue client => exact acted_sealed found only client
        case isFalse =>
          refine .put found only (.of_written ((h.written_indexDeletePoint id).sparseDeletePoint id)) ?_
          rw [(storeDelete_spec deleted).2]
          exact .delete id

theorem ensureIndexed_acted (db : Database) (name : String) : Acted cfg installs db name (db.ensureIndexed cfg name).1 := by
  unfold ensureIndexed
  split
  · exact .refused
  case h_2 h found =>
    split
    · split
      · exact .refused
      case h_2 c held =>
        have isRows : rowsOf db.logical h.id = c.points := by rw [rowsOf, held]; rfl
        have maintained := h.maintained_rebuild cfg c.points
        split
        case h_1 error g built =>
          rw [built] at maintained
          refine .put found (.refl _ _) (maintained.advanced _) ?_
          rw [isRows]
          exact .failed built
        case h_2 g built =>
          rw [built] at maintained
          refine .put found (.refl _ _) (maintained.publishIfServed.advanced _) ?_
          rw [isRows]
          exact .rebuilt built
    · exact .refused

theorem commit_acted (cfg : Setting) (db : Database) (r : RebuiltIndex) :
    Acted cfg (some r) db r.collection (db.commitRebuild r).1 := by
  unfold commitRebuild
  split
  · exact .refused
  case h_2 h found => exact .put found (.refl _ _) ((h.maintained_install r).advanced _) (.installed rfl)

end Database

end Quiver.Embed
