import Quiver.Embed.Loaded

/-!
Operations prepared for consensus against the direct ones. A prepared operation is checked when
it is prepared and applied as a replicated one. The checks are written twice, and the second
writing leaves some out.
-/

namespace Quiver.Embed

open Quiver.Core

namespace Database

variable (cfg : Setting)

def prepareCreateCollection (db : Database) (name : String) (descriptor : Descriptor) : Except EmbedError WalOp :=
  match validateIndex descriptor with
  | .error error => .error error
  | .ok () =>
    if name ∈ db.logical.names then .error (.core (.alreadyExists s!"collection {name}"))
    else if descriptor.dim = 0 then .error (.core (.invalidArgument "dim must be non-zero"))
    else .ok (.createCollection db.nextCollectionId name (cfg.encoding.descriptor.encode descriptor))

def prepareUpsert (db : Database) (collection : String) (point : PointIn) : Except EmbedError WalOp :=
  match db.handles[collection]? with
  | none => .error (.collectionNotFound collection)
  | some h =>
    if h.descriptor.multivector then
      .error (.unsupported "collection is multi-vector; use upsert_document / search_multi_vector")
    else match storeCheckDims db.logical h.id [point.vector] with
      | .error error => .error (.core error)
      | .ok () => .ok (point.op h.id)

def prepareDelete (db : Database) (collection : String) (id : String) : Except EmbedError (Option WalOp) :=
  match db.handles[collection]? with
  | none => .error (.collectionNotFound collection)
  | some h =>
    match db.logical.collections[h.id]? with
    | none => .error (.core (collectionNotFound h.id))
    | some c => .ok (if id ∈ c.points then some (.delete h.id id) else none)

end Database

/-- A request that has a direct and a prepared form. -/
inductive Write where
  | create (name : String) (descriptor : Descriptor)
  | upsert (collection : String) (point : PointIn)
  | delete (collection : String) (id : String)

namespace Write

variable (cfg : Setting) (db : Database)

def prepare : Write → Except EmbedError (Option WalOp)
  | .create name descriptor => (db.prepareCreateCollection cfg name descriptor).map some
  | .upsert collection point => (db.prepareUpsert collection point).map some
  | .delete collection id => db.prepareDelete collection id

/-- The direct operation, and whether it did something. -/
def direct : Write → Database × Except EmbedError Bool
  | .create name descriptor =>
    let (db, result) := db.createCollection cfg name descriptor
    (db, result.map fun _ => true)
  | .upsert collection point =>
    let (db, result) := db.upsert cfg collection point
    (db, result.map fun _ => true)
  | .delete collection id => db.delete cfg collection id

/-- The prepared form is accepted when the direct one is, and applied at once leaves the same
content, the same allocator and the same database after a restart. -/
structure Agrees (w : Write) : Prop where
  accepts : (∃ op, w.prepare cfg db = .ok (some op)) ↔ (w.direct cfg db).2 = .ok true
  applies : ∀ op, w.prepare cfg db = .ok (some op) → (db.applyReplicated cfg op).2 = .ok () ∧
    (db.applyReplicated cfg op).1.logical = (w.direct cfg db).1.logical ∧
    (db.applyReplicated cfg op).1.nextCollectionId = (w.direct cfg db).1.nextCollectionId ∧
    (db.applyReplicated cfg op).1.reopen cfg = (w.direct cfg db).1.reopen cfg

/-- What the direct form checks and the prepared one does not. -/
def Unchecked : Write → Prop
  | .create name _ => validateCollectionName name = .ok ()
  | .upsert .. => True
  | .delete collection _ => ∀ h, db.handles[collection]? = some h → h.descriptor.multivector = false

/-- A created name has no handle. -/
def Unloaded : Write → Prop
  | .create name _ => name ∉ db.handles
  | _ => True

/-- What the direct form leaves when it succeeds, handles apart. -/
def written (cfg : Setting) (db : Database) (op : WalOp) : Write → Database
  | .create .. => { db with
      logical := db.logical.applyAll cfg.encoding [op]
      nextCollectionId := db.nextCollectionId + 1
      nextCell := db.nextCell + 1 }
  | _ => { db with logical := db.logical.applyAll cfg.encoding [op] }

end Write

section Forms

variable {cfg : Setting} {db : Database} {op : WalOp}

theorem storeLog_single (l : Logical) (op : WalOp) :
    storeLog cfg l [op] = (checkRecord cfg op).map fun _ => l.applyAll cfg.encoding [op] := by
  cases fits : checkRecord cfg op <;> simp only [storeLog, List.forM, fits] <;> rfl

theorem storeLog_fits {l : Logical} (fits : checkRecord cfg op = .ok ()) :
    storeLog cfg l [op] = .ok (l.applyAll cfg.encoding [op]) := by
  rw [storeLog_single, fits]
  rfl

theorem fits_of_storeLog {l l' : Logical} (logged : storeLog cfg l [op] = .ok l') : checkRecord cfg op = .ok () := by
  rw [storeLog_single] at logged
  cases fits : checkRecord cfg op with
  | error error => rw [fits] at logged; cases logged
  | ok u => rfl

theorem map_some_eq_ok {α ε : Type} {r : Except ε α} {a : α} : r.map some = .ok (some a) ↔ r = .ok a := by
  cases r <;> simp [Except.map]

theorem prepareCreateCollection_eq_ok {name : String} {descriptor : Descriptor} :
    db.prepareCreateCollection cfg name descriptor = .ok op ↔
      validateIndex descriptor = .ok () ∧ name ∉ db.logical.names ∧ descriptor.dim ≠ 0 ∧
        op = .createCollection db.nextCollectionId name (cfg.encoding.descriptor.encode descriptor) := by
  unfold Database.prepareCreateCollection
  cases validateIndex descriptor with
  | error error => simp
  | ok u => by_cases named : name ∈ db.logical.names <;> by_cases zero : descriptor.dim = 0 <;> simp [named, zero, eq_comm]

theorem prepareUpsert_eq_ok {collection : String} {point : PointIn} :
    db.prepareUpsert collection point = .ok op ↔ ∃ h, db.handles[collection]? = some h ∧
      h.descriptor.multivector = false ∧ storeCheckDims db.logical h.id [point.vector] = .ok () ∧ op = point.op h.id := by
  unfold Database.prepareUpsert
  cases db.handles[collection]? with
  | none => simp
  | some h =>
    cases multi : h.descriptor.multivector with
    | true => simp [multi]
    | false =>
      cases dims : storeCheckDims db.logical h.id [point.vector] with
      | error error => simp [multi, dims]
      | ok u => simp [multi, dims, eq_comm (a := op)]

theorem prepareDelete_eq_ok {collection : String} {id : String} :
    db.prepareDelete collection id = .ok (some op) ↔ ∃ h c, db.handles[collection]? = some h ∧
      db.logical.collections[h.id]? = some c ∧ id ∈ c.points ∧ op = .delete h.id id := by
  unfold Database.prepareDelete
  cases db.handles[collection]? with
  | none => simp
  | some h =>
    cases held : db.logical.collections[h.id]? with
    | none => simp [held]
    | some c => by_cases present : id ∈ c.points <;> simp [held, present, eq_comm]

end Forms

section Accepted

variable {cfg : Setting} {db : Database} {op : WalOp} {name : String} {descriptor : Descriptor} {point : PointIn} {id : String}

theorem create_of_prepared (prepared : db.prepareCreateCollection cfg name descriptor = .ok op)
    (valid : validateCollectionName name = .ok ()) (fits : checkRecord cfg op = .ok ()) :
    ∃ handles, db.createCollection cfg name descriptor =
      ({ (Write.create name descriptor).written cfg db op with handles }, .ok ()) := by
  obtain ⟨indexed, unnamed, dim, rfl⟩ := prepareCreateCollection_eq_ok.mp prepared
  unfold Database.createCollection
  simp only [indexed, valid, unnamed, dim, if_false, bind, Except.bind, storeLog_fits fits]
  exact ⟨_, rfl⟩

theorem prepared_of_create (created : (db.createCollection cfg name descriptor).2 = .ok ()) :
    ∃ op, db.prepareCreateCollection cfg name descriptor = .ok op ∧ validateCollectionName name = .ok () ∧
      checkRecord cfg op = .ok () := by
  unfold Database.createCollection at created
  split at created
  · contradiction
  rename_i indexed
  dsimp only at created
  split at created
  · contradiction
  rename_i l made
  obtain ⟨u, valid, rest⟩ := Results.bind_eq_ok.mp made
  split at rest
  · contradiction
  rename_i unnamed
  split at rest
  · contradiction
  rename_i dim
  exact ⟨_, prepareCreateCollection_eq_ok.mpr ⟨indexed, unnamed, dim, rfl⟩, valid, fits_of_storeLog rest⟩

theorem applyReplicated_create (prepared : db.prepareCreateCollection cfg name descriptor = .ok op)
    (unloaded : name ∉ db.handles) (fits : checkRecord cfg op = .ok ()) :
    ∃ handles, db.applyReplicated cfg op =
      ({ (Write.create name descriptor).written cfg db op with handles }, .ok ()) := by
  obtain ⟨_, _, _, rfl⟩ := prepareCreateCollection_eq_ok.mp prepared
  have next : max db.nextCollectionId (db.nextCollectionId + 1) = db.nextCollectionId + 1 :=
    Nat.max_eq_right (Nat.le_succ _)
  unfold Database.applyReplicated
  simp only [unloaded, if_false, storeLog_fits fits, Encoding.decodeDescriptor_encode, next]
  exact ⟨_, rfl⟩

theorem upsert_of_prepared (prepared : db.prepareUpsert name point = .ok op) (fits : checkRecord cfg op = .ok ()) :
    ∃ handles, db.upsert cfg name point = ({ (Write.upsert name point).written cfg db op with handles }, .ok ()) := by
  obtain ⟨h, found, single, dims, rfl⟩ := prepareUpsert_eq_ok.mp prepared
  have stored : storeUpsert cfg db.logical h.id point = .ok (db.logical.applyAll cfg.encoding [point.op h.id]) := by
    rw [storeUpsert, dims]
    exact storeLog_fits fits
  unfold Database.upsert
  simp only [found, single, stored]
  split
  · contradiction
  split
  · exact ⟨_, rfl⟩
  · exact ⟨_, rfl⟩

theorem prepared_of_upsert (written : (db.upsert cfg name point).2 = .ok ()) :
    ∃ op, db.prepareUpsert name point = .ok op ∧ checkRecord cfg op = .ok () := by
  unfold Database.upsert at written
  split at written
  · contradiction
  rename_i h found
  split at written
  · contradiction
  rename_i single
  split at written
  · contradiction
  rename_i l stored
  obtain ⟨u, dims, logged⟩ := Results.bind_eq_ok.mp stored
  exact ⟨_, prepareUpsert_eq_ok.mpr ⟨h, found, by simpa using single, dims, rfl⟩, fits_of_storeLog logged⟩

theorem delete_of_prepared (prepared : db.prepareDelete name id = .ok (some op))
    (single : ∀ h, db.handles[name]? = some h → h.descriptor.multivector = false)
    (fits : checkRecord cfg op = .ok ()) :
    ∃ handles, db.delete cfg name id = ({ (Write.delete name id).written cfg db op with handles }, .ok true) := by
  obtain ⟨h, c, found, held, present, rfl⟩ := prepareDelete_eq_ok.mp prepared
  have stored : storeDelete cfg db.logical h.id id =
      .ok (db.logical.applyAll cfg.encoding [.delete h.id id], true) := by
    simp only [storeDelete, held, present, if_true, storeLog_fits fits]
    rfl
  unfold Database.delete
  simp only [found, single h found, stored]
  split
  · contradiction
  split
  · exact ⟨_, rfl⟩
  · exact ⟨_, rfl⟩

theorem prepared_of_delete (deleted : (db.delete cfg name id).2 = .ok true) :
    ∃ op, db.prepareDelete name id = .ok (some op) ∧
      (∀ h, db.handles[name]? = some h → h.descriptor.multivector = false) ∧ checkRecord cfg op = .ok () := by
  unfold Database.delete at deleted
  split at deleted
  · contradiction
  rename_i h found
  split at deleted
  · contradiction
  rename_i single
  split at deleted
  · contradiction
  · cases deleted
  rename_i l stored
  unfold storeDelete at stored
  split at stored
  · contradiction
  rename_i c held
  split at stored
  · rename_i present
    obtain ⟨l', logged, _⟩ := Results.bind_eq_ok.mp stored
    refine ⟨_, prepareDelete_eq_ok.mpr ⟨h, c, found, held, present, rfl⟩, ?_, fits_of_storeLog logged⟩
    intro h' found'
    cases found.symm.trans found'
    simpa using single
  · cases stored

theorem applyReplicated_row (row : (∃ k id vector payload, op = .upsert k id vector payload) ∨ ∃ k id, op = .delete k id)
    (fits : checkRecord cfg op = .ok ()) :
    ∃ handles, db.applyReplicated cfg op = ({ db with
      logical := db.logical.applyAll cfg.encoding [op]
      handles := handles }, .ok ()) := by
  obtain ⟨k, id, vector, payload, rfl⟩ | ⟨k, id, rfl⟩ := row
  all_goals
    unfold Database.applyReplicated
    simp only [storeLog_fits fits]
    exact ⟨_, rfl⟩

end Accepted

namespace Write

variable {cfg : Setting} {db : Database} {w : Write} {op : WalOp}

theorem direct_of_prepared (prepared : w.prepare cfg db = .ok (some op)) (unchecked : w.Unchecked db)
    (fits : checkRecord cfg op = .ok ()) :
    ∃ handles, w.direct cfg db = ({ w.written cfg db op with handles := handles }, .ok true) := by
  cases w with
  | create name descriptor =>
    obtain ⟨handles, created⟩ := create_of_prepared (map_some_eq_ok.mp prepared) unchecked fits
    exact ⟨handles, by simp only [direct, created]; rfl⟩
  | upsert collection point =>
    obtain ⟨handles, stored⟩ := upsert_of_prepared (map_some_eq_ok.mp prepared) fits
    exact ⟨handles, by simp only [direct, stored]; rfl⟩
  | delete collection id =>
    obtain ⟨handles, deleted⟩ := delete_of_prepared prepared unchecked fits
    exact ⟨handles, deleted⟩

theorem prepared_of_direct (accepted : (w.direct cfg db).2 = .ok true) :
    ∃ op, w.prepare cfg db = .ok (some op) ∧ w.Unchecked db ∧ checkRecord cfg op = .ok () := by
  have unit : ∀ {r : Except EmbedError Unit}, r.map (fun _ => true) = .ok true → r = .ok () := by
    intro r accepted
    cases r with
    | error error => cases accepted
    | ok u => rfl
  cases w with
  | create name descriptor =>
    obtain ⟨op, prepared, valid, fits⟩ := prepared_of_create (unit accepted)
    exact ⟨op, map_some_eq_ok.mpr prepared, valid, fits⟩
  | upsert collection point =>
    obtain ⟨op, prepared, fits⟩ := prepared_of_upsert (unit accepted)
    exact ⟨op, map_some_eq_ok.mpr prepared, trivial, fits⟩
  | delete collection id => exact prepared_of_delete accepted

theorem applied_of_prepared (prepared : w.prepare cfg db = .ok (some op)) (unloaded : w.Unloaded db)
    (fits : checkRecord cfg op = .ok ()) :
    ∃ handles, db.applyReplicated cfg op = ({ w.written cfg db op with handles := handles }, .ok ()) := by
  cases w with
  | create name descriptor => exact applyReplicated_create (map_some_eq_ok.mp prepared) unloaded fits
  | upsert collection point =>
    obtain ⟨h, _, _, _, isOp⟩ := prepareUpsert_eq_ok.mp (map_some_eq_ok.mp prepared)
    exact applyReplicated_row (.inl ⟨_, _, _, _, isOp⟩) fits
  | delete collection id =>
    obtain ⟨h, c, _, _, _, isOp⟩ := prepareDelete_eq_ok.mp prepared
    exact applyReplicated_row (.inr ⟨_, _, isOp⟩) fits

theorem unloaded_of_applies (prepared : w.prepare cfg db = .ok (some op)) (unchecked : w.Unchecked db)
    (fits : checkRecord cfg op = .ok ())
    (same : (db.applyReplicated cfg op).1.nextCollectionId = (w.direct cfg db).1.nextCollectionId) : w.Unloaded db := by
  cases w with
  | upsert => trivial
  | delete => trivial
  | create name descriptor =>
    intro loaded
    obtain ⟨_, isDirect⟩ := direct_of_prepared prepared unchecked fits
    obtain ⟨_, _, _, rfl⟩ := prepareCreateCollection_eq_ok.mp (map_some_eq_ok.mp prepared)
    rw [isDirect] at same
    simp only [Database.applyReplicated, loaded, if_true, written] at same
    exact absurd same (Nat.ne_of_lt (Nat.lt_succ_self _))

/-- A request agrees with its prepared form if and only if what was prepared passes the checks
that only the direct form makes. -/
theorem agrees_iff (cfg : Setting) (db : Database) (w : Write) :
    w.Agrees cfg db ↔ ∀ op, w.prepare cfg db = .ok (some op) →
      w.Unchecked db ∧ w.Unloaded db ∧ checkRecord cfg op = .ok () := by
  constructor
  · intro agrees op prepared
    obtain ⟨op', prepared', unchecked, fits⟩ := prepared_of_direct (agrees.accepts.mp ⟨op, prepared⟩)
    cases prepared.symm.trans prepared'
    exact ⟨unchecked, unloaded_of_applies prepared unchecked fits (agrees.applies op prepared).2.2.1, fits⟩
  · intro passes
    refine ⟨⟨fun ⟨op, prepared⟩ => ?_, fun accepted => ?_⟩, fun op prepared => ?_⟩
    · obtain ⟨unchecked, _, fits⟩ := passes op prepared
      obtain ⟨_, isDirect⟩ := direct_of_prepared prepared unchecked fits
      rw [isDirect]
    · obtain ⟨op, prepared, _⟩ := prepared_of_direct accepted
      exact ⟨op, prepared⟩
    · obtain ⟨unchecked, unloaded, fits⟩ := passes op prepared
      obtain ⟨_, isDirect⟩ := direct_of_prepared prepared unchecked fits
      obtain ⟨_, isApplied⟩ := applied_of_prepared prepared unloaded fits
      rw [isDirect, isApplied]
      exact ⟨rfl, rfl, rfl, rfl⟩

end Write

def unnamedDescriptor : Descriptor := { dim := 1, metric := .l2 }

/-- The empty name is proposed, and refused directly. -/
theorem prepared_create_admits_empty_name :
    (∃ op, (Write.create "" unnamedDescriptor).prepare .plain {} = .ok (some op) ∧
      (({} : Database).applyReplicated .plain op).1.logical.names.contains "" = true) ∧
      ((Write.create "" unnamedDescriptor).direct .plain {}).2 =
        .error (.core (.invalidArgument "collection name must not be empty")) := by
  refine ⟨⟨_, rfl, ?_⟩, rfl⟩
  decide +kernel

end Quiver.Embed
