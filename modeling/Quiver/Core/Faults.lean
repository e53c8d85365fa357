import Quiver.Core.Encodings
import Quiver.Core.Writes

/-!
System calls on the log that fail, under a caller who goes on. As long as a failed write leaves no
byte, and no sync fails under a create or a drop, acknowledged operations survive; a write that
leaves part of a frame cuts off everything acknowledged after it.
-/

namespace Quiver.Core

open FileSystem FramedLog
open Std (ExtTreeMap)
open List (append_nil map_cons map_nil nil_prefix prefix_nil)

/-- A request to the store that is logged. -/
inductive Request where
  | createCollection (name : String) (descriptor : Descriptor) (entropy : Key)
  | dropCollection (name : String)
  | upsert (cid : CollectionId) (externalId : String) (vector : List F32) (payload : Bytes)
  | upsertBatch (cid : CollectionId) (records : List (String × List F32 × Bytes))
  | delete (cid : CollectionId) (externalId : String)

def Outcome.forget (out : Outcome α) : Outcome Unit :=
  ⟨out.effects, out.store, out.result.map fun _ => ()⟩

variable (encoding : Encoding)

def Store.serve (s : Store) (d : DataDir) (io : WalIo) : Request → Outcome Unit
  | .createCollection name descriptor entropy =>
    (s.createCollection encoding d name descriptor entropy io).forget
  | .dropCollection name => (s.dropCollection encoding name io).forget
  | .upsert cid id vector payload => (s.upsert encoding cid id vector payload io).forget
  | .upsertBatch cid records => (s.upsertBatch encoding cid records io).forget
  | .delete cid id => (s.delete encoding cid id io).forget

/-- The operations a request stands for, in the store that serves it: dropping or deleting what
is not there is none. -/
def Request.ops (s : Store) : Request → List WalOp
  | .createCollection name descriptor _ =>
    [.createCollection s.nextCollectionId name (encoding.descriptor.encode descriptor)]
  | .dropCollection name => (s.catalog.nameIndex[name]?).toList.map .dropCollection
  | .upsert cid id vector payload => [.upsert cid id (f32ToLeBytes vector) payload]
  | .upsertBatch cid records => records.map (upsertOp cid)
  | .delete cid id =>
    match s.catalog.collections[cid]? with
    | none => []
    | some c =>
      match c.locate id with
      | .ok (some _) => [.delete cid id]
      | _ => []

/-- The request writes points only. -/
def Request.Writes : Request → Prop
  | .createCollection .. | .dropCollection .. => False
  | _ => True

/-- A request that was answered: what it stands for, and whether it was acknowledged. -/
structure Answered where
  ops : List WalOp
  acknowledged : Bool
  deriving DecidableEq

/-- A store and its directory after some requests, and the answers. -/
structure Session where
  store : Store
  dir : DataDir
  answers : List Answered

def Session.serve (t : Session) (request : Request) (io : WalIo) : Session :=
  let out := t.store.serve encoding t.dir io request
  ⟨out.store, applyAll t.dir out.effects,
    t.answers ++ [⟨request.ops encoding t.store, out.result.isOk⟩]⟩

def Session.serveAll (t : Session) (run : List (Request × WalIo)) : Session :=
  run.foldl (fun t (request, io) => t.serve encoding request io) t

/-- What reopening may find of a request: all of it if it was acknowledged, and a part from the
front otherwise. -/
def Answered.Leaves (answer : Answered) (part : List WalOp) : Prop :=
  part <+: answer.ops ∧ (answer.acknowledged = true → part = answer.ops)

/-- A failed write leaves no byte. -/
def WalIo.Clean (io : WalIo) : Prop := ∀ write kept, io.writeFails write = some kept → kept = 0

/-- Failed writes leave no byte, and no sync fails under a create or a drop. -/
def Careful (run : List (Request × WalIo)) : Prop :=
  ∀ step ∈ run, step.2.Clean ∧ (step.2.syncFails = true → step.1.Writes)

variable {encoding} {ring : KeyRing} {s : Store} {d : DataDir} {img : Image} {mem : Logical}
  {entries : List WalEntry} {io : WalIo}

theorem append_nothing (d : DataDir) (p : Path) : apply d (.append p []) = d := by
  refine ExtTreeMap.ext_getElem? fun q => ?_
  by_cases here : q = p
  · subst here
    cases found : d[q]? <;> simp [found]
  · exact apply_untouched here

/-- Committing records when failed writes leave no byte: they are durable, or some of them are
appended; all of them only if the sync failed. -/
theorem Tracked.commit_clean {w : WalWriter} {older : List LoggedFile} {file : LoggedFile} {baseLsn : Lsn}
    (tracked : Tracked encoding ring img d w older file baseLsn)
    (loggable : Loggable encoding ring img d entries) (some : entries ≠ []) (clean : io.Clean) :
    (w.commit encoding entries io).result = .ok () ∧
        Tracked encoding ring (img.withLast older (file.append entries).sync)
          (applyAll d (w.commit encoding entries io).effects) (w.commit encoding entries io).writer older
          (file.append entries).sync baseLsn ∨
      ∃ done rest error, entries = done ++ rest ∧ (rest = [] → io.syncFails = true) ∧
        (w.commit encoding entries io).result = .error error ∧
        Tracked encoding ring (img.withLast older (file.append done))
          (applyAll d (w.commit encoding entries io).effects) (w.commit encoding entries io).writer older
          (file.append done) baseLsn := by
  cases WalWriter.commit_spec encoding w io some with
  | synced effects writer result fit =>
    rw [effects, writer, applyAll_append]
    exact .inl ⟨result, (tracked.append loggable fit).sync⟩
  | unsynced effects writer result fit fails =>
    rw [effects, writer]
    exact .inr ⟨entries, [], .io, (append_nil _).symm, fun _ => fails, result, tracked.append loggable fit⟩
  | tooLarge done bad rest message split effects writer result fit overCap =>
    rw [effects, writer]
    exact .inr ⟨done, bad :: rest, _, split, by simp, result, tracked.append (split ▸ loggable).before fit⟩
  | failed done cut rest kept split effects writer result fit fails =>
    have nothing := clean _ _ fails
    rw [allFit_append] at fit
    rw [effects, writer, applyAll_append, nothing, List.take_zero]
    simp only [byteChunks, map_nil, applyAll_cons, append_nothing, applyAll_nil]
    exact .inr ⟨done, cut :: rest, _, split, by simp, result, tracked.append (split ▸ loggable).before fit.1⟩

variable (encoding ring) in
/-- A store whose log may hold records of failed operations, numbered from its next log sequence
number on: it runs as a store that had taken these numbers. -/
structure Faulty (s : Store) (d : DataDir) (img : Image) (mem : Logical) : Prop where
  running : ∃ n, s.nextLsn ≤ n ∧ Running encoding ring { s with nextLsn := n } d img mem
  above : img.mfst.lastCheckpointedLsn < s.nextLsn

theorem Running.faulty (running : Running encoding ring s d img mem) : Faulty encoding ring s d img mem :=
  ⟨⟨s.nextLsn, Nat.le_refl _, running⟩, running.floor ▸ running.nextLsn⟩

variable (encoding ring) in
/-- What serving a request leads to: its operations are durable behind all that was pending, or
some of them are pending as well. -/
def Faulted (img : Image) (d : DataDir) (ops : List WalOp) (out : Outcome α) : Prop :=
  ∃ img' mem', img.Since img' ∧ Faulty encoding ring out.store (applyAll d out.effects) img' mem' ∧
    (img'.tail = img.tail ++ img.pending ++ ops ∧ img'.pending = [] ∨
      ∃ left, left <+: ops ∧ (out.result.isOk = true → ops = []) ∧ img'.tail = img.tail ∧
        img'.pending = img.pending ++ left)

theorem Faulty.refused (faulty : Faulty encoding ring s d img mem) (ops : List WalOp) (error : CoreError) :
    Faulted encoding ring img d ops (Outcome.refused s error : Outcome α) :=
  ⟨img, mem, rfl, faulty, .inr ⟨[], nil_prefix, fun ok => by contradiction, rfl,
    (append_nil _).symm⟩⟩

theorem Faulty.answered (faulty : Faulty encoding ring s d img mem) (a : α) :
    Faulted encoding ring img d [] (Outcome.answered s a) :=
  ⟨img, mem, rfl, faulty, .inr ⟨[], nil_prefix, fun _ => rfl, rfl, (append_nil _).symm⟩⟩

/-- An operation that logs records, when failed writes leave no byte. -/
theorem Running.Issues.faulted {a : α} {operation : WalIo → Outcome α}
    (issues : Issues encoding ring s d img mem entries a operation)
    (faulty : Faulty encoding ring s d img mem) (clean : io.Clean)
    (syncs : io.syncFails = true → ∀ e ∈ entries, e.op.Writes) :
    Faulted encoding ring img d (entries.map (·.op)) (operation io) := by
  obtain ⟨n₀, n, c, next, logs, isLogged⟩ := issues
  obtain ⟨⟨v, le, running⟩, above⟩ := faulty
  obtain ⟨older, file, baseLsn, tracked⟩ := running.tracked
  have fresh : ∀ e ∈ entries, img.mfst.lastCheckpointedLsn < e.lsn :=
    fun e member => Nat.lt_of_lt_of_le above (logs.lsns e member).1
  have loggable : Loggable encoding ring img d entries :=
    ⟨fresh, running.sameCatalog.valid logs.valid, logs.keys⟩
  have same : ∀ p : Path, p ≠ .wal s.wal.seq →
      (applyAll d (s.wal.commit encoding entries io).effects)[p]? = d[p]? :=
    fun p => commit_elsewhere logs.some d
  rw [isLogged io]
  simp only [Faulted, effects_logged]
  obtain ⟨result, synced⟩ | ⟨done, rest, error, split, unsynced, result, appended⟩ :=
    tracked.commit_clean loggable logs.some clean
  · obtain ⟨cat, replayed, img', since, tail, pending, after⟩ := running.synced (n := max v n) tracked.writer
      same (fun e member => ⟨fresh e member, Nat.lt_of_lt_of_le (logs.lsns e member).2
        (Nat.le_max_right _ _)⟩) (Nat.le_max_left _ _) synced logs.valid logs.keys logs.nextId
    refine ⟨img', mem.applyAll encoding (entries.map (·.op)), since, ⟨⟨max v n, ?_, ?_⟩, ?_⟩,
      .inl ⟨tail, pending⟩⟩
    · simp only [Store.logged, result, logs.applies _ cat replayed]
      exact Nat.le_max_right _ _
    · simp only [Store.logged, result, logs.applies _ cat replayed]
      exact after
    · simp only [Store.logged, result, logs.applies _ cat replayed]
      rw [since]
      exact Nat.lt_of_lt_of_le above (Nat.le_trans logs.numbered.1 logs.numbered.2)
  · have writes : ∀ op ∈ done.map (·.op), op.Writes := by
      intro op member
      obtain ⟨e, inside, rfl⟩ := List.mem_map.mp member
      cases rest with
      | nil => exact syncs (unsynced rfl) e (by rw [split]; exact List.mem_append_left _ inside)
      | cons bad rest =>
        refine (logs.early e ?_).2
        rw [split, List.dropLast_append_cons]
        exact List.mem_append_left _ inside
    have inside : ∀ e ∈ done, e ∈ entries := fun e member => by
      rw [split]
      exact List.mem_append_left _ member
    obtain ⟨img', since, tail, pending, after⟩ := running.appended (n := max v n) tracked.writer same
      (fun e member => ⟨fresh e (inside e member), Nat.lt_of_lt_of_le (logs.lsns e (inside e member)).2
        (Nat.le_max_right _ _)⟩) (Nat.le_max_left _ _) appended writes
    refine ⟨img', mem, since, ⟨⟨max v n, ?_, ?_⟩, ?_⟩, .inr ⟨done.map (·.op), ?_, ?_, tail, pending⟩⟩
    · simp only [Store.logged, result]
      exact Nat.le_trans logs.numbered.2 (Nat.le_max_right _ _)
    · simp only [Store.logged, result]
      exact after
    · simp only [Store.logged, result]
      rw [since]
      exact Nat.lt_of_lt_of_le above logs.numbered.1
    · rw [split, List.map_append]
      exact List.prefix_append ..
    · intro ok
      simp only [Store.logged, result] at ok
      contradiction

theorem Faulted.after {effects : List (Effect Path Chunk)} {ops : List WalOp} {out : Outcome α}
    (faulted : Faulted encoding ring img (applyAll d effects) ops out) :
    Faulted encoding ring img d ops { out with effects := effects ++ out.effects } := by
  simp only [Faulted, applyAll_append]
  exact faulted

theorem Running.Issues.forget {a : α} {operation : WalIo → Outcome α}
    (issues : Issues encoding ring s d img mem entries a operation) :
    Issues encoding ring s d img mem entries () fun io => (operation io).forget := by
  obtain ⟨n₀, n, c, next, logs, isLogged⟩ := issues
  refine ⟨n₀, n, c, fun s => ((next s).1, (next s).2.map fun _ => ()),
    { logs with applies := fun w cat replayed => ?_ }, fun io => ?_⟩
  · rw [logs.applies w cat replayed]
    rfl
  · simp only [isLogged io, Store.logged, Outcome.forget]
    split <;> rfl

variable (encoding ring) in
/-- However its system calls fare, the operation is refused, has nothing to do, or logs records,
perhaps after it provisioned a key for an id that is not in use and moved the allocator past it.
If `whole` holds, no record is refused behind one that fits. -/
inductive Handled (s : Store) (d : DataDir) (img : Image) (mem : Logical) (ops : List WalOp) (whole : Prop)
    (operation : WalIo → Outcome Unit) : Prop where
  | refused (error : CoreError) (is : ∀ io, operation io = .refused s error)
  | answered (nothing : ops = []) (is : ∀ io, operation io = .answered s ())
  | issued (entries : List WalEntry) (issue : WalIo → Outcome Unit) (first : List (Effect Path Chunk))
      (c : Nat) (above : s.nextCollectionId ≤ c)
      (provisions : first = [] ∨ ∃ k entropy, s.nextCollectionId ≤ k ∧
        first = s.keyring.provisionCollection d k entropy)
      (issues : Running.Issues encoding ring { s with nextCollectionId := c } (applyAll d first) img mem entries
        () issue)
      (logs : entries.map (·.op) = ops) (allOrNone : whole → Running.AllOrNone encoding s.wal entries)
      (is : ∀ io, operation io = { issue io with effects := first ++ (issue io).effects })

theorem Running.AllOrNone.one (w : WalWriter) (entry : WalEntry) : AllOrNone encoding w [entry] := by
  rintro first ⟨⟩ fits
  exact ⟨fits, trivial⟩

theorem Running.Issues.handled {whole : Prop} {ops : List WalOp} {operation : WalIo → Outcome Unit}
    (issues : Issues encoding ring s d img mem entries () operation) (logs : entries.map (·.op) = ops)
    (allOrNone : whole → Running.AllOrNone encoding s.wal entries) :
    Handled encoding ring s d img mem ops whole operation :=
  .issued entries operation [] s.nextCollectionId (Nat.le_refl _) (.inl rfl) issues logs allOrNone fun _ => rfl

/-- No record of the request is refused behind one that fits. -/
def Request.Whole (encoding : Encoding) (s : Store) : Request → Prop
  | .upsertBatch cid records => Running.AllOrNone encoding s.wal (Store.batchEntries cid s.nextLsn records)
  | _ => True

theorem Running.handles {n : Nat} (running : Running encoding ring { s with nextLsn := n } d img mem)
    (keyFiles : KeyFiles d) (request : Request) :
    Handled encoding ring s d img mem (request.ops encoding s) (request.Whole encoding s)
      fun io => s.serve encoding d io request := by
  cases request with
  | createCollection name descriptor entropy =>
    cases valid : validateCollectionName name with
    | error error =>
      refine .refused error fun io => ?_
      simp only [Store.serve, Store.createCollection, valid]
      rfl
    | ok valid' =>
      cases checked : s.checkCreate name descriptor with
      | error error =>
        refine .refused error fun io => ?_
        simp only [Store.serve, Store.createCollection, valid, checked]
        rfl
      | ok checked' =>
        obtain ⟨operation, issues, served⟩ := running.createCollection keyFiles entropy valid checked
        obtain rfl := running.keyring
        refine .issued _ _ _ s.nextCollectionId (Nat.le_refl _) (.inr ⟨_, entropy, Nat.le_refl _, rfl⟩)
          issues.forget rfl (fun _ => .one _ _) fun io => ?_
        simp only [Store.serve, served io]
        rfl
  | dropCollection name =>
    cases named : s.catalog.nameIndex[name]? with
    | none =>
      refine .answered ?_ fun io => ?_
      · simp only [Request.ops, named, Option.toList_none, map_nil]
      · simp only [Store.serve, Store.dropCollection, named]
        rfl
    | some k =>
      have issues := running.dropCollection ((running.name_eq name).symm.trans named)
      refine issues.forget.handled ?_ fun _ => .one _ _
      simp only [Request.ops, named, Option.toList_some, map_cons, map_nil]
  | upsert cid id vector payload =>
    cases checked : s.catalog.checkDims cid [vector] with
    | error error =>
      refine .refused error fun io => ?_
      simp only [Store.serve, Store.upsert, checked]
      rfl
    | ok checked' => exact (running.upsert checked id payload).forget.handled rfl fun _ => .one _ _
  | upsertBatch cid records =>
    by_cases empty : records = []
    · subst empty
      exact .answered rfl fun _ => rfl
    · cases checked : s.catalog.checkDims cid (records.map fun r => r.2.1) with
      | error error =>
        refine .refused error fun io => ?_
        simp only [Store.serve, Store.upsertBatch, List.isEmpty_iff, empty, if_false, checked]
        rfl
      | ok checked' =>
        exact (running.upsertBatch empty checked).forget.handled (ops_batchEntries _) id
  | delete cid id =>
    cases found : s.catalog.collections[cid]? with
    | none =>
      refine .refused (collectionNotFound cid) fun io => ?_
      simp only [Store.serve, Store.delete, found]
      rfl
    | some c =>
      obtain ⟨e, held, stands⟩ := running.represents.some_left found
      obtain ⟨loc, located, isSome⟩ := stands.points.locate id
      cases loc with
      | none =>
        refine .answered ?_ fun io => ?_
        · simp only [Request.ops, found, located]
        · simp only [Store.serve, Store.delete, found, located]
          rfl
      | some loc =>
        obtain ⟨r, present⟩ := Option.isSome_iff_exists.mp isSome.symm
        refine (running.delete held present).forget.handled ?_ fun _ => .one _ _
        simp only [Request.ops, found, located, map_cons, map_nil]

theorem Faulty.provisioned (faulty : Faulty encoding ring s d img mem) {first : List (Effect Path Chunk)}
    (provisions : first = [] ∨ ∃ k entropy, s.nextCollectionId ≤ k ∧
      first = s.keyring.provisionCollection d k entropy) {c : Nat} (above : s.nextCollectionId ≤ c) :
    Faulty encoding ring { s with nextCollectionId := c } (applyAll d first) img mem := by
  obtain ⟨⟨v, le, running⟩, floor⟩ := faulty
  have allocated : ∀ {k}, s.nextCollectionId ≤ k →
      Running encoding ring { s with nextLsn := v, nextCollectionId := k } d img mem :=
    fun above => { running with nextCollection := Nat.le_trans running.nextCollection above }
  refine ⟨⟨v, le, ?_⟩, floor⟩
  obtain rfl | ⟨k, entropy, unused, rfl⟩ := provisions
  · exact allocated above
  · obtain rfl : s.keyring = ring := running.keyring
    have whole := (allocated unused).provision entropy (s.keyring.provisionCollection d k entropy).length
    rw [List.take_length] at whole
    exact { whole with nextCollection := Nat.le_trans running.nextCollection above }

theorem Handled.faulted {ops : List WalOp} {whole : Prop} {operation : WalIo → Outcome Unit}
    (handled : Handled encoding ring s d img mem ops whole operation)
    (faulty : Faulty encoding ring s d img mem) (clean : io.Clean)
    (syncs : io.syncFails = true → ∀ op ∈ ops, op.Writes) :
    Faulted encoding ring img d ops (operation io) := by
  cases handled with
  | refused error is =>
    rw [is io]
    exact faulty.refused ops error
  | answered nothing is =>
    rw [is io, nothing]
    exact faulty.answered ()
  | issued entries issue first c above provisions issues logs allOrNone is =>
    rw [is io, ← logs]
    refine (issues.faulted (faulty.provisioned provisions above) clean fun fails e member => ?_).after
    exact syncs fails e.op (logs ▸ List.mem_map_of_mem member)

theorem Request.Writes.ops {request : Request} (writes : request.Writes) {op : WalOp}
    (member : op ∈ request.ops encoding s) : op.Writes := by
  cases request with
  | createCollection | dropCollection => exact writes.elim
  | upsert cid id vector payload =>
    obtain rfl := List.mem_singleton.mp member
    trivial
  | upsertBatch cid records => exact writes_batch member
  | delete cid id =>
    simp only [Request.ops] at member
    split at member
    · contradiction
    · split at member
      · obtain rfl := List.mem_singleton.mp member
        trivial
      · contradiction

theorem Faulty.serve (faulty : Faulty encoding ring s d img mem) (keyFiles : KeyFiles d) (request : Request)
    (clean : io.Clean) (syncs : io.syncFails = true → request.Writes) :
    Faulted encoding ring img d (request.ops encoding s) (s.serve encoding d io request) := by
  obtain ⟨⟨v, le, running⟩, above⟩ := id faulty
  exact (running.handles keyFiles request).faulted faulty clean fun fails op => (syncs fails).ops

section Effects

variable (encoding)

theorem logged_touches {n : Nat} {next : Store → Store × Except CoreError α} (some : entries ≠ []) :
    ∀ e ∈ ({ s with nextLsn := n }.logged encoding entries io next).effects, ∀ p : Path, e.Touches p →
      p = .wal s.wal.seq := by
  intro e member p touches
  rw [Running.effects_logged] at member
  exact WalWriter.commit_touches some member touches

/-- Effects that may provision a key; the rest of them are on the current log file. -/
def LogsOnly (s : Store) (d : DataDir) (effects : List (Effect Path Chunk)) : Prop :=
  ∃ first rest, effects = first ++ rest ∧
    (first = [] ∨ ∃ k entropy, first = s.keyring.provisionCollection d k entropy) ∧
    ∀ e ∈ rest, ∀ p : Path, e.Touches p → p = .wal s.wal.seq

theorem LogsOnly.nil (s : Store) (d : DataDir) : LogsOnly s d [] :=
  ⟨[], [], rfl, .inl rfl, by simp⟩

theorem LogsOnly.logged {n : Nat} {next : Store → Store × Except CoreError α} (some : entries ≠ []) :
    LogsOnly s d ({ s with nextLsn := n }.logged encoding entries io next).effects :=
  ⟨[], _, rfl, .inl rfl, logged_touches encoding some⟩

theorem LogsOnly.serve (s : Store) (d : DataDir) (io : WalIo) (request : Request) :
    LogsOnly s d (s.serve encoding d io request).effects := by
  cases request with
  | createCollection name descriptor entropy =>
    simp only [Store.serve, Outcome.forget, Store.createCollection]
    split
    · exact .nil s d
    · exact .nil s d
    · exact ⟨_, _, rfl, .inr ⟨_, entropy, rfl⟩, logged_touches encoding (by simp)⟩
  | dropCollection name =>
    simp only [Store.serve, Outcome.forget, Store.dropCollection]
    split
    · exact .nil s d
    · exact .logged encoding (by simp)
  | upsert cid id vector payload =>
    simp only [Store.serve, Outcome.forget, Store.upsert]
    split
    · exact .nil s d
    · exact .logged encoding (by simp)
  | upsertBatch cid records =>
    simp only [Store.serve, Outcome.forget, Store.upsertBatch]
    split
    · exact .nil s d
    · split
      · exact .nil s d
      · refine .logged encoding ?_
        cases records with
        | nil => contradiction
        | cons record records => simp [Store.batchEntries]
  | delete cid id =>
    simp only [Store.serve, Outcome.forget, Store.delete]
    split
    · exact .nil s d
    · split
      · exact .nil s d
      · exact .nil s d
      · exact .logged encoding (by simp)

variable {encoding}

theorem KeyFiles.provisioned (keyFiles : KeyFiles d) (ring : KeyRing) (k : CollectionId) (entropy : Key) :
    KeyFiles (applyAll d (ring.provisionCollection d k entropy)) := by
  cases ring with
  | single key => exact keyFiles
  | envelope =>
    simp only [KeyRing.provisionCollection]
    split
    · exact keyFiles
    · intro j f found
      by_cases here : j = k
      · subst here
        have written : (applyAll d [.create (.dekTmp j), .append (.dekTmp j) [.dek entropy],
            .sync (.dekTmp j)])[Path.dekTmp j]? = some ⟨[.dek entropy], []⟩ := by
          simp [File.empty]
        have stored : some f = some ⟨[.dek entropy], []⟩ := found.symm.trans (rename_target written)
        exact ⟨entropy, Option.some.inj stored⟩
      · refine keyFiles j f (Eq.trans (Eq.symm (applyAll_untouched ?_ d)) found)
        simp [Effect.Touches, here]

theorem KeyFiles.logsOnly {effects : List (Effect Path Chunk)} (keyFiles : KeyFiles d)
    (logs : LogsOnly s d effects) : KeyFiles (applyAll d effects) := by
  obtain ⟨first, rest, rfl, provisions, others⟩ := logs
  have afterFirst : KeyFiles (applyAll d first) := by
    obtain rfl | ⟨k, entropy, rfl⟩ := provisions
    · exact keyFiles
    · exact keyFiles.provisioned _ _ _
  intro k f found
  rw [applyAll_append, applyAll_untouched fun e member touches => by
    simpa using others e member _ touches] at found
  exact afterFirst k f found

/-- Effects that only log leave everything below the collections' directories as it is. -/
theorem LogsOnly.under {effects : List (Effect Path Chunk)} (logs : LogsOnly s d effects) {p : Path}
    {k : CollectionId} (under : p.collection? = some k) : (applyAll d effects)[p]? = d[p]? := by
  obtain ⟨first, rest, rfl, provisions, others⟩ := logs
  rw [applyAll_append, applyAll_untouched fun e member touches => ?_, applyAll_untouched]
  · intro e member touches
    obtain rfl | ⟨_, entropy, rfl⟩ := provisions
    · contradiction
    · obtain rfl | rfl := provision_touches member touches <;> contradiction
  · rw [others e member p touches] at under
    contradiction

theorem Manifest.OwnsDirs.logsOnly {m : Manifest} {effects : List (Effect Path Chunk)} (owned : m.OwnsDirs d)
    (logs : LogsOnly s d effects) : m.OwnsDirs (applyAll d effects) := by
  intro p present k under
  exact owned p ((mem_congr (logs.under under)).mp present) k under

end Effects

/-- A session over an image: whatever part of the pending records survives, the log holds of
every request what it leaves. -/
structure Session.Over (encoding : Encoding) (ring : KeyRing) (img : Image) (t : Session) : Prop where
  faulty : ∃ img' mem, img.Since img' ∧ Faulty encoding ring t.store t.dir img' mem ∧
    ∀ kept, kept <+: img'.pending → ∃ parts, List.Forall₂ Answered.Leaves t.answers parts ∧
      img'.tail ++ kept = img.tail ++ parts.flatten
  keyFiles : KeyFiles t.dir
  owned : img.mfst.OwnsDirs t.dir

theorem Answered.leaves_snoc {answers : List Answered} {parts : List (List WalOp)} {answer : Answered}
    {part : List WalOp} (leaves : List.Forall₂ Answered.Leaves answers parts) (last : answer.Leaves part) :
    List.Forall₂ Answered.Leaves (answers ++ [answer]) (parts ++ [part]) :=
  List.rel_append leaves (.cons last .nil)

namespace Session.Over

variable {t : Session}

section

variable (held : t.Over encoding ring img)
include held

/-- What the log holds after an operation that was answered. -/
theorem answer {ops : List WalOp} {out : Outcome Unit}
    (faulted : ∀ {img' mem}, Faulty encoding ring t.store t.dir img' mem →
      Faulted encoding ring img' t.dir ops out)
    (logs : LogsOnly t.store t.dir out.effects) :
    Session.Over encoding ring img
      ⟨out.store, applyAll t.dir out.effects, t.answers ++ [⟨ops, out.result.isOk⟩]⟩ := by
  obtain ⟨⟨mid, mem, since, faulty, log⟩, keyFiles, owned⟩ := held
  refine ⟨?_, keyFiles.logsOnly logs, owned.logsOnly logs⟩
  obtain ⟨img', mem', since', faulty', logged⟩ := faulted faulty
  have sinceStart : img.Since img' := by
    rw [Image.Since, since', since]
  refine ⟨img', mem', sinceStart, faulty', fun kept isKept => ?_⟩
  obtain ⟨parts, leaves, whole⟩ := log mid.pending (List.prefix_refl _)
  obtain ⟨tail, pending⟩ | ⟨left, isLeft, nothing, tail, pending⟩ := logged
  · rw [pending, prefix_nil] at isKept
    refine ⟨_, Answered.leaves_snoc leaves ⟨List.prefix_refl _, fun _ => rfl⟩, ?_⟩
    rw [isKept, append_nil, tail, whole]
    simp
  · -- Of a request that failed, or that stood for nothing, any part may survive.
    have leavesPart : ∀ {part}, part <+: left →
        Answered.Leaves ⟨ops, out.result.isOk⟩ part := by
      intro part isPart
      refine ⟨isPart.trans isLeft, fun acknowledged => ?_⟩
      have none := nothing acknowledged
      rw [none, prefix_nil] at isLeft
      rw [isLeft, prefix_nil] at isPart
      exact isPart.trans none.symm
    rw [pending] at isKept
    obtain before | ⟨more, rfl⟩ := List.prefix_or_prefix_of_prefix isKept (List.prefix_append ..)
    · obtain ⟨parts, leaves, whole⟩ := log kept before
      refine ⟨_, Answered.leaves_snoc leaves (leavesPart nil_prefix), ?_⟩
      rw [tail, whole]
      simp
    · rw [List.prefix_append_right_inj] at isKept
      refine ⟨_, Answered.leaves_snoc leaves (leavesPart isKept), ?_⟩
      rw [tail, ← List.append_assoc, whole]
      simp

theorem serve (request : Request) (clean : io.Clean)
    (syncs : io.syncFails = true → request.Writes) : (t.serve encoding request io).Over encoding ring img :=
  held.answer (fun faulty => faulty.serve held.keyFiles request clean syncs) (.serve encoding _ _ io request)

theorem serveAll {run : List (Request × WalIo)} (careful : Careful run) :
    (t.serveAll encoding run).Over encoding ring img := by
  induction run generalizing t with
  | nil => exact held
  | cons step run ih =>
    obtain ⟨clean, syncs⟩ := careful step (List.mem_cons_self ..)
    exact ih (held.serve step.1 clean syncs) fun step member => careful step (List.mem_cons_of_mem _ member)

theorem reopen {d' : DataDir} (crashed : Crashed t.dir d') :
    ∃ parts s' d'', List.Forall₂ Answered.Leaves t.answers parts ∧
      (openWithKeyring encoding ring).run d' = (d'', .ok s') ∧
      s'.catalog.Represents (img.start.applyAll encoding (img.tail ++ parts.flatten)) := by
  obtain ⟨⟨img', mem, since, ⟨⟨n, _, running⟩, _⟩, log⟩, keyFiles, owned⟩ := held
  obtain ⟨files, kept, isKept, settled, tail, pending, on, sound⟩ := running.on.crashed running.sound crashed
  obtain ⟨parts, leaves, whole⟩ := log kept isKept
  have ownedAfter : img.mfst.OwnsDirs d' := by
    intro p present k under
    exact owned p (crashed.mem_of_mem present) k under
  have safe : Image.KeySafe { img' with files } ring d' := by
    have sameManifest : img'.mfst = img.mfst := by rw [since]
    exact Manifest.OwnsDirs.keySafe (sameManifest ▸ ownedAfter) ring
  obtain ⟨_, s', opened, files', after, _⟩ := openWithKeyring_spec on sound settled safe
  refine ⟨parts, s', _, leaves, Prod.ext rfl opened, ?_⟩
  have sameStart : img'.start = img.start := by rw [since]
  have represents := after.represents
  rwa [tail, whole, sameStart] at represents

end

end Session.Over

theorem Image.On.session (on : img.On encoding ring d) (sound : img.Sound encoding)
    (rest : ∀ file ∈ img.files, file.unsynced = []) (safe : img.KeySafe ring d) (keyFiles : KeyFiles d)
    {d₀ : DataDir} (opened : (openWithKeyring encoding ring).run d = (d₀, .ok s)) :
    s.catalog.Represents (img.start.applyAll encoding img.tail) ∧
      ∃ img', img.Since img' ∧ img'.tail = img.tail ∧ Session.Over encoding ring img' ⟨s, d₀, []⟩ := by
  obtain ⟨_, s', result, files, running, tail, pending, owned, kept⟩ := openWithKeyring_spec on sound rest safe
  have sameDir : FileSystem.applyAll d (openWithKeyring encoding ring d).1 = d₀ := congrArg Prod.fst opened
  have sameStore : (openWithKeyring encoding ring d).2 = .ok s := congrArg Prod.snd opened
  rw [sameStore] at result
  cases result
  rw [sameDir] at running owned kept
  refine ⟨running.represents, { img with files }, rfl, tail,
    ⟨{ img with files }, _, rfl, running.faulty, ?_⟩, ?_, owned⟩
  · intro kept isKept
    rw [pending, prefix_nil] at isKept
    exact ⟨[], .nil, by simp [isKept]⟩
  · intro k f found
    have present : Path.dek k ∈ d₀ := Maps.mem_of_get found
    exact keyFiles k f ((kept _ present (by simp)).symm.trans found)

def Image.initial : Image := ⟨.empty, {}, [], .empty, 0, .empty⟩

theorem Image.initial_on (encoding : Encoding) (ring : KeyRing) : Image.initial.On encoding ring ∅ where
  current := .inl ⟨by simp, rfl⟩
  loads := rfl
  listed seq := by simp [Image.initial]
  logs file member := by simp [Image.initial] at member
  keys k created := by simp [Image.initial, Image.tail, Image.pending, Image.live, Created] at created
  segments _ f found := by simp at found
  deks _ f found := by simp at found

theorem Image.initial_sound (encoding : Encoding) : Image.initial.Sound encoding := by
  have indexed : Logical.empty.Indexed := fun name k => by simp [Logical.empty]
  have below : Logical.empty.Below 0 := fun k e found => by simp [Logical.empty] at found
  have valid : Logical.empty.Valid encoding 0 [] := trivial
  constructor
  · exact .nil
  · exact .nil
  · exact indexed
  · exact below
  · exact Nat.le_refl _
  · exact valid
  · exact .self indexed below valid
  · exact ⟨rfl, fun k => by simp [Image.initial, Logical.empty]⟩
  · intro k c found
    simp [Image.initial] at found
  · intro k c found
    simp [Image.initial] at found
  · simp [Image.initial, Manifest.empty]
  · constructor <;> simp [Image.initial, Manifest.empty]

theorem Image.initial_opens (ring : KeyRing) :
    (∀ file ∈ Image.initial.files, file.unsynced = []) ∧ Image.initial.KeySafe ring ∅ ∧ KeyFiles ∅ := by
  refine ⟨by simp [Image.initial], fun k created => ?_, fun k f found => by simp at found⟩
  simp [Image.initial, Image.tail, Image.pending, Image.live, Created] at created

/-- Open a directory, serve some requests, close the store and open it again: the session, and
the store at the end. -/
def reopened (encoding : Encoding) (ring : KeyRing) (d : DataDir) (run : List (Request × WalIo)) :
    Except CoreError (Session × Store) := do
  let (d₀, opened) := (openWithKeyring encoding ring).run d
  let t := Session.serveAll encoding ⟨← opened, d₀, []⟩ run
  return (t, ← ((openWithKeyring encoding ring).run (closed t.dir)).2)

end Quiver.Core
