import Quiver.Core.Commit

/-!
The logged operations of a running store: an acknowledged one is durable, and memory follows it; a
refused one changes nothing; a batch that stops at a record over the size cap leaves the records
before it in the log.
-/

namespace Quiver.Core

open FileSystem FramedLog Results
open Std (ExtTreeMap)
open List (append_assoc append_nil map_cons mem_append mem_cons mem_map)

variable {encoding : Encoding} {ring : KeyRing} {s : Store} {d : DataDir} {img img' : Image} {mem : Logical}
  {entries : List WalEntry}

/-- Another image of the same checkpoint: only the log files differ. -/
def Image.Since (img img' : Image) : Prop := img' = { img with files := img'.files }

def Image.nextId (img : Image) : CollectionId := (img.tail ++ img.pending).foldl WalOp.nextId img.next

variable (encoding ring) in
/-- The operations are durable, behind those that were pending, and memory follows them. -/
def Advanced (img : Image) (mem : Logical) (ops : List WalOp) (s : Store) (d : DataDir) : Prop :=
  ∃ img', img.Since img' ∧ img'.tail = img.tail ++ img.pending ++ ops ∧ img'.pending = [] ∧
    Running encoding ring s d img' (mem.applyAll encoding ops)

variable (encoding ring) in
/-- Memory is as it was; some operations may be in the log all the same. -/
def Stayed (img : Image) (mem : Logical) (left : List WalOp) (s : Store) (d : DataDir) : Prop :=
  ∃ img', img.Since img' ∧ img'.tail = img.tail ∧ img'.pending = img.pending ++ left ∧
    Running encoding ring s d img' mem

theorem foldl_nextId_writes {ops : List WalOp} (writes : ∀ op ∈ ops, op.Writes) {next : CollectionId} :
    ops.foldl WalOp.nextId next = next := by
  induction ops with
  | nil => rfl
  | cons op ops ih =>
    have here := writes op (List.mem_cons_self ..)
    rw [List.foldl_cons, show op.nextId next = next by cases op <;> first | rfl | exact here.elim]
    exact ih fun op member => writes op (List.mem_cons_of_mem _ member)

namespace Running

section

variable (running : Running encoding ring s d img mem)
include running

theorem tracked :
    ∃ older file baseLsn, Tracked encoding ring img d s.wal older file baseLsn := by
  obtain ⟨older, file, baseLsn, writer⟩ := running.writer
  exact ⟨older, file, baseLsn, running.on, running.sound, writer⟩

theorem indexed : mem.Indexed :=
  running.sameCatalog.symm.indexed running.sound.applyAll_indexed.1

theorem below : mem.Below img.nextId :=
  running.sameCatalog.symm.below running.sound.applyAll_indexed.2

theorem loggable
    (fresh : ∀ e ∈ entries, s.nextLsn ≤ e.lsn)
    (valid : mem.Valid encoding img.nextId (entries.map (·.op)))
    (keys : ∀ k, Created (entries.map (·.op)) k → Image.HasKey ring d k) :
    Loggable encoding ring img d entries where
  fresh e member := by
    rw [← running.floor]
    exact Nat.lt_of_lt_of_le running.nextLsn (fresh e member)
  valid := running.sameCatalog.valid valid
  keys := keys

theorem backed_pending :
    Catalog.Backed ring d img.base (img.tail ++ img.pending) s.catalog := by
  refine running.backed.extend fun k => ?_
  rintro ⟨op, member, creates⟩
  have writes := running.ghosts op member
  cases op <;> simp_all [WalOp.Writes, WalOp.Creates]

theorem replay {ops : List WalOp}
    (valid : mem.Valid encoding img.nextId ops)
    (keys : ∀ k, Created ops k → Image.HasKey ring d k) :
    ∃ cat, s.catalog.replay encoding ring d ops = .ok cat ∧ cat.Represents (mem.applyAll encoding ops) ∧
      Catalog.Backed ring d img.base (img.tail ++ img.pending ++ ops) cat :=
  running.represents.replay running.indexed running.below valid (.refl running.indexed running.below valid)
    running.backed_pending fun k created => (keys k created).1

end

variable {older : List LoggedFile} {baseLsn : Lsn} {d' : DataDir} {n c : Nat}

section

variable {w' : WalWriter} {file : LoggedFile} (running : Running encoding ring s d img mem)
  (writer : Writer encoding img d s.wal older file baseLsn) (same : ∀ p : Path, p ≠ .wal s.wal.seq → d'[p]? = d[p]?)
  (fresh : ∀ e ∈ entries, img.mfst.lastCheckpointedLsn < e.lsn ∧ e.lsn < n) (numbered : s.nextLsn ≤ n)
include running writer same fresh numbered

theorem relog {file' : LoggedFile} {cat : Catalog} {mem' : Logical}
    (tracked : Tracked encoding ring (img.withLast older file') d' w' older file' baseLsn)
    (added : file'.synced ++ file'.unsynced = file.synced ++ file.unsynced ++ entries)
    (represents : cat.Represents mem')
    (backed : Catalog.Backed ring d img.base (img.withLast older file').tail cat)
    (ghosts : ∀ op ∈ (img.withLast older file').pending, op.Writes)
    (sameCatalog : SameCatalog mem' (img.start.applyAll encoding
      ((img.withLast older file').tail ++ (img.withLast older file').pending)))
    (next : (img.withLast older file').nextId ≤ c) :
    Running encoding ring { s with wal := w', catalog := cat, nextLsn := n, nextCollectionId := c } d'
      (img.withLast older file') mem' where
  on := tracked.on
  sound := tracked.sound
  keyring := running.keyring
  represents := represents
  backed := backed.congr fun _ => same _ (by simp)
  ghosts := ghosts
  sameCatalog := sameCatalog
  version := running.version
  floor := running.floor
  nextLsn := Nat.lt_of_lt_of_le running.nextLsn numbered
  lsns := by
    intro other member e inside
    have known : ∀ other ∈ img.files, ∀ e ∈ other.synced ++ other.unsynced, e.lsn < n :=
      fun other member e inside => Nat.lt_of_lt_of_le (running.lsns other member e inside) numbered
    rw [writer.files] at known
    obtain old | last := mem_append.mp member
    · exact known other (List.mem_append_left _ old) e inside
    · rw [List.mem_singleton.mp last, added] at inside
      obtain before | new := mem_append.mp inside
      · exact known file (by simp) e before
      · exact (fresh e new).2
  nextCollection := next
  nextSegment := running.nextSegment
  fresh above := (same _ (by simp)).trans (running.fresh above)
  writer := ⟨older, file', baseLsn, tracked.writer⟩

theorem synced (synced : Tracked encoding ring (img.withLast older (file.append entries).sync) d' w' older
      (file.append entries).sync baseLsn)
    (valid : mem.Valid encoding img.nextId (entries.map (·.op)))
    (keys : ∀ k, Created (entries.map (·.op)) k → Image.HasKey ring d k)
    (next : (entries.map (·.op)).foldl WalOp.nextId img.nextId ≤ c) :
    ∃ cat, s.catalog.replay encoding ring d (entries.map (·.op)) = .ok cat ∧
      Advanced encoding ring img mem (entries.map (·.op))
        { s with wal := w', catalog := cat, nextLsn := n, nextCollectionId := c } d' := by
  obtain ⟨cat, replayed, represents, backed⟩ := running.replay valid keys
  have live : img.live entries = entries.map (·.op) := Image.live_fresh fun e member => (fresh e member).1
  have tail : (img.withLast older (file.append entries).sync).tail =
      img.tail ++ img.pending ++ entries.map (·.op) := by
    have appended : (img.withLast older (file.append entries)).files = older ++ [file.append entries] := rfl
    have synced := Image.tail_sync appended writer.settled
    rw [Image.tail_append writer.files, Image.pending_append writer.files, live,
      ← append_assoc] at synced
    exact synced
  have pending : (img.withLast older (file.append entries).sync).pending = [] :=
    Image.pending_sync _ _ writer.settled
  refine ⟨cat, replayed, img.withLast older (file.append entries).sync, rfl, tail, pending, ?_⟩
  refine running.relog writer same fresh numbered synced ?_ represents ?_ ?_ ?_ ?_
  · simp only [LoggedFile.sync, LoggedFile.append, append_nil, append_assoc]
  · rw [tail]
    exact backed
  · simp [pending]
  · rw [tail, pending, append_nil, Logical.applyAll_append]
    exact running.sameCatalog.applyAll _
  · rw [Image.nextId, tail, pending, append_nil, List.foldl_append]
    exact next

theorem appended (appended : Tracked encoding ring (img.withLast older (file.append entries)) d' w' older
      (file.append entries) baseLsn)
    (writes : ∀ op ∈ entries.map (·.op), op.Writes) :
    Stayed encoding ring img mem (entries.map (·.op)) { s with wal := w', nextLsn := n } d' := by
  have tail := Image.tail_append writer.files entries
  have pending := Image.pending_append writer.files entries
  rw [Image.live_fresh fun e member => (fresh e member).1] at pending
  refine ⟨img.withLast older (file.append entries), rfl, tail, pending, ?_⟩
  have foldl : (img.withLast older (file.append entries)).nextId = img.nextId := by
    rw [Image.nextId, tail, pending, ← append_assoc, List.foldl_append]
    exact foldl_nextId_writes writes
  refine running.relog writer same fresh numbered appended ?_ running.represents ?_ ?_ ?_ ?_
  · simp only [LoggedFile.append, append_assoc]
  · rw [tail]
    exact running.backed
  · rw [pending]
    exact List.forall_mem_append.mpr ⟨running.ghosts, writes⟩
  · rw [tail, pending, ← append_assoc, Logical.applyAll_append]
    exact running.sameCatalog.writes writes
  · rw [foldl]
    exact running.nextCollection

end

theorem commit_elsewhere {w : WalWriter} {io : WalIo} (some : entries ≠ []) (d : DataDir) {p : Path}
    (differ : p ≠ .wal w.seq) : (applyAll d (w.commit encoding entries io).effects)[p]? = d[p]? :=
  applyAll_untouched (fun _ member touches => differ (WalWriter.commit_touches some member touches)) d

variable (encoding ring) in
/-- What serving an operation leads to: a crash in between finds some of `ops` logged; at the
end they are all durable and memory follows them, or the operation failed and left some of
them in the log, none if it was `whole`. -/
structure Serves (img : Image) (mem : Logical) (d : DataDir) (ops : List WalOp) (whole : Prop) (a : α)
    (out : Outcome α) : Prop where
  crash : ∀ count, img.Logged encoding ring ops (applyAll d (out.effects.take count))
  final : out.result = .ok a ∧ Advanced encoding ring img mem ops out.store (applyAll d out.effects) ∨
    ∃ left error, left <+: ops ∧ (whole → left = []) ∧ out.result = .error error ∧
      Stayed encoding ring img mem left out.store (applyAll d out.effects)

variable (encoding) in
/-- The records are written all, or none of them. -/
def AllOrNone (w : WalWriter) (entries : List WalEntry) : Prop :=
  ∀ first ∈ entries.head?, FitsCap encoding true w.writeOffset first →
    (walFraming encoding true).AllFit w.writeOffset entries

theorem AllOrNone.nothing_done {w : WalWriter} {done rest : List WalEntry} {bad : WalEntry}
    (whole : AllOrNone encoding w (done ++ bad :: rest))
    (fit : (walFraming encoding true).AllFit w.writeOffset done)
    (overCap : ¬ FitsCap encoding true (w.past encoding done).writeOffset bad) : done = [] := by
  cases done with
  | nil => rfl
  | cons first done =>
    have all := whole first rfl fit.1
    rw [allFit_append] at all
    exact absurd all.2.1 overCap

variable (encoding ring) in
/-- An operation that logs these records and goes on with `next`. They may be logged where the
store stands, and `next` applies them; the log sequence numbers below `n₀` are taken before
anything is written. -/
structure Logs (s : Store) (d : DataDir) (img : Image) (mem : Logical) (entries : List WalEntry)
    (n₀ n c : Nat) (next : Store → Store × Except CoreError α) (a : α) : Prop where
  some : entries ≠ []
  lsns : ∀ e ∈ entries, s.nextLsn ≤ e.lsn ∧ e.lsn < n
  numbered : s.nextLsn ≤ n₀ ∧ n₀ ≤ n
  early : ∀ e ∈ entries.dropLast, e.lsn < n₀ ∧ e.op.Writes
  valid : mem.Valid encoding img.nextId (entries.map (·.op))
  keys : ∀ k, Created (entries.map (·.op)) k → Image.HasKey ring d k
  nextId : (entries.map (·.op)).foldl WalOp.nextId img.nextId ≤ c
  applies : ∀ w cat, s.catalog.replay encoding ring d (entries.map (·.op)) = .ok cat →
    next { s with nextLsn := n₀, wal := w } =
      ({ s with wal := w, catalog := cat, nextLsn := n, nextCollectionId := c }, .ok a)

variable (encoding ring) in
/-- However its system calls fare, the operation logs these records and then applies them. -/
def Issues (s : Store) (d : DataDir) (img : Image) (mem : Logical) (entries : List WalEntry) (a : α)
    (operation : WalIo → Outcome α) : Prop :=
  ∃ n₀ n c next, Logs encoding ring s d img mem entries n₀ n c next a ∧
    ∀ io, operation io = { s with nextLsn := n₀ }.logged encoding entries io next

variable {n : Nat}

theorem effects_logged {io : WalIo} {next : Store → Store × Except CoreError α} :
    ({ s with nextLsn := n }.logged encoding entries io next).effects =
      (s.wal.commit encoding entries io).effects := by
  simp only [Store.logged]
  split <;> rfl

theorem Issues.serves {a : α} {operation : WalIo → Outcome α}
    (issues : Issues encoding ring s d img mem entries a operation)
    (running : Running encoding ring s d img mem) :
    Serves encoding ring img mem d (entries.map (·.op)) (AllOrNone encoding s.wal entries) a
      (operation .ok) := by
  obtain ⟨n₀, n, c, next, logs, isLogged⟩ := issues
  obtain ⟨older, file, baseLsn, tracked⟩ := running.tracked
  have loggable := running.loggable (fun e member => (logs.lsns e member).1) logs.valid logs.keys
  have same : ∀ p : Path, p ≠ .wal s.wal.seq →
      (applyAll d (s.wal.commit encoding entries .ok).effects)[p]? = d[p]? := fun p => commit_elsewhere logs.some d
  rw [isLogged .ok]
  refine ⟨by rw [effects_logged]; exact tracked.logged_commit loggable logs.some, ?_⟩
  rw [effects_logged]
  cases WalWriter.commit_spec encoding s.wal .ok logs.some with
  | synced effects writer result fit =>
    left
    rw [effects, applyAll_append] at same ⊢
    obtain ⟨cat, replayed, advanced⟩ := running.synced tracked.writer same
      (fun e member => ⟨loggable.fresh e member, (logs.lsns e member).2⟩)
      (Nat.le_trans logs.numbered.1 logs.numbered.2) (tracked.append loggable fit).sync logs.valid logs.keys logs.nextId
    simp only [Store.logged, result, writer]
    rw [logs.applies _ cat replayed]
    exact ⟨rfl, advanced⟩
  | tooLarge done bad rest message split effects writer result fit overCap =>
    right
    rw [effects] at same ⊢
    have early : ∀ e ∈ done, e.lsn < n₀ ∧ e.op.Writes := by
      intro e member
      refine logs.early e ?_
      rw [split, List.dropLast_append_cons]
      exact List.mem_append_left _ member
    have before : Loggable encoding ring img d done := (split ▸ loggable).before
    simp only [Store.logged, result, writer]
    refine ⟨done.map (·.op), .tooLarge message, ?_, fun whole => ?_, rfl, ?_⟩
    · rw [split, List.map_append]
      exact List.prefix_append ..
    · rw [split] at whole
      rw [whole.nothing_done fit overCap, List.map_nil]
    · refine running.appended tracked.writer same
        (fun e member => ⟨before.fresh e member, (early e member).1⟩) logs.numbered.1 (tracked.append before fit)
        fun op member => ?_
      obtain ⟨e, inside, rfl⟩ := mem_map.mp member
      exact (early e inside).2
  | unsynced effects writer result fit fails | failed done cut rest kept split effects writer result fit fails =>
    contradiction

theorem issues_one {op : WalOp} {c : Nat} {a : α} {next : Store → Store × Except CoreError α}
    (legal : mem.Legal encoding img.nextId op) (keys : ∀ k, op.Creates k → Image.HasKey ring d k)
    (nextId : op.nextId img.nextId ≤ c)
    (applies : ∀ w cat, s.catalog.applyWalEntry encoding ring d op = .ok cat →
      next { s with wal := w } =
        ({ s with wal := w, catalog := cat, nextLsn := s.nextLsn + 1, nextCollectionId := c }, .ok a)) :
    Issues encoding ring s d img mem [⟨s.nextLsn, op⟩] a fun io =>
      s.logged encoding [⟨s.nextLsn, op⟩] io next := by
  refine ⟨s.nextLsn, s.nextLsn + 1, c, next, ?_, fun _ => rfl⟩
  refine ⟨by simp, by simp, ⟨Nat.le_refl _, Nat.le_succ _⟩, by simp, ⟨legal, trivial⟩,
    by simpa [Created] using keys, nextId, fun w cat replayed => ?_⟩
  simp only [Catalog.replay, map_cons, List.foldlM_cons] at replayed
  obtain ⟨mid, applied, rest⟩ := bind_eq_ok.mp replayed
  cases rest
  exact applies w _ applied

theorem name_eq (running : Running encoding ring s d img mem) (name : String) :
    s.catalog.nameIndex[name]? = mem.names[name]? := by
  rw [running.represents.names]

theorem modify_eq_update {cat : Catalog} {cid : CollectionId} {c : CollectionState}
    {f : CollectionState → Except CoreError CollectionState} (found : cat.collections[cid]? = some c) :
    cat.modify cid f = cat.update cid f := by
  simp only [Catalog.modify, Catalog.update, found]

theorem checkDims_eq_ok {cat : Catalog} {cid : CollectionId} {vectors : List (List F32)} :
    cat.checkDims cid vectors = .ok () ↔ ∃ c, cat.collections[cid]? = some c ∧
      ∀ v ∈ vectors, v.length = c.descriptor.dim := by
  simp only [Catalog.checkDims]
  cases cat.collections[cid]? with
  | none => simp
  | some c =>
    cases bad : vectors.find? fun v => v.length != c.descriptor.dim with
    | none =>
      simp only [bad, true_iff]
      refine ⟨c, rfl, fun v member => ?_⟩
      simpa using List.find?_eq_none.mp bad v member
    | some v =>
      have differs := List.find?_some bad
      simp only [bad, reduceCtorEq, false_iff]
      rintro ⟨_, ⟨⟩, all⟩
      simp [all v (List.mem_of_find?_eq_some bad)] at differs

section

variable (running : Running encoding ring { s with nextLsn := n } d img mem)
include running

theorem dropCollection {name : String} {k : CollectionId} (named : mem.names[name]? = some k) :
    Issues encoding ring s d img mem [⟨s.nextLsn, .dropCollection k⟩] true
      fun io => s.dropCollection encoding name io := by
  obtain ⟨e, held, isName⟩ := (running.indexed name k).mp named
  obtain ⟨c, found, stands⟩ := running.represents.some_right held
  have indexed : s.catalog.nameIndex[name]? = some k := (running.name_eq name).trans named
  simp only [Store.dropCollection, indexed]
  refine issues_one ⟨e, held⟩ (fun _ => False.elim) running.nextCollection fun w cat applied => ?_
  simp only [Catalog.applyWalEntry, found, stands.name, isName] at applied
  cases applied
  rfl

theorem upsert {cid : CollectionId} {vector : List F32} (checked : s.catalog.checkDims cid [vector] = .ok ())
    (id : String) (payload : Bytes) :
    Issues encoding ring s d img mem [⟨s.nextLsn, .upsert cid id (f32ToLeBytes vector) payload⟩] s.nextLsn
      fun io => s.upsert encoding cid id vector payload io := by
  obtain ⟨c, found, dims⟩ := checkDims_eq_ok.mp checked
  obtain ⟨e, held, stands⟩ := running.represents.some_left found
  simp only [Store.upsert, checked]
  refine issues_one ⟨e, held, ?_⟩ (fun _ => False.elim) running.nextCollection fun w cat applied => ?_
  · rw [length_f32ToLeBytes, dims vector (List.mem_singleton_self _), ← stands.descriptor]
    exact Nat.mul_comm ..
  · simp only [Catalog.applyWalEntry] at applied
    simp only [modify_eq_update found, applied]
    rfl

theorem delete {cid : CollectionId} {id : String} {e : LogicalCollection} {r : Record}
    (held : mem.collections[cid]? = some e) (present : e.points[id]? = some r) :
    Issues encoding ring s d img mem [⟨s.nextLsn, .delete cid id⟩] true
      fun io => s.delete encoding cid id io := by
  obtain ⟨c, found, stands⟩ := running.represents.some_right held
  change s.catalog.collections[cid]? = some c at found
  obtain ⟨loc, located, isSome⟩ := stands.points.locate id
  rw [present] at isSome
  obtain ⟨loc, rfl⟩ := Option.isSome_iff_exists.mp isSome
  simp only [Store.delete, found, located]
  refine issues_one ⟨e, held⟩ (fun _ => False.elim) running.nextCollection fun w cat applied => ?_
  simp only [Catalog.applyWalEntry] at applied
  simp only [modify_eq_update found, applied]
  rfl

end

end Running

def upsertOp (cid : CollectionId) (record : String × List F32 × Bytes) : WalOp :=
  .upsert cid record.1 (f32ToLeBytes record.2.1) record.2.2

section Batch

variable {cid : CollectionId} {records : List (String × List F32 × Bytes)}

theorem ops_batchEntries (lsn : Lsn) :
    (Store.batchEntries cid lsn records).map (·.op) = records.map (upsertOp cid) := by
  induction records generalizing lsn with
  | nil => rfl
  | cons record records ih =>
    rw [Store.batchEntries, map_cons, map_cons, ih]
    rfl

theorem lsn_batchEntries {lsn : Lsn} {e : WalEntry} (member : e ∈ Store.batchEntries cid lsn records) :
    lsn ≤ e.lsn ∧ e.lsn < lsn + records.length := by
  induction records generalizing lsn with
  | nil => simp [Store.batchEntries] at member
  | cons record records ih =>
    rw [Store.batchEntries] at member
    rw [List.length_cons]
    obtain rfl | later := mem_cons.mp member
    · exact ⟨Nat.le_refl _, by simp⟩
    · obtain ⟨low, high⟩ := ih later
      refine ⟨Nat.le_trans (Nat.le_succ lsn) low, Nat.lt_of_lt_of_eq high ?_⟩
      rw [Nat.add_assoc, Nat.add_comm 1]

theorem writes_batch {op : WalOp} (member : op ∈ records.map (upsertOp cid)) : op.Writes := by
  obtain ⟨record, _, rfl⟩ := mem_map.mp member
  trivial

theorem valid_batch {descriptor : Descriptor} {next : CollectionId}
    (held : ∃ e : LogicalCollection, mem.collections[cid]? = some e ∧ e.descriptor = descriptor)
    (dims : ∀ v ∈ records.map (fun r => r.2.1), v.length = descriptor.dim) :
    mem.Valid encoding next (records.map (upsertOp cid)) := by
  induction records generalizing mem next with
  | nil => trivial
  | cons record records ih =>
    obtain ⟨e, held, rfl⟩ := held
    refine ⟨⟨e, held, ?_⟩, ih ?_ fun v member => dims v (List.mem_cons_of_mem _ member)⟩
    · rw [length_f32ToLeBytes, dims _ (List.mem_cons_self ..)]
      exact Nat.mul_comm ..
    · simp only [upsertOp, Logical.apply, Logical.collections_onPoints, held, if_true, Option.map_some]
      exact ⟨_, rfl, rfl⟩

theorem applyUpserts_eq {cat cat' : Catalog} (found : cid ∈ cat.collections)
    (replayed : cat.replay encoding ring d (records.map (upsertOp cid)) = .ok cat') :
    cat.applyUpserts cid records = (cat', .ok ()) := by
  induction records generalizing cat with
  | nil =>
    cases replayed
    rfl
  | cons record records ih =>
    simp only [Catalog.replay, map_cons, List.foldlM_cons] at replayed
    obtain ⟨mid, applied, rest⟩ := bind_eq_ok.mp replayed
    simp only [upsertOp, Catalog.applyWalEntry] at applied
    have held := ExtTreeMap.getElem?_eq_some_getElem found
    have kept : cid ∈ mid.collections := by
      simp only [Catalog.update, held] at applied
      obtain ⟨c', _, last⟩ := bind_eq_ok.mp applied
      cases last
      simp
    rw [Catalog.applyUpserts, Running.modify_eq_update held, applied]
    exact ih kept rest

end Batch

theorem Running.upsertBatch {n : Nat} (running : Running encoding ring { s with nextLsn := n } d img mem)
    {cid : CollectionId} {records : List (String × List F32 × Bytes)} (some : records ≠ [])
    (checked : s.catalog.checkDims cid (records.map fun r => r.2.1) = .ok ()) :
    Issues encoding ring s d img mem (Store.batchEntries cid s.nextLsn records) records.length
      fun io => s.upsertBatch encoding cid records io := by
  obtain ⟨c, found, dims⟩ := checkDims_eq_ok.mp checked
  obtain ⟨e, held, stands⟩ := running.represents.some_left found
  have isSome : Store.batchEntries cid s.nextLsn records ≠ [] := by
    cases records with
    | nil => contradiction
    | cons record records => simp [Store.batchEntries]
  have writes : ∀ op ∈ (Store.batchEntries cid s.nextLsn records).map (·.op), op.Writes := by
    rw [ops_batchEntries]
    exact fun op => writes_batch
  simp only [Store.upsertBatch, List.isEmpty_iff, some, if_false, checked]
  refine ⟨_, s.nextLsn + records.length, s.nextCollectionId, _, ?_, fun _ => rfl⟩
  refine ⟨isSome, fun e member => lsn_batchEntries member, ⟨Nat.le_add_right _ _, Nat.le_refl _⟩, ?_, ?_, ?_,
    ?_, fun w cat replayed => ?_⟩
  · intro e member
    have inside := List.mem_of_mem_dropLast member
    exact ⟨(lsn_batchEntries inside).2, writes _ (mem_map.mpr ⟨e, inside, rfl⟩)⟩
  · rw [ops_batchEntries]
    exact valid_batch ⟨e, held, stands.descriptor.symm⟩ dims
  · rintro k ⟨op, member, creates⟩
    have isWrite := writes op member
    cases op <;> simp_all [WalOp.Writes, WalOp.Creates]
  · rw [foldl_nextId_writes writes]
    exact running.nextCollection
  · have present : cid ∈ s.catalog.collections :=
      Maps.mem_of_get found
    rw [ops_batchEntries] at replayed
    simp only [applyUpserts_eq present replayed]

theorem Image.Sound.key_below (sound : img.Sound encoding) (on : img.On encoding ring d) {k : CollectionId}
    (needed : img.Needed (.dek k)) : k < img.nextId := by
  obtain ⟨entry, member, rfl⟩ | created := needed
  · obtain ⟨c, found⟩ := loadCatalog_present on.loads member
    obtain ⟨e, loaded, _⟩ := sound.represents.some_left found
    by_cases created : Created img.tail entry.id
    · exact sound.valid.created_below (created_append.mpr (.inl created))
    · obtain ⟨_, start, _⟩ := (sound.absorbs.collection entry.id created).held loaded
      exact Nat.lt_of_lt_of_le (sound.below _ _ start) sound.valid.next_le
  · exact sound.valid.created_below created

/-- Every key file holds one key, and nothing of it is left to sync. -/
def KeyFiles (d : DataDir) : Prop :=
  ∀ (k : CollectionId) (f : File Chunk), d[Path.dek k]? = some f → ∃ key, f = ⟨[.dek key], []⟩

theorem hasKey_provisioned (ring : KeyRing) (keyFiles : KeyFiles d) (k : CollectionId) (entropy : Key) :
    Image.HasKey ring (applyAll d (ring.provisionCollection d k entropy)) k := by
  have ofFile : ∀ {d' : DataDir} (key : Key), d'[Path.dek k]? = some ⟨[.dek key], []⟩ →
      Image.HasKey .envelope d' k := by
    intro d' key stored
    refine ⟨⟨key, by simp [KeyRing.collectionCodec, stored, File.content]⟩, fun f found => ?_⟩
    rw [stored] at found
    cases found
    rfl
  cases ring with
  | single key =>
    refine ⟨⟨key, rfl⟩, fun f found => ?_⟩
    obtain ⟨_, rfl⟩ := keyFiles k f found
    rfl
  | envelope =>
    simp only [KeyRing.provisionCollection]
    split
    case isTrue present =>
      obtain ⟨key, isFile⟩ := keyFiles k _ (ExtTreeMap.getElem?_eq_some_getElem present)
      refine ofFile key ?_
      rw [applyAll_nil, ExtTreeMap.getElem?_eq_some_getElem present, isFile]
    case isFalse absent =>
      refine ofFile entropy ?_
      have written : (applyAll d [.create (.dekTmp k), .append (.dekTmp k) [.dek entropy],
          .sync (.dekTmp k)])[Path.dekTmp k]? = some ⟨[.dek entropy], []⟩ := by
        simp [File.empty]
      exact rename_target written

theorem Running.congr (running : Running encoding ring s d img mem) {d' : DataDir}
    (same : ∀ p, img.Needed p → d'[p]? = d[p]?)
    (fresh : ∀ {cid seg part}, s.nextSegmentId ≤ seg → d'[Path.segment cid seg part]? = none) :
    Running encoding ring s d' img mem :=
  { running with
    on := running.on.congr same
    backed := running.backed.congr fun found => same _ (running.on.needsKey running.backed found)
    fresh := fresh
    writer := by
      obtain ⟨older, file, baseLsn, writer⟩ := running.writer
      exact ⟨older, file, baseLsn, { writer with stored := (same (.wal _) trivial).trans writer.stored }⟩ }

theorem provision_touches {k : CollectionId} {entropy : Key} {e : Effect Path Chunk} {p : Path}
    (member : e ∈ ring.provisionCollection d k entropy) (touches : e.Touches p) :
    p = .dekTmp k ∨ p = .dek k := by
  cases ring with
  | single key => simp [KeyRing.provisionCollection] at member
  | envelope =>
    simp only [KeyRing.provisionCollection] at member
    split at member
    · simp at member
    · simp only [mem_cons, List.not_mem_nil, or_false] at member
      obtain rfl | rfl | rfl | rfl := member
      · exact .inl touches
      · exact .inl touches
      · exact .inl touches
      · exact touches

theorem Running.provision_unneeded (running : Running encoding ring s d img mem) {k : CollectionId}
    (unneeded : ¬ img.Needed (.dek k)) (entropy : Key) (count : Nat) :
    Running encoding ring s (applyAll d ((ring.provisionCollection d k entropy).take count)) img mem := by
  have touched : ∀ e ∈ (ring.provisionCollection d k entropy).take count, ∀ p,
      e.Touches p → p = .dekTmp k ∨ p = .dek k :=
    fun e member p => provision_touches (List.mem_of_mem_take member)
  refine running.congr (fun p needed => ?_) fun above => ?_
  · refine applyAll_untouched (fun e member touches => ?_) d
    obtain rfl | rfl := touched e member p touches
    · exact needed
    · exact unneeded needed
  · rw [applyAll_untouched fun e member touches => by simpa using touched e member _ touches]
    exact running.fresh above

theorem Running.provision (running : Running encoding ring s d img mem) (entropy : Key) (count : Nat) :
    Running encoding ring s (applyAll d
      ((ring.provisionCollection d s.nextCollectionId entropy).take count)) img mem :=
  running.provision_unneeded (fun needed => Nat.lt_irrefl _
    (Nat.lt_of_lt_of_le (running.sound.key_below running.on needed) running.nextCollection)) entropy count

theorem Running.createCollection {n : Nat} (running : Running encoding ring { s with nextLsn := n } d img mem)
    (keyFiles : KeyFiles d) {name : String} {descriptor : Descriptor} (entropy : Key)
    (valid : validateCollectionName name = .ok ()) (checked : s.checkCreate name descriptor = .ok ()) :
    ∃ operation, Issues encoding ring s (applyAll d (ring.provisionCollection d s.nextCollectionId entropy)) img
        mem [⟨s.nextLsn, .createCollection s.nextCollectionId name (encoding.descriptor.encode descriptor)⟩]
        s.nextCollectionId operation ∧
      ∀ io, s.createCollection encoding d name descriptor entropy io =
        { operation io with effects := ring.provisionCollection d s.nextCollectionId entropy ++
            (operation io).effects } := by
  obtain rfl := running.keyring
  have unnamed : mem.names[name]? = none := by
    rw [← running.name_eq]
    refine ExtTreeMap.getElem?_eq_none fun present => ?_
    simp only [Store.checkCreate, present, if_true] at checked
    contradiction
  obtain ⟨⟨codec, hasCodec⟩, settled⟩ := hasKey_provisioned s.keyring keyFiles s.nextCollectionId entropy
  simp only [Store.createCollection, valid, checked]
  refine ⟨_, issues_one (c := s.nextCollectionId + 1) ?_ ?_ (Nat.le_refl _) ?_, fun _ => rfl⟩
  · exact ⟨running.nextCollection, ⟨descriptor, by simp⟩, unnamed⟩
  · rintro k rfl
    exact ⟨⟨codec, hasCodec⟩, settled⟩
  · intro w cat applied
    simp only [Catalog.applyWalEntry, Encoding.decodeDescriptor_encode, hasCodec, ok_bind] at applied
    cases applied
    simp only [hasCodec]
    rfl

end Quiver.Core
