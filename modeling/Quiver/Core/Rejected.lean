import Quiver.Base.Run
import Quiver.Core.Faults

/-!
Calls that are rejected, with an error that is not one of the file system. They leave no trace, as
long as no record of a batch is rejected behind one that was appended; but a replicated create is
logged before its descriptor is read, and if that fails, it fails at every later open as well.
-/

namespace Quiver.Core

open FileSystem FramedLog
open Std (ExtTreeMap)

variable (encoding : Encoding)

/-- Log an operation under the next log sequence number and apply it. -/
def Store.applyLogged (s : Store) (d : DataDir) (op : WalOp) (io : WalIo) : Outcome Unit :=
  s.logged encoding [⟨s.nextLsn, op⟩] io fun s =>
    { s with nextLsn := s.nextLsn + 1 }.install (s.catalog.applyWalEntry encoding s.keyring d op) ()

/-- Apply an operation of another store. A create keeps the leader's id, and the allocator ahead of it. -/
def Store.applyReplicated (s : Store) (d : DataDir) (op : WalOp) (entropy : Key) (io : WalIo) :
    Outcome Unit :=
  match op with
  | .checkpoint .. => .answered s ()
  | .createCollection k _ _ =>
    let provisioned := s.keyring.provisionCollection d k entropy
    let out := { s with nextCollectionId := max s.nextCollectionId (k + 1) }.applyLogged encoding
      (applyAll d provisioned) op io
    { out with effects := provisioned ++ out.effects }
  | op => s.applyLogged encoding d op io

/-- A request, or an operation that a leader's store has logged. -/
inductive Call where
  | request (asked : Request)
  | applyReplicated (op : WalOp) (entropy : Key)

def Store.call (s : Store) (d : DataDir) (io : WalIo) : Call → Outcome Unit
  | .request asked => s.serve encoding d io asked
  | .applyReplicated op entropy => s.applyReplicated encoding d op entropy io

def Call.ops (s : Store) : Call → List WalOp
  | .request asked => asked.ops encoding s
  | .applyReplicated (.checkpoint ..) _ => []
  | .applyReplicated op _ => [op]

/-- Rejected: the error is not one of the file system. -/
def Outcome.rejected (out : Outcome α) : Bool :=
  match out.result with
  | .ok _ | .error .io => false
  | .error _ => true

/-- Make a call. One that is rejected does not count among the answers. -/
def Session.call (t : Session) (call : Call) (io : WalIo) : Session :=
  let out := t.store.call encoding t.dir io call
  ⟨out.store, applyAll t.dir out.effects,
    if out.rejected then t.answers else t.answers ++ [⟨call.ops encoding t.store, out.result.isOk⟩]⟩

def Session.Step (t : Session) (event : Call × WalIo) (t' : Session) : Prop :=
  t' = t.call encoding event.1 event.2

/-- What is wrong with the call, if anything, shows before a record of it is appended. -/
def Call.Whole (s : Store) : Call → Prop
  | .request asked => asked.Whole encoding s
  | .applyReplicated (.createCollection _ _ bytes) _ =>
    ∃ descriptor, encoding.decodeDescriptor bytes = some descriptor
  | .applyReplicated .. => True

/-- The operation is one that a leader with the same collections may log. -/
def WalOp.Admitted (s : Store) : WalOp → Prop
  | .createCollection k name bytes => s.nextCollectionId ≤ k ∧
      (∃ descriptor, encoding.decodeDescriptor bytes = some descriptor) ∧ s.catalog.nameIndex[name]? = none
  | .dropCollection k | .delete k _ => k ∈ s.catalog.collections
  | .upsert k _ vector _ => ∃ c, s.catalog.collections[k]? = some c ∧ vector.length = c.stride
  | .checkpoint .. => True

/-- A rejected call is one whose defects show in time. Every other call meets no partial write,
and no failed sync unless it writes points only; if it is replicated, it is admitted. -/
def Orderly (t : Session) (event : Call × WalIo) : Prop :=
  if (t.store.call encoding t.dir event.2 event.1).rejected then event.1.Whole encoding t.store
  else event.2.Clean ∧
    (event.2.syncFails = true → ∀ op ∈ event.1.ops encoding t.store, op.Writes) ∧
    match event.1 with
    | .request _ => True
    | .applyReplicated op _ => op.Admitted encoding t.store

variable {encoding} {ring : KeyRing} {s : Store} {d : DataDir} {img : Image} {mem : Logical}
  {entries : List WalEntry} {io : WalIo} {op : WalOp}

theorem Outcome.rejected_iff {out : Outcome α} :
    out.rejected = true ↔ ∃ error, out.result = .error error ∧ error ≠ .io := by
  unfold Outcome.rejected
  split
  case h_1 ok => simp [ok]
  case h_2 failed => simp [failed]
  case h_3 error notIo failed =>
    simp only [failed, Except.error.injEq, exists_eq_left', true_iff]
    exact notIo

/-- A log that rejects a record, with none appended before it, is left as it was. -/
theorem WalWriter.commit_rejected {w : WalWriter} (some : entries ≠ [])
    (whole : Running.AllOrNone encoding w entries) {error : CoreError}
    (failed : (w.commit encoding entries io).result = .error error) (notIo : error ≠ .io) :
    (w.commit encoding entries io).effects = [] ∧ (w.commit encoding entries io).writer = w := by
  cases WalWriter.commit_spec encoding w io some with
  | synced effects writer result fit =>
    rw [result] at failed
    contradiction
  | tooLarge done bad rest message split effects writer result fit overCap =>
    obtain rfl := (split ▸ whole).nothing_done fit overCap
    rw [effects, writer, past_nil]
    exact ⟨rfl, rfl⟩
  | unsynced _ _ result | failed _ _ _ _ _ _ _ result =>
    rw [result] at failed
    cases failed
    contradiction

/-- The operation moved at most the counters, and provisioned at most a key. -/
structure Outcome.Untouched (s : Store) (d : DataDir) (out : Outcome α) : Prop where
  store : ∃ n c, s.nextLsn ≤ n ∧ s.nextCollectionId ≤ c ∧
    out.store = { s with nextLsn := n, nextCollectionId := c }
  effects : out.effects = [] ∨ ∃ k entropy, out.effects = s.keyring.provisionCollection d k entropy

variable {n : Nat}

theorem logged_rejected {next : Store → Store × Except CoreError α} (some : entries ≠ [])
    (whole : Running.AllOrNone encoding s.wal entries)
    (succeeds : ∀ w, ∃ s' a, next { s with nextLsn := n, wal := w } = (s', .ok a))
    (rejected : ({ s with nextLsn := n }.logged encoding entries io next).rejected = true) :
    ({ s with nextLsn := n }.logged encoding entries io next).effects = [] ∧
      ({ s with nextLsn := n }.logged encoding entries io next).store = { s with nextLsn := n } := by
  obtain ⟨error, failed, notIo⟩ := Outcome.rejected_iff.mp rejected
  simp only [Store.logged] at failed ⊢
  cases committed : (s.wal.commit encoding entries io).result with
  | error error' =>
    simp only [committed] at failed
    cases failed
    obtain ⟨effects, writer⟩ := WalWriter.commit_rejected some whole committed notIo
    simp only [effects, writer, and_self]
  | ok done =>
    obtain ⟨s', a, isNext⟩ := succeeds (s.wal.commit encoding entries io).writer
    simp only [committed, isNext] at failed
    contradiction

theorem Handled.untouched {ops : List WalOp} {whole : Prop} {operation : WalIo → Outcome Unit}
    (handled : Handled encoding ring s d img mem ops whole operation)
    (running : Running encoding ring { s with nextLsn := n } d img mem) (isWhole : whole)
    (rejected : (operation io).rejected = true) : (operation io).Untouched s d := by
  have faulty : Faulty encoding ring { s with nextLsn := n } d img mem := running.faulty
  cases handled with
  | refused error is =>
    rw [is io]
    exact ⟨⟨_, _, Nat.le_refl _, Nat.le_refl _, rfl⟩, .inl rfl⟩
  | answered nothing is =>
    rw [is io] at rejected
    contradiction
  | issued entries issue first c above provisions issues logs allOrNone is =>
    obtain ⟨⟨_, _, allocated⟩, _⟩ := faulty.provisioned provisions above
    obtain ⟨n₀, n', c', next, logs, isLogged⟩ := issues
    obtain ⟨cat, replayed, _⟩ := allocated.replay logs.valid logs.keys
    rw [is io] at rejected ⊢
    change (issue io).rejected = true at rejected
    rw [isLogged io] at rejected ⊢
    obtain ⟨effects, store⟩ := logged_rejected (s := { s with nextCollectionId := c }) logs.some
      (allOrNone isWhole) (fun w => ⟨_, _, logs.applies w cat replayed⟩) rejected
    refine ⟨⟨n₀, c, logs.numbered.1, above, store⟩, ?_⟩
    simp only [effects, List.append_nil]
    exact provisions.imp_right fun ⟨k, entropy, _, isFirst⟩ => ⟨k, entropy, isFirst⟩

theorem Running.applies (running : Running encoding ring s d img mem) (op : WalOp) (d' : DataDir)
    (readable : ∀ k name bytes, op = .createCollection k name bytes →
      (∃ descriptor, encoding.decodeDescriptor bytes = some descriptor) ∧
        ∃ codec, ring.collectionCodec d' k = .ok codec) :
    ∃ cat, s.catalog.applyWalEntry encoding ring d' op = .ok cat := by
  have applied (applicable : Catalog.Applicable encoding ring d' mem op) :
      ∃ cat, s.catalog.applyWalEntry encoding ring d' op = .ok cat := by
    obtain ⟨cat, applied, _⟩ := running.represents.applyWalEntry applicable
    exact ⟨cat, applied⟩
  cases op with
  | createCollection k name bytes => exact applied (readable k name bytes rfl)
  | upsert k id vector payload =>
    cases found : s.catalog.collections[k]? with
    | none => exact ⟨s.catalog, by simp only [Catalog.applyWalEntry, Catalog.update, found]⟩
    | some c =>
      obtain ⟨e, _, stands⟩ := running.represents.some_left found
      obtain ⟨loc, located, _⟩ := stands.points.locate id
      simp only [Catalog.applyWalEntry, Catalog.update, found, CollectionState.applyUpsert, located]
      exact ⟨_, rfl⟩
  | _ => exact applied trivial

theorem applyLogged_rejected (applies : ∃ cat, s.catalog.applyWalEntry encoding s.keyring d op = .ok cat)
    (rejected : (s.applyLogged encoding d op io).rejected = true) :
    (s.applyLogged encoding d op io).effects = [] ∧ (s.applyLogged encoding d op io).store = s := by
  obtain ⟨cat, applied⟩ := applies
  refine logged_rejected (by simp) (.one _ _) (fun w => ?_) rejected
  simp only [applied]
  exact ⟨_, _, rfl⟩

theorem Running.applyReplicated_rejected {entropy : Key}
    (running : Running encoding ring { s with nextLsn := n } d img mem) (keyFiles : KeyFiles d)
    (whole : Call.Whole encoding s (.applyReplicated op entropy))
    (rejected : (s.applyReplicated encoding d op entropy io).rejected = true) :
    (s.applyReplicated encoding d op entropy io).Untouched s d := by
  obtain rfl : s.keyring = ring := running.keyring
  have logged : (∃ cat, s.catalog.applyWalEntry encoding s.keyring d op = .ok cat) →
      (s.applyLogged encoding d op io).rejected = true → (s.applyLogged encoding d op io).Untouched s d := by
    intro applies rejected
    obtain ⟨effects, store⟩ := applyLogged_rejected applies rejected
    exact ⟨⟨_, _, Nat.le_refl _, Nat.le_refl _, store⟩, .inl effects⟩
  cases op with
  | createCollection k name bytes =>
    have applies := running.applies (.createCollection k name bytes)
      (applyAll d (s.keyring.provisionCollection d k entropy)) fun _ _ _ same => by
        cases same
        exact ⟨whole, (hasKey_provisioned s.keyring keyFiles k entropy).1⟩
    obtain ⟨effects, store⟩ := applyLogged_rejected
      (s := { s with nextCollectionId := max s.nextCollectionId (k + 1) }) applies rejected
    refine ⟨⟨_, _, Nat.le_refl _, Nat.le_max_left _ _, store⟩, .inr ⟨k, entropy, ?_⟩⟩
    simp only [Store.applyReplicated, effects, List.append_nil]
  | dropCollection | upsert | delete => exact logged (running.applies _ d (by simp)) rejected
  | checkpoint lsn version => contradiction

theorem Faulty.rejected (faulty : Faulty encoding ring s d img mem) (keyFiles : KeyFiles d) {call : Call}
    (whole : call.Whole encoding s) (rejected : (s.call encoding d io call).rejected = true) :
    (s.call encoding d io call).Untouched s d := by
  obtain ⟨⟨n, _, running⟩, _⟩ := faulty
  cases call with
  | request asked => exact (running.handles keyFiles asked).untouched running whole rejected
  | applyReplicated op entropy => exact running.applyReplicated_rejected keyFiles whole rejected

theorem Running.provision_needed (running : Running encoding ring s d img mem) {k : CollectionId}
    (needed : img.Needed (.dek k)) (entropy : Key) : ring.provisionCollection d k entropy = [] := by
  have hasCodec : ∃ codec, ring.collectionCodec d k = .ok codec := by
    obtain ⟨entry, member, rfl⟩ | created := needed
    · obtain ⟨c, _, loaded⟩ := loadCatalog_entry running.sound.distinct running.on.loads member
      exact ⟨_, loaded.codec⟩
    · exact running.on.keys k created
  obtain ⟨codec, isCodec⟩ := hasCodec
  cases ring with
  | single key => rfl
  | envelope =>
    have present : Path.dek k ∈ d := by
      by_contra absent
      simp only [KeyRing.collectionCodec, ExtTreeMap.getElem?_eq_none absent] at isCodec
      contradiction
    simp only [KeyRing.provisionCollection, present, if_true]

theorem Running.provisioned (running : Running encoding ring s d img mem) (k : CollectionId) (entropy : Key) :
    Running encoding ring s (applyAll d (ring.provisionCollection d k entropy)) img mem := by
  by_cases needed : img.Needed (.dek k)
  · rw [running.provision_needed needed]
    exact running
  · rw [← List.take_length (l := ring.provisionCollection d k entropy)]
    exact running.provision_unneeded needed entropy _

theorem Faulty.untouched (faulty : Faulty encoding ring s d img mem) {out : Outcome α}
    (untouched : out.Untouched s d) : Faulty encoding ring out.store (applyAll d out.effects) img mem := by
  obtain ⟨⟨v, le, running⟩, floor⟩ := faulty
  obtain ⟨⟨n, c, later, above, isStore⟩, effects⟩ := untouched
  have sameDir : Running encoding ring { s with nextLsn := v } (applyAll d out.effects) img mem := by
    obtain none | ⟨k, entropy, some⟩ := effects
    · rw [none]
      exact running
    · obtain rfl : s.keyring = ring := running.keyring
      rw [some]
      exact running.provisioned k entropy
  rw [isStore]
  refine ⟨⟨max v n, Nat.le_max_right _ _, ?_⟩, Nat.lt_of_lt_of_le floor later⟩
  exact { sameDir with
    nextLsn := Nat.lt_of_lt_of_le sameDir.nextLsn (Nat.le_max_left _ _)
    lsns := fun file member e inside => Nat.lt_of_lt_of_le (sameDir.lsns file member e inside) (Nat.le_max_left _ _)
    nextCollection := Nat.le_trans sameDir.nextCollection above }

theorem Running.legal (running : Running encoding ring { s with nextLsn := n } d img mem)
    (admitted : op.Admitted encoding s) (isLogged : ∀ lsn version, op ≠ .checkpoint lsn version) :
    mem.Legal encoding img.nextId op := by
  have held : ∀ {k}, k ∈ s.catalog.collections → ∃ e, mem.collections[k]? = some e := by
    intro k present
    obtain ⟨e, held, _⟩ := running.represents.some_left (ExtTreeMap.getElem?_eq_some_getElem present)
    exact ⟨e, held⟩
  cases op with
  | createCollection k name bytes =>
    obtain ⟨above, readable, unnamed⟩ := admitted
    exact ⟨Nat.le_trans running.nextCollection above, readable, (running.name_eq name).symm.trans unnamed⟩
  | dropCollection | delete => exact held admitted
  | upsert k id vector payload =>
    obtain ⟨c, found, stride⟩ := admitted
    obtain ⟨e, here, stands⟩ := running.represents.some_left found
    refine ⟨e, here, ?_⟩
    rw [stride, CollectionState.stride, stands.descriptor]
  | checkpoint lsn version => exact absurd rfl (isLogged lsn version)

theorem Running.handles_replicated (running : Running encoding ring { s with nextLsn := n } d img mem)
    (keyFiles : KeyFiles d) (admitted : op.Admitted encoding s) (entropy : Key) :
    Handled encoding ring s d img mem (Call.ops encoding s (.applyReplicated op entropy)) True
      fun io => s.applyReplicated encoding d op entropy io := by
  obtain rfl : s.keyring = ring := running.keyring
  have logged : mem.Legal encoding img.nextId op → (∀ k, ¬ op.Creates k) → op.nextId img.nextId = img.nextId →
      Handled encoding s.keyring s d img mem [op] True fun io => s.applyLogged encoding d op io := by
    intro legal creates sameNext
    refine (issues_one (c := s.nextCollectionId) legal (fun k isCreated => absurd isCreated (creates k)) ?_
      fun w cat applied => ?_).handled rfl fun _ => .one _ _
    · rw [sameNext]
      exact running.nextCollection
    · simp only [applied]
      rfl
  cases op with
  | createCollection k name bytes =>
    have legal := running.legal admitted (by simp)
    refine .issued [⟨s.nextLsn, .createCollection k name bytes⟩] _ _ (max s.nextCollectionId (k + 1))
      (Nat.le_max_left _ _) (.inr ⟨k, entropy, admitted.1, rfl⟩)
      (issues_one (c := max s.nextCollectionId (k + 1)) legal ?_ (Nat.le_max_right _ _) fun w cat applied => ?_)
      rfl (fun _ => .one _ _) fun io => rfl
    · rintro _ rfl
      exact hasKey_provisioned s.keyring keyFiles k entropy
    · simp only [applied]
      rfl
  | dropCollection | upsert | delete => exact logged (running.legal admitted (by simp)) (fun _ => id) rfl
  | checkpoint lsn version => exact .answered rfl fun _ => rfl

theorem applyLogged_touches (s : Store) (d : DataDir) (op : WalOp) (io : WalIo) :
    ∀ e ∈ (s.applyLogged encoding d op io).effects, ∀ p : Path, e.Touches p → p = .wal s.wal.seq :=
  logged_touches (n := s.nextLsn) encoding (List.cons_ne_nil (WalEntry.mk s.nextLsn op) [])

variable (encoding) in
theorem LogsOnly.call (s : Store) (d : DataDir) (io : WalIo) (call : Call) :
    LogsOnly s d (s.call encoding d io call).effects := by
  have logged : ∀ op, LogsOnly s d (s.applyLogged encoding d op io).effects :=
    fun op => ⟨[], _, rfl, .inl rfl, applyLogged_touches s d op io⟩
  cases call with
  | request asked => exact .serve encoding s d io asked
  | applyReplicated op entropy =>
    cases op with
    | createCollection k name bytes => exact ⟨_, _, rfl, .inr ⟨k, entropy, rfl⟩, applyLogged_touches _ _ _ io⟩
    | dropCollection | upsert | delete => exact logged _
    | checkpoint lsn version => exact .nil s d

namespace Session.Over

variable {t : Session}

theorem untouched (held : t.Over encoding ring img) {out : Outcome Unit} (untouched : out.Untouched t.store t.dir)
    (logs : LogsOnly t.store t.dir out.effects) :
    Session.Over encoding ring img ⟨out.store, applyAll t.dir out.effects, t.answers⟩ := by
  obtain ⟨⟨img', mem, since, faulty, log⟩, keyFiles, owned⟩ := held
  exact ⟨⟨img', mem, since, faulty.untouched untouched, log⟩, keyFiles.logsOnly logs, owned.logsOnly logs⟩

theorem call {event : Call × WalIo} (held : t.Over encoding ring img) (orderly : Orderly encoding t event) :
    (t.call encoding event.1 event.2).Over encoding ring img := by
  obtain ⟨call, io⟩ := event
  have logs := LogsOnly.call encoding t.store t.dir io call
  unfold Orderly at orderly
  unfold Session.call
  split at orderly
  case isTrue rejected =>
    obtain ⟨_, _, _, faulty, _⟩ := held.faulty
    simp only [rejected, if_true]
    exact held.untouched (faulty.rejected held.keyFiles orderly rejected) logs
  case isFalse accepted =>
    obtain ⟨clean, syncs, admitted⟩ := orderly
    simp only [accepted, Bool.false_eq_true, if_false]
    refine held.answer (fun faulty => ?_) logs
    obtain ⟨n, _, running⟩ := faulty.running
    cases call with
    | request asked => exact (running.handles held.keyFiles asked).faulted faulty clean syncs
    | applyReplicated op entropy =>
      exact (running.handles_replicated held.keyFiles admitted entropy).faulted faulty clean syncs

end Session.Over

/-- Wherever an orderly run stands, a call whose defects show in time and that is rejected leaves
the catalog as it was; and however the store is closed, it opens with what the calls that were not
rejected leave. -/
theorem rejected_calls_leave_no_trace (on : img.On encoding ring d) (sound : img.Sound encoding)
    (rest : ∀ file ∈ img.files, file.unsynced = []) (safe : img.KeySafe ring d) (keyFiles : KeyFiles d)
    {d₀ : DataDir} (opened : (openWithKeyring encoding ring).run d = (d₀, .ok s))
    {events : List (Call × WalIo)} {t : Session}
    (reached : Run.Reaches (Run.Guarded (Orderly encoding) (Session.Step encoding)) ⟨s, d₀, []⟩ events t) :
    (∀ call io, call.Whole encoding t.store → (t.store.call encoding t.dir io call).rejected = true →
      (t.store.call encoding t.dir io call).store.catalog = t.store.catalog) ∧
    ∀ d', Crashed t.dir d' → ∃ l parts s' d'', s.catalog.Represents l ∧
      List.Forall₂ Answered.Leaves t.answers parts ∧
      (openWithKeyring encoding ring).run d' = (d'', .ok s') ∧
      s'.catalog.Represents (l.applyAll encoding parts.flatten) := by
  obtain ⟨represents, img', since, tail, started⟩ := on.session sound rest safe keyFiles opened
  have held : t.Over encoding ring img' := by
    refine reached.invariant (fun _ t => t.Over encoding ring img') started ?_
    rintro _ t event _ held ⟨orderly, rfl⟩
    exact held.call orderly
  refine ⟨fun call io whole rejected => ?_, fun d' crashed => ?_⟩
  · obtain ⟨_, _, _, faulty, _⟩ := held.faulty
    obtain ⟨⟨_, _, _, _, isStore⟩, _⟩ := faulty.rejected held.keyFiles whole rejected
    rw [isStore]
  · obtain ⟨parts, s', d'', leaves, reopened, after⟩ := held.reopen crashed
    have sameStart : img'.start = img.start := by rw [since]
    rw [tail, sameStart, Logical.applyAll_append] at after
    exact ⟨_, parts, s', d'', represents, leaves, reopened, after⟩

def createOnce : Call := .request (.createCollection "c" { dim := 1, metric := .l2 } default)

/-- A collection is created twice: the second call is rejected, and only the first one counts. -/
theorem rejected_calls_leave_no_trace_twice : ∃ s d₀ t l parts s' d'',
    (openWithKeyring .plain (.single default)).run ∅ = (d₀, .ok s) ∧
      t = ((Session.mk s d₀ []).call .plain createOnce .ok).call .plain createOnce .ok ∧
      t.answers.map (·.acknowledged) = [true] ∧ s.catalog.Represents l ∧
      List.Forall₂ Answered.Leaves t.answers parts ∧
      (openWithKeyring .plain (.single default)).run (closed t.dir) = (d'', .ok s') ∧
      s'.catalog.Represents (l.applyAll .plain parts.flatten) := by
  have on := Image.initial_on .plain (.single default)
  have sound := Image.initial_sound .plain
  obtain ⟨rest, safe, keyFiles⟩ := Image.initial_opens (.single default)
  have orderly : ∀ t, Orderly .plain t (createOnce, .ok) := by
    intro t
    unfold Orderly
    split
    · trivial
    · exact ⟨by simp [WalIo.Clean, WalIo.ok], by simp [WalIo.ok], trivial⟩
  have counted : ((openWithKeyring .plain (.single default)).run ∅).2.toOption.map (fun s =>
      (((Session.mk s ((openWithKeyring .plain (.single default)).run ∅).1 []).call .plain createOnce .ok).call
        .plain createOnce .ok).answers.map (·.acknowledged)) = some [true] := by
    decide +kernel
  obtain ⟨_, s, opened, _⟩ := openWithKeyring_spec on sound rest safe
  have isOpen : (openWithKeyring .plain (.single default)).run ∅ =
      (applyAll ∅ (openWithKeyring .plain (.single default) ∅).1, .ok s) := by
    rw [Prog.run, opened]
  rw [isOpen] at counted
  obtain ⟨_, reopens⟩ := rejected_calls_leave_no_trace on sound rest safe keyFiles isOpen
    ((Run.Reaches.refl.next ⟨orderly _, rfl⟩).next ⟨orderly _, rfl⟩)
  obtain ⟨l, parts, s', d'', held⟩ := reopens _ (crashed_closed _)
  exact ⟨s, _, _, l, parts, s', d'', isOpen, rfl, Option.some.inj counted, held⟩

/-- Open a directory, make a call, close the store and open it again. -/
def calledAndReopened (encoding : Encoding) (ring : KeyRing) (d : DataDir) (call : Call) :
    Except CoreError (Outcome Unit × Except CoreError Store) := do
  let (d₀, opened) := (openWithKeyring encoding ring).run d
  let out := (← opened).call encoding d₀ .ok call
  return (out, ((openWithKeyring encoding ring).run (closed (applyAll d₀ out.effects))).2)

/-- A replicated create whose descriptor cannot be read is rejected, and the store cannot be
opened again. -/
theorem unreadable_create_prevents_open :
    (calledAndReopened .plain (.single default) ∅
        (.applyReplicated (.createCollection 0 "c" []) default)).toOption.map
      (fun (out, reopened) => (out.rejected, reopened.isOk)) = some (true, false) := by
  decide +kernel

end Quiver.Core
