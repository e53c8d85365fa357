import Quiver.Core.Checkpointed
import Quiver.Core.Rejected

/-!
Runs of a store that may be closed, or lose power, between operations: requests, checkpoints,
compactions and the shredding of collections, which leaves no file, key or log record of a
collection, and all the others.
-/

namespace Quiver.Core

open FileSystem FramedLog Prog
open Std (ExtTreeMap)

variable (encoding : Encoding) (ring : KeyRing)

def Outcome.perform (out : Outcome α) : Io (Store × α) :=
  fun _ => (out.effects, out.result.map (out.store, ·))

/-- Drop a collection, checkpoint so that nothing refers to it, and destroy its key. The result tells
whether it existed. -/
def Store.shredCollection (s : Store) (name : String) : Io (Store × Bool) :=
  match s.collectionId name with
  | none => return (s, false)
  | some id => do
    let dropped ← (s.dropCollection encoding name .ok).perform
    let s ← dropped.1.checkpointWithIndexSnapshots encoding ∅
    Prog.performAll (s.keyring.shredCollection id)
    return (s, true)

/-- An open store and its directory. -/
structure Opened where
  store : Store
  dir : DataDir

def Opened.serve (t : Opened) (asked : Request) : Opened :=
  ⟨(t.store.serve encoding t.dir .ok asked).store,
    applyAll t.dir (t.store.serve encoding t.dir .ok asked).effects⟩

inductive Command where
  | request (asked : Request)
  | checkpoint (snapshots : ExtTreeMap CollectionId Bytes)
  | compact
  | shred (name : String)
  | reopen

def Command.ops (s : Store) : Command → List WalOp
  | .request asked => asked.ops encoding s
  | _ => []

/-- A command that comes to its end. A request may be rejected, and what was not synced may be lost
before the store is reopened. -/
inductive Opened.Step : Opened → Command → Opened → Prop
  | request {t} (asked : Request) : Step t (.request asked) (t.serve encoding asked)
  | checkpoint {s s' d d'} (snapshots : ExtTreeMap CollectionId Bytes)
      (ran : (s.checkpointWithIndexSnapshots encoding snapshots).run d = (d', .ok s')) :
      Step ⟨s, d⟩ (.checkpoint snapshots) ⟨s', d'⟩
  | compact {s s' d d'} (ran : (s.compact encoding).run d = (d', .ok s')) : Step ⟨s, d⟩ .compact ⟨s', d'⟩
  | shred {s s' d d'} (name : String) (existed : Bool)
      (ran : (s.shredCollection encoding name).run d = (d', .ok (s', existed))) :
      Step ⟨s, d⟩ (.shred name) ⟨s', d'⟩
  | reopen {s s' d d' mid} (crashed : Crashed d mid) (ran : (openWithKeyring encoding ring).run mid = (d', .ok s')) :
      Step ⟨s, d⟩ .reopen ⟨s', d'⟩

/-- With nothing behind the checkpoint, memory is what was checkpointed. -/
def Image.Settled (img : Image) (mem : Logical) : Prop := img.tail = [] → img.pending = [] → img.start = mem

/-- What holds of a store between two commands. -/
structure Standing (s : Store) (d : DataDir) (img : Image) (mem : Logical) : Prop where
  running : Running encoding ring s d img mem
  owned : img.Owned ring d
  keyFiles : KeyFiles d
  settled : img.Settled mem

variable {encoding} {ring} {s s' : Store} {d d' : DataDir} {img img' : Image} {mem : Logical}

section Written

variable (W : CollectionId → String → List F32 → Prop)

/-- All vectors are among these. -/
structure Logical.Only (l : Logical) : Prop where
  written : ∀ {k : CollectionId} {e : LogicalCollection} {id : String} {r : Record},
    l.collections[k]? = some e → e.points[id]? = some r → W k id r.vector

def WalOp.Only : WalOp → Prop
  | .upsert k id vector _ => W k id (leBytesToF32 vector)
  | _ => True

/-- In the checkpoint, in the log and in memory. -/
structure Image.Only (img : Image) (mem : Logical) : Prop where
  start : img.start.Only W
  logged : ∀ op ∈ img.tail ++ img.pending, op.Only W
  memory : mem.Only W

variable {W}

theorem Logical.Only.apply {l : Logical} (only : l.Only W) {op : WalOp} (among : op.Only W) :
    (l.apply encoding op).Only W := by
  refine ⟨fun found held => ?_⟩
  obtain ⟨_, _, _, empty⟩ | ⟨c', before, _, _, points⟩ := of_apply found
  · simp [empty] at held
  · obtain old | ⟨vector, payload, rfl, rfl⟩ := points held
    · exact only.written before old
    · exact among

theorem Logical.Only.applyAll {l : Logical} (only : l.Only W) {ops : List WalOp} (among : ∀ op ∈ ops, op.Only W) :
    (l.applyAll encoding ops).Only W := by
  induction ops generalizing l with
  | nil => exact only
  | cons op ops ih =>
    obtain ⟨here, later⟩ := List.forall_mem_cons.mp among
    exact ih (only.apply here) later

end Written

theorem Maintained.keyFiles (maintained : Maintained encoding ring d mem img' s' d') (keyFiles : KeyFiles d) :
    KeyFiles d' := by
  intro k f found
  have present : Path.dek k ∈ d' := Maps.mem_of_get found
  exact keyFiles k f ((maintained.keys k present).symm.trans found)

theorem Image.nothing_logged {seq : Nat} (files : img.files = [.new seq]) : img.tail = [] ∧ img.pending = [] := by
  simp [Image.tail, Image.pending, Image.live, files, LoggedFile.new]

namespace Standing

section

variable (standing : Standing encoding ring s d img mem)
include standing

theorem owned_logged (since : img.Since img') {ops : List WalOp}
    (valid : mem.Valid encoding img.nextId ops)
    (created : ∀ k, Created (img'.tail ++ img'.pending) k → Created (img.tail ++ img.pending) k ∨ Created ops k)
    {effects : List (Effect Path Chunk)} (logs : LogsOnly s d effects) : img'.Owned ring (applyAll d effects) := by
  intro p present k under
  have before : p ∈ d := (mem_congr (logs.under under)).mp present
  obtain ⟨live, unrecorded⟩ := standing.owned p before k under
  have sameManifest : img'.mfst = img.mfst := by rw [since]
  refine ⟨sameManifest ▸ live, unrecorded.imp_right fun fresh isCreated => ?_⟩
  obtain old | new := created k isCreated
  · exact fresh old
  · have below := standing.running.sound.key_below standing.running.on (.inl (Manifest.isLive_iff.mp live))
    exact absurd (valid.created new) (Nat.not_le.mpr below)

/-- An operation that logs records keeps the store standing, and writes what it logs. -/
theorem handled {ops : List WalOp} {whole : Prop} {operation : WalIo → Outcome Unit}
    (handled : Handled encoding ring s d img mem ops whole operation) (logs : LogsOnly s d (operation .ok).effects) :
    ∃ img' mem', Standing encoding ring (operation .ok).store (applyAll d (operation .ok).effects) img' mem' ∧
      ∀ {W}, img.Only W mem → (∀ op ∈ ops, op.Only W) → img'.Only W mem' := by
  have running := standing.running
  have keyFiles := standing.keyFiles.logsOnly logs
  cases handled with
  | refused error is | answered nothing is =>
    rw [is .ok] at *
    exact ⟨img, mem, standing, fun only _ => only⟩
  | issued entries issue first c above provisions issues isOps allOrNone is =>
    subst isOps
    have allocated : Running encoding ring { s with nextCollectionId := c } (applyAll d first) img mem := by
      have moved : Running encoding ring { s with nextCollectionId := c } d img mem :=
        { running with nextCollection := Nat.le_trans running.nextCollection above }
      obtain rfl | ⟨k, entropy, _, rfl⟩ := provisions
      · exact moved
      · obtain rfl : s.keyring = ring := running.keyring
        exact moved.provisioned k entropy
    have served := issues.serves allocated
    obtain ⟨n₀, n, c', next, logged, _⟩ := issues
    rw [is .ok] at logs keyFiles ⊢
    simp only [applyAll_append] at keyFiles ⊢
    obtain ⟨_, img', since, tail, pending, after⟩ | ⟨left, error, isLeft, _, _, img', since, tail, pending, after⟩ :=
      served.final
    · refine ⟨img', _, ⟨after, ?_, keyFiles, fun noTail noPending => ?_⟩, fun only among => ⟨?_, ?_, ?_⟩⟩
      · have owned := standing.owned_logged since logged.valid (fun k => ?_) logs
        · simpa only [applyAll_append] using owned
        · rw [tail, pending, List.append_nil, created_append]
          exact id
      · rw [tail, List.append_eq_nil_iff, List.append_eq_nil_iff] at noTail
        obtain ⟨⟨wasTail, wasPending⟩, noOps⟩ := noTail
        rw [noOps, since]
        exact standing.settled wasTail wasPending
      · rw [since]
        exact only.start
      · rw [tail, pending, List.append_nil, List.forall_mem_append]
        exact ⟨only.logged, among⟩
      · exact only.memory.applyAll among
    · refine ⟨img', mem, ⟨after, ?_, keyFiles, fun noTail noPending => ?_⟩, fun only among => ⟨?_, ?_, only.memory⟩⟩
      · have owned := standing.owned_logged since logged.valid (fun k => ?_) logs
        · simpa only [applyAll_append] using owned
        · rw [tail, pending, ← List.append_assoc, created_append]
          refine Or.imp_right ?_
          rintro ⟨op, member, creates⟩
          exact ⟨op, isLeft.subset member, creates⟩
      · rw [since]
        exact standing.settled (tail ▸ noTail) (List.append_eq_nil_iff.mp (pending ▸ noPending)).1
      · rw [since]
        exact only.start
      · rw [tail, pending, ← List.append_assoc, List.forall_mem_append]
        exact ⟨only.logged, fun op member => among op (isLeft.subset member)⟩

theorem maintained
    (maintained : Maintained encoding ring d mem img' s' d') (settled : img'.Settled mem) :
    Standing encoding ring s' d' img' mem :=
  ⟨maintained.running, maintained.owned, maintained.keyFiles standing.keyFiles, settled⟩

theorem checkpoint {snapshots : ExtTreeMap CollectionId Bytes}
    (ran : (s.checkpointWithIndexSnapshots encoding snapshots).run d = (d', .ok s')) :
    ∃ img', Standing encoding ring s' d' img' mem ∧ img'.tail = [] ∧ img'.pending = [] := by
  have running := standing.running
  by_cases early : s.nextLsn - 1 ≤ s.lastCheckpointedLsn
  · simp only [Store.checkpointWithIndexSnapshots, if_pos early] at ran
    cases ran
    have nothing : ∀ part : LoggedFile → List WalEntry, (∀ file, part file ⊆ file.synced ++ file.unsynced) →
        img.live (img.files.flatMap part) = [] := by
      intro part within
      simp only [Image.live, List.map_eq_nil_iff, List.filter_eq_nil_iff, List.mem_flatMap, decide_eq_true_eq]
      rintro e ⟨file, member, held⟩ above
      have below := running.lsns file member e (within file held)
      rw [← running.floor] at above
      exact absurd (Nat.le_trans (Nat.le_sub_one_of_lt below) early) (Nat.not_le.mpr above)
    exact ⟨img, standing, nothing _ fun _ => List.subset_append_left .., nothing _ fun _ => List.subset_append_right ..⟩
  · obtain ⟨img', _, start, files, maintained⟩ := (running.checkpoint snapshots early).of_run ran
    exact ⟨img', standing.maintained maintained fun _ _ => start, Image.nothing_logged files⟩

theorem compact
    (ran : (s.compact encoding).run d = (d', .ok s')) : ∃ img', Standing encoding ring s' d' img' mem ∧ img.Same img' := by
  obtain ⟨img', same, _, maintained⟩ := (standing.running.compact standing.owned).of_run ran
  refine ⟨img', standing.maintained maintained fun noTail noPending => ?_, same⟩
  exact same.start.trans (standing.settled (same.tail ▸ noTail) (same.pending ▸ noPending))

end

theorem opens (on : img.On encoding ring d) (sound : img.Sound encoding)
    (rest : ∀ file ∈ img.files, file.unsynced = []) (owned : img.Owned ring d) (keyFiles : KeyFiles d) :
    ∃ s' d' files, (openWithKeyring encoding ring).run d = (d', .ok s') ∧
      Standing encoding ring s' d' { img with files } (img.start.applyAll encoding img.tail) ∧
      Image.tail { img with files } = img.tail ∧ Image.pending { img with files } = [] := by
  have safe : img.KeySafe ring d := by
    intro k created
    by_cases listed : k ∈ collectionDirs d
    · obtain ⟨p, present, under⟩ := mem_collectionDirs.mp listed
      obtain ⟨_, unrecorded⟩ := owned p present k under
      exact .inr (.inl (unrecorded.resolve_right (not_not_intro created)))
    · exact .inr (.inr listed)
  obtain ⟨_, s', opened, files, running, tail, pending, _, kept⟩ := openWithKeyring_spec on sound rest safe
  refine ⟨s', _, files, Prod.ext rfl opened, ⟨running, fun p present k under => ?_, fun k f found => ?_,
    fun noTail _ => ?_⟩, tail, pending⟩
  · rw [tail, pending, ← Image.pending_eq_nil rest]
    refine owned p ((mem_congr (kept p present ?_)).mp present) k under
    rintro seq rfl
    contradiction
  · have present := Maps.mem_of_get found
    exact keyFiles k f ((kept _ present (by simp)).symm.trans found)
  · rw [← tail, noTail]
    rfl

/-- What was lost only wrote points, so the collections are those of memory. -/
theorem kept_sameCatalog (standing : Standing encoding ring s d img mem) {kept : List WalOp}
    (isKept : kept <+: img.pending) : SameCatalog (img.start.applyAll encoding (img.tail ++ kept)) mem := by
  obtain ⟨lost, isPending⟩ := isKept
  have before := standing.running.sameCatalog
  rw [← isPending, ← List.append_assoc, Logical.applyAll_append] at before
  refine ((SameCatalog.refl _).writes fun op member => standing.running.ghosts op ?_).trans before.symm
  exact isPending ▸ List.mem_append_right _ member

theorem reopens (standing : Standing encoding ring s d img mem) (crashed : Crashed d d') :
    ∃ kept s' d'' files, kept <+: img.pending ∧ (openWithKeyring encoding ring).run d' = (d'', .ok s') ∧
      Standing encoding ring s' d'' { img with files } (img.start.applyAll encoding (img.tail ++ kept)) ∧
      Image.tail { img with files } = img.tail ++ kept ∧ Image.pending { img with files } = [] := by
  have running := standing.running
  obtain ⟨files, kept, isKept, settled, tail, pending, on, sound⟩ := running.on.crashed running.sound crashed
  have ownedAfter : Image.Owned ring { img with files } d' := by
    intro p present k under
    obtain ⟨live, unrecorded⟩ := standing.owned p (crashed.mem_of_mem present) k under
    refine ⟨live, unrecorded.imp_right fun fresh => ?_⟩
    rw [tail, pending, List.append_nil, created_append]
    rintro (old | ⟨op, member, creates⟩)
    · exact fresh (created_append.mpr (.inl old))
    · exact fresh (created_append.mpr (.inr ⟨op, isKept.subset member, creates⟩))
  have keyFilesAfter : KeyFiles d' := by
    intro k f found
    have present := crashed.mem_of_mem (Maps.mem_of_get found)
    obtain ⟨key, isFile⟩ := standing.keyFiles k _ (ExtTreeMap.getElem?_eq_some_getElem present)
    have same := crashed.synced (ExtTreeMap.getElem?_eq_some_getElem present) (by rw [isFile])
    rw [found] at same
    exact ⟨key, (Option.some.inj same).trans isFile⟩
  obtain ⟨s', d'', files', opened, after, sameTail, nothing⟩ := opens on sound settled ownedAfter keyFilesAfter
  rw [tail] at after
  exact ⟨kept, s', d'', files', isKept, opened, after, sameTail.trans tail, nothing⟩

end Standing

variable (encoding ring) in
/-- What shredding a collection leaves: nothing of it in the directory, and the collections of `after`
in memory and in whatever is opened from the directory. -/
structure Shredded (k : CollectionId) (after : Logical) (s' : Store) (d' : DataDir) : Prop where
  log : ∀ seq, Path.wal seq ∈ d' → ∃ replay, readWal encoding d' seq = .ok replay ∧ replay.entries = []
  files : ∀ p ∈ d', p.collection? ≠ some k
  key : Path.dek k ∉ d'
  memory : s'.catalog.Represents after
  reopened : ∀ d'', Crashed d' d'' → ∃ s'' d₀, (openWithKeyring encoding ring).run d'' = (d₀, .ok s'') ∧
    s''.catalog.Represents after

variable {k : CollectionId}

theorem Image.Sound.live_of_start (sound : img.Sound encoding) (on : img.On encoding ring d) (tail : img.tail = [])
    (live : img.mfst.isLive k = true) : ∃ e, img.start.collections[k]? = some e := by
  obtain ⟨entry, member, rfl⟩ := Manifest.isLive_iff.mp live
  obtain ⟨c, found⟩ := loadCatalog_present on.loads member
  obtain ⟨e, loaded, _⟩ := sound.represents.some_left found
  obtain ⟨e, start, _⟩ := (sound.absorbs.collection entry.id (by simp [tail, Created])).held loaded
  exact ⟨e, start⟩

theorem Logical.dropped (l : Logical) (k : CollectionId) :
    (l.apply encoding (.dropCollection k)).collections = l.collections.erase k := by
  simp only [Logical.apply]
  split
  · rfl
  · rename_i absent
    exact (Maps.erase_absent absent).symm

theorem shredCollection_elsewhere (ring : KeyRing) (d : DataDir) {p : Path} (differ : p ≠ .dek k) :
    (applyAll d (ring.shredCollection k))[p]? = d[p]? := by
  cases ring with
  | single key => rfl
  | envelope =>
    refine applyAll_untouched (fun e member touches => ?_) d
    obtain rfl := List.mem_singleton.mp member
    exact differ touches

/-- The last step of shredding, behind a checkpoint that no longer has the collection. -/
theorem Standing.shredKey (standing : Standing encoding ring s d img mem) {seq : Nat}
    (start : img.start = mem) (files : img.files = [.new seq]) (absent : mem.collections[k]? = none) :
    Standing encoding ring s (applyAll d (ring.shredCollection k)) img mem ∧
      (∀ p ∈ applyAll d (ring.shredCollection k), p.collection? ≠ some k) ∧
      ∀ seq, Path.wal seq ∈ applyAll d (ring.shredCollection k) → ∃ replay,
        readWal encoding (applyAll d (ring.shredCollection k)) seq = .ok replay ∧ replay.entries = [] := by
  obtain ⟨running, owned, keyFiles, settled⟩ := standing
  obtain ⟨tail, pending⟩ := Image.nothing_logged files
  have gone : ¬ img.mfst.isLive k = true := by
    intro live
    obtain ⟨e, held⟩ := running.sound.live_of_start running.on tail live
    rw [start, absent] at held
    contradiction
  have unneeded : ¬ img.Needed (.dek k) := by
    rintro (listed | created)
    · exact gone (Manifest.isLive_iff.mpr listed)
    · simp [tail, pending, Created] at created
  have same : ∀ {p : Path}, p ≠ .dek k → (applyAll d (ring.shredCollection k))[p]? = d[p]? :=
    fun differ => shredCollection_elsewhere ring d differ
  have running' : Running encoding ring s (applyAll d (ring.shredCollection k)) img mem := by
    refine running.congr (fun p needed => same ?_) fun above => (same (by simp)).trans (running.fresh above)
    rintro rfl
    exact unneeded needed
  have before : ∀ {p : Path}, p.collection? ≠ none → p ∈ applyAll d (ring.shredCollection k) → p ∈ d := by
    intro p under present
    refine (mem_congr (same ?_)).mp present
    rintro rfl
    exact under rfl
  refine ⟨⟨running', fun p present j under => ?_, fun j f found => ?_, settled⟩, fun p present under => ?_, fun seq present => ?_⟩
  · exact owned p (before (by simp [under]) present) j under
  · by_cases here : j = k
    · subst here
      cases ring with
      | single key => exact keyFiles j f found
      | envelope => simp [KeyRing.shredCollection] at found
    · exact keyFiles j f ((same (by simpa using here)).symm.trans found)
  · exact gone (owned p (before (by simp [under]) present) k under).1
  · obtain ⟨file, member, rfl⟩ := (running'.on.listed seq).mp present
    have isOn := running'.on.logs file member
    rw [files, List.mem_singleton] at member
    subst member
    exact isOn.readWal

theorem Standing.shredCollection (standing : Standing encoding ring s d img mem) {name : String}
    (named : s.catalog.nameIndex[name]? = some k) {existed : Bool}
    (ran : (s.shredCollection encoding name).run d = (d', .ok (s', existed))) :
    (∃ img', Standing encoding ring s' d' img' (mem.apply encoding (.dropCollection k)) ∧
      img'.tail = [] ∧ img'.pending = []) ∧
      (ring = .envelope → Shredded encoding ring k (mem.apply encoding (.dropCollection k)) s' d') := by
  have running := standing.running
  have served := (running.dropCollection (n := s.nextLsn) ((running.name_eq name).symm.trans named)).serves running
  simp only [Store.shredCollection, Store.collectionId, named] at ran
  obtain ⟨result, img₁, since, tail, pending, running₁⟩ | ⟨_, error, _, _, result, _⟩ := served.final
  swap
  · -- A drop that cannot be logged is reported, and nothing else happens.
    have failed : ((s.dropCollection encoding name .ok).perform d).2 = .error error := by
      simp only [Outcome.perform, result]
      rfl
    have isError := congrArg Prod.snd ran
    rw [run, bind_error failed] at isError
    contradiction
  have numbered : (s.dropCollection encoding name .ok).store.nextLsn = s.nextLsn + 1 ∧
      (s.dropCollection encoding name .ok).store.lastCheckpointedLsn = s.lastCheckpointedLsn := by
    simp only [Store.dropCollection, named, Store.logged] at result ⊢
    split at result
    · contradiction
    · exact ⟨rfl, rfl⟩
  have news : ¬ (s.dropCollection encoding name .ok).store.nextLsn - 1 ≤
      (s.dropCollection encoding name .ok).store.lastCheckpointedLsn := by
    rw [numbered.1, numbered.2, Nat.add_sub_cancel]
    exact Nat.not_le.mpr running.nextLsn
  have keyFiles : KeyFiles (applyAll d (s.dropCollection encoding name .ok).effects) :=
    standing.keyFiles.logsOnly (LogsOnly.serve encoding s d .ok (.dropCollection name))
  have spec : (do
      let dropped ← (s.dropCollection encoding name .ok).perform
      let s ← dropped.1.checkpointWithIndexSnapshots encoding ∅
      performAll (s.keyring.shredCollection k)
      return (s, true) : Io (Store × Bool)).Spec d (fun _ => True) fun a d' =>
        ∃ img₂ seq d₂, img₂.start = mem.apply encoding (.dropCollection k) ∧ img₂.files = [.new seq] ∧
          Standing encoding ring a.1 d₂ img₂ (mem.apply encoding (.dropCollection k)) ∧
          d' = applyAll d₂ (ring.shredCollection k) := by
    refine spec_bind (fun a d₁ => a = ((s.dropCollection encoding name .ok).store, true) ∧
      d₁ = applyAll d (s.dropCollection encoding name .ok).effects) ⟨fun _ => trivial, _, ?_, rfl, rfl⟩ ?_
    · simp only [Outcome.perform, result]
      rfl
    rintro _ _ ⟨rfl, rfl⟩
    refine spec_bind _ ((running₁.checkpoint ∅ news).weakenCrash fun _ _ => trivial) ?_
    rintro s₂ d₂ ⟨img₂, seq, start, files, maintained⟩
    refine spec_performAll_bind (fun _ => trivial) (spec_pure trivial ?_)
    refine ⟨img₂, seq, d₂, start, files, ⟨maintained.running, maintained.owned, maintained.keyFiles keyFiles,
      fun _ _ => start⟩, ?_⟩
    rw [maintained.running.keyring]
  obtain ⟨img₂, seq, d₂, start, files, standing₂, rfl⟩ := spec.of_run ran
  obtain ⟨standing₃, noFiles, noRecords⟩ := standing₂.shredKey start files (by
    rw [Logical.dropped, ExtTreeMap.getElem?_erase_self])
  refine ⟨⟨img₂, standing₃, Image.nothing_logged files⟩, ?_⟩
  rintro rfl
  refine ⟨noRecords, noFiles, ?_, standing₃.running.represents, fun d'' crashed => ?_⟩
  · intro present
    have found := ExtTreeMap.getElem?_eq_some_getElem present
    simp [KeyRing.shredCollection] at found
  · obtain ⟨kept, s'', d₀, _, isKept, opened, after, _⟩ := standing₃.reopens crashed
    have none := Image.nothing_logged files
    rw [none.2, List.prefix_nil] at isKept
    rw [isKept, none.1, start] at after
    exact ⟨s'', d₀, opened, after.running.represents⟩

namespace Standing

theorem only_settled (standing : Standing encoding ring s d img mem) (tail : img.tail = []) (pending : img.pending = [])
    {W} (only : mem.Only W) : img.Only W mem := by
  refine ⟨?_, by simp [tail, pending], only⟩
  rw [standing.settled tail pending]
  exact only

theorem step {t t' : Opened} {command : Command} (standing : Standing encoding ring t.store t.dir img mem)
    (stepped : Opened.Step encoding ring t command t') :
    ∃ img' mem', Standing encoding ring t'.store t'.dir img' mem' ∧
      ∀ {W}, img.Only W mem → (∀ op ∈ command.ops encoding t.store, op.Only W) → img'.Only W mem' := by
  cases stepped with
  | request asked =>
    exact standing.handled (standing.running.handles (n := t.store.nextLsn) standing.keyFiles asked)
      (LogsOnly.serve encoding t.store t.dir .ok asked)
  | checkpoint snapshots ran =>
    obtain ⟨img', after, tail, pending⟩ := standing.checkpoint ran
    exact ⟨img', mem, after, fun only _ => after.only_settled tail pending only.memory⟩
  | compact ran =>
    obtain ⟨img', after, same⟩ := standing.compact ran
    refine ⟨img', mem, after, fun only _ => ⟨?_, ?_, only.memory⟩⟩
    · rw [same.start]
      exact only.start
    · rw [same.tail, same.pending]
      exact only.logged
  | @shred s s' d d' name existed ran =>
    cases named : s.catalog.nameIndex[name]? with
    | none =>
      simp only [Store.shredCollection, Store.collectionId, named] at ran
      cases ran
      exact ⟨img, mem, standing, fun only _ => only⟩
    | some k =>
      obtain ⟨⟨img', after, tail, pending⟩, _⟩ := standing.shredCollection named ran
      exact ⟨img', _, after, fun only _ => after.only_settled tail pending (only.memory.apply trivial)⟩
  | reopen crashed ran =>
    obtain ⟨kept, s'', d'', files, isKept, opened, after, tail, pending⟩ := standing.reopens crashed
    rw [ran] at opened
    cases opened
    refine ⟨_, _, after, fun only _ => ?_⟩
    have logged : ∀ op ∈ img.tail ++ kept, op.Only _ := fun op member =>
      only.logged op (((List.prefix_append_right_inj _).mpr isKept).subset member)
    refine ⟨only.start, ?_, only.start.applyAll logged⟩
    rw [tail, pending, List.append_nil]
    exact logged

theorem fresh (opened : (openWithKeyring encoding ring).run ∅ = (d, .ok s)) :
    ∃ files mem, Standing encoding ring s d { Image.initial with files } mem ∧
      Image.tail { Image.initial with files } = [] ∧ Image.pending { Image.initial with files } = [] := by
  obtain ⟨rest, _, keyFiles⟩ := Image.initial_opens ring
  have owned : Image.initial.Owned ring ∅ := fun p present => by simp at present
  obtain ⟨s', d', files, ran, standing, tail⟩ :=
    opens (Image.initial_on encoding ring) (Image.initial_sound encoding) rest owned keyFiles
  rw [opened] at ran
  cases ran
  exact ⟨files, _, standing, tail⟩

theorem reached {start t : Opened} {commands : List Command}
    (opened : (openWithKeyring encoding ring).run ∅ = (start.dir, .ok start.store))
    (run : Run.Reaches (Opened.Step encoding ring) start commands t) :
    ∃ img mem, Standing encoding ring t.store t.dir img mem :=
  run.invariant (fun _ t => ∃ img mem, Standing encoding ring t.store t.dir img mem)
    (by
      obtain ⟨files, mem, standing, _⟩ := fresh opened
      exact ⟨_, mem, standing⟩)
    fun ⟨_, _, standing⟩ stepped => by
      obtain ⟨img', mem', after, _⟩ := standing.step stepped
      exact ⟨img', mem', after⟩

end Standing

/-- After any run of a store that encrypts each collection under a key of its own, shredding a
collection leaves no log record, no file and no key of it. The others are as they were, in memory
and after a reopen. -/
theorem shred_leaves_nothing {start t : Opened} {commands : List Command} {name : String} {k : CollectionId}
    (opened : (openWithKeyring encoding .envelope).run ∅ = (start.dir, .ok start.store))
    (run : Run.Reaches (Opened.Step encoding .envelope) start commands t)
    (named : t.store.collectionId name = some k)
    (ran : (t.store.shredCollection encoding name).run t.dir = (d', .ok (s', true))) :
    ∃ before after : Logical, t.store.catalog.Represents before ∧
      after.collections = before.collections.erase k ∧ Shredded encoding .envelope k after s' d' := by
  obtain ⟨img, mem, standing⟩ := Standing.reached opened run
  obtain ⟨_, shredded⟩ := standing.shredCollection named ran
  exact ⟨mem, _, standing.running.represents, mem.dropped k, shredded rfl⟩

def createOne : Request := .createCollection "c" { dim := 1, metric := .l2 } default

def fillOne : Request := .upsert 0 "a" [0] []

/-- A collection that was just created and holds a row is shredded. -/
theorem shred_leaves_nothing_created : ∃ (start t : Opened) (s' : Store) (d' : DataDir),
    (openWithKeyring .plain .envelope).run ∅ = (start.dir, .ok start.store) ∧
      t = (start.serve .plain createOne).serve .plain fillOne ∧
      (t.store.shredCollection .plain "c").run t.dir = (d', .ok (s', true)) ∧
      ∃ before after : Logical, t.store.catalog.Represents before ∧
        after.collections = before.collections.erase 0 ∧ Shredded .plain .envelope 0 after s' d' := by
  have evaluated : ((openWithKeyring .plain .envelope).run ∅).2.toOption.map (fun s =>
      let t := ((Opened.mk s ((openWithKeyring .plain .envelope).run ∅).1).serve .plain createOne).serve .plain fillOne
      (t.store.collectionId "c", ((t.store.shredCollection .plain "c").run t.dir).2.toOption.map Prod.snd)) =
      some (some 0, some true) := by
    decide +kernel
  obtain ⟨s, isOk, values⟩ := Option.map_eq_some_iff.mp evaluated
  obtain ⟨named, existed⟩ := Prod.mk.inj values
  obtain ⟨⟨s', _⟩, shredded, rfl⟩ := Option.map_eq_some_iff.mp existed
  have opened := run_of_toOption isOk
  have ran := run_of_toOption shredded
  exact ⟨⟨s, _⟩, _, s', _, opened, rfl, ran, shred_leaves_nothing opened
    ((Run.Reaches.refl.next (.request createOne)).next (.request fillOne)) named ran⟩

end Quiver.Core
