import Quiver.Core.Running

/-!
Opening a data directory that holds an image: recovery replays its records, and the store it
yields stands for the state they were logged in.
-/

namespace Quiver.Core

open FileSystem FramedLog Results Prog
open Std (ExtTreeMap)
open List (append_nil mem_append mem_cons mem_filter mem_map mem_singleton)

variable {encoding : Encoding} {ring : KeyRing} {img : Image} {d d' : DataDir}

theorem mem_walFiles {seq : Nat} : seq ∈ walFiles d ↔ Path.wal seq ∈ d := by
  simp only [walFiles, List.mem_insertionSort, List.mem_filterMap, ExtTreeMap.mem_keys]
  constructor
  · rintro ⟨p, present, isWal⟩
    cases p <;> simp_all
  · exact fun present => ⟨_, present, rfl⟩

theorem Image.On.walFiles (on : img.On encoding ring d) (sound : img.Sound encoding) :
    walFiles d = img.files.map (·.seq) := by
  have ascending : (img.files.map (·.seq)).Pairwise (· < ·) := by
    rw [List.pairwise_map]
    exact sound.ordered
  have nodup : (Core.walFiles d).Nodup := by
    refine ((List.perm_insertionSort _ _).nodup_iff).mpr ?_
    refine ExtTreeMap.nodup_keys.filterMap ?_
    intro p q seq isP isQ
    cases p <;> cases q <;> simp_all
  have sorted : (Core.walFiles d).Pairwise (· ≤ ·) := List.pairwise_insertionSort _ _
  have perm : (Core.walFiles d).Perm (img.files.map (·.seq)) := by
    refine (List.perm_ext_iff_of_nodup nodup (ascending.imp Nat.ne_of_lt)).mpr fun seq => ?_
    rw [mem_walFiles, on.listed, mem_map]
  exact perm.eq_of_pairwise (fun a b _ _ => Nat.le_antisymm) sorted (ascending.imp Nat.le_of_lt)

/-- What replaying some log files adds to what was found before. -/
structure Replayed (img : Image) (files : List LoggedFile) (r r' : Recovery) : Prop where
  floor : r.maxLsn ≤ r'.maxLsn
  lsns : ∀ file ∈ files, ∀ e ∈ file.synced, img.mfst.lastCheckpointedLsn < e.lsn → e.lsn ≤ r'.maxLsn
  ids : r.walMaxCollectionId ≤ r'.walMaxCollectionId
  created : ∀ op ∈ img.live (files.flatMap (·.synced)), op.createdBound ≤ r'.walMaxCollectionId
  seq : r.maxSeq ≤ r'.maxSeq
  seqs : ∀ file ∈ files, file.seq ≤ r'.maxSeq
  kept : ∀ seq, seq ∈ r'.keepSeqs ↔ seq ∈ r.keepSeqs ∨
    ∃ file ∈ files, file.seq = seq ∧ img.live file.synced ≠ []

theorem le_foldl_max (items : List Nat) (start : Nat) :
    start ≤ items.foldl max start ∧ ∀ a ∈ items, a ≤ items.foldl max start := by
  induction items generalizing start with
  | nil => exact ⟨Nat.le_refl _, by simp⟩
  | cons b items ih =>
    obtain ⟨above, each⟩ := ih (max start b)
    exact ⟨Nat.le_trans (Nat.le_max_left _ _) above,
      List.forall_mem_cons.mpr ⟨Nat.le_trans (Nat.le_max_right _ _) above, each⟩⟩

theorem replay_append {cat cat' : Catalog} {first second : List WalOp}
    (replayed : cat.replay encoding ring d (first ++ second) = .ok cat') :
    ∃ mid, cat.replay encoding ring d first = .ok mid ∧ mid.replay encoding ring d second = .ok cat' := by
  rw [Catalog.replay, List.foldlM_append] at replayed
  exact bind_eq_ok.mp replayed

variable {k : CollectionId} {cat : Catalog} {r : Recovery}

theorem replayFile_spec {file : LoggedFile}
    (replayed : r.catalog.replay encoding ring d (img.live file.synced) = .ok cat) :
    ∃ r', replayFile encoding ring d img.mfst.lastCheckpointedLsn r file.seq file.synced = .ok r' ∧
      r'.catalog = cat ∧ Replayed img [file] r r' := by
  simp only [replayFile]
  rw [show ((file.synced.filter (img.mfst.lastCheckpointedLsn < ·.lsn)).map (·.op)) =
    img.live file.synced from rfl, replayed, ok_bind]
  refine ⟨_, rfl, rfl, ?_⟩
  constructor
  · exact (le_foldl_max _ _).1
  · intro other member e inside above
    rw [mem_singleton.mp member] at inside
    refine (le_foldl_max _ _).2 e.lsn (mem_map.mpr ⟨e, ?_, rfl⟩)
    exact mem_filter.mpr ⟨inside, by simpa using above⟩
  · exact (le_foldl_max _ _).1
  · intro op member
    simp only [List.flatMap_singleton, Image.live] at member
    obtain ⟨e, inside, rfl⟩ := mem_map.mp member
    exact (le_foldl_max _ _).2 _ (mem_map.mpr ⟨e, inside, rfl⟩)
  · exact Nat.le_max_right _ _
  · intro other member
    rw [mem_singleton.mp member]
    exact Nat.le_max_left _ _
  · intro seq
    have empty : (file.synced.filter (img.mfst.lastCheckpointedLsn < ·.lsn)).isEmpty = true ↔
        img.live file.synced = [] := by
      simp [Image.live]
    split
    case isTrue none =>
      simp [empty.mp none]
    case isFalse some =>
      have nonempty : img.live file.synced ≠ [] := fun none => some (empty.mpr none)
      rw [mem_cons]
      constructor
      · rintro (rfl | before)
        · exact .inr ⟨file, List.mem_singleton_self _, rfl, nonempty⟩
        · exact .inl before
      · rintro (before | ⟨other, member, isSeq, _⟩)
        · exact .inr before
        · rw [mem_singleton.mp member] at isSeq
          exact .inl isSeq.symm

theorem Replayed.trans {file : LoggedFile} {files : List LoggedFile} {r mid r' : Recovery}
    (first : Replayed img [file] r mid) (second : Replayed img files mid r') :
    Replayed img (file :: files) r r' where
  floor := Nat.le_trans first.floor second.floor
  lsns other member e inside above := by
    obtain rfl | later := mem_cons.mp member
    · exact Nat.le_trans (first.lsns _ (List.mem_singleton_self _) e inside above) second.floor
    · exact second.lsns other later e inside above
  ids := Nat.le_trans first.ids second.ids
  created op member := by
    rw [List.flatMap_cons, Image.live_append] at member
    obtain here | later := mem_append.mp member
    · exact Nat.le_trans (first.created op (by simpa using here)) second.ids
    · exact second.created op later
  seq := Nat.le_trans first.seq second.seq
  seqs other member := by
    obtain rfl | later := mem_cons.mp member
    · exact Nat.le_trans (first.seqs _ (List.mem_singleton_self _)) second.seq
    · exact second.seqs other later
  kept seq := by
    rw [second.kept, first.kept]
    simp [or_assoc]

theorem foldlM_replayFile {files : List LoggedFile}
    (reads : ∀ file ∈ files, ∃ replay, readWal encoding d file.seq = .ok replay ∧
      replay.entries = file.synced)
    (replayed : r.catalog.replay encoding ring d (img.live (files.flatMap (·.synced))) = .ok cat) :
    ∃ r', (files.map (·.seq)).foldlM (fun r seq => do
        replayFile encoding ring d img.mfst.lastCheckpointedLsn r seq (← readWal encoding d seq).entries) r =
        .ok r' ∧ r'.catalog = cat ∧ Replayed img files r r' := by
  induction files generalizing r with
  | nil =>
    cases replayed
    refine ⟨r, rfl, rfl, Nat.le_refl _, by simp, Nat.le_refl _, ?_, Nat.le_refl _, by simp, by simp⟩
    simp [Image.live]
  | cons file files ih =>
    rw [List.flatMap_cons, Image.live_append] at replayed
    obtain ⟨mid, here, later⟩ := replay_append replayed
    obtain ⟨r', one, isMid, first⟩ := replayFile_spec here
    subst isMid
    obtain ⟨r'', rest, isCat, second⟩ :=
      ih (fun other member => reads other (List.mem_cons_of_mem _ member)) later
    obtain ⟨replay, read, entries⟩ := reads file (List.mem_cons_self ..)
    refine ⟨r'', ?_, isCat, first.trans second⟩
    rw [List.map_cons, List.foldlM_cons, read, ok_bind, entries, one, ok_bind]
    exact rest

theorem Image.On.backed_base (on : img.On encoding ring d) (sound : img.Sound encoding) :
    Catalog.Backed ring d img.base [] img.base where
  codec found := by
    obtain ⟨entry, _, rfl, loaded⟩ := loadCatalog_found on.loads found
    exact loaded.codec
  sealed found := .inl ⟨by simp [Created], by rw [sound.settled found]; exact found⟩
  window found killed := by
    obtain ⟨seg, row, s, inside, _⟩ := killed
    rw [← sound.settled found] at inside
    simp [CollectionState.base] at inside

theorem Image.On.recover (on : img.On encoding ring d) (sound : img.Sound encoding)
    (rest : ∀ file ∈ img.files, file.unsynced = []) :
    ∃ r, recover encoding ring d img.mfst = .ok r ∧
      r.catalog.Represents (img.start.applyAll encoding img.tail) ∧
      Catalog.Backed ring d img.base img.tail r.catalog ∧
      Replayed img img.files { catalog := img.base, maxLsn := img.mfst.lastCheckpointedLsn } r := by
  have valid := (Logical.Valid.append_iff.mp sound.valid).1
  obtain ⟨cat, replayed, represents, backed⟩ := sound.represents.replay sound.indexed sound.below valid
    sound.absorbs (on.backed_base sound)
    fun k created => on.keys k (created_append.mpr (.inl created))
  have reads : ∀ file ∈ img.files, ∃ replay, readWal encoding d file.seq = .ok replay ∧
      replay.entries = file.synced := by
    intro file member
    have isOn := on.logs file member
    obtain ⟨seq, synced, unsynced⟩ := file
    obtain rfl : unsynced = [] := rest _ member
    exact isOn.readWal
  obtain ⟨r, read, rfl, found⟩ := foldlM_replayFile reads
    (r := { catalog := img.base, maxLsn := img.mfst.lastCheckpointedLsn }) replayed
  refine ⟨r, ?_, represents, backed, found⟩
  simp only [Core.recover, on.loads, ok_bind, on.walFiles sound]
  exact read

/-- No key that recovery needs belongs to a directory the manifest does not know. -/
def Image.KeySafe (img : Image) (ring : KeyRing) (d : DataDir) : Prop :=
  ∀ k, Created (img.tail ++ img.pending) k →
    img.mfst.isLive k = true ∨ ring.shredCollection k = [] ∨ k ∉ collectionDirs d

theorem Manifest.isLive_iff {m : Manifest} :
    m.isLive k = true ↔ ∃ entry ∈ m.collections, entry.id = k := by
  simp [Manifest.isLive]

theorem Manifest.references_iff {m : Manifest} {seg : Nat} :
    m.references k seg = true ↔ ∃ entry ∈ m.collections, entry.id = k ∧ ∃ ref ∈ entry.segments, ref.id = seg := by
  simp [Manifest.references]

theorem Image.Needed.keeps {p : Path} (needed : img.Needed p) (safe : img.KeySafe ring d) :
    img.mfst.Keeps ring d p := by
  cases p with
  | segment cid seg part =>
    obtain ⟨notTmp, entry, member, isId, ref⟩ := needed
    refine ⟨?_, by simp⟩
    rintro _ ⟨⟩
    refine ⟨Manifest.isLive_iff.mpr ⟨entry, member, isId⟩, ?_⟩
    have referenced := Manifest.references_iff.mpr ⟨entry, member, isId, ref⟩
    simp [Manifest.isOrphan, notTmp, referenced]
  | dek cid =>
    refine ⟨by simp [Path.collection?], ?_⟩
    rintro _ ⟨⟩
    obtain present | created := needed
    · exact .inl (Manifest.isLive_iff.mpr present)
    · exact safe cid created
  | current | manifest version | wal seq => exact ⟨by simp [Path.collection?], by simp⟩
  | _ => exact needed.elim

theorem Image.Needed.notStale {p : Path} (needed : img.Needed p) (entry : CollectionEntry) :
    entry.isStaleSnapshot p = false := by
  cases p with
  | snapshot owner id => exact needed.elim
  | _ => rfl

/-- Every collection directory belongs to a collection of the manifest. -/
def Manifest.OwnsDirs (m : Manifest) (d : DataDir) : Prop :=
  ∀ p ∈ d, ∀ k, p.collection? = some k → m.isLive k = true

theorem Manifest.OwnsDirs.keySafe (owned : img.mfst.OwnsDirs d) (ring : KeyRing) : img.KeySafe ring d := by
  intro k _
  by_cases listed : k ∈ collectionDirs d
  · obtain ⟨p, present, under⟩ := mem_collectionDirs.mp listed
    exact .inl (owned p present k under)
  · exact .inr (.inr listed)

/-- What collecting orphans leaves: the image, and no segment file outside it. -/
structure Image.Collected (encoding : Encoding) (ring : KeyRing) (img : Image) (d d' : DataDir) : Prop where
  on : img.On encoding ring d'
  same : ∀ p, img.Needed p → d'[p]? = d[p]?
  shrunk : ∀ p, p ∈ d' → d'[p]? = d[p]?
  owned : img.mfst.OwnsDirs d'
  clean : ∀ {cid seg part}, Path.segment cid seg part ∈ d' → img.mfst.references cid seg = true

theorem Image.On.gc_bind (on : img.On encoding ring d) (safe : img.KeySafe ring d)
    {rest : PUnit → Io α} {crash : DataDir → Prop} {post : α → DataDir → Prop}
    (isSafe : ∀ d', img.On encoding ring d' → crash d')
    (after : ∀ d', img.Collected encoding ring d d' → (rest ()).Spec d' crash post) :
    (gcOrphanSegments ring img.mfst >>= fun _ => gcOrphanIndexSnapshots img.mfst >>= rest).Spec d crash
      post := by
  refine spec_bind _ ((gcOrphanSegments_spec ring img.mfst d).weakenCrash fun d' same => ?_) ?_
  · exact isSafe d' (on.congr fun p needed => same p (needed.keeps safe))
  · rintro _ mid ⟨same, shrunk, clean⟩
    have onMid := on.congr fun p needed => same p (needed.keeps safe)
    refine spec_bind _ ((gcOrphanIndexSnapshots_spec img.mfst mid).weakenCrash fun d' same' => ?_) ?_
    · exact isSafe d' (onMid.congr fun p needed => same' p fun entry _ => needed.notStale entry)
    · rintro _ d' ⟨same', shrunk'⟩
      have kept : ∀ p, img.Needed p → d'[p]? = d[p]? := fun p needed =>
        (same' p fun entry _ => needed.notStale entry).trans (same p (needed.keeps safe))
      have before : ∀ p, p ∈ d' → p ∈ mid := fun p present => (mem_congr (shrunk' p present)).mp present
      refine after d' ⟨on.congr kept, kept, fun p present => ?_, fun p present k under => ?_, ?_⟩
      · exact (shrunk' p present).trans (shrunk p (before p present))
      · exact (clean p k (before p present) under).1
      intro cid seg part present
      obtain ⟨_, notOrphan⟩ := clean _ cid (before _ present) rfl
      by_contra unreferenced
      simp [Manifest.isOrphan, unreferenced] at notOrphan

theorem Image.Collected.fresh (collected : img.Collected encoding ring d d') (sound : img.Sound encoding)
    {cid seg : Nat} {part : SegmentPart} (above : img.mfst.nextSegmentId ≤ seg) :
    d'[Path.segment cid seg part]? = none := by
  refine ExtTreeMap.getElem?_eq_none fun present => ?_
  obtain ⟨entry, member, _, ref, inside, rfl⟩ := Manifest.references_iff.mp (collected.clean present)
  exact Nat.not_le.mpr (sound.refs entry member ref inside) above

theorem foldl_nextId_le {ops : List WalOp} {next bound : Nat} (start : next ≤ bound)
    (each : ∀ op ∈ ops, op.createdBound ≤ bound) : ops.foldl WalOp.nextId next ≤ bound := by
  induction ops generalizing next with
  | nil => exact start
  | cons op ops ih =>
    refine ih ?_ fun op member => each op (List.mem_cons_of_mem _ member)
    cases op with
    | createCollection k name bytes => exact each _ (List.mem_cons_self ..)
    | _ => exact start

theorem Catalog.Backed.congr {base cat : Catalog} {ops : List WalOp} (backed : Backed ring d base ops cat)
    (same : ∀ {k : CollectionId} {c : CollectionState}, cat.collections[k]? = some c →
      d'[Path.dek k]? = d[Path.dek k]?) : Backed ring d' base ops cat where
  codec found := by
    rw [collectionCodec_congr (same found)]
    exact backed.codec found
  sealed := backed.sealed
  window := backed.window

theorem Image.On.needsKey (on : img.On encoding ring d)
    (backed : Catalog.Backed ring d img.base img.tail cat) {c : CollectionState}
    (found : cat.collections[k]? = some c) : img.Needed (.dek k) := by
  obtain ⟨_, loaded⟩ | ⟨created, _⟩ := backed.sealed found
  · obtain ⟨entry, member, isId, _⟩ := loadCatalog_found on.loads loaded
    exact .inl ⟨entry, member, isId⟩
  · exact .inr (created_append.mpr (.inl created))

theorem Replayed.spent (replayed : Replayed img img.files start r)
    (rest : ∀ file ∈ img.files, file.unsynced = []) {seq : Nat} {seqs : List Nat}
    (dropped : ∀ seq ∈ seqs, seq ∉ r.keepSeqs) : (img.addFile seq).Spent seqs := by
  intro file member gone
  obtain old | new := mem_append.mp member
  · rw [rest file old]
    refine ⟨?_, rfl⟩
    by_contra some
    exact dropped _ gone ((replayed.kept _).mpr (.inr ⟨file, old, rfl, some⟩))
  · rw [mem_singleton.mp new]
    exact ⟨rfl, rfl⟩

/-- Opening a directory that holds an image: the open succeeds with a store that stands for
the logged state, and at every point in between the directory still holds the image. -/
theorem openWithKeyring_spec (on : img.On encoding ring d) (sound : img.Sound encoding)
    (rest : ∀ file ∈ img.files, file.unsynced = []) (safe : img.KeySafe ring d) :
    (openWithKeyring encoding ring).Spec d (img.Kept encoding ring) fun s d' =>
      ∃ files, Running encoding ring s d' { img with files } (img.start.applyAll encoding img.tail) ∧
        Image.tail { img with files } = img.tail ∧ Image.pending { img with files } = [] ∧
        img.mfst.OwnsDirs d' ∧ ∀ p ∈ d', (∀ seq, p ≠ .wal seq) → d'[p]? = d[p]? := by
  have nothing := Image.pending_eq_nil rest
  obtain ⟨r, recovered, represents, backed, replayed⟩ := on.recover sound rest
  have above : ∀ file ∈ img.files, file.seq < r.maxSeq + 1 :=
    fun file member => Nat.lt_succ_of_le (replayed.seqs file member)
  refine spec_read_bind on.current.readManifest ?_
  refine spec_read_bind rfl ?_
  refine spec_read_bind recovered ?_
  refine on.gc_bind safe (fun d' on' => on'.kept sound) fun d₁ collected => ?_
  refine spec_bind _ (Image.createWal_spec collected.on sound above nothing (r.maxLsn + 1)) ?_
  rintro w d₂ ⟨rfl, added, header, same⟩
  have soundAdded := sound.addFile above nothing
  have spent : ∀ seqs, (∀ seq ∈ seqs, seq ∉ r.keepSeqs) →
      (img.addFile (r.maxSeq + 1)).Spent seqs := fun seqs dropped => replayed.spent rest dropped
  have dropped : ∀ seq ∈ (walFiles d).filter (· ∉ r.keepSeqs), seq ∉ r.keepSeqs := by
    intro seq member
    simpa using (mem_filter.mp member).2
  have older : ∀ seq ∈ (walFiles d).filter (· ∉ r.keepSeqs), seq ≠ r.maxSeq + 1 := by
    intro seq member
    have listed := (mem_filter.mp member).1
    rw [on.walFiles sound] at listed
    obtain ⟨file, inside, rfl⟩ := mem_map.mp listed
    exact Nat.ne_of_lt (above file inside)
  generalize (walFiles d).filter (· ∉ r.keepSeqs) = seqs at dropped older
  refine spec_performAll_bind (fun count => ?_) ?_
  · rw [← List.map_take]
    have part := spent (seqs.take count) fun seq member => dropped seq (List.mem_of_mem_take member)
    refine ⟨_, added.without part, soundAdded.without part, ?_, ?_⟩
    · exact (Image.tail_without part).trans (Image.tail_addFile ..)
    · exact (Image.pending_without part).trans (Image.pending_addFile ..)
  · have all := spent seqs dropped
    have on' := added.without all
    have tail : ((img.addFile (r.maxSeq + 1)).without seqs).tail = img.tail :=
      (Image.tail_without all).trans (Image.tail_addFile ..)
    have pending : ((img.addFile (r.maxSeq + 1)).without seqs).pending = [] :=
      ((Image.pending_without all).trans (Image.pending_addFile ..)).trans nothing
    have other : ∀ p : Path, (∀ seq, p ≠ .wal seq) →
        (applyAll d₂ (seqs.map fun seq => .remove (.wal seq)))[p]? = d₁[p]? := by
      intro p notWal
      rw [Image.getElem?_removeWals _ fun seq _ => notWal seq, same p (notWal _)]
    refine spec_pure ⟨_, on', soundAdded.without all, tail, pending.trans nothing.symm⟩
      ⟨_, ?_, tail, pending, ?_, ?_⟩
    rotate_left
    · intro p present k under
      refine collected.owned p ((mem_congr (other p ?_)).mp present) k under
      rintro seq rfl
      contradiction
    · intro p present notWal
      have same := other p notWal
      exact same.trans (collected.shrunk _ ((mem_congr same).mp present))
    have backed' := backed.congr (fun found => (other (.dek _) (by simp)).trans
      (collected.same _ (on.needsKey backed found)))
    have files : ((img.addFile (r.maxSeq + 1)).without seqs).files =
        img.files.filter (fun file => file.seq ∉ seqs) ++ [.new (r.maxSeq + 1)] := by
      have kept : (LoggedFile.new (r.maxSeq + 1)).seq ∉ seqs := fun member => older _ member rfl
      simp [Image.without, Image.addFile, List.filter_append, kept]
    have floor : img.mfst.lastCheckpointedLsn ≤ r.maxLsn := replayed.floor
    have stored : (applyAll d₂ (seqs.map fun seq => .remove (.wal seq)))[Path.wal (r.maxSeq + 1)]? =
        some ⟨byteChunks (walHeader (r.maxLsn + 1)), []⟩ := by
      rw [Image.getElem?_removeWals, header]
      rintro seq inside ⟨⟩
      exact older _ inside rfl
    change Running encoding ring _ _ ((img.addFile (r.maxSeq + 1)).without seqs) _
    refine ⟨on', soundAdded.without all, rfl, represents, ?_, ?_, ?_, rfl, rfl, ?_, ?_, ?_,
      Nat.le_refl _, ?_, ?_⟩
    · rw [tail]
      exact backed'
    · simp [pending]
    · rw [tail, pending, append_nil]
      exact SameCatalog.refl _
    · exact Nat.lt_succ_of_le floor
    · intro file member e inside
      rw [files] at member
      obtain old | new := mem_append.mp member
      · have known := (mem_filter.mp old).1
        rw [rest file known, append_nil] at inside
        refine Nat.lt_succ_of_le ?_
        by_cases checkpointed : e.lsn ≤ img.mfst.lastCheckpointedLsn
        · exact Nat.le_trans checkpointed floor
        · exact replayed.lsns file known e inside (Nat.lt_of_not_le checkpointed)
      · rw [mem_singleton.mp new] at inside
        simp [LoggedFile.new] at inside
    · rw [tail, pending, append_nil]
      refine foldl_nextId_le (Nat.le_trans sound.nextId (Nat.le_max_left _ _)) fun op member => ?_
      exact Nat.le_trans (replayed.created op member) (Nat.le_max_right _ _)
    · intro cid seg part high
      rw [other _ (by simp)]
      exact collected.fresh sound high
    · refine ⟨_, .new (r.maxSeq + 1), r.maxLsn + 1, files, ?_, rfl, ?_, trivial, rfl, fun _ => rfl⟩
      · exact fun file member => rest file (mem_filter.mp member).1
      · simpa [walLayout, Framing.layout, LoggedFile.new, byteChunks] using stored

end Quiver.Core
