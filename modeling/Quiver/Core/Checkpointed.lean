import Quiver.Core.Compact

/-!
A whole checkpoint: the buffers are sealed, a new manifest is published, and the log starts
anew. Before the swap the directory holds the old image, afterwards one that starts from what
memory stands for.
-/

namespace Quiver.Core

open FileSystem FramedLog Prog
open Std (ExtTreeMap)
open Std.ExtTreeMap (getElem?_map mem_toList_iff_getElem?_eq_some)
open List (map_map mem_append mem_map mem_singleton)

variable {encoding : Encoding} {ring : KeyRing} {s : Store} {img img' : Image} {mem : Logical}
  {d d' mid : DataDir} {c : CollectionState} {σ : Store.Sealed} {states : List CollectionState}
  {snapshot : CollectionState → Option IndexSnapshotRef}

variable (encoding) in
/-- The manifest of a checkpoint that wrote these segments. -/
def Store.checkpointManifest (s : Store) (σ : Store.Sealed) (snapshot : CollectionState → Option IndexSnapshotRef) :
    Manifest :=
  { s with nextSegmentId := σ.nextSegmentId }.manifest encoding (s.nextLsn - 1)
    (fun c => c.segmentsMeta ++ (σ.segments c).map Prod.fst) snapshot

/-- The collections in memory once these segments are installed. -/
def Store.installed (s : Store) (σ : Store.Sealed) (snapshot : CollectionState → Option IndexSnapshotRef) : Catalog :=
  ⟨s.catalog.collections.map fun _ c => c.install (σ.segments c) (snapshot c), s.catalog.nameIndex⟩

variable (encoding) in
/-- The image after the swap: everything is in segments, and no record is live. -/
def Image.checkpointed (img : Image) (s : Store) (mem : Logical) (σ : Store.Sealed)
    (snapshot : CollectionState → Option IndexSnapshotRef) : Image where
  mfst := s.checkpointManifest encoding σ snapshot
  base := s.installed σ snapshot
  files := img.files
  start := mem
  next := s.nextCollectionId
  loaded := mem

theorem Image.Thinned.lives (thinned : img.Thinned encoding ring d d') : img.Lives encoding ring d' := by
  obtain ⟨img', thins, on, sound, _⟩ := thinned
  refine ⟨img', ⟨?_, ?_, thins.tail, thins.pending⟩, on, sound⟩ <;> rw [thins]

theorem Running.no_live (running : Running encoding ring s d img mem) {entries : List WalEntry}
    (known : ∀ e ∈ entries, ∃ file ∈ img.files, e ∈ file.synced ++ file.unsynced) :
    (img.checkpointed encoding s mem σ snapshot).live entries = [] := by
  rw [Image.live, List.map_eq_nil_iff, List.filter_eq_nil_iff]
  intro e member above
  obtain ⟨file, isFile, inside⟩ := known e member
  have below := running.lsns file isFile e inside
  have above : s.nextLsn - 1 < e.lsn := of_decide_eq_true above
  exact absurd (Nat.le_sub_one_of_lt below) (Nat.not_le.mpr above)

theorem Running.checkpointed_tail (running : Running encoding ring s d img mem) (σ : Store.Sealed)
    (snapshot : CollectionState → Option IndexSnapshotRef) :
    (img.checkpointed encoding s mem σ snapshot).tail = [] ∧
      (img.checkpointed encoding s mem σ snapshot).pending = [] := by
  constructor <;>
    · refine running.no_live fun e member => ?_
      obtain ⟨file, isFile, inside⟩ := List.mem_flatMap.mp member
      exact ⟨file, isFile, by simp [inside]⟩

namespace Persisted

section

variable (inv : Persisted encoding ring s img d states [] states [] σ img' mid)
  (running : Running encoding ring s d img mem) (found : s.catalog.collections[c.id]? = some c) (member : c ∈ states)
include inv running found member

theorem refs : (∀ ref ∈ c.segmentsMeta ++ (σ.segments c).map Prod.fst, ref.id < σ.nextSegmentId) ∧
      ((c.segmentsMeta ++ (σ.segments c).map Prod.fst).map (·.id)).Nodup := by
  obtain ⟨below, nodup⟩ := running.segmentsMeta found
  have range := (inv.written c member).range
  constructor
  · intro ref inside
    obtain old | new := mem_append.mp inside
    · exact Nat.lt_of_lt_of_le (below ref old) inv.next
    · obtain ⟨p, isPending, rfl⟩ := mem_map.mp new
      exact (range p isPending).2
  · rw [List.map_append, List.nodup_append]
    refine ⟨nodup, ?_, ?_⟩
    · simp only [Store.Sealed.segments]
      cases σ.pending[c.id]? <;> simp
    · intro id old id' new same
      obtain ⟨ref, inside, rfl⟩ := mem_map.mp old
      simp only [map_map, mem_map] at new
      obtain ⟨p, isPending, rfl⟩ := new
      have low := below ref inside
      rw [same] at low
      exact absurd (range p isPending).1 (Nat.not_le.mpr low)

theorem loaded :
    Loaded encoding ring mid (collectionEntry encoding c (c.segmentsMeta ++ (σ.segments c).map Prod.fst)
      (snapshot c)) (c.install (σ.segments c) (snapshot c)) := by
  have codec : ring.collectionCodec mid c.id = .ok c.codec := by
    rw [collectionCodec_congr (inv.same (.dek c.id) rfl)]
    exact running.backed.codec found
  refine ⟨rfl, rfl, encoding.decodeDescriptor_encode .., codec, rfl, ?_, rfl, rfl⟩
  refine List.rel_append ?_ ?_
  · obtain ⟨fresh, _⟩ | ⟨_, bare⟩ := running.backed.sealed found
    · obtain ⟨entry, _, isId, onDisk⟩ := loadCatalog_found inv.on.loads (inv.folded c member fresh)
      have sealed := onDisk.sealed
      rw [← onDisk.segments, isId] at sealed
      simpa [CollectionState.install, collectionEntry] using sealed
    · rw [bare.segments, CollectionState.foldWindow, bare.sealed]
      exact .nil
  · refine List.forall₂_map_left_iff.mpr (List.forall₂_map_right_iff.mpr ?_)
    exact List.forall₂_same.mpr (inv.written c member).loads

end

end Persisted

theorem Store.mem_states (found : s.catalog.collections[c.id]? = some c) :
    c ∈ s.catalog.collections.toList.map Prod.snd :=
  mem_map.mpr ⟨(c.id, c), mem_toList_iff_getElem?_eq_some.mpr found, rfl⟩

namespace Running

section

variable (running : Running encoding ring s d img mem)
include running

theorem states_known
    (member : c ∈ s.catalog.collections.toList.map Prod.snd) : s.catalog.collections[c.id]? = some c := by
  obtain ⟨⟨k, c⟩, inside, rfl⟩ := mem_map.mp member
  have found := mem_toList_iff_getElem?_eq_some.mp inside
  exact (running.represents.id_eq found).symm ▸ found

theorem states_distinct :
    ((s.catalog.collections.toList.map Prod.snd).map (·.id)).Nodup := by
  have isKeys : (s.catalog.collections.toList.map Prod.snd).map (·.id) = s.catalog.collections.keys := by
    rw [← ExtTreeMap.map_fst_toList_eq_keys, map_map]
    refine List.map_congr_left fun p inside => ?_
    exact running.represents.id_eq (mem_toList_iff_getElem?_eq_some.mp inside)
  rw [isKeys]
  exact ExtTreeMap.nodup_keys

theorem installed
    (pending : ∀ c : CollectionState, s.catalog.collections[c.id]? = some c → c.Pending (σ.segments c)) :
    (s.installed σ snapshot).Represents mem := by
  refine ⟨running.represents.names, fun k => ?_⟩
  simp only [Store.installed, getElem?_map]
  have related := running.represents.collections k
  generalize held : mem.collections[k]? = entry at related ⊢
  generalize found : s.catalog.collections[k]? = state at related ⊢
  cases related with
  | none => exact .none
  | @some c e stands =>
    have isPending := pending c (stands.id.symm ▸ found)
    exact .some ⟨stands.id, stands.name, stands.descriptor, stands.points.install isPending _⟩

theorem below_next : mem.Below s.nextCollectionId :=
  fun k e held => Nat.lt_of_lt_of_le (running.below k e held) running.nextCollection

end

end Running

theorem Image.rotateWal_spec (on : img.On encoding ring d) (sound : img.Sound encoding)
    (dead : ∀ file ∈ img.files, img.live file.synced = [] ∧ img.live file.unsynced = [])
    (last : ∀ file ∈ img.files, file.seq ≤ s.wal.seq) :
    s.rotateWal.Spec d (img.Lives encoding ring) fun s' d' =>
      s' = { s with wal := ⟨s.wal.seq + 1, false, walFileHeaderSize⟩ } ∧
      Image.On encoding ring { img with files := [.new (s.wal.seq + 1)] } d' ∧
      Image.Sound encoding { img with files := [.new (s.wal.seq + 1)] } ∧
      d'[Path.wal (s.wal.seq + 1)]? = some ⟨byteChunks (walHeader s.nextLsn), []⟩ ∧
      ∀ p : Path, (∀ seq, p ≠ .wal seq) → d'[p]? = d[p]? := by
  have above : ∀ file ∈ img.files, file.seq < s.wal.seq + 1 := fun file member => Nat.lt_succ_of_le (last file member)
  have pending : img.pending = [] := Image.live_flatMap_eq_nil fun file member => (dead file member).2
  refine spec_bind _ ((Image.createWal_spec on sound above pending s.nextLsn).weakenCrash ?_) ?_
  · rintro d' ⟨files, on', sound', tail, pending⟩
    exact ⟨{ img with files }, ⟨rfl, rfl, tail, pending⟩, on', sound'⟩
  rintro w d₁ ⟨rfl, added, header, same⟩
  refine spec_read_bind rfl ?_
  have spent : ∀ seqs, (img.addFile (s.wal.seq + 1)).Spent seqs := fun seqs => List.forall_mem_append.mpr
    ⟨fun file old _ => dead file old, List.forall_mem_singleton.mpr fun _ => ⟨rfl, rfl⟩⟩
  have soundAdded := sound.addFile above pending
  have left : (img.addFile (s.wal.seq + 1)).without ((walFiles d₁).filter (· ≤ s.wal.seq)) =
      { img with files := [.new (s.wal.seq + 1)] } := by
    have gone : img.files.filter (fun file => file.seq ∉ (walFiles d₁).filter (· ≤ s.wal.seq)) = [] := by
      refine List.filter_eq_nil_iff.mpr fun file member kept => ?_
      refine of_decide_eq_true kept (List.mem_filter.mpr ⟨mem_walFiles.mpr ?_, by simpa using last file member⟩)
      exact (added.listed file.seq).mpr ⟨file, List.mem_append_left _ member, rfl⟩
    have stays : (LoggedFile.new (s.wal.seq + 1)).seq ∉ (walFiles d₁).filter (· ≤ s.wal.seq) := by
      simp [LoggedFile.new]
    have kept : [LoggedFile.new (s.wal.seq + 1)].filter
        (fun file => file.seq ∉ (walFiles d₁).filter (· ≤ s.wal.seq)) = [.new (s.wal.seq + 1)] :=
      List.filter_cons_of_pos (decide_eq_true stays)
    simp only [Image.without, Image.addFile, List.filter_append, gone, List.nil_append, kept]
  have removed := added.without (spent ((walFiles d₁).filter (· ≤ s.wal.seq)))
  have isSound := soundAdded.without (spent ((walFiles d₁).filter (· ≤ s.wal.seq)))
  rw [left] at removed isSound
  refine spec_performAll_bind (fun count => ?_) (spec_pure ?_ ⟨rfl, removed, isSound, ?_, ?_⟩)
  · rw [← List.map_take]
    have part := spent (((walFiles d₁).filter (· ≤ s.wal.seq)).take count)
    refine ⟨(img.addFile (s.wal.seq + 1)).without _, ⟨rfl, rfl, ?_, ?_⟩, added.without part,
      soundAdded.without part⟩
    · exact (Image.tail_without part).trans (Image.tail_addFile ..)
    · exact (Image.pending_without part).trans (Image.pending_addFile ..)
  · refine ⟨{ img with files := [.new (s.wal.seq + 1)] }, ⟨rfl, rfl, ?_, ?_⟩, removed, isSound⟩
    · exact (Image.live_flatMap_eq_nil fun file member => (dead file member).1).symm
    · exact pending.symm
  · rw [Image.getElem?_removeWals, header]
    rintro seq inside ⟨⟩
    simpa using (List.mem_filter.mp inside).2
  · intro p notWal
    rw [Image.getElem?_removeWals _ fun seq _ => notWal seq, same p (notWal _)]

namespace Persisted

variable (inv : Persisted encoding ring s img d (s.catalog.collections.toList.map Prod.snd) []
  (s.catalog.collections.toList.map Prod.snd) [] σ img' mid) (running : Running encoding ring s d img mem)

include inv running

theorem checkpointed_sound : (img.checkpointed encoding s mem σ snapshot).Sound encoding := by
  obtain ⟨tail, pending⟩ := running.checkpointed_tail σ snapshot
  have indexed := running.indexed
  have below := running.below_next
  constructor
  · exact running.sound.ordered
  · refine List.pairwise_of_forall_mem_list fun a isFile _ _ => ?_
    exact running.no_live fun e member => ⟨a, isFile, List.mem_append_right _ member⟩
  · exact indexed
  · exact below
  · exact Nat.le_refl _
  · rw [tail, pending]
    trivial
  · have valid : mem.Valid encoding s.nextCollectionId [] := trivial
    rw [tail]
    exact .self indexed below valid
  · exact running.installed fun c found => (inv.written c (Store.mem_states found)).pending
  · intro k c found
    simp only [Image.checkpointed, Store.installed, getElem?_map, Option.map_eq_some_iff] at found
    obtain ⟨c, _, rfl⟩ := found
    rfl
  · intro k c _ created
    rw [tail] at created
    simp [Created] at created
  · intro entry member ref inside
    obtain ⟨c, found, rfl⟩ := (mem_manifest running.represents).mp member
    exact (inv.refs running found (Store.mem_states found)).1 ref inside
  · exact manifest_distinct running.represents indexed
      fun c found => (inv.refs running found (Store.mem_states found)).2

theorem checkpointed_on (swapped : Swapped (s.checkpointManifest encoding σ snapshot) mid d') :
    (img.checkpointed encoding s mem σ snapshot).On encoding ring d' := by
  obtain ⟨tail, pending⟩ := running.checkpointed_tail σ snapshot
  have isFiles : img.files = img'.files := by rw [inv.thins]
  refine inv.on.swapped swapped rfl isFiles ?_ ?_ ?_ ?_
  · change loadCatalog encoding ring d' (Store.manifest encoding { s with nextSegmentId := σ.nextSegmentId }
      (s.nextLsn - 1) (fun c => c.segmentsMeta ++ (σ.segments c).map Prod.fst) snapshot) = .ok ⟨_, _⟩
    refine loadCatalog_manifest running.represents
      running.indexed ?_ fun c found => ?_
    · exact (inv.checkpointed_sound running).distinct
    · exact (inv.loaded running found (Store.mem_states found)).congr
        (swapped.other _ (by simp) (by simp) (by simp))
        fun r inside part _ => swapped.other _ (by simp) (by simp) (by simp)
  · intro k created
    rw [tail, pending] at created
    simp [Created] at created
  · intro entry member ref inside part notTmp
    obtain ⟨c, found, rfl⟩ := (mem_manifest running.represents).mp member
    have isMember := Store.mem_states found
    obtain old | new := mem_append.mp inside
    · obtain ⟨fresh, _⟩ | ⟨_, bare⟩ := running.backed.sealed found
      · obtain ⟨entry, known, isId, onDisk⟩ := loadCatalog_found inv.on.loads (inv.folded c isMember fresh)
        refine inv.on.segments ⟨notTmp, entry, known, isId, ref, ?_, rfl⟩
        rw [← onDisk.segments]
        simpa [CollectionState.install] using old
      · rw [bare.segments] at old
        contradiction
    · obtain ⟨p, isPending, rfl⟩ := mem_map.mp new
      exact (inv.written c isMember).settled p isPending part
  · intro entry member
    obtain ⟨c, found, rfl⟩ := (mem_manifest running.represents).mp member
    have needed : img'.Needed (.dek c.id) := by
      rw [inv.thins]
      exact running.on.needsKey running.backed found
    exact inv.on.deks needed

theorem checkpointed_running {d₁ d₂ d₃ : DataDir}
    (swapped : Swapped (s.checkpointManifest encoding σ snapshot) mid d₁)
    (rotated : ∀ p : Path, (∀ seq, p ≠ .wal seq) → d₂[p]? = d₁[p]?)
    (header : d₂[Path.wal (s.wal.seq + 1)]? = some ⟨byteChunks (walHeader s.nextLsn), []⟩)
    (sound : Image.Sound encoding
      { img.checkpointed encoding s mem σ snapshot with files := [.new (s.wal.seq + 1)] })
    (collected : Image.Collected encoding ring
      { img.checkpointed encoding s mem σ snapshot with files := [.new (s.wal.seq + 1)] } d₂ d₃) :
    Running encoding ring { s with
        nextSegmentId := σ.nextSegmentId
        manifestVersion := s.manifestVersion + 1
        lastCheckpointedLsn := s.nextLsn - 1
        catalog := s.installed σ snapshot
        wal := ⟨s.wal.seq + 1, false, walFileHeaderSize⟩ } d₃
      { img.checkpointed encoding s mem σ snapshot with files := [.new (s.wal.seq + 1)] } mem := by
  have key : ∀ {k : CollectionId} {c : CollectionState}, s.catalog.collections[k]? = some c →
      d₃[Path.dek k]? = d[Path.dek k]? := by
    intro k c found
    have isId := running.represents.id_eq found
    have entry : collectionEntry encoding c (c.segmentsMeta ++ (σ.segments c).map Prod.fst) (snapshot c) ∈
        (s.checkpointManifest encoding σ snapshot).collections :=
      (mem_manifest running.represents).mpr
        ⟨c, isId.symm ▸ found, rfl⟩
    rw [collected.same (.dek k) (.inl ⟨_, entry, isId⟩), rotated _ (by simp),
      swapped.other _ (by simp) (by simp) (by simp)]
    exact inv.same (.dek k) rfl
  have positive : 0 < s.nextLsn := Nat.lt_of_le_of_lt (Nat.zero_le _) running.nextLsn
  constructor
  · exact collected.on
  · exact sound
  · exact running.keyring
  · exact running.installed fun c found => (inv.written c (Store.mem_states found)).pending
  · constructor
    · intro k c found
      simp only [Store.installed, getElem?_map, Option.map_eq_some_iff] at found
      obtain ⟨c, found, rfl⟩ := found
      rw [collectionCodec_congr (key found)]
      exact running.backed.codec (c := c) found
    · intro k c found
      refine .inl ⟨by simp [Image.tail, Image.live, LoggedFile.new, Created], ?_⟩
      have isBase : c.base = c := by
        simp only [Store.installed, getElem?_map, Option.map_eq_some_iff] at found
        obtain ⟨c, _, rfl⟩ := found
        rfl
      rw [isBase]
      exact found
    · intro k c id found killed
      simp only [Store.installed, getElem?_map, Option.map_eq_some_iff] at found
      obtain ⟨c, _, rfl⟩ := found
      exact absurd killed (CollectionState.not_killed_of_empty rfl id)
  · simp [Image.pending, Image.live, LoggedFile.new]
  · exact SameCatalog.refl _
  · rfl
  · rfl
  · exact Nat.sub_lt positive Nat.one_pos
  · intro file member e inside
    rw [mem_singleton.mp member] at inside
    simp [LoggedFile.new] at inside
  · exact Nat.le_refl _
  · exact Nat.le_refl _
  · exact collected.fresh sound
  · refine ⟨[], .new (s.wal.seq + 1), s.nextLsn, rfl, by simp, rfl, ?_, trivial, rfl, fun _ => rfl⟩
    rw [collected.same (.wal _) trivial]
    simpa [walLayout, Framing.layout, LoggedFile.new, byteChunks] using header

end Persisted

variable (encoding ring) in
/-- What a checkpoint leads to: the image starts from memory, and the log has no record. -/
def Checkpointed (d : DataDir) (mem : Logical) (s' : Store) (d' : DataDir) : Prop :=
  ∃ img' seq, img'.start = mem ∧ img'.files = [.new seq] ∧ Maintained encoding ring d mem img' s' d'

variable (encoding ring) in
/-- A crash during a checkpoint finds the old content or that of memory. -/
def Checkpointing (img : Image) (mem : Logical) (d : DataDir) : Prop :=
  img.Lives encoding ring d ∨
    ∃ img' : Image, img'.start = mem ∧ img'.tail = [] ∧ img'.pending = [] ∧ img'.Lives encoding ring d

theorem Running.last_seq (running : Running encoding ring s d img mem) {file : LoggedFile}
    (member : file ∈ img.files) : file.seq ≤ s.wal.seq := by
  obtain ⟨older, last, baseLsn, writer⟩ := running.writer
  have ordered := running.sound.ordered
  rw [writer.files] at member ordered
  rw [writer.seq]
  obtain before | here := mem_append.mp member
  · exact Nat.le_of_lt ((List.pairwise_append.mp ordered).2.2 file before last (List.mem_singleton_self _))
  · rw [mem_singleton.mp here]

theorem Running.checkpoint (running : Running encoding ring s d img mem)
    (snapshots : ExtTreeMap CollectionId Bytes) (news : ¬ s.nextLsn - 1 ≤ s.lastCheckpointedLsn) :
    (s.checkpointWithIndexSnapshots encoding snapshots).Spec d (Checkpointing encoding ring img mem)
      (Checkpointed encoding ring d mem) := by
  obtain rfl := running.keyring
  simp only [Store.checkpointWithIndexSnapshots, if_neg news]
  refine spec_bind _ ((Persisted.seal_spec running (fun c => running.states_known) running.states_distinct
    _).weakenCrash fun d' thinned => .inl thinned.lives) ?_
  rintro σ d₁ ⟨img₁, inv₁⟩
  refine spec_bind _ ((inv₁.snapshots_spec snapshots (s.manifestVersion + 1) _).weakenCrash
    fun d' thinned => .inl thinned.lives) ?_
  intro _ d₂ inv
  generalize Store.snapshotRef snapshots (s.manifestVersion + 1) (s.nextLsn - 1) = snapshot
  refine writeManifest_bind (fun d' same => .inl ?_) fun d₃ swapped => ?_
  · have isSame : img.Same img₁ :=
      ⟨by rw [inv.thins], by rw [inv.thins], inv.thins.tail, inv.thins.pending⟩
    refine Image.Lives.of_same isSame ⟨img₁, .refl _, inv.on.congr fun p needed => same p ?_ ?_, inv.sound⟩
    · rintro rfl
      exact needed
    · rintro rfl
      have isVersion : s.manifestVersion + 1 = img₁.mfst.version := needed
      rw [inv.thins, ← running.version] at isVersion
      exact absurd isVersion (Nat.succ_ne_self _)
  have on := inv.checkpointed_on running swapped
  obtain ⟨tail, pending⟩ := running.checkpointed_tail σ snapshot
  refine spec_bind _ ((Image.rotateWal_spec (s := { s with
      nextSegmentId := σ.nextSegmentId, manifestVersion := s.manifestVersion + 1,
      lastCheckpointedLsn := s.nextLsn - 1, catalog := s.installed σ snapshot }) on
    (inv.checkpointed_sound running) (fun file member => ?_) fun file member => running.last_seq member).weakenCrash
    fun d' lives => .inr ⟨_, rfl, tail, pending, lives⟩) ?_
  · constructor
    · exact running.no_live fun e inside => ⟨file, member, List.mem_append_left _ inside⟩
    · exact running.no_live fun e inside => ⟨file, member, List.mem_append_right _ inside⟩
  rintro s' d₄ ⟨rfl, rotatedOn, rotatedSound, header, rotated⟩
  have unrecorded : ∀ k, ¬ Created (Image.tail { img.checkpointed encoding s mem σ snapshot with
      files := [.new (s.wal.seq + 1)] } ++ Image.pending { img.checkpointed encoding s mem σ snapshot with
      files := [.new (s.wal.seq + 1)] }) k := by
    simp [Image.tail, Image.pending, Image.live, LoggedFile.new, Created]
  have lives : ∀ {d'}, Image.Lives encoding s.keyring { img.checkpointed encoding s mem σ snapshot with
      files := [.new (s.wal.seq + 1)] } d' → Checkpointing encoding s.keyring img mem d' :=
    fun lives => .inr ⟨_, rfl, rfl, rfl, lives⟩
  refine rotatedOn.gc_bind (fun k created => absurd created (unrecorded k))
    (fun d' on' => lives ⟨_, .refl _, on', rotatedSound⟩) fun d₅ collected => ?_
  have running' := inv.checkpointed_running running swapped rotated header rotatedSound collected
  refine ((running'.autoCompact fun p present k under => ⟨collected.owned p present k under,
    .inr (unrecorded k)⟩).weakenCrash fun d' => lives).weaken ?_
  rintro s' d' ⟨img', same, files, maintained⟩
  refine ⟨img', _, same.start, files, maintained.running, maintained.owned, fun k present => ?_⟩
  have kept := maintained.keys k present
  rw [kept, collected.shrunk _ ((mem_congr kept).mp present), rotated _ (by simp),
    swapped.other _ (by simp) (by simp) (by simp)]
  exact inv.same (.dek k) rfl

end Quiver.Core
