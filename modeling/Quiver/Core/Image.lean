import Quiver.Core.Loading

/-!
The image of a data directory: the manifest and the catalog it loads to, the log files with their
durable and pending records, and the logical state they were logged from. It determines what
recovery yields, and stays through everything that does not touch its paths.
-/

namespace Quiver.Core

open FileSystem
open Std (ExtTreeMap)

structure Image where
  mfst : Manifest
  base : Catalog
  files : List LoggedFile
  /-- The logical state at the last checkpoint, and its id allocator. -/
  start : Logical
  next : CollectionId
  /-- What the base catalog stands for. -/
  loaded : Logical

namespace Image

/-- The operations of the records above the checkpoint. -/
def live (img : Image) (entries : List WalEntry) : List WalOp :=
  (entries.filter (img.mfst.lastCheckpointedLsn < ·.lsn)).map (·.op)

/-- The durable operations since the checkpoint. -/
def tail (img : Image) : List WalOp := img.live (img.files.flatMap (·.synced))

/-- The operations appended but not synced. -/
def pending (img : Image) : List WalOp := img.live (img.files.flatMap (·.unsynced))

theorem live_append (img : Image) (first second : List WalEntry) :
    img.live (first ++ second) = img.live first ++ img.live second := by
  simp [live]

theorem live_flatMap_eq_nil {img : Image} {part : LoggedFile → List WalEntry}
    (none : ∀ file ∈ img.files, img.live (part file) = []) : img.live (img.files.flatMap part) = [] := by
  rw [live, List.filter_flatMap, List.map_flatMap, List.flatMap_eq_nil_iff]
  exact none

theorem pending_eq_nil {img : Image} (rest : ∀ file ∈ img.files, file.unsynced = []) : img.pending = [] :=
  live_flatMap_eq_nil fun file member => by rw [rest file member]; rfl

theorem live_prefix (img : Image) {first second : List WalEntry} (isPrefix : first <+: second) :
    img.live first <+: img.live second := (isPrefix.filter _).map _

/-- The paths recovery reads. -/
def Needed (img : Image) : Path → Prop
  | .current => True
  | .manifest version => version = img.mfst.version
  | .wal _ => True
  | .segment cid seg part => part ≠ .delTmp ∧
      ∃ entry ∈ img.mfst.collections, entry.id = cid ∧ ∃ ref ∈ entry.segments, ref.id = seg
  | .dek cid => (∃ entry ∈ img.mfst.collections, entry.id = cid) ∨ Created (img.tail ++ img.pending) cid
  | _ => False

section

variable (encoding : Encoding) (ring : KeyRing)

/-- The directory holds this image. -/
structure On (img : Image) (d : DataDir) : Prop where
  current : CurrentIs d img.mfst
  loads : loadCatalog encoding ring d img.mfst = .ok img.base
  listed : ∀ seq, Path.wal seq ∈ d ↔ ∃ file ∈ img.files, file.seq = seq
  logs : ∀ file ∈ img.files, file.On encoding d
  keys : ∀ k, Created (img.tail ++ img.pending) k → ∃ key, ring.collectionCodec d k = .ok key
  segments : ∀ {cid seg part}, img.Needed (.segment cid seg part) → Settled d (.segment cid seg part)
  deks : ∀ {cid}, img.Needed (.dek cid) → Settled d (.dek cid)

/-- What holds of an image in itself: replaying its records over what it loads gives the state
they were logged in. -/
structure Sound (img : Image) : Prop where
  ordered : img.files.Pairwise fun a b => a.seq < b.seq
  lastOnly : img.files.Pairwise fun a _ => img.live a.unsynced = []
  indexed : img.start.Indexed
  below : img.start.Below img.next
  nextId : img.next ≤ img.mfst.nextCollectionId
  valid : img.start.Valid encoding img.next (img.tail ++ img.pending)
  absorbs : Absorbs img.tail img.start img.loaded
  represents : img.base.Represents img.loaded
  settled : ∀ {k : CollectionId} {c : CollectionState}, img.base.collections[k]? = some c → c.base = c
  bare : ∀ {k : CollectionId} {c : CollectionState}, img.base.collections[k]? = some c →
    Created img.tail k → c.Bare
  refs : ∀ entry ∈ img.mfst.collections, ∀ ref ∈ entry.segments, ref.id < img.mfst.nextSegmentId
  distinct : img.mfst.Distinct

end

variable {encoding : Encoding} {ring : KeyRing} {img : Image} {d d' : DataDir}

theorem On.congr (on : img.On encoding ring d) (same : ∀ p, img.Needed p → d'[p]? = d[p]?) :
    img.On encoding ring d' where
  current := by
    obtain ⟨missing, empty⟩ | ⟨pointer, stored, version⟩ := on.current
    · exact .inl ⟨(same .current trivial).trans missing, empty⟩
    · exact .inr ⟨(same .current trivial).trans pointer, (same (.manifest _) rfl).trans stored, version⟩
  loads := by
    rw [← on.loads]
    refine loadCatalog_congr (fun entry member => ?_) fun entry member ref inside part notTmp => ?_
    · exact same (.dek entry.id) (.inl ⟨entry, member, rfl⟩)
    · exact same (.segment _ _ _) ⟨notTmp, entry, member, rfl, ref, inside, rfl⟩
  listed seq := by
    rw [← on.listed seq]
    exact mem_congr (same (.wal seq) trivial)
  logs file member := by
    obtain ⟨f, found, reads⟩ := on.logs file member
    exact ⟨f, (same (.wal file.seq) trivial).trans found, reads⟩
  keys k created := by
    rw [collectionCodec_congr (same (.dek k) (.inr created))]
    exact on.keys k created
  segments needed f found := on.segments needed f ((same _ needed).symm.trans found)
  deks needed f found := on.deks needed f ((same _ needed).symm.trans found)

variable {files : List LoggedFile}

/-- The log files after a crash: all durable records, and some of those not yet synced. -/
theorem crash_files (logs : ∀ file ∈ files, file.On encoding d)
    (lastOnly : files.Pairwise fun a _ => img.live a.unsynced = []) (crashed : Crashed d d') :
    ∃ (files' : List LoggedFile) (kept : List WalOp), kept <+: img.live (files.flatMap (·.unsynced)) ∧
      img.live (files'.flatMap (·.synced)) = img.live (files.flatMap (·.synced)) ++ kept ∧
      files'.map (·.seq) = files.map (·.seq) ∧
      ∀ file ∈ files', file.unsynced = [] ∧ file.On encoding d' := by
  induction files with
  | nil => exact ⟨[], [], List.prefix_refl _, rfl, rfl, by simp⟩
  | cons file files ih =>
    obtain ⟨settled, lastOnly⟩ := List.pairwise_cons.mp lastOnly
    obtain ⟨part, isPart, on⟩ := (logs file (List.mem_cons_self ..)).crashed encoding crashed
    obtain ⟨files', kept, isKept, synced, seqs, all⟩ :=
      ih (fun file member => logs file (List.mem_cons_of_mem _ member)) lastOnly
    have isLive := img.live_prefix isPart
    have later : ∀ other ∈ (⟨file.seq, file.synced ++ part, []⟩ :: files' : List LoggedFile),
        other.unsynced = [] ∧ other.On encoding d' := by
      intro other member
      obtain rfl | inside := List.mem_cons.mp member
      · exact ⟨rfl, on⟩
      · exact all other inside
    by_cases last : files = []
    · subst last
      have none : files' = [] := List.map_eq_nil_iff.mp seqs
      subst none
      exact ⟨[⟨file.seq, file.synced ++ part, []⟩], img.live part, by simpa using isLive,
        by simp [live_append], rfl, later⟩
    · -- A file before the last has no live record pending.
      obtain ⟨other, inside⟩ := List.exists_mem_of_ne_nil files last
      have nothing := settled other inside
      rw [nothing, List.prefix_nil] at isLive
      refine ⟨_, kept, ?_, ?_, ?_, later⟩
      · simpa [live_append, nothing] using isKept
      · simp [live_append, synced, isLive]
      · simp [seqs]

theorem Sound.applyAll_indexed (sound : img.Sound encoding) :
    (img.start.applyAll encoding (img.tail ++ img.pending)).Indexed ∧
      (img.start.applyAll encoding (img.tail ++ img.pending)).Below
        ((img.tail ++ img.pending).foldl WalOp.nextId img.next) :=
  sound.valid.indexed sound.indexed sound.below

theorem Sound.not_created_later (sound : img.Sound encoding) {k : CollectionId} {e : LogicalCollection}
    (loaded : img.loaded.collections[k]? = some e) (notBefore : ¬ Created img.tail k)
    {later : List WalOp} (isPrefix : later <+: img.pending) : ¬ Created later k := by
  intro created
  obtain ⟨rest, whole⟩ := isPrefix
  obtain ⟨_, start, _⟩ := (sound.absorbs.collection k notBefore).held loaded
  refine Absorbs.not_created_again sound.below sound.valid start ?_
  rw [← whole, created_append, created_append]
  exact .inr (.inl created)

/-- A collection's key is there, and settled. -/
def HasKey (ring : KeyRing) (d : DataDir) (k : CollectionId) : Prop :=
  (∃ key, ring.collectionCodec d k = .ok key) ∧ Settled d (.dek k)

/-- Other log files with the same records, or with some of the pending ones gone or synced. -/
theorem On.withFiles (on : img.On encoding ring d) (current : CurrentIs d' img.mfst)
    (segments : ∀ {cid seg part}, img.Needed (.segment cid seg part) →
      d'[Path.segment cid seg part]? = d[Path.segment cid seg part]?)
    (deks : ∀ {cid}, img.Needed (.dek cid) → d'[Path.dek cid]? = d[Path.dek cid]?)
    (created : ∀ {k}, Created (Image.tail { img with files } ++ Image.pending { img with files }) k →
      Created (img.tail ++ img.pending) k ∨ HasKey ring d' k)
    (listed : ∀ seq, Path.wal seq ∈ d' ↔ ∃ file ∈ files, file.seq = seq)
    (logs : ∀ file ∈ files, file.On encoding d') : On encoding ring { img with files } d' := by
  constructor
  · exact current
  · refine Eq.trans ?_ on.loads
    refine loadCatalog_congr (fun entry member => ?_) fun entry member ref inside part notTmp => ?_
    · exact deks (.inl ⟨entry, member, rfl⟩)
    · exact segments ⟨notTmp, entry, member, rfl, ref, inside, rfl⟩
  · exact listed
  · exact logs
  · intro k here
    obtain before | ⟨key, _⟩ := created here
    · rw [collectionCodec_congr (deks (.inr before))]
      exact on.keys k before
    · exact key
  · intro cid seg part here f found
    exact on.segments here f ((segments here).symm.trans found)
  · intro cid here f found
    have known : img.Needed (.dek cid) ∨ HasKey ring d' cid := by
      obtain present | logged := here
      · exact .inl (.inl present)
      · exact (created logged).imp_left .inr
    obtain before | ⟨_, settled⟩ := known
    · exact on.deks before f ((deks before).symm.trans found)
    · exact settled f found

theorem Sound.withFiles (sound : img.Sound encoding) (kept : List WalOp)
    (ordered : files.Pairwise fun a b => a.seq < b.seq)
    (lastOnly : files.Pairwise fun a _ => img.live a.unsynced = [])
    (tail : Image.tail { img with files } = img.tail ++ kept)
    (pending : kept ++ Image.pending { img with files } <+: img.pending) :
    Sound encoding { img with files } := by
  obtain ⟨rest, whole⟩ := pending
  have valid : img.start.Valid encoding img.next
      (img.tail ++ kept ++ Image.pending { img with files }) := by
    have := sound.valid
    rw [← whole, ← List.append_assoc, Logical.Valid.append_iff, ← List.append_assoc] at this
    exact this.1
  constructor
  · exact ordered
  · exact lastOnly
  · exact sound.indexed
  · exact sound.below
  · exact sound.nextId
  · rw [tail]
    exact valid
  · rw [tail]
    exact sound.absorbs.extend sound.below (Logical.Valid.append_iff.mp valid).1
  · exact sound.represents
  · exact sound.settled
  · intro k c found here
    rw [tail, created_append] at here
    by_cases before : Created img.tail k
    · exact sound.bare found before
    · obtain ⟨e, loaded, _⟩ := sound.represents.some_left found
      refine absurd (here.resolve_left before) (sound.not_created_later loaded before ?_)
      exact ⟨Image.pending { img with files } ++ rest, by rw [← List.append_assoc, whole]⟩
  · exact sound.refs
  · exact sound.distinct

/-- A crash keeps the image, up to records that were not synced. -/
theorem On.crashed (on : img.On encoding ring d) (sound : img.Sound encoding) (crashed : Crashed d d') :
    ∃ files kept, kept <+: img.pending ∧ (∀ file ∈ files, file.unsynced = []) ∧
      Image.tail { img with files } = img.tail ++ kept ∧ Image.pending { img with files } = [] ∧
      On encoding ring { img with files } d' ∧ Sound encoding { img with files } := by
  obtain ⟨files, kept, isKept, synced, seqs, all⟩ := crash_files on.logs sound.lastOnly crashed
  have tail : Image.tail { img with files } = img.tail ++ kept := synced
  have settled : ∀ file ∈ files, file.unsynced = [] := fun file member => (all file member).1
  have pending : Image.pending { img with files } = [] := pending_eq_nil settled
  refine ⟨files, kept, isKept, settled, tail, pending, ?_, ?_⟩
  · refine on.withFiles ?_ (fun here => (on.segments here).crashed crashed)
      (fun here => (on.deks here).crashed crashed) ?_ ?_ fun file member => (all file member).2
    · obtain ⟨missing, empty⟩ | ⟨pointer, stored, version⟩ := on.current
      · exact .inl ⟨crashed.missing missing, empty⟩
      · exact .inr ⟨crashed.synced pointer rfl, crashed.synced stored rfl, version⟩
    · intro k here
      obtain ⟨rest, whole⟩ : kept <+: img.pending := isKept
      rw [tail, pending, List.append_nil, created_append] at here
      rw [← whole, created_append, created_append]
      exact .inl (here.imp_right .inl)
    · intro seq
      have known : (∃ file ∈ files, file.seq = seq) ↔ ∃ file ∈ img.files, file.seq = seq := by
        rw [← List.mem_map, seqs, List.mem_map]
      rw [known, ← on.listed seq]
      constructor
      · exact crashed.mem_of_mem
      · intro present
        obtain ⟨f', found', _⟩ := crashed.found (ExtTreeMap.getElem?_eq_some_getElem present)
        exact ExtTreeMap.mem_iff_isSome_getElem?.mpr (found' ▸ rfl)
  · refine sound.withFiles kept ?_ ?_ tail ?_
    · have ordered := sound.ordered
      rw [← List.pairwise_map (f := fun file : LoggedFile => file.seq)] at ordered ⊢
      rw [seqs]
      exact ordered
    · refine List.pairwise_of_forall_mem_list fun a member _ _ => ?_
      rw [(all a member).1]
      rfl
    · rw [pending, List.append_nil]
      exact isKept

end Image

end Quiver.Core
