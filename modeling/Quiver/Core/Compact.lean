import Quiver.Core.Compaction

/-!
Whole compactions. At every point in between the directory holds an image of the
same content, and at the end the store runs on a new one.
-/

namespace Quiver.Core

open FileSystem FramedLog Prog
open Std (ExtTreeMap)

variable {encoding : Encoding} {ring : KeyRing} {s : Store} {img img' : Image} {mem : Logical}
  {d d' : DataDir} {c : CollectionState}

/-- The images recover to the same content. -/
structure Image.Same (img img' : Image) : Prop where
  start : img'.start = img.start
  next : img'.next = img.next
  tail : img'.tail = img.tail
  pending : img'.pending = img.pending

theorem Image.Same.refl (img : Image) : img.Same img := ⟨rfl, rfl, rfl, rfl⟩

variable (encoding ring) in
/-- The directory holds an image of the same content. -/
def Image.Lives (img : Image) (d : DataDir) : Prop :=
  ∃ img', img.Same img' ∧ img'.On encoding ring d ∧ img'.Sound encoding

/-- Directories belong to collections of the manifest, and if keys can be destroyed, to none that a
live record creates. -/
def Image.Owned (ring : KeyRing) (img : Image) (d : DataDir) : Prop :=
  ∀ p ∈ d, ∀ k, p.collection? = some k → img.mfst.isLive k = true ∧
    (ring.shredCollection k = [] ∨ ¬ Created (img.tail ++ img.pending) k)

theorem Running.not_created_pending (running : Running encoding ring s d img mem) (k : CollectionId) :
    ¬ Created img.pending k := by
  rintro ⟨op, member, creates⟩
  have writes := running.ghosts op member
  cases op with
  | createCollection j name bytes => exact writes
  | _ => exact creates

theorem Running.compacting (running : Running encoding ring s d img mem)
    (found : s.catalog.collections[c.id]? = some c) (old : ¬ Created img.tail c.id) {merged : List SealRow}
    {rows : List (List SealRow)} (inv : c.Inv rows) (distinct : (merged.map (·.externalId)).Nodup)
    (members : ∀ r, r ∈ merged ↔ ∃ seg row, c.LiveAt rows seg row r) (ref : SegmentRef)
    (isNext : ref.id = s.nextSegmentId)
    (loads : loadSegment d' c.id ref.id c.codec =
      .ok (sealedSegment ref.id merged c.descriptor.filterable ∅))
    (settled : ∀ part, Settled d' (.segment c.id ref.id part)) :
    ∃ points, Compacting s img d' c ref (sealedSegment ref.id merged c.descriptor.filterable ∅) points := by
  have strides : ∀ row ∈ merged, row.vector.length = c.stride := by
    intro r member
    obtain ⟨seg, row, live⟩ := (members r).mp member
    obtain ⟨ids, inside, atRow⟩ := CollectionState.cell_eq_some.mp live.stored
    exact inv.sealedStride ids (List.mem_of_getElem? inside) r (List.mem_of_getElem? atRow)
  have holds : (sealedSegment ref.id merged c.descriptor.filterable ∅).Holds c.stride merged :=
    sealedSegment_holds distinct strides
  obtain ⟨_, base⟩ | ⟨created, _⟩ := running.backed.sealed found
  · obtain ⟨e, loaded, stands⟩ := running.sound.represents.some_left base
    obtain ⟨points, disk, kept⟩ := stands.points.replaceSegments_base ref inv holds rfl members
    refine ⟨points, found, old, isNext, loads, settled, disk, ?_, ?_⟩
    · intro e' loaded' id spared
      rw [loaded] at loaded'
      cases loaded'
      exact kept id spared
    · rintro m ⟨rows', inv', content⟩
      obtain rfl : rows' = rows := CollectionState.held_unique inv'.held inv.held
      exact (CollectionState.merging_replaceSegments holds rfl members).represents inv' content
  · exact absurd created old

variable {cid : CollectionId}

theorem Running.unseen (running : Running encoding ring s d img mem)
    {part : SegmentPart} : ¬ img.Needed (.segment cid s.nextSegmentId part) := by
  rintro ⟨_, entry, member, _, ref, inside, isId⟩
  have below := running.sound.refs entry member ref inside
  rw [isId] at below
  exact absurd running.nextSegment (Nat.not_le.mpr below)

/-- The directory of a collection has grown by files that the image does not see. -/
structure Image.Grown (img : Image) (cid : CollectionId) (d d' : DataDir) : Prop where
  same : ∀ p, img.Needed p → d'[p]? = d[p]?
  outside : ∀ p : Path, p.collection? = none → d'[p]? = d[p]?
  wrote : ∀ p ∈ d', p ∈ d ∨ p.collection? = some cid

theorem Image.Grown.trans {mid : DataDir} (first : img.Grown cid d mid)
    (second : img.Grown cid mid d') : img.Grown cid d d' where
  same p needed := (second.same p needed).trans (first.same p needed)
  outside p isOutside := (second.outside p isOutside).trans (first.outside p isOutside)
  wrote p present := (second.wrote p present).elim (first.wrote p) .inr

theorem Image.Grown.applyAll {effects : List (Effect Path Chunk)}
    (beside : ∀ e ∈ effects, ∀ p, e.Touches p → ¬ img.Needed p ∧ p.collection? = some cid) (d : DataDir)
    (count : Nat) : img.Grown cid d (FileSystem.applyAll d (effects.take count)) where
  same p needed := applyAll_untouched (fun e member touches =>
    (beside e (List.mem_of_mem_take member) p touches).1 needed) d
  outside p isOutside := by
    refine applyAll_untouched (fun e member touches => ?_) d
    have under := (beside e (List.mem_of_mem_take member) p touches).2
    rw [isOutside] at under
    contradiction
  wrote p present := by
    by_cases touched : ∃ e ∈ effects.take count, e.Touches p
    · obtain ⟨e, member, touches⟩ := touched
      exact .inr (beside e (List.mem_of_mem_take member) p touches).2
    · refine .inl ((mem_congr (applyAll_untouched (fun e member touches => ?_) d)).mp present)
      exact touched ⟨e, member, touches⟩

theorem Catalog.Represents.replace {cat : Catalog} (represents : cat.Represents mem)
    (found : cat.collections[c.id]? = some c) {c' : CollectionState} (isId : c'.id = c.id)
    (isName : c'.name = c.name) (isDescriptor : c'.descriptor = c.descriptor)
    (points : ∀ m, c.Represents m → c'.Represents m) :
    Catalog.Represents { cat with collections := cat.collections.insert c.id c' } mem := by
  refine ⟨represents.names, fun k => ?_⟩
  simp only [Maps.get_insert]
  split
  case isTrue same =>
    obtain ⟨e, held, stands⟩ := represents.some_left found
    rw [← same, held]
    exact .some ⟨isId, isName.trans stands.name, isDescriptor.trans stands.descriptor, points _ stands.points⟩
  case isFalse => exact represents.collections k

variable (encoding ring) in
/-- A store after maintenance: it runs on the new image, its directories are owned, and every key
that is left is the one that was there. -/
structure Maintained (d : DataDir) (mem : Logical) (img' : Image) (s' : Store) (d' : DataDir) : Prop where
  running : Running encoding ring s' d' img' mem
  owned : img'.Owned ring d'
  keys : ∀ k, Path.dek k ∈ d' → d'[Path.dek k]? = d[Path.dek k]?

namespace Compacting

variable {ref : SegmentRef} {seg : SealedSegment} {points : ExtTreeMap String Record} {mid : DataDir}

theorem same (_ : Compacting s img mid c ref seg points) (running : Running encoding ring s d img mem) :
    img.Same (image encoding img s mem c.id ref seg points) :=
  ⟨rfl, rfl, Image.live_congr running.floor, Image.live_congr running.floor⟩

section

variable (compacting : Compacting s img mid c ref seg points) (running : Running encoding ring s d img mem)
include compacting running

theorem on (unchanged : ∀ p, img.Needed p → mid[p]? = d[p]?)
    (swapped : Swapped (s.compactedManifest encoding c.id ref) mid d') :
    (image encoding img s mem c.id ref seg points).On encoding ring d' := by
  have on := running.on.congr unchanged
  have isSame := compacting.same running
  refine on.swapped swapped rfl rfl ?_ ?_ ?_ ?_
  · change loadCatalog encoding ring d' (Store.manifest encoding
      { s with nextSegmentId := s.nextSegmentId + 1 } s.lastCheckpointedLsn
      (fun other => if other.id = c.id then [ref] else other.segmentsMeta) (·.indexSnapshot)) = .ok ⟨_, _⟩
    refine loadCatalog_manifest running.represents
      running.indexed ?_ fun other found => ?_
    · exact (compacting.sound running).distinct
    refine (compacting.loaded running unchanged found).congr (swapped.other _ (by simp) (by simp) (by simp))
      fun r inside part _ => swapped.other _ (by simp) (by simp) (by simp)
  · intro k
    rw [isSame.tail, isSame.pending]
    exact fun created => created
  · intro entry member r inside part notTmp
    obtain ⟨other, found, rfl⟩ := (mem_manifest running.represents).mp member
    change r ∈ (if other.id = c.id then [ref] else other.segmentsMeta) at inside
    split at inside
    case isTrue isCid =>
      obtain rfl := List.mem_singleton.mp inside
      change Settled mid (.segment other.id r.id part)
      rw [isCid]
      exact compacting.settled part
    case isFalse =>
      obtain ⟨_, _, entry, member, isId, loaded⟩ | ⟨_, bare⟩ := running.loaded found
      · refine on.segments ⟨notTmp, entry, member, isId, r, ?_, rfl⟩
        rw [← loaded.segments]
        exact inside
      · rw [bare.segments] at inside
        contradiction
  · intro entry member
    obtain ⟨other, found, rfl⟩ := (mem_manifest running.represents).mp member
    exact on.deks (running.on.needsKey running.backed found)

theorem owned (owned : img.Owned ring d) (grown : img.Grown c.id d mid)
    (swapped : Swapped (s.compactedManifest encoding c.id ref) mid d') {p : Path} (present : p ∈ d')
    {k : CollectionId} (under : p.collection? = some k) :
    ring.shredCollection k = [] ∨ ¬ Created (img.tail ++ img.pending) k := by
  have before : p ∈ mid := by
    refine (mem_congr (swapped.other p ?_ ?_ ?_)).mp present <;>
      · rintro rfl
        simp [Path.collection?] at under
  obtain old | new := grown.wrote p before
  · exact (owned p old k under).2
  · rw [under] at new
    cases new
    rw [created_append, not_or]
    exact .inr ⟨compacting.old, running.not_created_pending _⟩

theorem runs (unchanged : ∀ p, img.Needed p → mid[p]? = d[p]?)
    (swapped : Swapped (s.compactedManifest encoding c.id ref) mid d') {d'' : DataDir}
    (collected : (image encoding img s mem c.id ref seg points).Collected encoding ring d' d'') :
    Running encoding ring { s with
        nextSegmentId := s.nextSegmentId + 1
        manifestVersion := s.manifestVersion + 1
        catalog := { s.catalog with
          collections := s.catalog.collections.insert c.id (c.replaceSegments ref seg) } } d''
      (image encoding img s mem c.id ref seg points) mem := by
  have isSame := compacting.same running
  have key : ∀ {k : CollectionId} {other : CollectionState}, s.catalog.collections[k]? = some other →
      d''[Path.dek k]? = d[Path.dek k]? := by
    intro k other found
    have isId := running.represents.id_eq found
    have entry : collectionEntry encoding other (if other.id = c.id then [ref] else other.segmentsMeta)
        other.indexSnapshot ∈ (s.compactedManifest encoding c.id ref).collections :=
      (mem_manifest running.represents).mpr
        ⟨other, isId.symm ▸ found, rfl⟩
    rw [collected.same (.dek k) (.inl ⟨_, entry, isId⟩), swapped.other _ (by simp) (by simp) (by simp)]
    exact unchanged _ (running.on.needsKey running.backed found)
  constructor
  · exact collected.on
  · exact compacting.sound running
  · exact running.keyring
  · exact running.represents.replace compacting.found rfl rfl rfl compacting.memory
  · rw [isSame.tail]
    have backed := running.backed.congr key
    constructor
    · intro k other found
      obtain ⟨rfl, rfl⟩ | ⟨_, found⟩ := Maps.of_insert found
      · exact backed.codec (c := c) compacting.found
      · exact backed.codec found
    · intro k other found
      simp only [image, Image.remade, ExtTreeMap.getElem?_map]
      obtain ⟨rfl, rfl⟩ | ⟨notCid, found⟩ := Maps.of_insert found
      · refine .inl ⟨compacting.old, ?_⟩
        rw [compacting.found, Option.map_some, CollectionState.compacted, if_pos rfl]
      · refine (running.backed.sealed found).imp_left fun base => ⟨base.1, ?_⟩
        have isId := running.represents.id_eq found
        rw [found, Option.map_some, CollectionState.compacted, if_neg (isId ▸ Ne.symm notCid)]
    · intro k other id found killed
      obtain ⟨_, rfl⟩ | ⟨_, found⟩ := Maps.of_insert found
      · exact absurd killed (CollectionState.not_killed_of_empty rfl id)
      · exact running.backed.window found killed
  · rw [isSame.pending]
    exact running.ghosts
  · rw [isSame.tail, isSame.pending]
    exact running.sameCatalog
  · rfl
  · rfl
  · exact running.nextLsn
  · exact running.lsns
  · rw [isSame.tail, isSame.pending]
    exact running.nextCollection
  · exact Nat.le_refl _
  · exact collected.fresh (compacting.sound running)
  · obtain ⟨older, file, baseLsn, writer⟩ := running.writer
    refine ⟨older, file, baseLsn, { writer with stored := ?_ }⟩
    rw [collected.same (.wal _) trivial, swapped.other _ (by simp) (by simp) (by simp), unchanged (.wal _) trivial]
    exact writer.stored

theorem publish (isOwned : img.Owned ring d) (grown : img.Grown c.id d mid) :
    (do
      performAll (writeManifest (s.compactedManifest encoding c.id ref))
      gcOrphanSegments ring (s.compactedManifest encoding c.id ref)
      gcOrphanIndexSnapshots (s.compactedManifest encoding c.id ref)
      return { s with
        nextSegmentId := s.nextSegmentId + 1
        manifestVersion := s.manifestVersion + 1
        catalog := { s.catalog with
          collections := s.catalog.collections.insert c.id (c.replaceSegments ref seg) } } : Io Store).Spec
      mid (img.Lives encoding ring) fun s' d' =>
        ∃ img', img.Same img' ∧ img'.files = img.files ∧ Maintained encoding ring d mem img' s' d' := by
  have isSame := compacting.same running
  refine writeManifest_bind (fun d' same => ?_) fun d₃ swapped => ?_
  · refine ⟨img, .refl img, (running.on.congr grown.same).congr fun p needed => same p ?_ ?_, running.sound⟩
    · rintro rfl
      exact needed
    · rintro rfl
      have isVersion : s.manifestVersion + 1 = img.mfst.version := needed
      rw [← running.version] at isVersion
      exact absurd isVersion (Nat.succ_ne_self _)
  have on := compacting.on running grown.same swapped
  have unrecorded : ∀ p ∈ d₃, ∀ k, p.collection? = some k → ring.shredCollection k = [] ∨
      ¬ Created ((image encoding img s mem c.id ref seg points).tail ++
        (image encoding img s mem c.id ref seg points).pending) k := by
    intro p present k under
    rw [isSame.tail, isSame.pending]
    exact compacting.owned running isOwned grown swapped present under
  have safe : (image encoding img s mem c.id ref seg points).KeySafe ring d₃ := by
    intro k created
    by_cases listed : k ∈ collectionDirs d₃
    · obtain ⟨p, present, under⟩ := mem_collectionDirs.mp listed
      exact .inr (.inl ((unrecorded p present k under).resolve_right (not_not_intro created)))
    · exact .inr (.inr listed)
  refine on.gc_bind safe (fun d' on' => ⟨_, isSame, on', compacting.sound running⟩) fun d₄ collected => ?_
  refine spec_pure ⟨_, isSame, collected.on, compacting.sound running⟩
    ⟨_, isSame, rfl, compacting.runs running grown.same swapped collected, ?_, ?_⟩
  · intro p present k under
    exact ⟨collected.owned p present k under,
      unrecorded p ((mem_congr (collected.shrunk p present)).mp present) k under⟩
  · intro k present
    rw [collected.shrunk _ present, swapped.other _ (by simp) (by simp) (by simp)]
    exact grown.outside _ rfl

end

end Compacting

theorem Running.compactCollection (running : Running encoding ring s d img mem) (owned : img.Owned ring d)
    (found : s.catalog.collections[c.id]? = some c) (nonempty : c.sealed ≠ []) :
    (s.compactCollection encoding c.id).Spec d (img.Lives encoding ring) fun s' d' =>
      ∃ img', img.Same img' ∧ img'.files = img.files ∧ Maintained encoding ring d mem img' s' d' := by
  have old : ¬ Created img.tail c.id := by
    intro created
    obtain ⟨fresh, _⟩ | ⟨_, bare⟩ := running.backed.sealed found
    · exact fresh created
    · exact nonempty bare.sealed
  obtain ⟨rows, inv⟩ := running.inv found
  obtain ⟨merged, isMerged, distinct, members⟩ := inv.mergedRows
  obtain rfl := running.keyring
  have lives : ∀ {d'}, img.Grown c.id d d' → img.Lives encoding s.keyring d' :=
    fun grown => ⟨img, .refl img, running.on.congr grown.same, running.sound⟩
  simp only [Store.compactCollection]
  refine spec_read_bind (by rw [found]) (spec_read_bind isMerged ?_)
  -- Up to the swap only new paths are written.
  have dirs : ∀ e ∈ [Effect.mkdir (.collectionDir c.id), .mkdir (.segmentsDir c.id)], ∀ p : Path,
      (e : Effect Path Chunk).Touches p → ¬ img.Needed p ∧ p.collection? = some c.id := by
    intro e member p touches
    simp only [List.mem_cons, List.not_mem_nil, or_false] at member
    obtain rfl | rfl := member <;> cases touches <;> exact ⟨id, rfl⟩
  have segment : ∀ e ∈ writeSegment c.id s.nextSegmentId c.codec
      (segmentFiles s.nextSegmentId merged c.descriptor.filterable), ∀ p : Path, e.Touches p →
      ¬ img.Needed p ∧ p.collection? = some c.id := by
    intro e member p touches
    obtain ⟨part, rfl, _⟩ := writeSegment_touches member touches
    exact ⟨running.unseen, rfl⟩
  refine spec_performAll_bind (fun count => lives (.applyAll dirs d count)) ?_
  have grown₁ := Image.Grown.applyAll dirs d 2
  have fresh : ∀ part, (applyAll d [.mkdir (.collectionDir c.id), .mkdir (.segmentsDir c.id)])[Path.segment c.id
      s.nextSegmentId part]? = none := by
    intro part
    rw [applyAll_untouched]
    · exact running.fresh (Nat.le_refl _)
    · intro e member touches
      simp only [List.mem_cons, List.not_mem_nil, or_false] at member
      obtain rfl | rfl := member <;> cases touches
  change img.Grown c.id d (applyAll d [.mkdir (.collectionDir c.id), .mkdir (.segmentsDir c.id)]) at grown₁
  generalize applyAll d [.mkdir (.collectionDir c.id), .mkdir (.segmentsDir c.id)] = d₁ at grown₁ fresh ⊢
  refine spec_performAll_bind (fun count => lives (grown₁.trans (.applyAll segment d₁ count))) ?_
  have loads := loadSegment_writeSegment c.codec merged c.descriptor.filterable fresh
  have settled := settled_writeSegment c.codec (segmentFiles s.nextSegmentId merged c.descriptor.filterable) fresh
  have grown := grown₁.trans (.applyAll segment d₁ (writeSegment c.id s.nextSegmentId c.codec
    (segmentFiles s.nextSegmentId merged c.descriptor.filterable)).length)
  rw [List.take_length] at grown
  generalize applyAll d₁ (writeSegment c.id s.nextSegmentId c.codec
    (segmentFiles s.nextSegmentId merged c.descriptor.filterable)) = d₂ at loads settled grown ⊢
  refine spec_read_bind loads ?_
  obtain ⟨points, compacting⟩ := running.compacting found old inv distinct members ⟨s.nextSegmentId,
    merged.length, (c.segmentsMeta.map (·.lsnLow)).min?.getD 0,
    (c.segmentsMeta.map (·.lsnHigh)).max?.getD s.lastCheckpointedLsn⟩ rfl loads settled
  exact compacting.publish running owned grown

theorem Image.Same.trans {img'' : Image} (first : img.Same img') (second : img'.Same img'') : img.Same img'' :=
  ⟨second.start.trans first.start, second.next.trans first.next, second.tail.trans first.tail,
    second.pending.trans first.pending⟩

theorem Image.Lives.of_same (same : img.Same img') (lives : img'.Lives encoding ring d) :
    img.Lives encoding ring d := by
  obtain ⟨last, isSame, held⟩ := lives
  exact ⟨last, same.trans isSame, held⟩

section

variable (running : Running encoding ring s d img mem)
include running

theorem Running.lives : img.Lives encoding ring d :=
  ⟨img, .refl img, running.on, running.sound⟩

theorem Running.found_of_any
    {test : CollectionState → Bool} (any : (s.catalog.collections[cid]?).any test = true) :
    ∃ c, c.id = cid ∧ s.catalog.collections[c.id]? = some c ∧ test c = true := by
  obtain ⟨c, found, passes⟩ := (Option.any_eq_true _ _).mp any
  have isId := running.represents.id_eq found
  exact ⟨c, isId, isId.symm ▸ found, passes⟩

theorem Running.autoCompact (owned : img.Owned ring d) :
    (s.autoCompact encoding).Spec d (img.Lives encoding ring) fun s' d' =>
      ∃ img', img.Same img' ∧ img'.files = img.files ∧ Maintained encoding ring d mem img' s' d' := by
  simp only [Store.autoCompact]
  split
  case h_1 cid isFirst =>
    have needs : s.needsCompaction cid = true := List.find?_some isFirst
    obtain ⟨c, rfl, found, passes⟩ := running.found_of_any needs
    refine running.compactCollection owned found fun empty => ?_
    simp [empty] at passes
  case h_2 =>
    exact spec_pure running.lives ⟨img, .refl img, rfl, running, owned, fun _ _ => rfl⟩

theorem Running.compact (owned : img.Owned ring d) :
    (s.compact encoding).Spec d (img.Lives encoding ring) fun s' d' =>
      ∃ img', img.Same img' ∧ img'.files = img.files ∧ Maintained encoding ring d mem img' s' d' := by
  refine spec_foldlM (fun _ s' d' => ∃ img', img.Same img' ∧ img'.files = img.files ∧
    Maintained encoding ring d mem img' s' d') ⟨img, .refl img, rfl, running, owned, fun _ _ => rfl⟩ ?_ ?_
  · rintro _ s' d' ⟨img', same, _, maintained⟩
    exact maintained.running.lives.of_same same
  · rintro _ cid _ s' d' _ ⟨img', same, files, maintained⟩
    split
    case isTrue reclaimable =>
      obtain ⟨c, rfl, found, passes⟩ := maintained.running.found_of_any reclaimable
      refine ((maintained.running.compactCollection maintained.owned found fun empty => ?_).weakenCrash
        fun d'' lives => lives.of_same same).weaken ?_
      · simp [empty] at passes
      · rintro s'' d'' ⟨img'', same', files', after⟩
        refine ⟨img'', same.trans same', files'.trans files, after.running, after.owned, fun k present => ?_⟩
        have kept := after.keys k present
        exact kept.trans (maintained.keys k ((mem_congr kept).mp present))
    case isFalse =>
      exact spec_pure (maintained.running.lives.of_same same) ⟨img', same, files, maintained⟩

end

end Quiver.Core
