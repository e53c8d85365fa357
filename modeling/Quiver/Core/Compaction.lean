import Quiver.Core.Swap

/-!
Compaction: a collection's live sealed rows are merged into one new segment behind a manifest swap
that leaves the checkpoint where it is. What memory stands for does not change.
-/

namespace Quiver.Core

open FileSystem
open Std (ExtTreeMap)

variable {encoding : Encoding} {ring : KeyRing} {s : Store} {img img' : Image} {mem : Logical}
  {d d' : DataDir} {c : CollectionState} {cid : CollectionId}

theorem SameCatalog.trans {l l' l'' : Logical} (first : SameCatalog l l') (second : SameCatalog l' l'') :
    SameCatalog l l'' := by
  refine ⟨first.names.trans second.names, fun k => ?_⟩
  have one := first.collections k
  have two := second.collections k
  generalize l.collections[k]? = a at one ⊢
  generalize l'.collections[k]? = b at one two
  generalize l''.collections[k]? = c at two ⊢
  cases one with
  | none =>
    cases two
    exact .none
  | some same =>
    cases two with
    | some same' => exact .some ⟨same.1.trans same'.1, same.2.trans same'.2⟩

theorem Running.sameCatalog_tail (running : Running encoding ring s d img mem) :
    SameCatalog mem (img.start.applyAll encoding img.tail) := by
  have same := running.sameCatalog
  rw [Logical.applyAll_append] at same
  exact same.trans ((SameCatalog.refl _).writes running.ghosts).symm

/-- The image under a new manifest of the collections in memory, at the same checkpoint. -/
def Image.remade (img : Image) (s : Store) (m : Manifest) (final : CollectionState → CollectionState)
    (loaded : Logical) : Image :=
  { img with mfst := m, base := ⟨s.catalog.collections.map fun _ c => final c, s.catalog.nameIndex⟩, loaded }

theorem Image.live_congr {entries : List WalEntry}
    (floor : img'.mfst.lastCheckpointedLsn = img.mfst.lastCheckpointedLsn) :
    img'.live entries = img.live entries := by
  simp only [Image.live, floor]

/-- What the files of a collection hold, next to what memory has. -/
structure Remade (img : Image) (final : CollectionState → CollectionState) (c : CollectionState)
    (points : ExtTreeMap String Record) : Prop where
  id : (final c).id = c.id
  name : (final c).name = c.name
  descriptor : (final c).descriptor = c.descriptor
  settled : (final c).base = final c
  represents : (final c).Represents points
  untouched : ¬ Created img.tail c.id → ∀ e : LogicalCollection, img.loaded.collections[c.id]? = some e →
    ∀ id : String, ¬ Touched img.tail c.id id → points[id]? = e.points[id]?
  bare : Created img.tail c.id → (final c).Bare

/-- Replaying the log over the remade files still gives the logged state. -/
theorem Running.remade (running : Running encoding ring s d img mem) {m : Manifest}
    {final : CollectionState → CollectionState} {points : CollectionId → ExtTreeMap String Record}
    (floor : m.lastCheckpointedLsn = img.mfst.lastCheckpointedLsn)
    (nextCollection : m.nextCollectionId = s.nextCollectionId)
    (refs : ∀ entry ∈ m.collections, ∀ ref ∈ entry.segments, ref.id < m.nextSegmentId)
    (distinct : m.Distinct)
    (each : ∀ c, s.catalog.collections[c.id]? = some c → Remade img final c (points c.id)) :
    (img.remade s m final
      ⟨mem.names, mem.collections.map fun k e => { e with points := points k }⟩).Sound encoding := by
  have sameTail : (img.remade s m final
      ⟨mem.names, mem.collections.map fun k e => { e with points := points k }⟩).tail = img.tail :=
    Image.live_congr floor
  have samePending : (img.remade s m final
      ⟨mem.names, mem.collections.map fun k e => { e with points := points k }⟩).pending = img.pending :=
    Image.live_congr floor
  have sound := running.sound
  have valid := (Logical.Valid.append_iff.mp sound.valid).1
  have sameCatalog := running.sameCatalog_tail
  have known : ∀ {k : CollectionId} {e : LogicalCollection}, mem.collections[k]? = some e →
      ∃ c, s.catalog.collections[k]? = some c ∧ Stands k c e ∧ Remade img final c (points k) := by
    intro k e held
    obtain ⟨c, found, stands⟩ := running.represents.some_right held
    have remade := each c (stands.id.symm ▸ found)
    rw [stands.id] at remade
    exact ⟨c, found, stands, remade⟩
  constructor
  · exact sound.ordered
  · refine sound.lastOnly.imp fun {a b} nothing => ?_
    rw [← nothing]
    exact Image.live_congr floor
  · exact sound.indexed
  · exact sound.below
  · refine Nat.le_trans ?_ (Nat.le_trans running.nextCollection (Nat.le_of_eq nextCollection.symm))
    exact sound.valid.next_le
  · rw [sameTail, samePending]
    exact sound.valid
  · rw [sameTail]
    refine (Absorbs.self sound.indexed sound.below valid).thin sameCatalog.names fun k => ?_
    have after := (Absorbs.self sound.indexed sound.below valid).collection k
    have before := sound.absorbs.collection k
    have related := sameCatalog.collections k
    simp only [Image.remade, ExtTreeMap.getElem?_map]
    generalize held : mem.collections[k]? = entry at related ⊢
    generalize (img.start.applyAll encoding img.tail).collections[k]? = logged at related after ⊢
    cases related with
    | none => exact .none
    | some same =>
      obtain ⟨c, found, stands, remade⟩ := known held
      refine .some ⟨same.1, same.2, fun fresh id untouched => ?_⟩
      have isFresh : ¬ Created img.tail c.id := stands.id.symm ▸ fresh
      -- The loaded and the logged collection agree with the checkpointed one on untouched ids.
      obtain ⟨_, base⟩ | ⟨created, _⟩ := running.backed.sealed found
      · obtain ⟨e, loaded, _⟩ := sound.represents.some_left base
        have kept := remade.untouched isFresh e (stands.id.symm ▸ loaded) id (stands.id.symm ▸ untouched)
        have first := before fresh
        have second := after fresh
        rw [loaded] at first
        generalize img.start.collections[k]? = start at first second
        cases first with
        | both _ _ agree =>
          cases second with
          | both _ _ agree' => exact kept.trans ((agree id untouched).trans (agree' id untouched).symm)
      · exact absurd created fresh
  · refine ⟨running.represents.names, fun k => ?_⟩
    simp only [Image.remade, ExtTreeMap.getElem?_map]
    have related := running.represents.collections k
    generalize held : mem.collections[k]? = entry at related ⊢
    generalize found : s.catalog.collections[k]? = state at related ⊢
    cases related with
    | none => exact .none
    | some stands =>
      obtain ⟨c, found', _, remade⟩ := known held
      rw [found] at found'
      cases found'
      exact .some ⟨remade.id.trans stands.id, remade.name.trans stands.name,
        remade.descriptor.trans stands.descriptor, remade.represents⟩
  · intro k c found
    simp only [Image.remade, ExtTreeMap.getElem?_map, Option.map_eq_some_iff] at found
    obtain ⟨c, found, rfl⟩ := found
    exact (each c (running.represents.id_eq found ▸ found)).settled
  · intro k c found created
    rw [sameTail] at created
    simp only [Image.remade, ExtTreeMap.getElem?_map, Option.map_eq_some_iff] at found
    obtain ⟨c, found, rfl⟩ := found
    have isId := running.represents.id_eq found
    exact (each c (isId.symm ▸ found)).bare (isId.symm ▸ created)
  · exact refs
  · exact distinct

theorem SealedSegment.Holds.unique {seg : SealedSegment} {stride : Nat} {rows rows' : List SealRow}
    (first : seg.Holds stride rows) (second : seg.Holds stride rows') : rows = rows' := by
  have lengths : rows.length = rows'.length := first.rowCount.symm.trans second.rowCount
  refine List.ext_getElem lengths fun i bound bound' => ?_
  have here := List.getElem?_eq_getElem bound
  have here' := List.getElem?_eq_getElem bound'
  have ids := (first.readId here).symm.trans (second.readId here')
  have vectors := (first.readVector here).symm.trans (second.readVector here')
  have payloads := (first.readPayload here).symm.trans (second.readPayload here')
  generalize rows[i] = row at ids vectors payloads
  generalize rows'[i] = row' at ids vectors payloads
  obtain ⟨_, _, _⟩ := row
  obtain ⟨_, _, _⟩ := row'
  cases ids
  cases vectors
  cases payloads
  rfl

namespace CollectionState

variable {rows : List (List SealRow)} {merged : List SealRow} {seg : SealedSegment} {ref : SegmentRef}

theorem held_unique {stride : Nat} {segs : List SealedSegment} {rows rows' : List (List SealRow)}
    (first : List.Forall₂ (fun seg ids => seg.Holds stride ids) segs rows)
    (second : List.Forall₂ (fun seg ids => seg.Holds stride ids) segs rows') : rows = rows' := by
  induction first generalizing rows' with
  | nil =>
    cases second
    rfl
  | cons holds _ ih =>
    cases second with
    | cons holds' rest => rw [holds.unique holds', ih rest]

theorem merging_replaceSegments (holds : seg.Holds c.stride merged) (undead : seg.dead = ∅)
    (members : ∀ r, r ∈ merged ↔ ∃ seg row, c.LiveAt rows seg row r) :
    c.Merging (c.replaceSegments ref seg) rows merged :=
  ⟨⟨seg, rfl, holds, undead⟩, rfl, members, rfl, rfl, rfl⟩

theorem Represents.replaceSegments_base {m : ExtTreeMap String Record} (represents : c.base.Represents m)
    (ref : SegmentRef) (inv : c.Inv rows) (holds : seg.Holds c.stride merged) (undead : seg.dead = ∅)
    (members : ∀ r, r ∈ merged ↔ ∃ seg row, c.LiveAt rows seg row r) :
    ∃ m', (c.replaceSegments ref seg).base.Represents m' ∧
      ∀ id : String, ¬ c.Killed c.deadThisWindow id → m'[id]? = m[id]? := by
  obtain ⟨m', ⟨rows', inv', content⟩, same⟩ := represents.windowed (w := c.deadThisWindow) inv.window
  obtain rfl : rows' = rows := held_unique inv'.held inv.held
  have sameLive : ∀ i row r, (c.windowed c.deadThisWindow).LiveAt rows' i row r ↔ c.LiveAt rows' i row r :=
    fun i row r => ⟨fun live => ⟨live.stored, live.alive⟩, fun live => ⟨live.stored, live.alive⟩⟩
  have merging : (c.windowed c.deadThisWindow).Merging (c.replaceSegments ref seg).base rows' merged :=
    ⟨⟨seg, rfl, holds, undead⟩, rfl, by simpa only [sameLive] using members, rfl, rfl, rfl⟩
  exact ⟨m', merging.represents inv' content, same⟩

theorem not_killed_of_empty (empty : c.deadThisWindow = ∅) (id : String) :
    ¬ c.Killed c.deadThisWindow id := by
  rintro ⟨seg, row, s, inside, _⟩
  simp [empty] at inside

end CollectionState

theorem CollectionState.Bare.represents (bare : c.Bare) (settled : c.base = c) : c.Represents ∅ := by
  have isNew : c = .new c.id c.name c.descriptor c.codec := by
    rw [← settled]
    simp [CollectionState.base, CollectionState.new, bare.sealed, bare.segments, bare.snapshot]
  rw [isNew]
  exact Catalog.represents_new ..

/-- What the files of a collection hold once `cid` is compacted. -/
def CollectionState.compacted (cid : CollectionId) (ref : SegmentRef) (seg : SealedSegment)
    (c : CollectionState) : CollectionState :=
  if c.id = cid then (c.replaceSegments ref seg).base else c.base

/-- The points they hold, when those of `cid` are known. -/
def Image.compactedPoints (img : Image) (cid : CollectionId) (points : ExtTreeMap String Record)
    (k : CollectionId) : ExtTreeMap String Record :=
  if k = cid then points else (img.loaded.collections[k]?).elim ∅ (·.points)

/-- The merged segment is written and not yet referenced. -/
structure Compacting (s : Store) (img : Image) (d : DataDir) (c : CollectionState) (ref : SegmentRef)
    (seg : SealedSegment) (points : ExtTreeMap String Record) : Prop where
  found : s.catalog.collections[c.id]? = some c
  old : ¬ Created img.tail c.id
  id : ref.id = s.nextSegmentId
  loads : loadSegment d c.id ref.id c.codec = .ok seg
  settled : ∀ part, Settled d (.segment c.id ref.id part)
  disk : (c.replaceSegments ref seg).base.Represents points
  kept : ∀ e : LogicalCollection, img.loaded.collections[c.id]? = some e →
    ∀ id : String, ¬ c.Killed c.deadThisWindow id → points[id]? = e.points[id]?
  memory : ∀ m, c.Represents m → (c.replaceSegments ref seg).Represents m

namespace Compacting

variable {ref : SegmentRef} {seg : SealedSegment} {points : ExtTreeMap String Record}

variable {other : CollectionState}

theorem remade (compacting : Compacting s img d' c ref seg points)
    (running : Running encoding ring s d img mem)
    (found : s.catalog.collections[other.id]? = some other) :
    Remade img (CollectionState.compacted c.id ref seg) other (img.compactedPoints c.id points other.id) := by
  by_cases same : other.id = c.id
  · rw [same, compacting.found] at found
    cases found
    have isFinal : c.compacted c.id ref seg = (c.replaceSegments ref seg).base := if_pos rfl
    have isPoints : img.compactedPoints c.id points c.id = points := if_pos rfl
    rw [isPoints]
    constructor
    · rw [isFinal]; rfl
    · rw [isFinal]; rfl
    · rw [isFinal]; rfl
    · rw [isFinal]; rfl
    · rw [isFinal]
      exact compacting.disk
    · intro _ e loaded id untouched
      refine compacting.kept e loaded id fun killed => untouched ?_
      exact running.backed.window compacting.found killed
    · exact fun created => absurd created compacting.old
  · have isFinal : other.compacted c.id ref seg = other.base := if_neg same
    have isPoints : img.compactedPoints c.id points other.id =
        (img.loaded.collections[other.id]?).elim ∅ (·.points) := if_neg same
    have bareBase : other.Bare → other.base.Bare := fun bare => ⟨bare.sealed, bare.segments, bare.snapshot⟩
    rw [isPoints]
    constructor
    · rw [isFinal]; rfl
    · rw [isFinal]; rfl
    · rw [isFinal]; rfl
    · rw [isFinal]; rfl
    · rw [isFinal]
      obtain ⟨_, base⟩ | ⟨created, bare⟩ := running.backed.sealed found
      · obtain ⟨e, loaded, stands⟩ := running.sound.represents.some_left base
        rw [loaded]
        exact stands.points
      · cases loaded : img.loaded.collections[other.id]? with
        | none => exact (bareBase bare).represents rfl
        | some e =>
          obtain ⟨b, base, stands⟩ := running.sound.represents.some_right loaded
          have empty := (running.sound.bare base created).represents (running.sound.settled base)
          have isEmpty : e.points = ∅ := stands.points.unique empty
          rw [Option.elim_some, isEmpty]
          exact (bareBase bare).represents rfl
    · intro _ e loaded id _
      rw [loaded]
      rfl
    · intro created
      rw [isFinal]
      obtain ⟨fresh, _⟩ | ⟨_, bare⟩ := running.backed.sealed found
      · exact absurd created fresh
      · exact bareBase bare

variable (encoding) in
def image (img : Image) (s : Store) (mem : Logical) (cid : CollectionId) (ref : SegmentRef)
    (seg : SealedSegment) (points : ExtTreeMap String Record) : Image :=
  img.remade s (s.compactedManifest encoding cid ref) (CollectionState.compacted cid ref seg)
    ⟨mem.names, mem.collections.map fun k e => { e with points := img.compactedPoints cid points k }⟩

section

variable (compacting : Compacting s img d' c ref seg points) (running : Running encoding ring s d img mem)
include compacting running

theorem refs_lt (found : s.catalog.collections[other.id]? = some other) :
    (∀ r ∈ (if other.id = c.id then [ref] else other.segmentsMeta), r.id < s.nextSegmentId + 1) ∧
      ((if other.id = c.id then [ref] else other.segmentsMeta).map (·.id)).Nodup := by
  split
  · simp [compacting.id]
  · obtain ⟨below, nodup⟩ := running.segmentsMeta found
    exact ⟨fun r member => Nat.lt_succ_of_lt (below r member), nodup⟩

theorem sound : (image encoding img s mem c.id ref seg points).Sound encoding := by
  have indexed := running.indexed
  refine running.remade running.floor rfl ?_ ?_ fun other found => compacting.remade running found
  · intro entry member r inside
    obtain ⟨other, found, rfl⟩ := (mem_manifest running.represents).mp member
    exact (compacting.refs_lt running found).1 r inside
  · exact manifest_distinct running.represents indexed
      fun other found => (compacting.refs_lt running found).2

theorem loaded (same : ∀ p, img.Needed p → d'[p]? = d[p]?)
    (found : s.catalog.collections[other.id]? = some other) :
    Loaded encoding ring d' (collectionEntry encoding other
      (if other.id = c.id then [ref] else other.segmentsMeta) other.indexSnapshot)
      (other.compacted c.id ref seg) := by
  have codec : ring.collectionCodec d' other.id = .ok other.codec := by
    rw [collectionCodec_congr (same _ (running.on.needsKey running.backed found))]
    exact running.backed.codec found
  by_cases isCid : other.id = c.id
  · rw [isCid, compacting.found] at found
    cases found
    rw [CollectionState.compacted, if_pos rfl, if_pos rfl]
    exact ⟨rfl, rfl, encoding.decodeDescriptor_encode .., codec, rfl, .cons compacting.loads .nil, rfl, rfl⟩
  · rw [CollectionState.compacted, if_neg isCid, if_neg isCid]
    refine ⟨rfl, rfl, encoding.decodeDescriptor_encode .., codec, rfl, ?_, rfl, rfl⟩
    obtain ⟨_, _, entry, member, isId, loaded⟩ | ⟨_, bare⟩ := running.loaded found
    · have onDisk := loaded.congr (same _ (.inl ⟨entry, member, rfl⟩)) fun r inside part notTmp =>
        same _ ⟨notTmp, entry, member, rfl, r, inside, rfl⟩
      have sealed := onDisk.sealed
      rw [← onDisk.segments, isId] at sealed
      exact sealed
    · change List.Forall₂ _ other.segmentsMeta other.sealed
      rw [bare.segments, bare.sealed]
      exact .nil

end

end Compacting

end Quiver.Core
