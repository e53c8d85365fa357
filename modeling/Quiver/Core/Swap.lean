import Quiver.Core.Sealing

/-!
Publishing a new manifest. Before the pointer is swapped the directory holds the old image;
afterwards it holds the image of the collections the manifest was made from.
-/

namespace Quiver.Core

open FileSystem
open Std (ExtTreeMap)

variable {encoding : Encoding} {ring : KeyRing} {s : Store} {img img' : Image} {mem : Logical}
  {d d' : DataDir} {c : CollectionState} {floor : Lsn} {segments : CollectionState → List SegmentRef}
  {snapshot : CollectionState → Option IndexSnapshotRef} {n : Nat}

theorem Catalog.Represents.id_eq {cat : Catalog} (represents : cat.Represents mem) {k : CollectionId}
    (found : cat.collections[k]? = some c) : c.id = k := by
  obtain ⟨_, _, stands⟩ := represents.some_left found
  exact stands.id

theorem mem_manifest (represents : s.catalog.Represents mem) {entry : CollectionEntry} :
    entry ∈ ({ s with nextSegmentId := n }.manifest encoding floor segments snapshot).collections ↔
      ∃ c, s.catalog.collections[c.id]? = some c ∧
        entry = collectionEntry encoding c (segments c) (snapshot c) := by
  simp only [Store.manifest, List.mem_map, Prod.exists, ExtTreeMap.mem_toList_iff_getElem?_eq_some]
  constructor
  · rintro ⟨k, c, found, rfl⟩
    refine ⟨c, ?_, rfl⟩
    rw [represents.id_eq found]
    exact found
  · rintro ⟨c, found, rfl⟩
    exact ⟨c.id, c, found, rfl⟩

theorem manifest_distinct (represents : s.catalog.Represents mem) (indexed : mem.Indexed)
    (nodup : ∀ c, s.catalog.collections[c.id]? = some c → ((segments c).map (·.id)).Nodup) :
    ({ s with nextSegmentId := n }.manifest encoding floor segments snapshot).Distinct := by
  constructor
  · simp only [Store.manifest, List.map_map]
    refine Maps.nodup_map fun here there same => ?_
    exact (represents.id_eq here).symm.trans (Eq.trans same (represents.id_eq there))
  · simp only [Store.manifest, List.map_map]
    refine Maps.nodup_map fun {k k' c c'} here there same => ?_
    obtain ⟨e, held, stands⟩ := represents.some_left here
    obtain ⟨e', held', stands'⟩ := represents.some_left there
    have name : e.name = e'.name := stands.name.symm.trans (Eq.trans same stands'.name)
    have first := (indexed e.name k).mpr ⟨e, held, rfl⟩
    rw [(indexed e.name k').mpr ⟨e', held', name.symm⟩] at first
    exact (Option.some.inj first).symm
  · intro entry member
    obtain ⟨c, here, rfl⟩ := (mem_manifest represents).mp member
    exact nodup c here

theorem loadCatalog_manifest (represents : s.catalog.Represents mem) (indexed : mem.Indexed)
    (distinct : ({ s with nextSegmentId := n }.manifest encoding floor segments snapshot).Distinct)
    {final : CollectionState → CollectionState}
    (each : ∀ c, s.catalog.collections[c.id]? = some c →
      Loaded encoding ring d (collectionEntry encoding c (segments c) (snapshot c)) (final c)) :
    loadCatalog encoding ring d ({ s with nextSegmentId := n }.manifest encoding floor segments snapshot) =
      .ok ⟨s.catalog.collections.map fun _ c => final c, s.catalog.nameIndex⟩ := by
  refine loadCatalog_of distinct (fun entry member => ?_) (fun {k c} found => ?_) fun name k => ?_
  · obtain ⟨c, here, rfl⟩ := (mem_manifest represents).mp member
    refine ⟨final c, ?_, each c here⟩
    rw [ExtTreeMap.getElem?_map, show (collectionEntry encoding c (segments c) (snapshot c)).id = c.id from rfl,
      here]
    rfl
  · rw [ExtTreeMap.getElem?_map, Option.map_eq_some_iff] at found
    obtain ⟨c, here, _⟩ := found
    have isId := represents.id_eq here
    exact ⟨_, (mem_manifest represents).mpr ⟨c, isId.symm ▸ here, rfl⟩, isId⟩
  · simp only [represents.names, indexed name k]
    constructor
    · rintro ⟨e, held, rfl⟩
      obtain ⟨c, here, stands⟩ := represents.some_right held
      exact ⟨_, (mem_manifest represents).mpr ⟨c, stands.id.symm ▸ here, rfl⟩, stands.name, stands.id⟩
    · rintro ⟨entry, member, rfl, rfl⟩
      obtain ⟨c, here, rfl⟩ := (mem_manifest represents).mp member
      obtain ⟨e, held, stands⟩ := represents.some_left here
      exact ⟨e, held, stands.name.symm⟩

/-- The pointer names the new manifest, and nothing else changed. -/
structure Swapped (m : Manifest) (d d' : DataDir) : Prop where
  current : d'[Path.current]? = some ⟨[.current m.version], []⟩
  stored : d'[Path.manifest m.version]? = some ⟨[.manifest m], []⟩
  other : ∀ p : Path, p ≠ .current → p ≠ .currentTmp → p ≠ .manifest m.version → d'[p]? = d[p]?

theorem swapped_writeManifest (m : Manifest) (d : DataDir) : Swapped m d (applyAll d (writeManifest m)) := by
  rw [writeManifest, applyAll_append, applyAll_append]
  have written : ∀ p : Path, (applyAll (applyAll d (writePaged (.manifest m.version) (.manifest m)))
      (writePaged .currentTmp (.current m.version)))[p]? =
      if p = .currentTmp then some ⟨[.current m.version], []⟩
      else if p = .manifest m.version then some ⟨[.manifest m], []⟩ else d[p]? := by
    intro p
    rw [getElem?_writePaged, getElem?_writePaged]
  refine ⟨rename_target (by rw [written, if_pos rfl]), ?_, fun p notCurrent notTmp notManifest => ?_⟩
  · rw [applyAll_cons, applyAll_nil, apply_untouched (by rintro (same | same) <;> cases same), written,
      if_neg (by simp), if_pos rfl]
  · rw [applyAll_cons, applyAll_nil,
      apply_untouched (by rintro (same | same); exacts [notTmp same, notCurrent same]), written,
      if_neg notTmp, if_neg notManifest]

theorem writeManifest_take {m : Manifest} {count : Nat} (part : ¬ 7 ≤ count) (d : DataDir) {p : Path}
    (notTmp : p ≠ .currentTmp) (notManifest : p ≠ .manifest m.version) :
    (applyAll d ((writeManifest m).take count))[p]? = d[p]? := by
  rw [writeManifest, List.take_append_of_le_length (by simp [writePaged]; omega)]
  refine applyAll_untouched (fun e member touches => ?_) d
  obtain here | here := List.mem_append.mp (List.mem_of_mem_take member)
  · exact notManifest (writePaged_touches here touches)
  · exact notTmp (writePaged_touches here touches)

theorem writeManifest_bind {m : Manifest} {rest : PUnit → Io α} {crash : DataDir → Prop}
    {post : α → DataDir → Prop}
    (before : ∀ d', (∀ p : Path, p ≠ .currentTmp → p ≠ .manifest m.version → d'[p]? = d[p]?) → crash d')
    (after : ∀ d', Swapped m d d' → (rest ()).Spec d' crash post) :
    (Prog.performAll (writeManifest m) >>= rest).Spec d crash post := by
  have swapped := swapped_writeManifest m d
  refine Prog.spec_performAll_bind (fun count => ?_) (after _ swapped)
  by_cases all : 7 ≤ count
  · rw [List.take_of_length_le (by simpa [writeManifest, writePaged] using all)]
    exact (after _ swapped).crash_start
  · exact before _ fun p notTmp notManifest => writeManifest_take all d notTmp notManifest

theorem Image.On.swapped (on : img.On encoding ring d) (swapped : Swapped img'.mfst d d')
    (format : img'.mfst.formatVersion = manifestFormatVersion) (files : img'.files = img.files)
    (loads : loadCatalog encoding ring d' img'.mfst = .ok img'.base)
    (created : ∀ k, Created (img'.tail ++ img'.pending) k → Created (img.tail ++ img.pending) k)
    (segments : ∀ entry ∈ img'.mfst.collections, ∀ ref ∈ entry.segments, ∀ part, part ≠ .delTmp →
      Settled d (.segment entry.id ref.id part))
    (keys : ∀ entry ∈ img'.mfst.collections, Settled d (.dek entry.id)) : img'.On encoding ring d' where
  current := .inr ⟨swapped.current, swapped.stored, format⟩
  loads := loads
  listed seq := by
    rw [mem_congr (swapped.other (.wal seq) (by simp) (by simp) (by simp)), files]
    exact on.listed seq
  logs file member := by
    obtain ⟨f, found, reads⟩ := on.logs file (files ▸ member)
    exact ⟨f, (swapped.other (.wal file.seq) (by simp) (by simp) (by simp)).trans found, reads⟩
  keys k isCreated := by
    rw [collectionCodec_congr (swapped.other (.dek k) (by simp) (by simp) (by simp))]
    exact on.keys k (created k isCreated)
  segments := by
    rintro cid seg part ⟨notTmp, entry, member, rfl, ref, inside, rfl⟩ f found
    rw [swapped.other _ (by simp) (by simp) (by simp)] at found
    exact segments entry member ref inside part notTmp f found
  deks := by
    intro cid needed f found
    rw [swapped.other _ (by simp) (by simp) (by simp)] at found
    obtain ⟨entry, member, rfl⟩ | isCreated := needed
    · exact keys entry member f found
    · exact on.deks (.inr (created cid isCreated)) f found

end Quiver.Core
