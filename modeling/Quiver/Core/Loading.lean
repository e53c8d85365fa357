import Quiver.Core.Durable

/-!
What loading a manifest yields: for each entry the collection with its segments, under its
id and name.
-/

namespace Quiver.Core

open FileSystem Results
open Std (ExtTreeMap)
open List (map_cons mem_map)

variable {encoding : Encoding} {ring : KeyRing} {d : DataDir} {m : Manifest}
  {entry : CollectionEntry} {c : CollectionState}

/-- A collection as its entry and files describe it. -/
structure Loaded (encoding : Encoding) (ring : KeyRing) (d : DataDir) (entry : CollectionEntry)
    (c : CollectionState) : Prop where
  id : c.id = entry.id
  name : c.name = entry.name
  descriptor : encoding.decodeDescriptor entry.descriptor = some c.descriptor
  codec : ring.collectionCodec d entry.id = .ok c.codec
  segments : c.segmentsMeta = entry.segments
  sealed : List.Forall₂ (fun ref seg => loadSegment d entry.id ref.id c.codec = .ok seg)
    entry.segments c.sealed
  snapshot : c.indexSnapshot = entry.indexSnapshot
  settled : c.base = c

theorem loadCollection_eq_ok : loadCollection encoding ring d entry = .ok c ↔
    Loaded encoding ring d entry c := by
  constructor
  · intro loads
    simp only [loadCollection] at loads
    split at loads
    · contradiction
    · rename_i descriptor decoded
      obtain ⟨codec, key, rest⟩ := bind_eq_ok.mp loads
      obtain ⟨sealed, segments, last⟩ := bind_eq_ok.mp rest
      cases last
      exact ⟨rfl, rfl, decoded, key, rfl, mapM_eq_ok.mp segments, rfl, rfl⟩
  · intro loaded
    have isBase : c = { CollectionState.new entry.id entry.name c.descriptor c.codec with
        sealed := c.sealed, segmentsMeta := entry.segments, indexSnapshot := entry.indexSnapshot } := by
      rw [← loaded.settled, ← loaded.id, ← loaded.name, ← loaded.segments, ← loaded.snapshot]
      rfl
    simp only [loadCollection, loaded.descriptor, loaded.codec, ok_bind,
      mapM_eq_ok.mpr loaded.sealed]
    rw [isBase]
    rfl

theorem Loaded.congr {d' : DataDir} (loaded : Loaded encoding ring d entry c)
    (key : d'[Path.dek entry.id]? = d[Path.dek entry.id]?)
    (segments : ∀ ref ∈ entry.segments, ∀ part, part ≠ .delTmp →
      d'[Path.segment entry.id ref.id part]? = d[Path.segment entry.id ref.id part]?) :
    Loaded encoding ring d' entry c := by
  rw [← loadCollection_eq_ok, loadCollection_congr key segments]
  exact loadCollection_eq_ok.mpr loaded

variable {entries : List CollectionEntry} {base : Catalog} {states : List CollectionState}
  {k : CollectionId}

theorem foldl_add (cat : Catalog) : states.foldl Catalog.add cat =
    ⟨states.foldl (fun m c => m.insert c.id c) cat.collections,
      states.foldl (fun m c => m.insert c.name c.id) cat.nameIndex⟩ := by
  induction states generalizing cat with
  | nil => rfl
  | cons c states ih => exact ih (cat.add c)

theorem loadCatalog_eq_ok : loadCatalog encoding ring d m = .ok base ↔
    ∃ states : List CollectionState, List.Forall₂ (Loaded encoding ring d) m.collections states ∧
      ⟨states.foldl (fun m c => m.insert c.id c) ∅, states.foldl (fun m c => m.insert c.name c.id) ∅⟩ = base := by
  simp only [loadCatalog, foldlM_eq_ok, loadCollection_eq_ok, foldl_add]

theorem loadCatalog_found (loads : loadCatalog encoding ring d m = .ok base)
    (found : base.collections[k]? = some c) :
    ∃ entry ∈ m.collections, entry.id = k ∧ Loaded encoding ring d entry c := by
  obtain ⟨states, all, rfl⟩ := loadCatalog_eq_ok.mp loads
  obtain ⟨c, member, rfl, rfl⟩ := (Maps.of_foldl_insert found).resolve_right (by simp)
  obtain ⟨entry, isEntry, loaded⟩ := exists_of_mem all member
  exact ⟨entry, isEntry, loaded.id.symm, loaded⟩

theorem loadCatalog_present (loads : loadCatalog encoding ring d m = .ok base)
    (member : entry ∈ m.collections) : ∃ c, base.collections[entry.id]? = some c := by
  obtain ⟨states, all, rfl⟩ := loadCatalog_eq_ok.mp loads
  obtain ⟨c, isState, loaded⟩ := exists_of_mem all.flip member
  exact ⟨_, ExtTreeMap.getElem?_eq_some_getElem (Maps.mem_foldl_insert.mpr (.inl ⟨c, isState, loaded.id⟩))⟩

/-- The entries of a manifest have ids and names of their own, and so do their segments. -/
structure Manifest.Distinct (m : Manifest) : Prop where
  ids : (m.collections.map (·.id)).Nodup
  names : (m.collections.map (·.name)).Nodup
  segments : ∀ entry ∈ m.collections, (entry.segments.map (·.id)).Nodup

theorem Manifest.Distinct.eq_of_id (distinct : m.Distinct) {other : CollectionEntry}
    (member : entry ∈ m.collections) (member' : other ∈ m.collections) (same : other.id = entry.id) :
    other = entry :=
  List.inj_on_of_nodup_map distinct.ids member' member same

theorem loadCatalog_entry (distinct : m.Distinct)
    (loads : loadCatalog encoding ring d m = .ok base) (member : entry ∈ m.collections) :
    ∃ c, base.collections[entry.id]? = some c ∧ Loaded encoding ring d entry c := by
  obtain ⟨c, found⟩ := loadCatalog_present loads member
  obtain ⟨other, member', same, loaded⟩ := loadCatalog_found loads found
  cases distinct.eq_of_id member member' same
  exact ⟨c, found, loaded⟩

theorem map_of_loaded {α : Type} {f : CollectionState → α} {g : CollectionEntry → α}
    (same : ∀ {entry c}, Loaded encoding ring d entry c → f c = g entry)
    (all : List.Forall₂ (Loaded encoding ring d) entries states) : states.map f = entries.map g := by
  induction all with
  | nil => rfl
  | cons loaded _ ih => rw [map_cons, map_cons, same loaded, ih]

theorem names_of_loaded (distinct : m.Distinct)
    (all : List.Forall₂ (Loaded encoding ring d) m.collections states) (name : String) (k : CollectionId) :
    (states.foldl (fun m c => m.insert c.name c.id) (∅ : ExtTreeMap String CollectionId))[name]? = some k ↔
      ∃ entry ∈ m.collections, entry.name = name ∧ entry.id = k := by
  have names : states.map (·.name) = m.collections.map (·.name) := map_of_loaded Loaded.name all
  rw [Maps.get_foldl_insert (names ▸ distinct.names), or_iff_left (by simp)]
  have pairs : states.map (fun c => (c.name, c.id)) = m.collections.map (fun e => (e.name, e.id)) :=
    map_of_loaded (fun loaded => by rw [loaded.name, loaded.id]) all
  have listed := congrArg (fun pairs => (name, k) ∈ pairs) pairs
  simpa only [mem_map, Prod.mk.injEq, eq_iff_iff] using listed

theorem loadCatalog_of (distinct : m.Distinct)
    (all : ∀ entry ∈ m.collections, ∃ c, base.collections[entry.id]? = some c ∧
      Loaded encoding ring d entry c)
    (only : ∀ {k : CollectionId} {c : CollectionState}, base.collections[k]? = some c →
      ∃ entry ∈ m.collections, entry.id = k)
    (names : ∀ (name : String) (k : CollectionId), base.nameIndex[name]? = some k ↔
      ∃ entry ∈ m.collections, entry.name = name ∧ entry.id = k) :
    loadCatalog encoding ring d m = .ok base := by
  obtain ⟨states, each⟩ := exists_forall₂ all
  have loaded := each.imp fun _ _ both => both.2
  refine loadCatalog_eq_ok.mpr ⟨states, loaded, ?_⟩
  have ids : states.map (·.id) = m.collections.map (·.id) := map_of_loaded Loaded.id loaded
  obtain ⟨collections, nameIndex⟩ := base
  congr 1
  · refine ExtTreeMap.ext_getElem? fun {k} => Option.ext fun c => ?_
    rw [Maps.get_foldl_insert (ids ▸ distinct.ids), or_iff_left (by simp)]
    constructor
    · rintro ⟨c, member, rfl, rfl⟩
      obtain ⟨entry, _, found, isLoaded⟩ := exists_of_mem each member
      rw [isLoaded.id]
      exact found
    · intro found
      obtain ⟨entry, member, rfl⟩ := only found
      obtain ⟨other, isState, isFound, isLoaded⟩ := exists_of_mem each.flip member
      cases isFound.symm.trans found
      exact ⟨_, isState, isLoaded.id, rfl⟩
  · refine ExtTreeMap.ext_getElem? fun {name} => Option.ext fun k => ?_
    rw [names_of_loaded distinct loaded, names]

theorem loadCatalog_names (distinct : m.Distinct)
    (loads : loadCatalog encoding ring d m = .ok base) (name : String) (k : CollectionId) :
    base.nameIndex[name]? = some k ↔ ∃ entry ∈ m.collections, entry.name = name ∧ entry.id = k := by
  obtain ⟨states, all, rfl⟩ := loadCatalog_eq_ok.mp loads
  exact names_of_loaded distinct all name k

end Quiver.Core
