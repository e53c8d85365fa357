import Quiver.Core.Replication

/-!
Applying a replication snapshot. Over an engine that holds nothing the snapshot lacks, it
yields the state the snapshot was taken of; over any other engine it does not.
-/

namespace Quiver.Core

open Maps
open Std (ExtTreeMap)
open Std.ExtTreeMap (ext_getElem? mem_iff_isSome_getElem? mem_keys)

/-- The points of a listing, written over a map in order. -/
def insertAll (m : ExtTreeMap String Record) (points : List (String × Record)) : ExtTreeMap String Record :=
  points.foldl (fun m p => m.insert p.1 p.2) m

theorem insertAll_toList {m whole : ExtTreeMap String Record} (part : ∀ id : String, id ∈ m → id ∈ whole) :
    insertAll m whole.toList = whole := by
  refine ext_getElem? fun {id} => Option.ext fun record => ?_
  rw [insertAll, get_foldl_insert (nodup_fst whole), or_iff_left, ← ExtTreeMap.mem_toList_iff_getElem?_eq_some]
  · simp
  · -- what was held before is written over
    rintro ⟨others, held⟩
    have inside := mem_keys.mpr (part id (mem_of_get held))
    rw [← ExtTreeMap.map_fst_toList_eq_keys] at inside
    obtain ⟨p, member, same⟩ := List.mem_map.mp inside
    exact others p member same

namespace Logical

theorem onPoints_onPoints (l : Logical) (k : CollectionId)
    (f g : ExtTreeMap String Record → ExtTreeMap String Record) :
    (l.onPoints k f).onPoints k g = l.onPoints k (g ∘ f) := by
  refine Logical.ext rfl (ext_getElem? fun {j} => ?_)
  rw [collections_onPoints, collections_onPoints, collections_onPoints]
  split
  · cases l.collections[j]? <;> rfl
  · rfl

theorem onPoints_id (l : Logical) (k : CollectionId) : l.onPoints k id = l := by
  refine Logical.ext rfl (ext_getElem? fun {j} => ?_)
  rw [collections_onPoints]
  split
  · cases l.collections[j]? <;> rfl
  · rfl

theorem Indexed.ext {a b : Logical} (first : a.Indexed) (second : b.Indexed)
    (same : a.collections = b.collections) : a = b := by
  refine Logical.ext (ext_getElem? fun {name} => Option.ext fun k => ?_) same
  rw [first name k, second name k, same]

end Logical

namespace Engine

variable {encoding : Encoding} {e : Engine} {l : Logical} {k : CollectionId} {c : LogicalCollection}

theorem applyAll_upserts (e : Engine) (k : CollectionId) (points : List (String × Record)) :
    e.applyAll encoding (points.map fun (externalId, record) =>
      .upsert k externalId (f32ToLeBytes record.vector) record.payload) =
      { e with logical := e.logical.onPoints k (insertAll · points) } := by
  induction points generalizing e with
  | nil =>
    have same : e.logical.onPoints k (insertAll · []) = e.logical := e.logical.onPoints_id k
    rw [same]
    rfl
  | cons p points ih =>
    rw [List.map_cons, applyAll_cons, ih]
    simp only [applyReplicated, Logical.apply, leBytesToF32_f32ToLeBytes]
    rw [Logical.onPoints_onPoints]
    rfl

/-- The engine holds nothing that the state lacks. -/
def Within (g l : Logical) : Prop :=
  ∀ (k : CollectionId) (c : LogicalCollection), g.collections[k]? = some c →
    ∃ e : LogicalCollection, l.collections[k]? = some e ∧ c.name = e.name ∧ c.descriptor = e.descriptor ∧
      ∀ id : String, id ∈ c.points → id ∈ e.points

theorem within_empty (l : Logical) : Within .empty l := by
  intro k c found
  simp [Logical.empty] at found

theorem WellFormed.create (wf : e.WellFormed) {name : String} {bytes : Bytes} {descriptor : Descriptor}
    (decoded : encoding.decodeDescriptor bytes = some descriptor) (free : e.logical.names[name]? = none)
    (fresh : e.logical.collections[k]? = none) :
    e.applyReplicated encoding (.createCollection k name bytes) =
      ⟨⟨e.logical.names.insert name k, e.logical.collections.insert k ⟨name, descriptor, ∅⟩⟩,
        e.handles.insert name k, max e.nextCollectionId (k + 1)⟩ ∧
      (e.applyReplicated encoding (.createCollection k name bytes)).WellFormed := by
  have unloaded : name ∉ e.handles := by
    rw [wf.handles, mem_iff_isSome_getElem?, free]
    simp
  simp only [applyReplicated, if_neg unloaded, Logical.apply, decoded, true_and]
  exact ⟨wf.indexed.insert (c := ⟨name, descriptor, ∅⟩) free fresh, by rw [wf.handles]⟩

theorem WellFormed.skip (wf : e.WellFormed) {name : String} {bytes : Bytes} {j : CollectionId}
    (taken : e.logical.names[name]? = some j) :
    e.applyReplicated encoding (.createCollection k name bytes) = e := by
  have loaded : name ∈ e.handles := by
    rw [wf.handles, mem_iff_isSome_getElem?, taken]
    rfl
  simp only [applyReplicated, if_pos loaded]

theorem WellFormed.onPoints (wf : e.WellFormed) (k : CollectionId)
    (f : ExtTreeMap String Record → ExtTreeMap String Record) :
    WellFormed { e with logical := e.logical.onPoints k f } :=
  ⟨wf.indexed.onPoints k f, wf.handles⟩

theorem WellFormed.snapshotCollection (wf : e.WellFormed) (encoding : Encoding) (indexed : l.Indexed) (within : Within e.logical l)
    (found : l.collections[k]? = some c) :
    (e.applyAll encoding (snapshotCollection encoding k c.name c.descriptor c.points.toList)).WellFormed ∧
      (e.applyAll encoding (snapshotCollection encoding k c.name c.descriptor c.points.toList)).logical.collections =
        e.logical.collections.insert k c := by
  rw [Core.snapshotCollection, applyAll_cons, applyAll_upserts]
  have points : ∀ {m : ExtTreeMap String Record}, (∀ id : String, id ∈ m → id ∈ c.points) →
      insertAll m c.points.toList = c.points := fun part => insertAll_toList part
  cases taken : e.logical.names[c.name]? with
  | some j =>
    -- The name is loaded, so the collection is there already, under the same id.
    rw [wf.skip taken]
    obtain ⟨held, present, isName⟩ := (wf.indexed c.name j).mp taken
    obtain ⟨c', found', name, descriptor, part⟩ := within j held present
    have isId : j = k := by
      have first := (indexed c.name j).mpr ⟨c', found', name.symm.trans isName⟩
      rw [(indexed c.name k).mpr ⟨c, found, rfl⟩] at first
      exact (Option.some.inj first).symm
    subst isId
    rw [found] at found'
    cases found'
    refine ⟨wf.onPoints j _, ext_getElem? fun {i} => ?_⟩
    rw [Logical.collections_onPoints, get_insert]
    split
    case isTrue same =>
      subst same
      rw [present, Option.map_some, points part, name, descriptor]
    case isFalse => rfl
  | none =>
    have fresh : e.logical.collections[k]? = none := by
      cases present : e.logical.collections[k]? with
      | none => rfl
      | some held =>
        obtain ⟨c', found', name, _⟩ := within k held present
        rw [found] at found'
        cases found'
        have loaded := (wf.indexed c.name k).mpr ⟨held, present, name⟩
        rw [taken] at loaded
        contradiction
    obtain ⟨eq, wf'⟩ := wf.create (encoding.decodeDescriptor_encode c.descriptor) taken fresh
    refine ⟨wf'.onPoints k _, ?_⟩
    rw [eq]
    refine ext_getElem? fun {i} => ?_
    rw [Logical.collections_onPoints]
    simp only [get_insert]
    split
    case isTrue same =>
      rw [Option.map_some, points (by simp)]
    case isFalse => rfl

theorem Within.insert {g g' : Logical} (within : Within g l) (found : l.collections[k]? = some c)
    (isInsert : g'.collections = g.collections.insert k c) : Within g' l := by
  intro j held present
  rw [isInsert] at present
  obtain ⟨rfl, rfl⟩ | ⟨_, before⟩ := of_insert present
  · exact ⟨c, found, rfl, rfl, fun _ => id⟩
  · exact within j held before

theorem WellFormed.snapshotOps (wf : e.WellFormed) (encoding : Encoding) (indexed : l.Indexed) (within : Within e.logical l)
    {order : List (CollectionId × LogicalCollection)}
    (known : ∀ p ∈ order, l.collections[p.1]? = some p.2) :
    (e.applyAll encoding (Logical.snapshotOps encoding order)).WellFormed ∧
      Within (e.applyAll encoding (Logical.snapshotOps encoding order)).logical l ∧
      ∀ p : CollectionId × LogicalCollection, l.collections[p.1]? = some p.2 →
        p ∈ order ∨ e.logical.collections[p.1]? = some p.2 →
        (e.applyAll encoding (Logical.snapshotOps encoding order)).logical.collections[p.1]? = some p.2 := by
  induction order generalizing e with
  | nil => exact ⟨wf, within, fun p _ here => here.resolve_left (by simp)⟩
  | cons q order ih =>
    have found := known q (List.mem_cons_self ..)
    obtain ⟨wf', isInsert⟩ := wf.snapshotCollection encoding indexed within found
    obtain ⟨final, stays, holds⟩ := ih wf' (within.insert found isInsert)
      fun p member => known p (List.mem_cons_of_mem _ member)
    rw [Logical.snapshotOps, List.flatMap_cons, applyAll_append]
    refine ⟨final, stays, fun p here cases => holds p here ?_⟩
    rw [isInsert, get_insert]
    by_cases same : q.1 = p.1
    · rw [if_pos same]
      rw [← same, found] at here
      exact .inr here
    · rw [if_neg same]
      refine cases.imp_left fun member => ?_
      obtain rfl | later := List.mem_cons.mp member
      · exact absurd rfl same
      · exact later

theorem WellFormed.applyAll_snapshotOps (wf : e.WellFormed) (indexed : l.Indexed)
    (within : Within e.logical l) {order : List (CollectionId × LogicalCollection)}
    (listed : order.Perm l.collections.toList) :
    (e.applyAll encoding (Logical.snapshotOps encoding order)).WellFormed ∧
      (e.applyAll encoding (Logical.snapshotOps encoding order)).logical = l := by
  have member : ∀ p, p ∈ order ↔ l.collections[p.1]? = some p.2 := fun p =>
    listed.mem_iff.trans ExtTreeMap.mem_toList_iff_getElem?_eq_some
  obtain ⟨final, stays, holds⟩ := wf.snapshotOps encoding indexed within
    fun p inside => (member p).mp inside
  refine ⟨final, final.indexed.ext indexed (ext_getElem? fun {k} => ?_)⟩
  cases found : l.collections[k]? with
  | some c => exact holds (k, c) found (.inl ((member (k, c)).mpr found))
  | none =>
    refine Option.eq_none_iff_forall_not_mem.mpr fun c present => ?_
    obtain ⟨_, found', _⟩ := stays k c present
    rw [found] at found'
    contradiction

end Engine

end Quiver.Core
