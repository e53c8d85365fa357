import Quiver.Core.Filed
import Quiver.Replication.Convergence

/-!
What is read in every state that a store can reach: before and after maintenance, after a power loss, and by
a follower that starts from its snapshot.
-/

namespace Quiver.Core

open FileSystem Prog
open Std (ExtTreeMap)

structure CollectionState.Reads (c : CollectionState) (e : LogicalCollection) : Prop where
  name : c.name = e.name
  descriptor : c.descriptor = e.descriptor
  get : ∀ id, c.get id = .ok e.points[id]?
  locate : ∀ id, ∃ loc, c.locate id = .ok loc ∧ loc.isSome = e.points[id]?.isSome
  scan : c.scan = .ok e.points.toList

/-- By every way of reading, the store holds this content. -/
structure Store.Reads (s : Store) (l : Logical) : Prop where
  names : s.catalog.nameIndex = l.names
  collections : ∀ k : CollectionId, Option.Rel CollectionState.Reads s.catalog.collections[k]? l.collections[k]?

variable {encoding : Encoding} {ring : KeyRing}

theorem Catalog.Represents.reads {s : Store} {l : Logical} (represents : s.catalog.Represents l) : s.Reads l := by
  refine ⟨represents.names, fun k => ?_⟩
  have related := represents.collections k
  generalize s.catalog.collections[k]? = state at related ⊢
  generalize l.collections[k]? = entry at related ⊢
  cases related with
  | none => exact .none
  | some stands =>
    exact .some ⟨stands.name, stands.descriptor, stands.points.get, stands.points.locate, stands.points.scan⟩

theorem Standing.reads {s : Store} {d : DataDir} {img : Image} {mem : Logical}
    (standing : Standing encoding ring s d img mem) : s.Reads mem :=
  standing.running.represents.reads

section

variable {start t : Opened} {commands : List Command}
  (opened : (openWithKeyring encoding ring).run ∅ = (start.dir, .ok start.store))
  (run : Run.Reaches (Opened.Step encoding ring) start commands t)
include opened run

/-- A checkpoint and a compaction succeed, and change nothing that is read. -/
theorem maintenance_unread (snapshots : ExtTreeMap CollectionId Bytes) :
    ∃ l, t.store.Reads l ∧ (∃ t', Opened.Step encoding ring t (.checkpoint snapshots) t' ∧ t'.store.Reads l) ∧
      ∃ t', Opened.Step encoding ring t .compact t' ∧ t'.store.Reads l := by
  obtain ⟨img, mem, standing⟩ := Standing.reached opened run
  refine ⟨mem, standing.reads, ?_, ?_⟩
  · by_cases early : t.store.nextLsn - 1 ≤ t.store.lastCheckpointedLsn
    · refine ⟨t, .checkpoint snapshots ?_, standing.reads⟩
      rw [Store.checkpointWithIndexSnapshots, if_pos early]
      rfl
    · obtain ⟨_, s', ok, _⟩ := standing.running.checkpoint snapshots early
      obtain ⟨_, after, _⟩ := standing.checkpoint (Prod.ext rfl ok)
      exact ⟨⟨s', _⟩, .checkpoint snapshots (Prod.ext rfl ok), after.reads⟩
  · obtain ⟨_, s', ok, _⟩ := standing.running.compact standing.owned
    obtain ⟨_, after, _⟩ := standing.compact (Prod.ext rfl ok)
    exact ⟨⟨s', _⟩, .compact (Prod.ext rfl ok), after.reads⟩

/-- Whatever a power loss after the last command leaves opens, with all collections, also with a key for every
collection. -/
theorem collections_survive {left : DataDir} (crashed : Crashed t.dir left) :
    ∃ l s' d' l', t.store.Reads l ∧ (openWithKeyring encoding ring).run left = (d', .ok s') ∧ s'.Reads l' ∧
      SameCatalog l' l := by
  obtain ⟨img, mem, standing⟩ := Standing.reached opened run
  obtain ⟨kept, s', d', files, isKept, opened, after, _⟩ := standing.reopens crashed
  exact ⟨mem, s', d', _, standing.reads, opened, after.reads, standing.kept_sameCatalog isKept⟩

/-- The snapshot, in any order of the collections, brings an empty follower to the content. -/
theorem snapshot_bootstraps {order : List (CollectionId × CollectionState)}
    (perm : order.Perm t.store.catalog.collections.toList) :
    ∃ l ops, t.store.Reads l ∧ replicationSnapshot encoding order = .ok ops ∧
      (Engine.empty.applyAll encoding ops).WellFormed ∧ (Engine.empty.applyAll encoding ops).logical = l := by
  obtain ⟨img, mem, standing⟩ := Standing.reached opened run
  obtain ⟨order', isPerm, isOps⟩ := standing.running.represents.replicationSnapshot perm
  exact ⟨mem, _, standing.reads, isOps,
    Engine.wellFormed_empty.applyAll_snapshotOps standing.running.indexed (Engine.within_empty mem) isPerm⟩

end

/-- A collection is made, filled, sealed and filled again. -/
def twiceFilled : List Command := [.request declareOne, .request fillOne, .checkpoint ∅, .request fillOne]

theorem reached_twiceFilled : ∃ start t : Opened, (openWithKeyring .plain .envelope).run ∅ = (start.dir, .ok start.store) ∧
    Run.Reaches (Opened.Step .plain .envelope) start twiceFilled t ∧ t.store.catalog.nameIndex["c"]? = some 0 := by
  have evaluated : (((openWithKeyring .plain .envelope).run ∅).2.toOption.bind fun s =>
      let t := ((Opened.mk s ((openWithKeyring .plain .envelope).run ∅).1).serve .plain declareOne).serve .plain fillOne
      let ran := (t.store.checkpointWithIndexSnapshots .plain ∅).run t.dir
      ran.2.toOption.bind fun s' => ((Opened.mk s' ran.1).serve .plain fillOne).store.catalog.nameIndex["c"]?) =
      some 0 := by
    decide +kernel
  obtain ⟨s, isOk, evaluated⟩ := Option.bind_eq_some_iff.mp evaluated
  obtain ⟨s', sealed, named⟩ := Option.bind_eq_some_iff.mp evaluated
  refine ⟨⟨s, _⟩, _, run_of_toOption isOk, ?_, named⟩
  exact (((Run.Reaches.refl.next (.request declareOne)).next (.request fillOne)).next
    (.checkpoint ∅ (run_of_toOption sealed))).next (.request fillOne)

theorem maintenance_unread_filled : ∃ (t : Opened) (l : Logical), l.names["c"]? = some 0 ∧ t.store.Reads l ∧
    ∃ t', Opened.Step .plain .envelope t .compact t' ∧ t'.store.Reads l := by
  obtain ⟨start, t, opened, run, named⟩ := reached_twiceFilled
  obtain ⟨l, reads, _, compacted⟩ := maintenance_unread opened run ∅
  exact ⟨t, l, reads.names ▸ named, reads, compacted⟩

/-- All that was not synced is lost. -/
theorem collections_survive_filled : ∃ (t : Opened) (s' : Store) (d' : DataDir), t.store.catalog.nameIndex["c"]? = some 0 ∧
    (openWithKeyring .plain .envelope).run (t.dir.map fun _ f => ⟨f.synced, []⟩) = (d', .ok s') ∧
      s'.catalog.nameIndex["c"]? = some 0 := by
  obtain ⟨start, t, opened, run, named⟩ := reached_twiceFilled
  have crashed : Crashed t.dir (t.dir.map fun _ f => ⟨f.synced, []⟩) := fun p => by
    rw [ExtTreeMap.getElem?_map]
    cases t.dir[p]? with
    | none => exact .none
    | some f => exact .some ⟨rfl, [], List.nil_prefix, (List.append_nil _).symm⟩
  obtain ⟨l, s', d', l', reads, reopened, reads', same⟩ := collections_survive opened run crashed
  exact ⟨t, s', d', named, reopened, by rw [reads'.names, same.names, ← reads.names, named]⟩

theorem snapshot_bootstraps_filled : ∃ (t : Opened) (ops : List WalOp),
    replicationSnapshot .plain t.store.catalog.collections.toList = .ok ops ∧
      (Engine.empty.applyAll .plain ops).logical.names["c"]? = some 0 := by
  obtain ⟨start, t, opened, run, named⟩ := reached_twiceFilled
  obtain ⟨l, ops, reads, isOps, _, content⟩ := snapshot_bootstraps opened run (.refl _)
  exact ⟨t, ops, isOps, by rw [content, ← reads.names, named]⟩

end Quiver.Core
