import Quiver.Core.Catalog

/-!
Replication: the operations that recreate a store, and the application of operations that another
node committed. The engine stands for a database by its logical state, the names of its loaded
handles and its id allocator.
-/

namespace Quiver.Core

open Results
open Std (ExtTreeMap)

def snapshotCollection (encoding : Encoding) (id : CollectionId) (name : String) (descriptor : Descriptor)
    (points : List (String × Record)) : List WalOp :=
  .createCollection id name (encoding.descriptor.encode descriptor) ::
    points.map fun (externalId, record) => .upsert id externalId (f32ToLeBytes record.vector) record.payload

/-- The operations that recreate a store, for the order in which its collections are listed. -/
def replicationSnapshot (encoding : Encoding) (order : List (CollectionId × CollectionState)) :
    Except CoreError (List WalOp) := do
  let parts ← order.mapM fun (id, state) => do
    return snapshotCollection encoding id state.name state.descriptor (← state.scan)
  return parts.flatten

/-- The logical content of a database. -/
@[ext] structure Engine where
  logical : Logical
  handles : ExtTreeMap String CollectionId
  nextCollectionId : CollectionId

namespace Engine

def empty : Engine := ⟨.empty, ∅, 0⟩

variable (encoding : Encoding)

def applyReplicated (e : Engine) : WalOp → Engine
  | .checkpoint .. => e
  | .createCollection k name bytes =>
    if name ∈ e.handles then e
    else ⟨e.logical.apply encoding (.createCollection k name bytes), e.handles.insert name k,
      max e.nextCollectionId (k + 1)⟩
  | .dropCollection k =>
    { e with
      logical := e.logical.apply encoding (.dropCollection k)
      handles := e.handles.filter fun _ id => id ≠ k }
  | op => { e with logical := e.logical.apply encoding op }

theorem collections_drop (e : Engine) (k j : CollectionId) :
    (e.applyReplicated encoding (.dropCollection k)).logical.collections[j]? =
      if k = j then none else e.logical.collections[j]? :=
  Logical.collections_drop encoding ..

theorem logical_applyReplicated (e : Engine) (op : WalOp) :
    (e.applyReplicated encoding op).logical = e.logical ∨
      (e.applyReplicated encoding op).logical = e.logical.apply encoding op := by
  cases op with
  | createCollection k name bytes =>
    rw [applyReplicated]
    split
    · exact .inl rfl
    · exact .inr rfl
  | dropCollection | upsert | delete => exact .inr rfl
  | checkpoint => exact .inl rfl

def applyAll (e : Engine) (ops : List WalOp) : Engine := ops.foldl (applyReplicated encoding) e

@[simp] theorem applyAll_nil (e : Engine) : e.applyAll encoding [] = e := rfl

@[simp] theorem applyAll_cons (e : Engine) (op : WalOp) (ops : List WalOp) :
    e.applyAll encoding (op :: ops) = (e.applyReplicated encoding op).applyAll encoding ops := rfl

theorem applyAll_append (e : Engine) (first second : List WalOp) :
    e.applyAll encoding (first ++ second) = (e.applyAll encoding first).applyAll encoding second :=
  List.foldl_append

def dropCollection (e : Engine) (name : String) : Engine :=
  match e.logical.names[name]? with
  | none => { e with handles := e.handles.erase name }
  | some k =>
    { e with
      logical := ⟨e.logical.names.erase name, e.logical.collections.erase k⟩
      handles := e.handles.erase name }

/-- A handle for every collection, under its name, and an allocator above all ids. -/
structure WellFormed (e : Engine) : Prop where
  indexed : e.logical.Indexed
  handles : e.handles = e.logical.names

end Engine

def Logical.snapshotOps (encoding : Encoding) (order : List (CollectionId × LogicalCollection)) : List WalOp :=
  order.flatMap fun (id, e) => snapshotCollection encoding id e.name e.descriptor e.points.toList

theorem Catalog.Represents.replicationSnapshot {encoding : Encoding} {cat : Catalog} {l : Logical}
    (represents : cat.Represents l) {order : List (CollectionId × CollectionState)}
    (listed : order.Perm cat.collections.toList) :
    ∃ order', order'.Perm l.collections.toList ∧
      replicationSnapshot encoding order = .ok (Logical.snapshotOps encoding order') := by
  obtain ⟨order', related, perm⟩ := List.perm_comp_forall₂ listed (Maps.forall₂_toList represents.collections)
  refine ⟨order', perm, ?_⟩
  have parts : order.mapM (fun (p : CollectionId × CollectionState) => do
      return snapshotCollection encoding p.1 p.2.name p.2.descriptor (← p.2.scan)) =
      (.ok (order'.map fun q => snapshotCollection encoding q.1 q.2.name q.2.descriptor q.2.points.toList) :
        Except CoreError _) := by
    rw [mapM_eq_ok, List.forall₂_map_right_iff]
    refine related.imp fun p q same => ?_
    obtain ⟨isId, stands⟩ := same
    rw [stands.points.scan, ok_bind, isId, stands.name, stands.descriptor]
    rfl
  rw [Core.replicationSnapshot, parts]
  rfl

end Quiver.Core
