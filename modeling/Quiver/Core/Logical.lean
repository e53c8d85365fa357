import Quiver.Base.Maps
import Quiver.Core.Descriptor

/-!
What a store is for: named collections, each a map from external ids to records, and the effect of a
logged operation on them. Recovery replays operations over a state that may hold some of their
effects, and absorbs the difference if it is confined to what they create, drop or write.
-/

namespace Quiver.Core

open Maps
open Std (ExtTreeMap)

@[ext] structure LogicalCollection where
  name : String
  descriptor : Descriptor
  points : ExtTreeMap String Record

@[ext] structure Logical where
  names : ExtTreeMap String CollectionId
  collections : ExtTreeMap CollectionId LogicalCollection

namespace WalOp

def Creates (k : CollectionId) : WalOp → Prop
  | .createCollection j _ _ => j = k
  | _ => False

def Names (name : String) : WalOp → Prop
  | .createCollection _ n _ => n = name
  | _ => False

def Drops (k : CollectionId) : WalOp → Prop
  | .dropCollection j => j = k
  | _ => False

/-- The operation writes or deletes this point. -/
def Touches (k : CollectionId) (id : String) : WalOp → Prop
  | .upsert j other _ _ | .delete j other => j = k ∧ other = id
  | _ => False

end WalOp

def Created (ops : List WalOp) (k : CollectionId) : Prop := ∃ op ∈ ops, op.Creates k

def Named (ops : List WalOp) (name : String) : Prop := ∃ op ∈ ops, op.Names name

def Dropped (ops : List WalOp) (k : CollectionId) : Prop := ∃ op ∈ ops, op.Drops k

def Touched (ops : List WalOp) (k : CollectionId) (id : String) : Prop := ∃ op ∈ ops, op.Touches k id

section Lists

variable {op : WalOp} {ops later : List WalOp} {k : CollectionId} {name id : String}

theorem created_cons : Created (op :: ops) k ↔ op.Creates k ∨ Created ops k := by simp [Created]

theorem not_created_cons (now : ¬ op.Creates k) (later : ¬ Created ops k) : ¬ Created (op :: ops) k :=
  fun created => (created_cons.mp created).elim now later

theorem named_cons : Named (op :: ops) name ↔ op.Names name ∨ Named ops name := by simp [Named]

theorem dropped_cons : Dropped (op :: ops) k ↔ op.Drops k ∨ Dropped ops k := by simp [Dropped]

theorem touched_cons : Touched (op :: ops) k id ↔ op.Touches k id ∨ Touched ops k id := by
  simp [Touched]

theorem created_append : Created (ops ++ later) k ↔ Created ops k ∨ Created later k := by
  simp [Created, or_and_right, exists_or]

theorem Named.append_left (named : Named ops name) : Named (ops ++ later) name :=
  let ⟨op, member, names⟩ := named
  ⟨op, List.mem_append_left _ member, names⟩

theorem Dropped.append_left (dropped : Dropped ops k) : Dropped (ops ++ later) k :=
  let ⟨op, member, drops⟩ := dropped
  ⟨op, List.mem_append_left _ member, drops⟩

theorem Touched.append_left (touched : Touched ops k id) : Touched (ops ++ later) k id :=
  let ⟨op, member, touches⟩ := touched
  ⟨op, List.mem_append_left _ member, touches⟩

end Lists

namespace Logical

def empty : Logical := ⟨∅, ∅⟩

def onPoints (l : Logical) (k : CollectionId)
    (f : ExtTreeMap String Record → ExtTreeMap String Record) : Logical :=
  { l with collections := l.collections.alter k (Option.map fun e => { e with points := f e.points }) }

variable (encoding : Encoding)

def apply (l : Logical) : WalOp → Logical
  | .createCollection k name bytes =>
    match encoding.decodeDescriptor bytes with
    | some descriptor => ⟨l.names.insert name k, l.collections.insert k ⟨name, descriptor, ∅⟩⟩
    | none => l
  | .dropCollection k =>
    match l.collections[k]? with
    | some e => ⟨l.names.erase e.name, l.collections.erase k⟩
    | none => l
  | .upsert k id vector payload => l.onPoints k (·.insert id ⟨leBytesToF32 vector, payload⟩)
  | .delete k id => l.onPoints k (·.erase id)
  | .checkpoint .. => l

def applyAll (l : Logical) (ops : List WalOp) : Logical := ops.foldl (apply encoding) l

@[simp] theorem applyAll_nil (l : Logical) : l.applyAll encoding [] = l := rfl

@[simp] theorem applyAll_cons (l : Logical) (op : WalOp) (ops : List WalOp) :
    l.applyAll encoding (op :: ops) = (l.apply encoding op).applyAll encoding ops := rfl

theorem applyAll_append (l : Logical) (first second : List WalOp) :
    l.applyAll encoding (first ++ second) = (l.applyAll encoding first).applyAll encoding second :=
  List.foldl_append

/-- The name index is the inverse of the collections' names. -/
def Indexed (l : Logical) : Prop :=
  ∀ (name : String) (k : CollectionId),
    l.names[name]? = some k ↔ ∃ e : LogicalCollection, l.collections[k]? = some e ∧ e.name = name

/-- Every collection id is below the allocator. -/
def Below (l : Logical) (next : CollectionId) : Prop :=
  ∀ (k : CollectionId) (e : LogicalCollection), l.collections[k]? = some e → k < next

/-- The operation is one a store logs in this state, with `next` the id allocator. -/
def Legal (l : Logical) (next : CollectionId) : WalOp → Prop
  | .createCollection k name bytes =>
    next ≤ k ∧ (∃ descriptor, encoding.decodeDescriptor bytes = some descriptor) ∧ l.names[name]? = none
  | .dropCollection k => ∃ e, l.collections[k]? = some e
  | .upsert k _ vector _ => ∃ e, l.collections[k]? = some e ∧ vector.length = e.descriptor.stride
  | .delete k _ => ∃ e, l.collections[k]? = some e
  | .checkpoint .. => False

end Logical

/-- The allocator after an operation. -/
def WalOp.nextId (next : CollectionId) : WalOp → CollectionId
  | .createCollection k _ _ => k + 1
  | _ => next

namespace Logical

variable (encoding : Encoding)

/-- A sequence of operations a store logs from this state. -/
def Valid (l : Logical) (next : CollectionId) : List WalOp → Prop
  | [] => True
  | op :: ops => l.Legal encoding next op ∧ Valid (l.apply encoding op) (op.nextId next) ops

theorem collections_onPoints (l : Logical) (k j : CollectionId)
    (f : ExtTreeMap String Record → ExtTreeMap String Record) :
    (l.onPoints k f).collections[j]? =
      if k = j then l.collections[j]?.map fun e => { e with points := f e.points }
      else l.collections[j]? := by
  simp only [onPoints, ExtTreeMap.getElem?_alter, compare_eq_iff_eq]
  split
  case isTrue same => rw [same]
  case isFalse => rfl

variable {encoding} {l a b : Logical} {next : CollectionId} {op : WalOp} {ops later : List WalOp}

theorem Legal.nextId_ge (legal : l.Legal encoding next op) : next ≤ op.nextId next := by
  cases op with
  | createCollection k name bytes => exact Nat.le_succ_of_le legal.1
  | _ => exact Nat.le_refl _

theorem Valid.append_iff : l.Valid encoding next (ops ++ later) ↔
    l.Valid encoding next ops ∧
      (l.applyAll encoding ops).Valid encoding (ops.foldl WalOp.nextId next) later := by
  induction ops generalizing l next with
  | nil => simp [Valid]
  | cons op ops ih => simp only [List.cons_append, Valid, ih, and_assoc, applyAll_cons, List.foldl_cons]

section

variable (valid : l.Valid encoding next ops)
include valid

theorem Valid.next_le : next ≤ ops.foldl WalOp.nextId next := by
  induction ops generalizing l next with
  | nil => exact Nat.le_refl _
  | cons op ops ih => exact Nat.le_trans valid.1.nextId_ge (ih valid.2)

/-- An id is created once, by the counter. -/
theorem Valid.created_between {k : CollectionId} (created : Created ops k) :
    next ≤ k ∧ k < ops.foldl WalOp.nextId next := by
  induction ops generalizing l next with
  | nil =>
    obtain ⟨op, member, _⟩ := created
    contradiction
  | cons op ops ih =>
    obtain ⟨legal, valid⟩ := valid
    obtain here | later := created_cons.mp created
    · cases op with
      | createCollection j name bytes =>
        cases here
        exact ⟨legal.1, valid.next_le⟩
      | _ => contradiction
    · exact (ih valid later).imp_left (Nat.le_trans legal.nextId_ge)

theorem Valid.created {k : CollectionId} (created : Created ops k) : next ≤ k :=
  (valid.created_between created).1

theorem Valid.created_below {k : CollectionId} (created : Created ops k) :
    k < ops.foldl WalOp.nextId next := (valid.created_between created).2

end

section

variable (indexed : l.Indexed) {k : CollectionId}
include indexed

theorem Indexed.insert {c : LogicalCollection} (untaken : l.names[c.name]? = none)
    (fresh : l.collections[k]? = none) : Indexed ⟨l.names.insert c.name k, l.collections.insert k c⟩ := by
  intro other j
  simp only [get_insert]
  by_cases same : c.name = other
  · subst same
    simp only [if_true, Option.some.injEq]
    constructor
    · rintro rfl
      exact ⟨_, if_pos rfl, rfl⟩
    · rintro ⟨e, found, isName⟩
      split at found
      case isTrue same => exact same
      case isFalse =>
        have taken := (indexed c.name j).mpr ⟨e, found, isName⟩
        rw [untaken] at taken
        contradiction
  · rw [if_neg same, indexed]
    constructor
    · rintro ⟨e, found, isName⟩
      refine ⟨e, ?_, isName⟩
      rw [if_neg, found]
      rintro rfl
      rw [fresh] at found
      contradiction
    · rintro ⟨e, found, isName⟩
      split at found
      · cases found
        exact absurd isName same
      · exact ⟨e, found, isName⟩

theorem Indexed.erase {e : LogicalCollection} (present : l.collections[k]? = some e) :
    Indexed ⟨l.names.erase e.name, l.collections.erase k⟩ := by
  intro other j
  simp only [get_erase]
  by_cases same : e.name = other
  · subst same
    simp only [if_true, reduceCtorEq, false_iff]
    rintro ⟨e', found, isName⟩
    split at found
    · contradiction
    · rename_i differ
      have first := (indexed e.name k).mpr ⟨e, present, rfl⟩
      rw [(indexed e.name j).mpr ⟨e', found, isName⟩] at first
      exact differ (Option.some.inj first).symm
  · rw [if_neg same, indexed]
    constructor
    · rintro ⟨e', found, isName⟩
      refine ⟨e', ?_, isName⟩
      rw [if_neg, found]
      rintro rfl
      rw [present] at found
      cases found
      exact same isName
    · rintro ⟨e', found, isName⟩
      split at found
      · contradiction
      · exact ⟨e', found, isName⟩

end

theorem collections_drop (encoding : Encoding) (l : Logical) (k j : CollectionId) :
    (l.apply encoding (.dropCollection k)).collections[j]? = if k = j then none else l.collections[j]? := by
  simp only [apply]
  cases found : l.collections[k]? with
  | some c => simp only [get_erase]
  | none => rw [← get_erase, erase_absent found]

theorem collections_create (l : Logical) {name : String} {bytes : Bytes} {descriptor : Descriptor}
    (decoded : encoding.decodeDescriptor bytes = some descriptor) (k j : CollectionId) :
    (l.apply encoding (.createCollection k name bytes)).collections[j]? =
      if k = j then some ⟨name, descriptor, ∅⟩ else l.collections[j]? := by
  simp only [apply, decoded, get_insert]

/-- A collection after an operation was created by it, or was there with the points it has now, but for one the operation wrote. -/
theorem of_apply {c : LogicalCollection} {op : WalOp} (found : (l.apply encoding op).collections[k]? = some c) :
    (∃ bytes, op = .createCollection k c.name bytes ∧ encoding.decodeDescriptor bytes = some c.descriptor ∧ c.points = ∅) ∨
      ∃ c', l.collections[k]? = some c' ∧ c'.name = c.name ∧ c'.descriptor = c.descriptor ∧
        ∀ {id r}, c.points[id]? = some r → c'.points[id]? = some r ∨
          ∃ vector payload, op = .upsert k id vector payload ∧ r = ⟨leBytesToF32 vector, payload⟩ := by
  cases op with
  | createCollection j name bytes =>
    cases decoded : encoding.decodeDescriptor bytes with
    | none =>
      simp only [apply, decoded] at found
      exact .inr ⟨c, found, rfl, rfl, .inl⟩
    | some descriptor =>
      rw [collections_create l decoded] at found
      split at found
      · rename_i same
        cases found
        exact .inl ⟨bytes, by rw [same], decoded, rfl⟩
      · exact .inr ⟨c, found, rfl, rfl, .inl⟩
  | dropCollection j =>
    rw [collections_drop] at found
    split at found
    · contradiction
    · exact .inr ⟨c, found, rfl, rfl, .inl⟩
  | upsert j id vector payload =>
    simp only [apply, collections_onPoints] at found
    split at found
    · rename_i same
      obtain ⟨c', held, rfl⟩ := Option.map_eq_some_iff.mp found
      refine .inr ⟨c', held, rfl, rfl, fun point => ?_⟩
      obtain ⟨rfl, rfl⟩ | ⟨_, before⟩ := of_insert point
      · exact .inr ⟨vector, payload, by rw [same], rfl⟩
      · exact .inl before
    · exact .inr ⟨c, found, rfl, rfl, .inl⟩
  | delete j id =>
    simp only [apply, collections_onPoints] at found
    split at found
    · obtain ⟨c', held, rfl⟩ := Option.map_eq_some_iff.mp found
      exact .inr ⟨c', held, rfl, rfl, fun point => .inl (of_erase point).2⟩
    · exact .inr ⟨c, found, rfl, rfl, .inl⟩
  | checkpoint lsn version => exact .inr ⟨c, found, rfl, rfl, .inl⟩

end Logical

end Quiver.Core
