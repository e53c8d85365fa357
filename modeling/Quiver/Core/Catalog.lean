import Quiver.Core.Absorption
import Quiver.Core.CollectionSeal
import Quiver.Core.Disk

/-!
The collections of a store and the index of their names, and the replay of logged operations into
them. A collection's sealed part stays as it was loaded, and every row that dies belongs to an id
the operations touch.
-/

namespace Quiver.Core

open Results Maps
open Std (ExtTreeMap)

def CollectionState.new (id : CollectionId) (name : String) (descriptor : Descriptor) (codec : Key) :
    CollectionState :=
  { id, name, descriptor, codec }

structure Catalog where
  collections : ExtTreeMap CollectionId CollectionState := ∅
  nameIndex : ExtTreeMap String CollectionId := ∅

namespace Catalog

def add (cat : Catalog) (c : CollectionState) : Catalog :=
  ⟨cat.collections.insert c.id c, cat.nameIndex.insert c.name c.id⟩

def update (cat : Catalog) (k : CollectionId) (f : CollectionState → Except CoreError CollectionState) :
    Except CoreError Catalog :=
  match cat.collections[k]? with
  | none => .ok cat
  | some c => do return { cat with collections := cat.collections.insert k (← f c) }

variable (encoding : Encoding) (ring : KeyRing) (d : DataDir)

/-- Apply a logged operation; one on a collection that is gone does nothing. -/
def applyWalEntry (cat : Catalog) : WalOp → Except CoreError Catalog
  | .createCollection k name bytes =>
    match encoding.decodeDescriptor bytes with
    | none => .error .serialization
    | some descriptor => do
      let codec ← ring.collectionCodec d k
      return ⟨cat.collections.insert k (.new k name descriptor codec), cat.nameIndex.insert name k⟩
  | .dropCollection k =>
    match cat.collections[k]? with
    | none => .ok cat
    | some c => .ok ⟨cat.collections.erase k, cat.nameIndex.erase c.name⟩
  | .upsert k id vector payload => cat.update k fun c => c.applyUpsert id vector payload
  | .delete k id => cat.update k fun c => do return (← c.applyDelete id).1
  | .checkpoint .. => .ok cat

def replay (cat : Catalog) (ops : List WalOp) : Except CoreError Catalog :=
  ops.foldlM (applyWalEntry encoding ring d) cat

end Catalog

/-- A collection in memory and what it stands for. -/
structure Stands (k : CollectionId) (c : CollectionState) (e : LogicalCollection) : Prop where
  id : c.id = k
  name : c.name = e.name
  descriptor : c.descriptor = e.descriptor
  points : c.Represents e.points

namespace Catalog

structure Represents (cat : Catalog) (l : Logical) : Prop where
  names : cat.nameIndex = l.names
  collections : ∀ k : CollectionId, Option.Rel (Stands k) cat.collections[k]? l.collections[k]?

variable {encoding : Encoding} {ring : KeyRing} {d : DataDir} {cat base cat' : Catalog}
  {a b l : Logical} {next : CollectionId} {op : WalOp} {ops later : List WalOp}

variable {k : CollectionId}

theorem Represents.some_left (represents : cat.Represents l) {c : CollectionState}
    (found : cat.collections[k]? = some c) : ∃ e, l.collections[k]? = some e ∧ Stands k c e :=
  rel_left (represents.collections k) found

theorem Represents.some_right (represents : cat.Represents l) {e : LogicalCollection}
    (found : l.collections[k]? = some e) : ∃ c, cat.collections[k]? = some c ∧ Stands k c e :=
  rel_right (represents.collections k) found

theorem Represents.none_left (represents : cat.Represents l)
    (absent : cat.collections[k]? = none) : l.collections[k]? = none :=
  rel_none (represents.collections k) absent

/-- The operation can be applied: its descriptor decodes, its key is there, and a vector has
the length its collection expects. -/
def Applicable (encoding : Encoding) (ring : KeyRing) (d : DataDir) (l : Logical) : WalOp → Prop
  | .createCollection k _ bytes =>
    (∃ descriptor, encoding.decodeDescriptor bytes = some descriptor) ∧
      ∃ key, ring.collectionCodec d k = .ok key
  | .upsert k _ vector _ => ∀ e, l.collections[k]? = some e → vector.length = e.descriptor.stride
  | _ => True

theorem represents_new (id : CollectionId) (name : String) (descriptor : Descriptor) (codec : Key) :
    (CollectionState.new id name descriptor codec).Represents ∅ := by
  have noCell : ∀ seg row, cell [] seg row = none := by simp [cell]
  refine ⟨[], ?_, ?_⟩
  · constructor
    case held => exact .nil
    case notActive => simp [CollectionState.new]
    case newest =>
      intro seg row r later ids live
      have := live.stored
      simp [noCell] at this
    case activeRows => simp [CollectionState.new]
    case activeStride => simp [CollectionState.new]
    case sealedStride => simp
    case window => simp [CollectionState.new, CollectionState.windowDead]
    case dead => simp [CollectionState.new]
  · intro id record
    simp only [ExtTreeMap.getElem?_empty, reduceCtorEq, false_iff]
    intro contains
    cases contains with
    | active found _ => simp [CollectionState.new] at found
    | sealed live _ =>
      have := live.stored
      simp [noCell] at this

theorem Represents.update (represents : cat.Represents l) (k : CollectionId)
    {f : CollectionState → Except CoreError CollectionState}
    {g : ExtTreeMap String Record → ExtTreeMap String Record}
    (each : ∀ c e, l.collections[k]? = some e → Stands k c e → ∃ c', f c = .ok c' ∧
      c'.base = c.base ∧ c'.Represents (g e.points)) :
    ∃ cat', cat.update k f = .ok cat' ∧ cat'.Represents (l.onPoints k g) := by
  cases found : cat.collections[k]? with
  | none =>
    refine ⟨cat, by simp only [Catalog.update, found], represents.names, fun j => ?_⟩
    rw [Logical.collections_onPoints]
    split
    case isTrue same =>
      subst same
      rw [found, represents.none_left found]
      exact .none
    case isFalse => exact represents.collections j
  | some c =>
    obtain ⟨e, held, stands⟩ := represents.some_left found
    obtain ⟨c', applied, sameBase, points⟩ := each c e held stands
    refine ⟨{ cat with collections := cat.collections.insert k c' }, ?_, represents.names, fun j => ?_⟩
    · simp only [Catalog.update, found, applied, ok_bind, pure_eq_ok]
    rw [Logical.collections_onPoints, get_insert]
    split
    case isTrue same =>
      subst same
      rw [held]
      refine .some ⟨?_, ?_, ?_, points⟩
      · exact (congrArg CollectionState.id sameBase).trans stands.id
      · exact (congrArg CollectionState.name sameBase).trans stands.name
      · exact (congrArg CollectionState.descriptor sameBase).trans stands.descriptor
    case isFalse => exact represents.collections j

theorem Represents.applyWalEntry (represents : cat.Represents l)
    (applicable : Applicable encoding ring d l op) :
    ∃ cat', cat.applyWalEntry encoding ring d op = .ok cat' ∧
      cat'.Represents (l.apply encoding op) := by
  cases op with
  | createCollection k name bytes =>
    obtain ⟨⟨descriptor, decoded⟩, codec, provisioned⟩ := applicable
    simp only [Catalog.applyWalEntry, Logical.apply, decoded, provisioned, ok_bind]
    refine ⟨_, rfl, by rw [represents.names], fun j => ?_⟩
    simp only [get_insert]
    split
    case isTrue same => exact .some ⟨same, rfl, rfl, represents_new ..⟩
    case isFalse => exact represents.collections j
  | dropCollection k =>
    cases found : cat.collections[k]? with
    | none =>
      simp only [Catalog.applyWalEntry, Logical.apply, found, represents.none_left found]
      exact ⟨_, rfl, represents⟩
    | some c =>
      obtain ⟨e, held, stands⟩ := represents.some_left found
      simp only [Catalog.applyWalEntry, Logical.apply, found, held]
      refine ⟨_, rfl, by rw [represents.names, stands.name], fun j => ?_⟩
      simp only [get_erase]
      split
      · exact .none
      · exact represents.collections j
  | upsert k id vector payload =>
    simp only [Catalog.applyWalEntry, Logical.apply]
    refine represents.update k fun c e held stands => ?_
    have stride : vector.length = c.stride := by
      rw [CollectionState.stride, stands.descriptor]
      exact applicable e held
    obtain ⟨c', applied, points⟩ := stands.points.applyUpsert id payload stride
    exact ⟨c', applied, CollectionState.base_applyUpsert applied, points⟩
  | delete k id =>
    simp only [Catalog.applyWalEntry, Logical.apply]
    refine represents.update k fun c e held stands => ?_
    obtain ⟨c', applied, points⟩ := stands.points.applyDelete id
    exact ⟨c', by rw [applied]; rfl, CollectionState.base_applyDelete applied, points⟩
  | checkpoint lsn version => exact ⟨cat, rfl, represents⟩

end Catalog

/-- Nothing of the collection is in its files. -/
structure CollectionState.Bare (c : CollectionState) : Prop where
  sealed : c.sealed = []
  segments : c.segmentsMeta = []
  snapshot : c.indexSnapshot = none

theorem CollectionState.Bare.congr {c c' : CollectionState} (bare : c.Bare) (same : c'.base = c.base) :
    c'.Bare where
  sealed := (congrArg CollectionState.sealed same).trans bare.sealed
  segments := (congrArg CollectionState.segmentsMeta same).trans bare.segments
  snapshot := (congrArg CollectionState.indexSnapshot same).trans bare.snapshot

theorem CollectionState.not_killed_new {id : CollectionId} {name : String} {descriptor : Descriptor}
    {codec : Key} {w : ExtTreeMap Nat Bitmap} {other : String} :
    ¬ (CollectionState.new id name descriptor codec).Killed w other := by
  rintro ⟨seg, row, s, _, sealed, _⟩
  simp [CollectionState.new] at sealed

namespace Catalog

/-- How a catalog relates to the one loaded from the files, after these operations: every
collection is sealed under its key, has the loaded segments or none, and only rows of touched
ids died since. -/
structure Backed (ring : KeyRing) (d : DataDir) (base : Catalog) (ops : List WalOp) (cat : Catalog) :
    Prop where
  codec : ∀ {k : CollectionId} {c : CollectionState}, cat.collections[k]? = some c →
    ring.collectionCodec d k = .ok c.codec
  sealed : ∀ {k : CollectionId} {c : CollectionState}, cat.collections[k]? = some c →
    ¬ Created ops k ∧ base.collections[k]? = some c.base ∨ Created ops k ∧ c.Bare
  window : ∀ {k : CollectionId} {c : CollectionState} {id : String}, cat.collections[k]? = some c →
    c.Killed c.deadThisWindow id → Touched ops k id

variable {encoding : Encoding} {ring : KeyRing} {d : DataDir} {cat base cat' : Catalog}
  {a b l : Logical} {next : CollectionId} {op : WalOp} {ops later : List WalOp}

theorem touched_append {k : CollectionId} {id : String} :
    Touched (ops ++ later) k id ↔ Touched ops k id ∨ Touched later k id := by
  simp [Touched, or_and_right, exists_or]

theorem Backed.extend (backed : Backed ring d base ops cat) (noneCreated : ∀ k, ¬ Created later k) :
    Backed ring d base (ops ++ later) cat where
  codec := backed.codec
  sealed found := by
    simp only [created_append, noneCreated, or_false]
    exact backed.sealed found
  window found killed := touched_append.mpr (.inl (backed.window found killed))

theorem Backed.update (backed : Backed ring d base ops cat) (represents : cat.Represents l)
    {k : CollectionId} {f : CollectionState → Except CoreError CollectionState}
    (applied : cat.update k f = .ok cat') (plain : ∀ j, ¬ op.Creates j)
    (each : ∀ c c' e, Stands k c e → f c = .ok c' → c'.base = c.base ∧
      ∀ id, c'.Killed c'.deadThisWindow id → c.Killed c.deadThisWindow id ∨ op.Touches k id) :
    Backed ring d base (ops ++ [op]) cat' := by
  have noneCreated : ∀ j, ¬ Created [op] j := by
    rintro j ⟨_, member, creates⟩
    rw [List.mem_singleton.mp member] at creates
    exact plain j creates
  have before := backed.extend noneCreated
  rw [Catalog.update] at applied
  split at applied
  · cases applied
    exact before
  · rename_i c found
    obtain ⟨c', isNew, rest⟩ := bind_eq_ok.mp applied
    cases rest
    obtain ⟨e, _, stands⟩ := represents.some_left found
    obtain ⟨sameBase, killed⟩ := each c c' e stands isNew
    constructor
    · intro j other here
      obtain ⟨rfl, rfl⟩ | ⟨_, here⟩ := of_insert here
      · exact (before.codec found).trans
          (congrArg Except.ok (congrArg CollectionState.codec sameBase).symm)
      · exact before.codec here
    · intro j other here
      obtain ⟨rfl, rfl⟩ | ⟨_, here⟩ := of_insert here
      · rw [sameBase]
        exact (before.sealed found).imp_right fun ⟨created, bare⟩ => ⟨created, bare.congr sameBase⟩
      · exact before.sealed here
    · intro j other id here isKilled
      obtain ⟨rfl, rfl⟩ | ⟨_, here⟩ := of_insert here
      · obtain old | new := killed id isKilled
        · exact before.window found old
        · exact touched_append.mpr (.inr ⟨op, List.mem_singleton_self op, new⟩)
      · exact before.window here isKilled

theorem Backed.applyWalEntry (backed : Backed ring d base ops cat) (represents : cat.Represents l)
    (applied : cat.applyWalEntry encoding ring d op = .ok cat') :
    Backed ring d base (ops ++ [op]) cat' := by
  cases op with
  | createCollection k name bytes =>
    simp only [Catalog.applyWalEntry] at applied
    split at applied
    · contradiction
    · rename_i descriptor _
      obtain ⟨codec, provisioned, rest⟩ := bind_eq_ok.mp applied
      cases rest
      have created : ∀ {j}, Created (ops ++ [.createCollection k name bytes]) j ↔ Created ops j ∨ k = j := by
        simp [Created, WalOp.Creates]
      constructor
      · intro j c here
        obtain ⟨rfl, rfl⟩ | ⟨_, here⟩ := of_insert here
        · exact provisioned
        · exact backed.codec here
      · intro j c here
        obtain ⟨same, rfl⟩ | ⟨differ, here⟩ := of_insert here
        · exact .inr ⟨created.mpr (.inr same), rfl, rfl, rfl⟩
        · simp only [created, differ, or_false]
          exact backed.sealed here
      · intro j c id here killed
        obtain ⟨_, rfl⟩ | ⟨_, here⟩ := of_insert here
        · exact absurd killed CollectionState.not_killed_new
        · exact touched_append.mpr (.inl (backed.window here killed))
  | dropCollection k =>
    have noneCreated : ∀ j, ¬ Created [.dropCollection k] j := by simp [Created, WalOp.Creates]
    have before := backed.extend noneCreated
    simp only [Catalog.applyWalEntry] at applied
    split at applied
    · cases applied
      exact before
    · cases applied
      have kept : ∀ {j : CollectionId} {c : CollectionState},
          (cat.collections.erase k)[j]? = some c → cat.collections[j]? = some c := fun here => (of_erase here).2
      exact ⟨fun here => before.codec (kept here), fun here => before.sealed (kept here),
        fun here => before.window (kept here)⟩
  | upsert k id vector payload =>
    refine backed.update represents applied (fun _ => by exact not_false) fun c c' e stands isNew => ?_
    refine ⟨CollectionState.base_applyUpsert isNew, fun other killed => ?_⟩
    exact (stands.points.killed_applyUpsert isNew killed).imp_right fun same => ⟨rfl, same.symm⟩
  | delete k id =>
    refine backed.update represents applied (fun _ => by exact not_false) fun c c' e stands isNew => ?_
    obtain ⟨⟨c'', existed⟩, isDelete, rest⟩ := bind_eq_ok.mp isNew
    cases rest
    refine ⟨CollectionState.base_applyDelete isDelete, fun other killed => ?_⟩
    exact (stands.points.killed_applyDelete isDelete killed).imp_right fun same => ⟨rfl, same.symm⟩
  | checkpoint lsn version =>
    cases applied
    exact backed.extend (by simp [Created, WalOp.Creates])

theorem Represents.replay {start : List WalOp} (indexed : a.Indexed) (below : a.Below next)
    (valid : a.Valid encoding next ops) (absorbs : Absorbs ops a b) (represents : cat.Represents b)
    (backed : Backed ring d base start cat)
    (keys : ∀ k, Created ops k → ∃ key, ring.collectionCodec d k = .ok key) :
    ∃ cat', cat.replay encoding ring d ops = .ok cat' ∧ cat'.Represents (a.applyAll encoding ops) ∧
      Backed ring d base (start ++ ops) cat' := by
  induction ops generalizing a b cat next start with
  | nil =>
    refine ⟨cat, rfl, ?_, by rwa [List.append_nil]⟩
    rw [Logical.applyAll_nil, ← absorbs.eq_of_nil]
    exact represents
  | cons op ops ih =>
    have applicable : Applicable encoding ring d b op := by
      cases op with
      | createCollection k name bytes =>
        exact ⟨valid.1.2.1, keys k ⟨_, List.mem_cons_self .., rfl⟩⟩
      | upsert k id vector payload => exact fun e held => absorbs.stride_eq below valid held
      | _ => trivial
    obtain ⟨next', applied, represents'⟩ := represents.applyWalEntry applicable
    obtain ⟨cat', replayed, final, backed'⟩ := ih (indexed.apply below valid.1) (below.apply valid.1)
      valid.2 (absorbs.apply indexed below valid) represents' (backed.applyWalEntry represents applied)
      fun k created => keys k (created_cons.mpr (.inr created))
    refine ⟨cat', ?_, final, by rwa [List.append_assoc] at backed'⟩
    simp only [Catalog.replay, List.foldlM_cons, applied, ok_bind]
    exact replayed

end Catalog

end Quiver.Core
