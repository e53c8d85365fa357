import Quiver.Replication.Snapshot

/-!
Applying a committed sequence to an engine that already holds a part of it. Every create carries a
fresh id and a free name, every other operation an id created before it. The engine converges to the
state the sequence leads to, although creates are skipped by name and the other operations are
resolved by id.
-/

namespace Quiver.Core

open Maps
open Std (ExtTreeMap)

variable {encoding : Encoding} {a b l : Logical} {e : Engine} {next : CollectionId}
  {used : CollectionId → Prop} {op : WalOp}
  {ops later : List WalOp} {k : CollectionId}

namespace Logical

theorem indexed_empty : Logical.empty.Indexed := fun name k => by simp [Logical.empty]

theorem below_empty : Logical.empty.Below 0 := fun k c found => by simp [Logical.empty] at found

end Logical

namespace Engine

theorem filter_names {l : Logical} (indexed : l.Indexed) {c : LogicalCollection} (held : l.collections[k]? = some c) :
    (l.names.filter fun _ j => j ≠ k) = l.names.erase c.name := by
  refine ExtTreeMap.ext_getElem? fun {name} => ?_
  rw [get_erase, ExtTreeMap.getElem?_filter]
  by_cases same : c.name = name
  · subst same
    simp [(indexed c.name k).mpr ⟨c, held, rfl⟩, Option.filter]
  · rw [if_neg same]
    cases named : l.names[name]? with
    | none => rfl
    | some j =>
      have differ : j ≠ k := by
        rintro rfl
        obtain ⟨c', held', isName⟩ := (indexed name j).mp named
        rw [held] at held'
        cases held'
        exact same isName
      simp [Option.filter, differ]

theorem WellFormed.drop (wf : e.WellFormed) (k : CollectionId) :
    (e.applyReplicated encoding (.dropCollection k)).WellFormed := by
  simp only [applyReplicated, Logical.apply, wf.handles]
  cases found : e.logical.collections[k]? with
  | none =>
    refine ⟨wf.indexed, ExtTreeMap.ext_getElem? fun {name} => ?_⟩
    rw [ExtTreeMap.getElem?_filter]
    cases named : e.logical.names[name]? with
    | none => rfl
    | some j =>
      obtain ⟨c, held, _⟩ := (wf.indexed name j).mp named
      have differ : j ≠ k := by
        rintro rfl
        rw [found] at held
        contradiction
      simp [Option.filter, differ]
  | some c => exact ⟨wf.indexed.erase found, filter_names wf.indexed found⟩

end Engine

namespace Logical

/-- The operation may follow a log that created the ids `used` and led to this state. -/
def Commits (encoding : Encoding) (l : Logical) (used : CollectionId → Prop) : WalOp → Prop
  | .createCollection k name bytes =>
    ¬ used k ∧ (∃ descriptor, encoding.decodeDescriptor bytes = some descriptor) ∧ l.names[name]? = none
  | .dropCollection k => used k
  | .upsert k _ vector _ => used k ∧ ∀ c, l.collections[k]? = some c → vector.length = c.descriptor.stride
  | .delete k _ => used k
  | .checkpoint .. => True

/-- A sequence of committed operations after a log that created the ids `used`. -/
def Committed (encoding : Encoding) (l : Logical) (used : CollectionId → Prop) : List WalOp → Prop
  | [] => True
  | op :: ops => l.Commits encoding used op ∧
    Committed encoding (l.apply encoding op) (fun k => used k ∨ op.Creates k) ops

/-- As `Commits`, whatever the vectors are. -/
def Orders (encoding : Encoding) (l : Logical) (used : CollectionId → Prop) : WalOp → Prop
  | .createCollection k name bytes =>
    ¬ used k ∧ (∃ descriptor, encoding.decodeDescriptor bytes = some descriptor) ∧ l.names[name]? = none
  | .dropCollection k | .upsert k _ _ _ | .delete k _ => used k
  | .checkpoint .. => True

def Ordered (encoding : Encoding) (l : Logical) (used : CollectionId → Prop) : List WalOp → Prop
  | [] => True
  | op :: ops => l.Orders encoding used op ∧
    Ordered encoding (l.apply encoding op) (fun k => used k ∨ op.Creates k) ops

theorem Commits.orders (commits : l.Commits encoding used op) : l.Orders encoding used op := by
  cases op with
  | upsert k id vector payload => exact commits.1
  | _ => exact commits

theorem Committed.ordered (committed : l.Committed encoding used ops) : l.Ordered encoding used ops := by
  induction ops generalizing l used with
  | nil => trivial
  | cons op ops ih => exact ⟨committed.1.orders, ih committed.2⟩

/-- Every collection was created. -/
def Known (l : Logical) (used : CollectionId → Prop) : Prop :=
  ∀ (k : CollectionId) (c : LogicalCollection), l.collections[k]? = some c → used k

theorem known_empty : Logical.empty.Known used := fun k c found => by simp [Logical.empty] at found

theorem Ordered.append_iff : l.Ordered encoding used (ops ++ later) ↔
    l.Ordered encoding used ops ∧
      (l.applyAll encoding ops).Ordered encoding (fun k => used k ∨ Created ops k) later := by
  induction ops generalizing l used with
  | nil => simp [Ordered, Created]
  | cons op ops ih =>
    have same : (fun k => (used k ∨ op.Creates k) ∨ Created ops k) =
        fun k => used k ∨ Created (op :: ops) k := by
      funext k
      rw [created_cons, or_assoc]
    rw [List.cons_append, Ordered, Ordered, ih, same, and_assoc]
    rfl

theorem Ordered.unused (ordered : l.Ordered encoding used ops) (created : Created ops k) : ¬ used k := by
  induction ops generalizing l used with
  | nil => simp [Created] at created
  | cons op ops ih =>
    intro isUsed
    obtain now | later := created_cons.mp created
    · cases op with
      | createCollection j name bytes =>
        cases now
        exact ordered.1.1 isUsed
      | _ => exact now
    · exact ih ordered.2 later (.inl isUsed)

theorem Known.apply (known : l.Known used) (encoding : Encoding) (op : WalOp) :
    (l.apply encoding op).Known (fun k => used k ∨ op.Creates k) := by
  intro j c found
  obtain ⟨bytes, rfl, _⟩ | ⟨c', held, _⟩ := of_apply found
  · exact .inr rfl
  · exact .inl (known j c' held)

/-- What a store logs may be committed. -/
theorem Valid.committed (below : l.Below next) (valid : l.Valid encoding next ops) (known : l.Known used)
    (bounded : ∀ k, used k → k < next) : l.Committed encoding used ops := by
  induction ops generalizing l next used with
  | nil => trivial
  | cons op ops ih =>
    obtain ⟨legal, valid⟩ := valid
    have below' := below.apply legal
    have commits : l.Commits encoding used op := by
      cases op with
      | createCollection k name bytes =>
        exact ⟨fun isUsed => absurd (bounded k isUsed) (Nat.not_lt.mpr legal.1), legal.2⟩
      | dropCollection k | delete k id =>
        obtain ⟨c, found⟩ := legal
        exact known k c found
      | upsert k id vector payload =>
        obtain ⟨c, found, fits⟩ := legal
        refine ⟨known k c found, fun c' found' => ?_⟩
        rw [found] at found'
        cases found'
        exact fits
      | checkpoint lsn version => exact legal.elim
    refine ⟨commits, ih below' valid (known.apply _ _) fun k isUsed => ?_⟩
    obtain before | creates := isUsed
    · exact Nat.lt_of_lt_of_le (bounded k before) legal.nextId_ge
    · cases op with
      | createCollection j name bytes =>
        cases creates
        exact Nat.lt_succ_self _
      | _ => exact creates.elim

theorem Indexed.commit (indexed : l.Indexed) (known : l.Known used) (orders : l.Orders encoding used op) :
    (l.apply encoding op).Indexed := by
  refine indexed.replay fun {k _ _} isOp => ?_
  subst isOp
  exact ⟨Option.eq_none_iff_forall_ne_some.mpr fun c held => absurd (known k c held) orders.1, orders.2.2⟩

theorem Ordered.applyAll (indexed : l.Indexed) (known : l.Known used) (ordered : l.Ordered encoding used ops) :
    (l.applyAll encoding ops).Indexed ∧
      (l.applyAll encoding ops).Known fun k => used k ∨ Created ops k := by
  induction ops generalizing l used with
  | nil => exact ⟨indexed, fun k c found => .inl (known k c found)⟩
  | cons op ops ih =>
    obtain ⟨indexed', known'⟩ := ih (indexed.commit known ordered.1) (known.apply _ _) ordered.2
    refine ⟨indexed', fun k c found => ?_⟩
    change used k ∨ Created (op :: ops) k
    rw [created_cons, ← or_assoc]
    exact known' k c found

theorem similar_applyAll (encoding : Encoding) (l : Logical) (fresh : ¬ Created ops k) :
    Similar ops k l.collections[k]? (l.applyAll encoding ops).collections[k]? := by
  induction ops using List.reverseRecOn with
  | nil =>
    simp only [applyAll_nil]
    cases l.collections[k]? with
    | none => exact .absent
    | some c => exact .both rfl rfl fun _ _ => rfl
  | append_singleton ops op ih =>
    rw [created_append, not_or] at fresh
    have before : Similar (ops ++ [op]) k _ _ := (ih fresh.1).append
    rw [applyAll_append]
    change Similar _ _ _ ((l.applyAll encoding ops).apply encoding op).collections[k]?
    generalize l.applyAll encoding ops = now at before
    have onPoints : ∀ j (f : ExtTreeMap String Record → ExtTreeMap String Record),
        (∀ {p : ExtTreeMap String Record} {id : String}, j = k → ¬ Touched (ops ++ [op]) k id → (f p)[id]? = p[id]?) →
        Similar (ops ++ [op]) k l.collections[k]? (now.onPoints j f).collections[k]? := by
      intro j f untouched
      rw [collections_onPoints]
      split
      · rename_i same
        generalize l.collections[k]? = first at before
        generalize now.collections[k]? = second at before
        cases before with
        | absent => exact .absent
        | gone dropped => exact .gone dropped
        | both name descriptor points =>
          exact .both name descriptor fun id free => (untouched same free).trans (points id free)
      · exact before
    cases op with
    | createCollection j name bytes =>
      cases decoded : encoding.decodeDescriptor bytes with
      | none =>
        simp only [Logical.apply, decoded]
        exact before
      | some descriptor =>
        have differ : j ≠ k := fun same => fresh.2 ⟨_, List.mem_singleton_self _, same⟩
        rw [collections_create _ decoded, if_neg differ]
        exact before
    | dropCollection j =>
      rw [collections_drop]
      split
      · rename_i same
        have dropped : Dropped (ops ++ [.dropCollection j]) k := ⟨_, List.mem_append_right _ (List.mem_singleton_self _), same⟩
        cases l.collections[k]? with
        | none => exact .absent
        | some c => exact .gone dropped
      · exact before
    | upsert j id vector payload | delete j id =>
      refine onPoints j _ fun {p other} same free => ?_
      simp only [get_insert, get_erase]
      exact if_neg fun isId => free ⟨_, List.mem_append_right _ (List.mem_singleton_self _), same, isId⟩
    | checkpoint lsn version => exact before

/-- A collection keeps its name until it is dropped, so a create that takes the name comes
after the drop. -/
theorem Ordered.dropped_of_named (indexed : l.Indexed) (known : l.Known used)
    (ordered : l.Ordered encoding used ops)
    {c : LogicalCollection} (found : l.collections[k]? = some c) {j : CollectionId} {bytes : Bytes}
    (member : .createCollection j c.name bytes ∈ ops) : Dropped ops k := by
  induction ops generalizing l used c with
  | nil => contradiction
  | cons op ops ih =>
    obtain ⟨legal, ordered⟩ := ordered
    have owned := (indexed c.name k).mpr ⟨c, found, rfl⟩
    by_cases drops : op.Drops k
    · exact dropped_cons.mpr (.inl drops)
    · obtain rfl | later := List.mem_cons.mp member
      · rw [legal.2.2] at owned
        contradiction
      · have kept : ∃ c', (l.apply encoding op).collections[k]? = some c' ∧ c'.name = c.name := by
          cases op with
          | createCollection i name bytes =>
            obtain ⟨unused, ⟨descriptor, decoded⟩, _⟩ := legal
            have differ : i ≠ k := fun same => unused (same ▸ known k c found)
            rw [collections_create l decoded, if_neg differ]
            exact ⟨c, found, rfl⟩
          | dropCollection i =>
            have differ : i ≠ k := drops
            rw [collections_drop, if_neg differ]
            exact ⟨c, found, rfl⟩
          | upsert i id vector payload | delete i id =>
            simp only [apply, collections_onPoints, found]
            split
            · exact ⟨_, rfl, rfl⟩
            · exact ⟨c, rfl, rfl⟩
          | checkpoint lsn version => exact ⟨c, found, rfl⟩
        obtain ⟨c', found', isName⟩ := kept
        rw [← isName] at later
        exact dropped_cons.mpr (.inr (ih (indexed.commit known legal) (known.apply _ _) ordered found' later))

/-- What a sequence left of a collection it created. -/
theorem Ordered.created_state (ordered : l.Ordered encoding used ops) {name : String} {bytes : Bytes} (member : .createCollection k name bytes ∈ ops) {c : LogicalCollection}
    (found : (l.applyAll encoding ops).collections[k]? = some c) :
    c.name = name ∧ encoding.decodeDescriptor bytes = some c.descriptor ∧
      ∀ id : String, id ∈ c.points → Touched ops k id := by
  induction ops using List.reverseRecOn generalizing c with
  | nil => contradiction
  | append_singleton ops op ih =>
    obtain ⟨before, legal, _⟩ := Ordered.append_iff.mp ordered
    rw [applyAll_append] at found
    change ((l.applyAll encoding ops).apply encoding op).collections[k]? = some c at found
    obtain earlier | isLast := List.mem_append.mp member
    · obtain ⟨_, rfl, _⟩ | ⟨c', held, isName, isDescriptor, points⟩ := of_apply found
      · exact absurd (.inr ⟨_, earlier, rfl⟩) legal.1
      · obtain ⟨wasName, wasDescriptor, touched⟩ := ih before earlier held
        refine ⟨isName.symm.trans wasName, isDescriptor ▸ wasDescriptor, fun id inside => ?_⟩
        obtain old | ⟨vector, payload, rfl, _⟩ := points (ExtTreeMap.getElem?_eq_some_getElem inside)
        · exact (touched id (mem_of_get old)).append_left
        · exact ⟨_, List.mem_append_right _ (List.mem_singleton_self _), rfl, rfl⟩
    · rw [List.mem_singleton] at isLast
      subst isLast
      obtain ⟨_, ⟨descriptor, decoded⟩, _⟩ := legal
      rw [collections_create _ decoded, if_pos rfl] at found
      cases found
      exact ⟨rfl, decoded, by simp⟩

end Logical

/-- The state `b` holds what `a` holds, up to what the sequence still writes: it may miss
collections that are dropped and hold collections that are created. -/
structure Ahead (encoding : Encoding) (ops : List WalOp) (a b : Logical) : Prop where
  collection : ∀ k : CollectionId, ¬ Created ops k → Similar ops k a.collections[k]? b.collections[k]?
  created : ∀ {k : CollectionId} {name : String} {bytes : Bytes}, .createCollection k name bytes ∈ ops →
    ∀ {c : LogicalCollection}, b.collections[k]? = some c →
      c.name = name ∧ encoding.decodeDescriptor bytes = some c.descriptor ∧
        ∀ id : String, id ∈ c.points → Touched ops k id

namespace Ahead

open Logical

theorem applied (ordered : a.Ordered encoding used ops) : Ahead encoding ops a (a.applyAll encoding ops) :=
  ⟨fun _ fresh => similar_applyAll encoding a fresh, fun created _ found => ordered.created_state created found⟩

/-- Later entries that create no collection held already change nothing. -/
theorem append (ahead : Ahead encoding ops a b) (known : b.Known used)
    (unused : ∀ k, Created later k → ¬ used k) : Ahead encoding (ops ++ later) a b := by
  constructor
  · intro k fresh
    rw [created_append, not_or] at fresh
    exact (ahead.collection k fresh.1).append
  · intro k name bytes member c found
    obtain earlier | after := List.mem_append.mp member
    · obtain ⟨isName, isDescriptor, touched⟩ := ahead.created earlier found
      exact ⟨isName, isDescriptor, fun id inside => (touched id inside).append_left⟩
    · exact absurd (known k c found) (unused k ⟨_, after, rfl⟩)

theorem of_take (indexed : a.Indexed) (known : a.Known used)
    (ordered : a.Ordered encoding used (ops ++ later)) :
    Ahead encoding (ops ++ later) a (a.applyAll encoding ops) := by
  obtain ⟨first, second⟩ := Ordered.append_iff.mp ordered
  exact (applied first).append (first.applyAll indexed known).2 fun _ created => second.unused created

theorem eq_of_nil (ahead : Ahead encoding [] a b) (indexed : a.Indexed) (indexed' : b.Indexed) : b = a := by
  refine indexed'.ext indexed (ExtTreeMap.ext_getElem? fun {k} => ?_)
  exact (ahead.collection k (by simp [Created])).eq_of_nil

theorem onPoints {f : ExtTreeMap String Record → ExtTreeMap String Record}
    (ahead : Ahead encoding (op :: ops) a b) (notCreated : ¬ Created ops k) (edits : Absorbs.Edits op k f) :
    Ahead encoding ops (a.onPoints k f) (b.onPoints k f) := by
  constructor
  · intro j fresh
    have similar := ahead.collection j (not_created_cons (edits.plain j).1 fresh)
    exact Absorbs.similar_onPoints edits similar
  · intro j name bytes member c found
    have differ : k ≠ j := by
      rintro rfl
      exact notCreated ⟨_, member, rfl⟩
    rw [collections_onPoints, if_neg differ] at found
    obtain ⟨isName, isDescriptor, touched⟩ := ahead.created (List.mem_cons_of_mem _ member) found
    refine ⟨isName, isDescriptor, fun id inside => ?_⟩
    exact (touched_cons.mp (touched id inside)).resolve_left
      fun touches => differ (edits.elsewhere j id touches).symm

theorem created_later (ahead : Ahead encoding (op :: ops) a b) (quiet : ∀ j id, ¬ op.Touches j id) {j : CollectionId}
    {name : String} {bytes : Bytes} (member : .createCollection j name bytes ∈ ops) {c : LogicalCollection}
    (found : b.collections[j]? = some c) : c.name = name ∧ encoding.decodeDescriptor bytes = some c.descriptor ∧
      ∀ id : String, id ∈ c.points → Touched ops j id := by
  obtain ⟨isName, isDescriptor, touched⟩ := ahead.created (List.mem_cons_of_mem _ member) found
  exact ⟨isName, isDescriptor, fun point inside => (touched_cons.mp (touched point inside)).resolve_left (quiet j point)⟩

variable (wf : e.WellFormed) (indexed : a.Indexed) (known : a.Known used)
include wf indexed known

theorem step_create {name : String} {bytes : Bytes} (orders : a.Orders encoding used (.createCollection k name bytes))
    (ordered : (a.apply encoding (.createCollection k name bytes)).Ordered encoding
      (fun j => used j ∨ k = j) ops)
    (ahead : Ahead encoding (.createCollection k name bytes :: ops) a e.logical) :
    Ahead encoding ops (a.apply encoding (.createCollection k name bytes))
        (e.applyReplicated encoding (.createCollection k name bytes)).logical ∧
      (e.applyReplicated encoding (.createCollection k name bytes)).WellFormed := by
  have indexed' := indexed.commit known orders
  have known' := known.apply encoding (.createCollection k name bytes)
  obtain ⟨unused, ⟨descriptor, decoded⟩, untaken⟩ := orders
  have onlyOnce : ∀ {j}, Created ops j → k ≠ j := by
    rintro j created rfl
    exact ordered.unused created (.inr rfl)
  have others : ∀ j, k ≠ j → ¬ Created ops j → Similar ops j
      (a.apply encoding (.createCollection k name bytes)).collections[j]? e.logical.collections[j]? := by
    intro j differ fresh
    rw [collections_create a decoded, if_neg differ]
    exact Absorbs.similar_cons_other (ahead.collection j (not_created_cons differ fresh)) id fun _ => id
  have mine : ∀ {c : LogicalCollection}, e.logical.collections[k]? = some c →
      c.name = name ∧ descriptor = c.descriptor ∧ ∀ id : String, id ∈ c.points → Touched ops k id := by
    intro c found
    obtain ⟨isName, isDescriptor, touched⟩ := ahead.created (List.mem_cons_self ..) found
    rw [decoded] at isDescriptor
    exact ⟨isName, Option.some.inj isDescriptor,
      fun point inside => (touched_cons.mp (touched point inside)).resolve_left id⟩
  cases taken : e.logical.names[name]? with
  | some j =>
    rw [wf.skip taken]
    refine ⟨⟨fun i fresh => ?_, ahead.created_later fun _ _ => id⟩, wf⟩
    by_cases same : k = i
    · subst same
      rw [collections_create a decoded, if_pos rfl]
      cases held : e.logical.collections[k]? with
      | some c =>
        obtain ⟨isName, isDescriptor, touched⟩ := mine held
        refine .both isName isDescriptor.symm fun id untouched => ?_
        rw [ExtTreeMap.getElem?_eq_none fun inside => untouched (touched id inside)]
        simp
      | none =>
        -- The name belongs to a later collection, so this one is dropped before that is created.
        obtain ⟨c, found, isName⟩ := (wf.indexed name j).mp taken
        have differ : k ≠ j := by
          rintro rfl
          rw [held] at found
          contradiction
        have isCreated : Created ops j := by
          by_contra fresh
          have similar := ahead.collection j (not_created_cons differ fresh)
          obtain ⟨_, start, sameName⟩ := similar.held found
          have owned := (indexed name j).mpr ⟨_, start, sameName.symm.trans isName⟩
          rw [untaken] at owned
          contradiction
        obtain ⟨op, member, creates⟩ := isCreated
        cases op with
        | createCollection i name' bytes' =>
          cases creates
          obtain ⟨sameName, _⟩ := ahead.created_later (fun _ _ => id) member found
          have isSame : name' = name := sameName.symm.trans isName
          subst isSame
          refine .gone (ordered.dropped_of_named indexed' known' (c := ⟨name', descriptor, ∅⟩) ?_ member)
          rw [collections_create a decoded, if_pos rfl]
        | _ => exact creates.elim
    · exact others i same fresh
  | none =>
    have fresh : e.logical.collections[k]? = none := by
      cases held : e.logical.collections[k]? with
      | none => rfl
      | some c =>
        have loaded := (wf.indexed name k).mpr ⟨c, held, (mine held).1⟩
        rw [taken] at loaded
        contradiction
    obtain ⟨eq, wf'⟩ := wf.create decoded taken fresh
    refine ⟨?_, wf'⟩
    rw [eq]
    constructor
    · intro i notCreated
      by_cases same : k = i
      · subst same
        rw [collections_create a decoded, if_pos rfl]
        simp only [get_insert, if_true]
        exact .both rfl rfl fun _ _ => rfl
      · simp only [get_insert, same, if_false]
        exact others i same notCreated
    · intro i name' bytes' member c found
      have differ := onlyOnce ⟨_, member, rfl⟩
      simp only [get_insert, differ, if_false] at found
      exact ahead.created_later (fun _ _ => id) member found

theorem step (ordered : a.Ordered encoding used (op :: ops)) (ahead : Ahead encoding (op :: ops) a e.logical) :
    Ahead encoding ops (a.apply encoding op) (e.applyReplicated encoding op).logical ∧
      (e.applyReplicated encoding op).WellFormed := by
  obtain ⟨orders, ordered⟩ := ordered
  have old : ∀ {k}, used k → ¬ Created ops k := fun isUsed created => ordered.unused created (.inl isUsed)
  cases op with
  | createCollection k name bytes => exact ahead.step_create wf indexed known orders ordered
  | dropCollection k =>
    refine ⟨⟨fun i fresh => ?_, fun {i name bytes} member {c} found => ?_⟩, wf.drop k⟩
    · rw [collections_drop, Engine.collections_drop]
      by_cases same : k = i
      · rw [if_pos same, if_pos same]
        exact .absent
      · rw [if_neg same, if_neg same]
        exact Absorbs.similar_cons_other (ahead.collection i (not_created_cons id fresh)) same fun _ => id
    · rw [Engine.collections_drop] at found
      split at found
      · contradiction
      · exact ahead.created_later (fun _ _ => id) member found
  | upsert k id vector payload => exact ⟨ahead.onPoints (old orders) (Absorbs.edits_upsert ..),
      wf.onPoints k (·.insert id ⟨leBytesToF32 vector, payload⟩)⟩
  | delete k id => exact ⟨ahead.onPoints (old orders) (Absorbs.edits_delete ..), wf.onPoints k (·.erase id)⟩
  | checkpoint lsn version =>
    refine ⟨⟨fun i fresh => ?_, fun {i name bytes} member {c} found => ?_⟩, wf⟩
    · exact Absorbs.similar_cons_other (ahead.collection i (not_created_cons id fresh)) id fun _ => id
    · exact ahead.created_later (fun _ _ => id) member found

theorem applyAll (ordered : a.Ordered encoding used (ops ++ later))
    (ahead : Ahead encoding (ops ++ later) a e.logical) :
    Ahead encoding later (a.applyAll encoding ops) (e.applyAll encoding ops).logical ∧
      (e.applyAll encoding ops).WellFormed := by
  induction ops generalizing a e used with
  | nil => exact ⟨ahead, wf⟩
  | cons op ops ih =>
    obtain ⟨ahead', wf'⟩ := ahead.step wf indexed known ordered
    exact ih wf' (indexed.commit known ordered.1) (known.apply _ _) ordered.2 ahead'

theorem converges (ordered : a.Ordered encoding used ops) (ahead : Ahead encoding ops a e.logical) :
    (e.applyAll encoding ops).logical = a.applyAll encoding ops ∧
      (e.applyAll encoding ops).WellFormed := by
  have whole : ops ++ [] = ops := List.append_nil ops
  rw [← whole] at ordered ahead
  obtain ⟨final, wf'⟩ := ahead.applyAll wf indexed known ordered
  rw [whole] at ordered
  exact ⟨final.eq_of_nil (ordered.applyAll indexed known).1 wf'.indexed, wf'⟩

end Ahead

theorem Engine.wellFormed_empty : Engine.empty.WellFormed := ⟨Logical.indexed_empty, rfl⟩

theorem Engine.WellFormed.follows (wf : e.WellFormed) (known : e.logical.Known used)
    (ordered : e.logical.Ordered encoding used ops) :
    (e.applyAll encoding ops).logical = e.logical.applyAll encoding ops ∧
      (e.applyAll encoding ops).WellFormed := by
  have ahead : Ahead encoding ([] ++ ops) e.logical (e.logical.applyAll encoding []) :=
    .of_take wf.indexed known ordered
  exact ahead.converges wf wf.indexed known ordered

end Quiver.Core
