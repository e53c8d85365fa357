import Mathlib.Data.List.Induction
import Quiver.Core.Logical

/-!
Replaying a logged sequence over a state read from disk, which may miss collections the sequence
drops, hold collections it creates, and differ at points it writes. The result is as from the state
the sequence was logged in.
-/

namespace Quiver.Core

open Maps
open Std (ExtTreeMap)

namespace Logical

variable {encoding : Encoding} {l a b : Logical} {next : CollectionId} {op : WalOp}
  {ops later : List WalOp}

theorem Below.apply (below : l.Below next) (legal : l.Legal encoding next op) :
    (l.apply encoding op).Below (op.nextId next) := by
  intro k e found
  obtain ⟨bytes, rfl, _⟩ | ⟨e', held, _⟩ := of_apply found
  · exact Nat.lt_succ_self k
  · refine Nat.lt_of_lt_of_le (below k e' held) ?_
    cases op with
    | createCollection j name bytes => exact Nat.le_succ_of_le legal.1
    | _ => exact Nat.le_refl _

theorem Indexed.onPoints (indexed : l.Indexed) (k : CollectionId)
    (f : ExtTreeMap String Record → ExtTreeMap String Record) : (l.onPoints k f).Indexed := by
  intro name j
  simp only [collections_onPoints]
  refine (indexed name j).trans ?_
  split
  · simp only [Option.map_eq_some_iff]
    constructor
    · rintro ⟨e, found, isName⟩
      exact ⟨_, ⟨e, found, rfl⟩, isName⟩
    · rintro ⟨_, ⟨e, found, rfl⟩, isName⟩
      exact ⟨e, found, isName⟩
  · rfl

theorem Indexed.replay (indexed : l.Indexed) (fresh : ∀ {k name bytes}, op = .createCollection k name bytes →
    l.collections[k]? = none ∧ l.names[name]? = none) : (l.apply encoding op).Indexed := by
  cases op with
  | createCollection k name bytes =>
    obtain ⟨fresh, untaken⟩ := fresh rfl
    simp only [Logical.apply]
    split
    · rename_i descriptor _
      exact indexed.insert (c := ⟨name, descriptor, ∅⟩) untaken fresh
    · exact indexed
  | dropCollection k =>
    simp only [Logical.apply]
    split
    · exact indexed.erase ‹_›
    · exact indexed
  | upsert k id vector payload | delete k id => exact indexed.onPoints k _
  | checkpoint lsn version => exact indexed

theorem Indexed.apply (indexed : l.Indexed) (below : l.Below next)
    (legal : l.Legal encoding next op) : (l.apply encoding op).Indexed := by
  refine indexed.replay fun {k _ _} isOp => ?_
  subst isOp
  refine ⟨Option.eq_none_iff_forall_ne_some.mpr fun e found => ?_, legal.2.2⟩
  exact absurd legal.1 (Nat.not_le.mpr (below k e found))

theorem Valid.indexed (indexed : l.Indexed) (below : l.Below next) (valid : l.Valid encoding next ops) :
    (l.applyAll encoding ops).Indexed ∧
      (l.applyAll encoding ops).Below (ops.foldl WalOp.nextId next) := by
  induction ops generalizing l next with
  | nil => exact ⟨indexed, below⟩
  | cons op ops ih =>
    obtain ⟨legal, valid⟩ := valid
    exact ih (indexed.apply below legal) (below.apply legal) valid

end Logical

/-- One collection in the state a sequence was logged in and in the state it is replayed
over. -/
inductive Similar (ops : List WalOp) (k : CollectionId) :
    Option LogicalCollection → Option LogicalCollection → Prop
  | absent : Similar ops k none none
  | gone {e} : Dropped ops k → Similar ops k (some e) none
  | both {e e'} : e'.name = e.name → e'.descriptor = e.descriptor →
      (∀ id : String, ¬ Touched ops k id → e'.points[id]? = e.points[id]?) →
      Similar ops k (some e) (some e')

section

variable {ops later : List WalOp} {k : CollectionId} {before after : Option LogicalCollection}

theorem Similar.append (similar : Similar ops k before after) : Similar (ops ++ later) k before after := by
  cases similar with
  | absent => exact .absent
  | gone dropped => exact .gone dropped.append_left
  | both name descriptor points =>
    exact .both name descriptor fun id untouched => points id fun touched => untouched touched.append_left

theorem Similar.held (similar : Similar ops k before after) {e' : LogicalCollection} (found : after = some e') :
    ∃ e, before = some e ∧ e'.name = e.name := by
  subst found
  cases similar with
  | both name => exact ⟨_, rfl, name⟩

theorem Similar.eq_of_nil (similar : Similar [] k before after) : after = before := by
  cases similar with
  | absent => rfl
  | gone dropped => simp [Dropped] at dropped
  | both name descriptor points =>
    congr 1
    exact LogicalCollection.ext name descriptor
      (ExtTreeMap.ext_getElem? fun {id} => points id (by simp [Touched]))

end

/-- The state `b` differs from `a` only where replaying the sequence makes up for it. -/
structure Absorbs (ops : List WalOp) (a b : Logical) : Prop where
  collection : ∀ k : CollectionId, ¬ Created ops k → Similar ops k a.collections[k]? b.collections[k]?
  recreated : ∀ {k : CollectionId} {e : LogicalCollection} {name bytes},
    b.collections[k]? = some e → WalOp.createCollection k name bytes ∈ ops → e.name = name
  name : ∀ name : String, ¬ Named ops name → b.names[name]? = a.names[name]? ∨
    b.names[name]? = none ∧ ∃ k, a.names[name]? = some k ∧ Dropped ops k
  owner : ∀ {name : String} {k : CollectionId}, b.names[name]? = some k →
    ∃ e : LogicalCollection, b.collections[k]? = some e ∧ e.name = name

namespace Absorbs

open Logical

variable {encoding : Encoding} {a b : Logical} {next : CollectionId} {op : WalOp}
  {ops later : List WalOp}

theorem refl (indexed : a.Indexed) (below : a.Below next) (valid : a.Valid encoding next ops) :
    Absorbs ops a a where
  collection k _ := by
    cases a.collections[k]? with
    | none => exact .absent
    | some e => exact .both rfl rfl fun _ _ => rfl
  recreated {k e name bytes} found member := by
    have above := valid.created ⟨_, member, rfl⟩
    exact absurd above (Nat.not_le.mpr (below k e found))
  name _ _ := .inl rfl
  owner found := (indexed _ _).mp found

theorem eq_of_nil (absorbs : Absorbs [] a b) : b = a := by
  refine Logical.ext ?_ ?_
  · refine ExtTreeMap.ext_getElem? fun {name} => ?_
    obtain same | ⟨_, k, _, dropped⟩ := absorbs.name name (by simp [Named])
    · exact same
    · simp [Dropped] at dropped
  · refine ExtTreeMap.ext_getElem? fun {k} => ?_
    exact (absorbs.collection k (by simp [Created])).eq_of_nil

variable {k : CollectionId} {e : LogicalCollection}

theorem not_created_again (below : a.Below next) (valid : a.Valid encoding next ops)
    (found : a.collections[k]? = some e) : ¬ Created ops k := by
  intro created
  exact absurd (valid.created created) (Nat.not_le.mpr (below k e found))

theorem similar_cons_other {before after : Option LogicalCollection}
    (similar : Similar (op :: ops) k before after) (notDropped : ¬ op.Drops k)
    (notTouched : ∀ id, ¬ op.Touches k id) : Similar ops k before after := by
  cases similar with
  | absent => exact .absent
  | gone dropped => exact .gone ((dropped_cons.mp dropped).resolve_left notDropped)
  | both name descriptor points =>
    refine .both name descriptor fun id untouched => points id ?_
    rw [touched_cons, not_or]
    exact ⟨notTouched id, untouched⟩

theorem name_cons_other (absorbs : Absorbs (op :: ops) a b) {name : String}
    (unnamed : ¬ Named (op :: ops) name) (notDropped : ∀ k, a.names[name]? = some k → ¬ op.Drops k) :
    b.names[name]? = a.names[name]? ∨
      b.names[name]? = none ∧ ∃ k, a.names[name]? = some k ∧ Dropped ops k := by
  obtain same | ⟨missing, k, named, dropped⟩ := absorbs.name name unnamed
  · exact .inl same
  · exact .inr ⟨missing, k, named, (dropped_cons.mp dropped).resolve_left (notDropped k named)⟩

theorem apply_create {name : String} {bytes : Bytes}
    (legal : a.Legal encoding next (.createCollection k name bytes))
    (valid : (a.apply encoding (.createCollection k name bytes)).Valid encoding (k + 1) ops)
    (absorbs : Absorbs (.createCollection k name bytes :: ops) a b) :
    Absorbs ops (a.apply encoding (.createCollection k name bytes))
      (b.apply encoding (.createCollection k name bytes)) := by
  obtain ⟨above, ⟨descriptor, decoded⟩, untaken⟩ := legal
  have onlyOnce : ∀ {j}, Created ops j → k ≠ j := by
    rintro j created rfl
    exact absurd (valid.created created) (Nat.not_le.mpr (Nat.lt_succ_self k))
  simp only [apply, decoded]
  constructor
  · intro j notCreated
    simp only [get_insert]
    by_cases same : k = j
    · simp only [same, if_true]
      exact .both rfl rfl fun _ _ => rfl
    · simp only [same, if_false]
      exact similar_cons_other (absorbs.collection j (not_created_cons same notCreated)) id fun _ => id
  · intro j e other otherBytes found member
    simp only [get_insert,
      if_neg (onlyOnce ⟨_, member, rfl⟩)] at found
    exact absorbs.recreated found (List.mem_cons_of_mem _ member)
  · intro other unnamed
    simp only [get_insert]
    by_cases same : name = other
    · simp [same]
    · simp only [same, if_false]
      refine absorbs.name_cons_other ?_ fun _ _ => id
      rw [named_cons, not_or]
      exact ⟨same, unnamed⟩
  · intro other j found
    simp only [get_insert]
    obtain ⟨same, rfl⟩ | ⟨differ, found⟩ := of_insert found
    · exact ⟨_, if_pos rfl, same⟩
    · obtain ⟨e, present, isName⟩ := absorbs.owner found
      refine ⟨e, ?_, isName⟩
      rw [if_neg, present]
      rintro rfl
      exact differ ((absorbs.recreated present (List.mem_cons_self ..)).symm.trans isName)

theorem apply_drop (indexed : a.Indexed) (below : a.Below next)
    (legal : a.Legal encoding next (.dropCollection k))
    (valid : (a.apply encoding (.dropCollection k)).Valid encoding next ops)
    (absorbs : Absorbs (.dropCollection k :: ops) a b) :
    Absorbs ops (a.apply encoding (.dropCollection k)) (b.apply encoding (.dropCollection k)) := by
  obtain ⟨e, present⟩ := legal
  have notCreated : ¬ Created (.dropCollection k :: ops) k :=
    not_created_cons id fun created => absurd (valid.created created) (Nat.not_le.mpr (below k e present))
  have owned := (indexed e.name k).mpr ⟨e, present, rfl⟩
  have otherNames : ∀ {name : String}, e.name ≠ name → ∀ j, a.names[name]? = some j → ¬ k = j := by
    rintro name differ _ named rfl
    obtain ⟨e', found, isName⟩ := (indexed name k).mp named
    rw [present] at found
    cases found
    exact differ isName
  have similar := absorbs.collection k notCreated
  rw [present] at similar
  -- What `b` holds of the dropped collection goes too, and its name with it.
  have replayed : ∃ names collections, b.apply encoding (.dropCollection k) = ⟨names, collections⟩ ∧
      (∀ j : CollectionId, collections[j]? = if k = j then none else b.collections[j]?) ∧
      (∀ name : String, names[name]? = b.names[name]? ∧ (e.name = name → names[name]? ≠ some k) ∨
        e.name = name ∧ names[name]? = none) := by
    generalize held : b.collections[k]? = after at similar
    cases similar with
    | gone =>
      refine ⟨b.names, b.collections, by simp only [apply, held], ?_, ?_⟩
      · intro j
        split
        case isTrue same => rw [← same, held]
        case isFalse => rfl
      · refine fun name => .inl ⟨rfl, fun _ named => ?_⟩
        obtain ⟨_, found, _⟩ := absorbs.owner named
        rw [held] at found
        contradiction
    | @both _ e' sameName =>
      refine ⟨b.names.erase e'.name, b.collections.erase k, by simp only [apply, held], ?_, ?_⟩
      · intro j
        simp only [get_erase]
      · intro name
        simp only [get_erase, sameName]
        by_cases same : e.name = name
        · exact .inr ⟨same, if_pos same⟩
        · exact .inl ⟨if_neg same, fun equal => absurd equal same⟩
  obtain ⟨names, collections, eq, gone, renamed⟩ := replayed
  rw [eq]
  simp only [apply, present]
  constructor
  · intro j notCreated
    simp only [get_erase, gone]
    by_cases same : k = j
    · simp only [same, if_true]
      exact .absent
    · simp only [same, if_false]
      exact similar_cons_other (absorbs.collection j (not_created_cons id notCreated)) same fun _ => id
  · intro j e' name bytes found member
    rw [gone] at found
    split at found
    · contradiction
    · exact absorbs.recreated found (List.mem_cons_of_mem _ member)
  · intro name unnamed
    have unnamed : ¬ Named (.dropCollection k :: ops) name := by
      rw [named_cons, not_or]
      exact ⟨id, unnamed⟩
    simp only [get_erase]
    by_cases same : e.name = name
    · rw [if_pos same]
      obtain ⟨kept, notOwned⟩ | ⟨_, missing⟩ := renamed name
      · obtain equal | ⟨missing, _⟩ := absorbs.name name unnamed
        · rw [← same, owned, same] at equal
          exact absurd (kept.trans equal) (notOwned same)
        · exact .inl (kept.trans missing)
      · exact .inl missing
    · obtain ⟨kept, _⟩ | ⟨equal, _⟩ := renamed name
      · rw [if_neg same, kept]
        exact absorbs.name_cons_other unnamed (otherNames same)
      · exact absurd equal same
  · intro name j found
    obtain ⟨kept, notOwned⟩ | ⟨_, missing⟩ := renamed name
    · obtain ⟨e', held, isName⟩ := absorbs.owner (kept.symm.trans found)
      refine ⟨e', ?_, isName⟩
      rw [gone, if_neg, held]
      rintro rfl
      generalize absent : b.collections[k]? = after at similar
      cases similar with
      | gone =>
        rw [absent] at held
        contradiction
      | both sameName =>
        rw [absent] at held
        cases held
        exact notOwned (sameName.symm.trans isName) found
    · rw [missing] at found
      contradiction

/-- The operation edits the points of one collection, and depends on no other than it touches. -/
structure Edits (op : WalOp) (k : CollectionId) (f : ExtTreeMap String Record → ExtTreeMap String Record) : Prop where
  plain : ∀ j, ¬ op.Creates j ∧ ¬ op.Drops j
  unnamed : ∀ name, ¬ op.Names name
  elsewhere : ∀ j id, op.Touches j id → j = k
  congruent : ∀ {p q : ExtTreeMap String Record} {id : String},
    (¬ op.Touches k id → p[id]? = q[id]?) → (f p)[id]? = (f q)[id]?

theorem edits_upsert (k : CollectionId) (id : String) (vector payload : Bytes) :
    Edits (.upsert k id vector payload) k (·.insert id ⟨leBytesToF32 vector, payload⟩) := by
  refine ⟨fun _ => ⟨not_false, not_false⟩, fun _ => not_false, fun j _ touches => touches.1.symm, fun {p q other} equal => ?_⟩
  simp only [get_insert]
  split
  case isTrue => rfl
  case isFalse differ => exact equal fun touches => differ touches.2

theorem edits_delete (k : CollectionId) (id : String) : Edits (.delete k id) k (·.erase id) := by
  refine ⟨fun _ => ⟨not_false, not_false⟩, fun _ => not_false, fun j _ touches => touches.1.symm, fun {p q other} equal => ?_⟩
  simp only [get_erase]
  split
  case isTrue => rfl
  case isFalse differ => exact equal fun touches => differ touches.2

theorem similar_onPoints {k j : CollectionId} {f : ExtTreeMap String Record → ExtTreeMap String Record}
    (edits : Edits op k f)
    (similar : Similar (op :: ops) j a.collections[j]? b.collections[j]?) :
    Similar ops j (a.onPoints k f).collections[j]? (b.onPoints k f).collections[j]? := by
  simp only [collections_onPoints]
  by_cases same : k = j
  · subst same
    simp only [if_true]
    generalize a.collections[k]? = before at similar
    generalize b.collections[k]? = after at similar
    cases similar with
    | absent => exact .absent
    | gone dropped => exact .gone ((dropped_cons.mp dropped).resolve_left (edits.plain k).2)
    | both name descriptor points =>
      refine .both name descriptor fun id untouched => edits.congruent fun untouchedNow => points id ?_
      rw [touched_cons, not_or]
      exact ⟨untouchedNow, untouched⟩
  · simp only [same, if_false]
    exact similar_cons_other similar (edits.plain j).2 fun id touches => same (edits.elsewhere j id touches).symm

theorem apply_onPoints {f : ExtTreeMap String Record → ExtTreeMap String Record}
    (below : a.Below next) (valid : (a.onPoints k f).Valid encoding next ops)
    (present : a.collections[k]? = some e)
    (edits : Edits op k f) (absorbs : Absorbs (op :: ops) a b) : Absorbs ops (a.onPoints k f) (b.onPoints k f) := by
  have notCreated : ¬ Created ops k := fun created =>
    absurd (valid.created created) (Nat.not_le.mpr (below k e present))
  constructor
  · intro j fresh
    exact similar_onPoints edits (absorbs.collection j (not_created_cons (edits.plain j).1 fresh))
  · intro j e' name bytes found member
    have differ : k ≠ j := by
      rintro rfl
      exact notCreated ⟨_, member, rfl⟩
    rw [collections_onPoints, if_neg differ] at found
    exact absorbs.recreated found (List.mem_cons_of_mem _ member)
  · intro name fresh
    refine absorbs.name_cons_other ?_ fun j _ => (edits.plain j).2
    rw [named_cons, not_or]
    exact ⟨edits.unnamed name, fresh⟩
  · intro name j found
    obtain ⟨e', held, isName⟩ := absorbs.owner found
    rw [collections_onPoints, held]
    split
    · exact ⟨_, rfl, isName⟩
    · exact ⟨_, rfl, isName⟩

/-- One replayed operation keeps the difference absorbable by the rest. -/
theorem apply (indexed : a.Indexed) (below : a.Below next)
    (valid : a.Valid encoding next (op :: ops)) (absorbs : Absorbs (op :: ops) a b) :
    Absorbs ops (a.apply encoding op) (b.apply encoding op) := by
  obtain ⟨legal, valid⟩ := valid
  cases op with
  | createCollection k name bytes => exact apply_create legal valid absorbs
  | dropCollection k => exact apply_drop indexed below legal valid absorbs
  | upsert k id vector payload =>
    obtain ⟨e, present, _⟩ := legal
    exact apply_onPoints below valid present (edits_upsert ..) absorbs
  | delete k id =>
    obtain ⟨e, present⟩ := legal
    exact apply_onPoints below valid present (edits_delete ..) absorbs
  | checkpoint lsn version => exact legal.elim

theorem extend (below : a.Below next) (valid : a.Valid encoding next (ops ++ later))
    (absorbs : Absorbs ops a b) : Absorbs (ops ++ later) a b := by
  obtain ⟨first, second⟩ := Valid.append_iff.mp valid
  constructor
  · intro k notCreated
    rw [created_append, not_or] at notCreated
    exact (absorbs.collection k notCreated.1).append
  · intro k e name bytes found member
    obtain before | after := List.mem_append.mp member
    · exact absorbs.recreated found before
    · -- An id created only later exists in neither state.
      have created : Created later k := ⟨_, after, rfl⟩
      have notBefore : ¬ Created ops k := fun created' =>
        absurd (second.created created) (Nat.not_le.mpr (first.created_below created'))
      obtain ⟨_, start, _⟩ := (absorbs.collection k notBefore).held found
      exact absurd (created_append.mpr (.inr created)) (not_created_again below valid start)
  · intro name unnamed
    obtain same | ⟨missing, k, named, dropped⟩ :=
      absorbs.name name fun named => unnamed named.append_left
    · exact .inl same
    · exact .inr ⟨missing, k, named, dropped.append_left⟩
  · exact absorbs.owner

theorem thin {b' : Logical} (absorbs : Absorbs ops a b) (names : b'.names = b.names)
    (collections : ∀ k : CollectionId, Option.Rel (fun e e' : LogicalCollection =>
      e'.name = e.name ∧ e'.descriptor = e.descriptor ∧ (¬ Created ops k →
        ∀ id : String, ¬ Touched ops k id → e'.points[id]? = e.points[id]?))
      b.collections[k]? b'.collections[k]?) : Absorbs ops a b' where
  collection k notCreated := by
    have similar := absorbs.collection k notCreated
    have related := collections k
    generalize a.collections[k]? = start at similar
    generalize b.collections[k]? = before at similar related
    generalize b'.collections[k]? = after at related
    cases related with
    | none => exact similar
    | some same =>
      obtain ⟨name, descriptor, points⟩ := same
      cases similar with
      | both name' descriptor' points' =>
        exact .both (name.trans name') (descriptor.trans descriptor') fun id untouched =>
          (points notCreated id untouched).trans (points' id untouched)
  recreated {k e name bytes} found member := by
    obtain ⟨_, held, same⟩ := rel_right (collections k) found
    exact same.1.trans (absorbs.recreated held member)
  name := by
    rw [names]
    exact absorbs.name
  owner {name k} found := by
    rw [names] at found
    obtain ⟨e, held, isName⟩ := absorbs.owner found
    obtain ⟨e', found', same⟩ := rel_left (collections k) held
    exact ⟨e', found', same.1.trans isName⟩

/-- One more operation, in the state it was logged in. -/
theorem advance (below : a.Below next) (valid : a.Valid encoding next (ops ++ [op]))
    (indexed : (a.applyAll encoding ops).Indexed)
    (belowNow : (a.applyAll encoding ops).Below (ops.foldl WalOp.nextId next))
    (absorbs : Absorbs ops a (a.applyAll encoding ops)) :
    Absorbs (ops ++ [op]) a ((a.applyAll encoding ops).apply encoding op) := by
  have extended := absorbs.extend below valid
  obtain ⟨before, legal, _⟩ := Valid.append_iff.mp valid
  have here : op ∈ ops ++ [op] := by simp
  generalize a.applyAll encoding ops = l at *
  cases op with
  | createCollection k name bytes =>
    obtain ⟨above, ⟨descriptor, decoded⟩, unnamed⟩ := legal
    simp only [Logical.apply, decoded]
    constructor
    · intro j notCreated
      have differ : k ≠ j := fun same => notCreated ⟨_, here, same⟩
      simp only [get_insert, differ, if_false]
      exact extended.collection j notCreated
    · intro j e name' bytes' found member
      obtain ⟨rfl, rfl⟩ | ⟨_, found⟩ := of_insert found
      · obtain earlier | last := List.mem_append.mp member
        · exact absurd (before.created_below ⟨_, earlier, rfl⟩) (Nat.not_lt.mpr above)
        · cases List.mem_singleton.mp last
          rfl
      · exact extended.recreated found member
    · intro other notNamed
      have differ : name ≠ other := fun same => notNamed ⟨_, here, same⟩
      simp only [get_insert, differ, if_false]
      exact extended.name other notNamed
    · intro other j found
      simp only [get_insert]
      obtain ⟨same, rfl⟩ | ⟨_, found⟩ := of_insert found
      · exact ⟨_, if_pos rfl, same⟩
      · obtain ⟨e, held, isName⟩ := extended.owner found
        have differ : k ≠ j := fun same => absurd above (Nat.not_le.mpr (same ▸ belowNow j e held))
        exact ⟨e, by rw [if_neg differ]; exact held, isName⟩
  | dropCollection k =>
    obtain ⟨e, held⟩ := legal
    have dropped : Dropped (ops ++ [.dropCollection k]) k := ⟨_, here, rfl⟩
    simp only [Logical.apply, held]
    constructor
    · intro j notCreated
      have similar := extended.collection j notCreated
      simp only [get_erase]
      split
      case isTrue same =>
        subst same
        rw [held] at similar
        generalize a.collections[k]? = start at similar
        cases similar with
        | both => exact .gone dropped
      case isFalse => exact similar
    · intro j e' name' bytes' found member
      exact extended.recreated (of_erase found).2 member
    · intro other notNamed
      simp only [get_erase]
      split
      case isTrue same =>
        subst same
        have named := (indexed e.name k).mpr ⟨e, held, rfl⟩
        refine .inr ⟨rfl, k, ?_, dropped⟩
        obtain unchanged | ⟨missing, _⟩ := extended.name e.name notNamed
        · rw [← unchanged, named]
        · rw [named] at missing
          contradiction
      case isFalse => exact extended.name other notNamed
    · intro other j found
      simp only [get_erase]
      obtain ⟨differ, found⟩ := of_erase found
      obtain ⟨e', held', isName⟩ := extended.owner found
      have other : k ≠ j := by
        rintro rfl
        rw [held] at held'
        cases held'
        exact differ isName
      exact ⟨e', by rw [if_neg other]; exact held', isName⟩
  | upsert k id vector payload | delete k id =>
    refine extended.thin rfl fun j => ?_
    simp only [Logical.apply, collections_onPoints]
    cases l.collections[j]? with
    | none => split <;> exact .none
    | some e =>
      split
      case isTrue same =>
        refine .some ⟨rfl, rfl, fun _ other untouched => ?_⟩
        have differ : id ≠ other := fun isId => untouched ⟨_, here, same, isId⟩
        simp [ExtTreeMap.getElem?_insert, ExtTreeMap.getElem?_erase, differ]
      case isFalse => exact .some ⟨rfl, rfl, fun _ _ _ => rfl⟩
  | checkpoint lsn version => exact legal.elim

theorem self (indexed : a.Indexed) (below : a.Below next) (valid : a.Valid encoding next ops) :
    Absorbs ops a (a.applyAll encoding ops) := by
  induction ops using List.reverseRecOn with
  | nil => exact refl indexed below valid
  | append_singleton ops op ih =>
    have before := (Valid.append_iff.mp valid).1
    obtain ⟨indexedNow, belowNow⟩ := before.indexed indexed below
    rw [applyAll_append]
    exact (ih before).advance below valid indexedNow belowNow

theorem stride_eq (below : a.Below next) {id : String} {vector payload : Bytes}
    (valid : a.Valid encoding next (.upsert k id vector payload :: ops))
    (absorbs : Absorbs (.upsert k id vector payload :: ops) a b)
    (held : b.collections[k]? = some e) : vector.length = e.descriptor.stride := by
  obtain ⟨e', present, fits⟩ := valid.1
  have similar := absorbs.collection k (not_created_again below valid present)
  rw [present, held] at similar
  cases similar with
  | both _ descriptor => rw [descriptor, fits]

end Absorbs

end Quiver.Core
