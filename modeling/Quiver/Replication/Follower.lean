import Quiver.Core.Encodings
import Quiver.Replication.Convergence

/-!
A follower of a leader's replication stream. Every session starts with a snapshot of the leader,
applied on top of what the follower holds, and goes on with its commits until it breaks off. The
follower ends up with the leader's state exactly when it held nothing that the leader no longer has.
-/

namespace Quiver.Replication

open Quiver.Core
open Std (ExtTreeMap)

variable (encoding : Encoding)

def leaderState (history : List WalOp) : Logical := Logical.empty.applyAll encoding history

/-- The stream of one session: the snapshot operations, then the tail. -/
def follow (follower : Engine) (snapshot tail : List WalOp) : Engine :=
  (follower.applyAll encoding snapshot).applyAll encoding tail

/-- The engines a follower of this leader may have, after sessions that broke off anywhere. -/
inductive Followed (history : List WalOp) : Engine → Prop
  | fresh : Followed history .empty
  | session {e : Engine} {earlier tail rest part : List WalOp}
      {order : List (CollectionId × LogicalCollection)} : Followed history e →
      history = earlier ++ tail ++ rest → order.Perm (leaderState encoding earlier).collections.toList →
      part <+: Logical.snapshotOps encoding order ++ tail → Followed history (e.applyAll encoding part)

variable {encoding} {history : List WalOp} {e : Engine} {k : CollectionId} {c : LogicalCollection}

/-- Where a collection's id and name come from. -/
theorem created_of_found (found : (leaderState encoding history).collections[k]? = some c) :
    ∃ bytes, .createCollection k c.name bytes ∈ history := by
  induction history using List.reverseRecOn generalizing c with
  | nil => simp [leaderState, Logical.empty] at found
  | append_singleton history op ih =>
    rw [leaderState, Logical.applyAll_append] at found
    change ((leaderState encoding history).apply encoding op).collections[k]? = some c at found
    obtain ⟨bytes, rfl, _⟩ | ⟨c', held, isName, _⟩ := Logical.of_apply found
    · exact ⟨bytes, List.mem_append_right _ (List.mem_singleton_self _)⟩
    · obtain ⟨bytes, member⟩ := ih held
      exact ⟨bytes, isName ▸ List.mem_append_left _ member⟩

variable {next : CollectionId} {l : Logical} {ops : List WalOp} {name : String} {bytes : Bytes} {op : WalOp}

theorem create_unique
    (valid : l.Valid encoding next ops) {name name' : String} {bytes bytes' : Bytes}
    (first : .createCollection k name bytes ∈ ops) (second : .createCollection k name' bytes' ∈ ops) :
    name = name' := by
  induction ops generalizing l next with
  | nil => contradiction
  | cons op ops ih =>
    have once : ∀ {n b n' b'}, op = .createCollection k n b → .createCollection k n' b' ∉ ops := by
      rintro n b n' b' rfl member
      exact absurd (valid.2.created ⟨_, member, rfl⟩) (Nat.not_le.mpr (Nat.lt_succ_self k))
    obtain here | later := List.mem_cons.mp first
    · obtain here' | later' := List.mem_cons.mp second
      · rw [← here] at here'
        cases here'
        rfl
      · exact absurd later' (once here.symm)
    · obtain here' | later' := List.mem_cons.mp second
      · exact absurd later (once here'.symm)
      · exact ih valid.2 later later'

/-- The engine's collections carry ids and names of the leader's history. -/
structure Descends (history : List WalOp) (e : Engine) : Prop where
  wf : e.WellFormed
  known : ∀ {k : CollectionId} {c : LogicalCollection}, e.logical.collections[k]? = some c →
    ∃ bytes, .createCollection k c.name bytes ∈ history

/-- A create among the operations can be decoded, and the history has its id and name. -/
def Logged (encoding : Encoding) (history ops : List WalOp) : Prop :=
  ∀ {k name bytes}, .createCollection k name bytes ∈ ops →
    (∃ descriptor, encoding.decodeDescriptor bytes = some descriptor) ∧ ∃ bytes, .createCollection k name bytes ∈ history

theorem within_refl (l : Logical) : Engine.Within l l :=
  fun _ c found => ⟨c, found, rfl, rfl, fun _ member => member⟩

theorem within_trans {a b c : Logical} (first : Engine.Within a b) (second : Engine.Within b c) :
    Engine.Within a c := by
  intro k held found
  obtain ⟨next, found', name, descriptor, points⟩ := first k held found
  obtain ⟨last, found'', name', descriptor', points'⟩ := second k next found'
  exact ⟨last, found'', name.trans name', descriptor.trans descriptor', fun id member => points' id (points id member)⟩

def Adds (op : WalOp) : Prop :=
  (∃ k name bytes, op = .createCollection k name bytes) ∨ ∃ k id vector payload, op = .upsert k id vector payload

theorem kept_snapshotOps {order : List (CollectionId × LogicalCollection)}
    (member : op ∈ Logical.snapshotOps encoding order) : Adds op := by
  obtain ⟨⟨k, c⟩, _, member⟩ := List.mem_flatMap.mp member
  obtain rfl | upserted := List.mem_cons.mp member
  · exact .inl ⟨_, _, _, rfl⟩
  · obtain ⟨p, _, rfl⟩ := List.mem_map.mp upserted
    exact .inr ⟨_, _, _, _, rfl⟩

section

variable (valid : l.Valid encoding next history) (descends : Descends history e)
include valid descends

theorem Descends.fresh (logged : .createCollection k name bytes ∈ history) (free : e.logical.names[name]? = none) :
    e.logical.collections[k]? = none := by
  cases held : e.logical.collections[k]? with
  | none => rfl
  | some c =>
    obtain ⟨bytes', created⟩ := descends.known held
    have loaded := (descends.wf.indexed name k).mpr ⟨c, held, create_unique valid created logged⟩
    rw [free] at loaded
    contradiction

theorem Descends.step (logged : Logged encoding history (op :: ops)) :
    Descends history (e.applyReplicated encoding op) := by
  have points : ∀ k f, Descends history { e with logical := e.logical.onPoints k f } := by
    refine fun k f => ⟨descends.wf.onPoints k f, fun {j c} found => ?_⟩
    simp only [Logical.collections_onPoints] at found
    split at found
    · obtain ⟨c', held, rfl⟩ := Option.map_eq_some_iff.mp found
      obtain ⟨bytes, member⟩ := descends.known held
      exact ⟨bytes, member⟩
    · exact descends.known found
  cases op with
  | createCollection k name bytes =>
    cases taken : e.logical.names[name]? with
    | some j =>
      rw [descends.wf.skip taken]
      exact descends
    | none =>
      obtain ⟨⟨descriptor, decoded⟩, bytes', member⟩ := logged (List.mem_cons_self ..)
      have fresh := descends.fresh valid member taken
      obtain ⟨eq, wf⟩ := descends.wf.create decoded taken fresh
      refine ⟨wf, fun {j c} found => ?_⟩
      rw [eq] at found
      obtain ⟨same, rfl⟩ | ⟨_, found⟩ := Maps.of_insert found
      · exact ⟨bytes', same ▸ member⟩
      · exact descends.known found
  | dropCollection k =>
    refine ⟨descends.wf.drop k, fun {j c} found => ?_⟩
    rw [Engine.collections_drop] at found
    split at found
    · contradiction
    · exact descends.known found
  | upsert k id vector payload | delete k id =>
    simp only [Engine.applyReplicated, Logical.apply]
    exact points k _
  | checkpoint lsn version => exact descends

theorem Descends.applyAll (logged : Logged encoding history ops) :
    Descends history (e.applyAll encoding ops) := by
  induction ops generalizing e with
  | nil => exact descends
  | cons op ops ih =>
    exact ih (descends.step valid logged) fun member => logged (List.mem_cons_of_mem _ member)

theorem Descends.within_step (logged : Logged encoding history (op :: ops)) (kept : Adds op) :
    Engine.Within e.logical (e.applyReplicated encoding op).logical := by
  rcases kept with ⟨k, name, bytes, rfl⟩ | ⟨k, id, vector, payload, rfl⟩
  · cases taken : e.logical.names[name]? with
    | some j =>
      rw [descends.wf.skip taken]
      exact within_refl _
    | none =>
      obtain ⟨⟨descriptor, decoded⟩, bytes', member⟩ := logged (List.mem_cons_self ..)
      have fresh := descends.fresh valid member taken
      rw [(descends.wf.create decoded taken fresh).1]
      intro j c found
      refine ⟨c, ?_, rfl, rfl, fun _ member => member⟩
      rw [Maps.get_insert, if_neg, found]
      rintro rfl
      rw [found] at fresh
      contradiction
  · intro j c found
    simp only [Engine.applyReplicated, Logical.apply, Logical.collections_onPoints, found]
    split
    · refine ⟨_, rfl, rfl, rfl, fun point member => ?_⟩
      simp only [ExtTreeMap.mem_insert]
      exact .inr member
    · exact ⟨c, rfl, rfl, rfl, fun _ member => member⟩

theorem Descends.within_applyAll (logged : Logged encoding history ops) (kept : ∀ op ∈ ops, Adds op) :
    Engine.Within e.logical (e.applyAll encoding ops).logical := by
  induction ops generalizing e with
  | nil => exact within_refl _
  | cons op ops ih =>
    refine within_trans (descends.within_step valid logged (kept op (List.mem_cons_self ..))) ?_
    exact ih (descends.step valid logged) (fun member => logged (List.mem_cons_of_mem _ member))
      fun later member => kept later (List.mem_cons_of_mem _ member)

end

theorem Valid.decodes (valid : l.Valid encoding next ops)
    (member : .createCollection k name bytes ∈ ops) :
    ∃ descriptor, encoding.decodeDescriptor bytes = some descriptor := by
  induction ops generalizing l next with
  | nil => contradiction
  | cons op ops ih =>
    obtain rfl | later := List.mem_cons.mp member
    · exact valid.1.2.1
    · exact ih valid.2 later

theorem mem_snapshotOps {order : List (CollectionId × LogicalCollection)}
    (member : .createCollection k name bytes ∈ Logical.snapshotOps encoding order) :
    ∃ c, (k, c) ∈ order ∧ c.name = name ∧ bytes = encoding.descriptor.encode c.descriptor := by
  obtain ⟨⟨j, c⟩, inside, member⟩ := List.mem_flatMap.mp member
  obtain isCreate | upserted := List.mem_cons.mp member
  · cases isCreate
    exact ⟨c, inside, rfl, rfl⟩
  · obtain ⟨p, _, impossible⟩ := List.mem_map.mp upserted
    contradiction

theorem Followed.descends (valid : Logical.empty.Valid encoding 0 history)
    (followed : Followed encoding history e) : Descends history e := by
  induction followed with
  | fresh => exact ⟨⟨fun name k => by simp [Engine.empty, Logical.empty], rfl⟩, fun {k c} found => by
      simp [Engine.empty, Logical.empty] at found⟩
  | @session e earlier tail rest part order _ split listed isPart ih =>
    refine ih.applyAll valid fun {k name bytes} member => ?_
    obtain snapshot | tailed := List.mem_append.mp (isPart.subset member)
    · obtain ⟨c, inside, rfl, rfl⟩ := mem_snapshotOps snapshot
      have found := ExtTreeMap.mem_toList_iff_getElem?_eq_some.mp (listed.mem_iff.mp inside)
      obtain ⟨bytes, created⟩ := created_of_found found
      refine ⟨⟨_, encoding.decodeDescriptor_encode _⟩, bytes, ?_⟩
      rw [split, List.append_assoc]
      exact List.mem_append_left _ created
    · have inside : .createCollection k name bytes ∈ history := by
        rw [split]
        exact List.mem_append_left _ (List.mem_append_right _ tailed)
      exact ⟨Valid.decodes valid inside, bytes, inside⟩

def contents (l : Logical) (name : String) : Option (Descriptor × ExtTreeMap String Record) := do
  let k ← l.names[name]?
  let c ← l.collections[k]?
  return (c.descriptor, c.points)

theorem contents_of_found (indexed : l.Indexed) (found : l.collections[k]? = some c) :
    contents l c.name = some (c.descriptor, c.points) := by
  have named := (indexed c.name k).mpr ⟨c, found, rfl⟩
  simp only [contents, named, Option.bind_eq_bind, Option.bind_some, found]
  rfl

theorem found_of_contents {shown : Descriptor × ExtTreeMap String Record}
    (isShown : contents l name = some shown) :
    ∃ j d, l.names[name]? = some j ∧ l.collections[j]? = some d ∧ d.descriptor = shown.1 ∧
      d.points = shown.2 := by
  simp only [contents, Option.bind_eq_bind, Option.bind_eq_some_iff] at isShown
  obtain ⟨j, named, d, found, isShown⟩ := isShown
  cases isShown
  exact ⟨j, d, named, found, rfl, rfl⟩

theorem diverges_of_other (valid : Logical.empty.Valid encoding 0 history) {snapshot : List WalOp}
    (wf : (e.applyAll encoding snapshot).WellFormed) {j : CollectionId} {d : LogicalCollection}
    (found : (leaderState encoding history).collections[j]? = some d)
    (held : (e.applyAll encoding snapshot).logical.collections[k]? = some c) (isName : d.name = c.name)
    (other : j ≠ k) :
    ¬ ∀ tail, Logical.empty.Valid encoding 0 (history ++ tail) → ∀ name,
      contents (follow encoding e snapshot tail).logical name =
        contents (leaderState encoding (history ++ tail)) name := by
  intro converges
  obtain ⟨indexed, _⟩ := valid.indexed Logical.indexed_empty Logical.below_empty
  change (leaderState encoding history).Indexed at indexed
  -- A vector of the right size, and a payload the follower does not hold under the id.
  obtain ⟨vector, isLength⟩ : ∃ v : Bytes, v.length = d.descriptor.stride :=
    ⟨List.replicate d.descriptor.stride 0, List.length_replicate⟩
  obtain ⟨payload, isNew⟩ : ∃ b : Bytes, ∀ r ∈ c.points[""]?, r.payload ≠ b := by
    refine ⟨(c.points[""]?.map Record.payload).getD [] ++ [0], fun r here same => ?_⟩
    rw [Option.mem_def.mp here] at same
    have lengths := congrArg List.length same
    simp at lengths
  have legal : Logical.empty.Valid encoding 0 (history ++ [.upsert j "" vector payload]) :=
    Logical.Valid.append_iff.mpr ⟨valid, ⟨d, found, isLength⟩, trivial⟩
  have shown := converges [.upsert j "" vector payload] legal c.name
  have follower : contents (follow encoding e snapshot [.upsert j "" vector payload]).logical c.name =
      some (c.descriptor, c.points) := by
    simp only [follow, Engine.applyAll_cons, Engine.applyAll_nil, Engine.applyReplicated, Logical.apply]
    have kept : ((e.applyAll encoding snapshot).logical.onPoints j
        (·.insert "" ⟨leBytesToF32 vector, payload⟩)).collections[k]? = some c := by
      rw [Logical.collections_onPoints, if_neg other, held]
    exact contents_of_found (wf.indexed.onPoints j _) kept
  have leader : contents (leaderState encoding (history ++ [.upsert j "" vector payload])) c.name =
      some (d.descriptor, d.points.insert "" ⟨leBytesToF32 vector, payload⟩) := by
    have written : ((leaderState encoding history).onPoints j
        (·.insert "" ⟨leBytesToF32 vector, payload⟩)).collections[j]? =
        some { d with points := d.points.insert "" ⟨leBytesToF32 vector, payload⟩ } := by
      rw [Logical.collections_onPoints, if_pos rfl, found]
      rfl
    have shown := contents_of_found (indexed.onPoints j _) written
    rw [← isName, leaderState, Logical.applyAll_append]
    exact shown
  rw [follower, leader] at shown
  obtain ⟨_, points⟩ := Prod.mk.inj (Option.some.inj shown)
  refine isNew ⟨leBytesToF32 vector, payload⟩ ?_ rfl
  rw [points, ExtTreeMap.getElem?_insert_self]
  rfl

/-- A follower shows the leader's state along every tail exactly when all that it held before
the snapshot is in the snapshot. -/
theorem follower_converges_iff (valid : Logical.empty.Valid encoding 0 history)
    (followed : Followed encoding history e) {order : List (CollectionId × LogicalCollection)}
    (listed : order.Perm (leaderState encoding history).collections.toList) :
    (∀ tail, Logical.empty.Valid encoding 0 (history ++ tail) → ∀ name,
      contents (follow encoding e (Logical.snapshotOps encoding order) tail).logical name =
        contents (leaderState encoding (history ++ tail)) name) ↔
      Engine.Within e.logical (leaderState encoding history) := by
  have descends := followed.descends valid
  obtain ⟨indexed, below⟩ := valid.indexed Logical.indexed_empty Logical.below_empty
  change (leaderState encoding history).Indexed at indexed
  constructor
  · intro converges
    have known : Logged encoding history (Logical.snapshotOps encoding order) := by
      intro k name bytes member
      obtain ⟨c, inside, rfl, rfl⟩ := mem_snapshotOps member
      have found := ExtTreeMap.mem_toList_iff_getElem?_eq_some.mp (listed.mem_iff.mp inside)
      exact ⟨⟨_, encoding.decodeDescriptor_encode _⟩, created_of_found found⟩
    have grown := descends.within_applyAll valid known fun op member => kept_snapshotOps member
    have settled := descends.applyAll valid known
    have now := converges [] (by rwa [List.append_nil])
    simp only [List.append_nil, follow, Engine.applyAll_nil] at now
    intro k c held
    obtain ⟨c', held', name, descriptor, points⟩ := grown k c held
    have shown := now c'.name
    rw [contents_of_found settled.wf.indexed held'] at shown
    obtain ⟨j, d, named, found, sameDescriptor, samePoints⟩ := found_of_contents shown.symm
    have isName : d.name = c'.name := by
      obtain ⟨d', found', isName⟩ := (indexed _ _).mp named
      rw [found] at found'
      cases found'
      exact isName
    -- Under one id the collections agree; under another the next upsert tells them apart.
    by_cases same : j = k
    · subst same
      refine ⟨d, found, by rw [name, isName], by rw [descriptor, sameDescriptor], fun id member => ?_⟩
      rw [samePoints]
      exact points id member
    · exact absurd converges (diverges_of_other valid settled.wf found held' isName same)
  · intro within tail valid' name
    obtain ⟨wf, isLeader⟩ : (e.applyAll encoding (Logical.snapshotOps encoding order)).WellFormed ∧
        (e.applyAll encoding (Logical.snapshotOps encoding order)).logical = leaderState encoding history :=
      descends.wf.applyAll_snapshotOps indexed within listed
    obtain ⟨_, later⟩ := Logical.Valid.append_iff.mp valid'
    change (leaderState encoding history).Valid encoding _ tail at later
    change (leaderState encoding history).Below _ at below
    have committed := later.committed below (fun k c found => below k c found) fun k => id
    rw [← isLeader] at below committed
    rw [follow, (wf.follows below committed.ordered).1, isLeader, leaderState, leaderState, Logical.applyAll_append]

def onePoint : List WalOp :=
  [.createCollection 0 "a" (Encoding.plain.descriptor.encode { dim := 1, metric := .l2 }),
    .upsert 0 "p" [0, 0, 0, 0] []]

theorem found_upsert (found : l.collections[k]? = some c) {id : String} {vector payload : Bytes} :
    ∃ c, (l.apply encoding (.upsert k id vector payload)).collections[k]? = some c := by
  rw [Logical.apply, Logical.collections_onPoints, if_pos rfl, found]
  exact ⟨_, rfl⟩

theorem valid_onePoint_delete : Logical.empty.Valid .plain 0 (onePoint ++ [.delete 0 "p"]) := by
  have decoded := Encoding.plain.decodeDescriptor_encode { dim := 1, metric := .l2 }
  have created : (Logical.empty.apply .plain (.createCollection 0 "a"
      (Encoding.plain.descriptor.encode { dim := 1, metric := .l2 }))).collections[0]? = some _ :=
    (Logical.empty.collections_create decoded 0 0).trans (if_pos rfl)
  exact ⟨⟨Nat.le_refl _, ⟨_, decoded⟩, by simp [Logical.empty]⟩, ⟨_, created, rfl⟩, found_upsert created, trivial⟩

theorem followed_onePoint {rest : List WalOp} :
    Followed .plain (onePoint ++ rest) (Engine.empty.applyAll .plain onePoint) := by
  have listed : ([] : List (CollectionId × LogicalCollection)).Perm
      (leaderState .plain []).collections.toList := by
    simp [leaderState, Logical.empty, Logical.applyAll]
  exact .session .fresh (show onePoint ++ rest = [] ++ onePoint ++ rest from rfl) listed List.prefix_rfl

theorem follower_converges_fresh :
    Logical.empty.Valid .plain 0 onePoint ∧ Followed .plain onePoint .empty ∧
      ∀ tail, Logical.empty.Valid .plain 0 (onePoint ++ tail) → ∀ name,
        contents (follow .plain .empty (Logical.snapshotOps .plain (leaderState .plain onePoint).collections.toList)
          tail).logical name = contents (leaderState .plain (onePoint ++ tail)) name := by
  have valid := (Logical.Valid.append_iff.mp valid_onePoint_delete).1
  exact ⟨valid, .fresh, (follower_converges_iff valid .fresh (.refl _)).mpr (Engine.within_empty _)⟩

/-- A follower that saw a point keeps it over a reconnect after the leader deleted it. -/
theorem reconnect_keeps_deleted_point :
    let history := onePoint ++ [.delete 0 "p"]
    let e := Engine.empty.applyAll .plain onePoint
    Followed .plain history e ∧ Logical.empty.Valid .plain 0 history ∧
      ((contents (follow .plain e (Logical.snapshotOps .plain (leaderState .plain history).collections.toList) []).logical
        "a").map fun shown => shown.2.contains "p") = some true ∧
      ((contents (leaderState .plain history) "a").map fun shown => shown.2.contains "p") = some false :=
  ⟨followed_onePoint, valid_onePoint_delete, by decide +kernel, by decide +kernel⟩

end Quiver.Replication
