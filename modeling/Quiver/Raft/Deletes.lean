import Quiver.Raft.Group

/-!
Acknowledged deletes. Whether a delete is proposed is decided on the engine of the node that serves
it: a point it has not applied yet is not deleted, and the request is acknowledged.
-/

namespace Quiver.Raft.Group

open Quiver.Core Embed Lists Results
open Std (ExtTreeMap)
open List (length_set mem_append mem_append_right mem_of_getElem? mem_singleton)

variable {encoding : Encoding} {g g' : Group} {event : GroupEvent} {e : Engine} {ops : List WalOp} {op : WalOp}
  {k : CollectionId} {p c : String}

/-- The collection with this id, if there is one, does not hold the point. -/
def AbsentAt (l : Logical) (k : CollectionId) (p : String) : Prop :=
  ∀ c : LogicalCollection, l.collections[k]? = some c → p ∉ c.points

theorem handles_applyAll (loaded : e.handles[c]? = some k) (noDrop : ∀ op ∈ ops, ∀ j, ¬ op.Drops j) :
    (e.applyAll encoding ops).handles[c]? = some k := by
  induction ops generalizing e with
  | nil => exact loaded
  | cons op ops ih =>
    refine ih ?_ fun op later => noDrop op (List.mem_cons_of_mem _ later)
    cases op with
    | createCollection j name bytes =>
      simp only [Engine.applyReplicated]
      split
      · exact loaded
      · rename_i unloaded
        rw [Maps.get_insert, if_neg, loaded]
        rintro rfl
        rw [ExtTreeMap.mem_iff_isSome_getElem?, loaded] at unloaded
        exact unloaded rfl
    | dropCollection j => exact absurd rfl (noDrop _ (List.mem_cons_self ..) j)
    | _ => exact loaded

theorem absentAt_applyReplicated (absent : AbsentAt e.logical k p)
    (other : ∀ vector payload, op ≠ .upsert k p vector payload) :
    AbsentAt (e.applyReplicated encoding op).logical k p := by
  intro c found
  obtain same | applied := e.logical_applyReplicated encoding op
  · exact absent c (same ▸ found)
  · rw [applied] at found
    obtain ⟨_, _, _, empty⟩ | ⟨c', held, _, _, points⟩ := Logical.of_apply found
    · rw [empty]
      exact ExtTreeMap.not_mem_empty
    · intro inside
      obtain before | ⟨vector, payload, isOp, _⟩ := points (ExtTreeMap.getElem?_eq_some_getElem inside)
      · exact absent c' held (Maps.mem_of_get before)
      · exact other vector payload isOp

theorem absentAt_applyAll (absent : AbsentAt e.logical k p)
    (other : ∀ vector payload, .upsert k p vector payload ∉ ops) :
    AbsentAt (e.applyAll encoding ops).logical k p := by
  induction ops generalizing e with
  | nil => exact absent
  | cons op ops ih =>
    refine ih (absentAt_applyReplicated absent fun vector payload isOp => ?_) fun vector payload later => ?_
    · exact other vector payload (isOp ▸ List.mem_cons_self ..)
    · exact other vector payload (List.mem_cons_of_mem _ later)

theorem absentAt_delete (e : Engine) : AbsentAt (e.applyReplicated encoding (.delete k p)).logical k p := by
  intro c found
  simp only [Engine.applyReplicated, Logical.apply, Logical.collections_onPoints, if_true] at found
  obtain ⟨c', held, rfl⟩ := Option.map_eq_some_iff.mp found
  simp [ExtTreeMap.mem_erase]

theorem absentAt_of_deleted (e : Engine) (deleted : .delete k p ∈ ops)
    (other : ∀ vector payload, .upsert k p vector payload ∉ ops) :
    AbsentAt (e.applyAll encoding ops).logical k p := by
  obtain ⟨before, after, rfl⟩ := List.append_of_mem deleted
  rw [Engine.applyAll_append, Engine.applyAll_cons]
  refine absentAt_applyAll (absentAt_delete _) fun vector payload later => ?_
  exact other vector payload (mem_append_right _ (List.mem_cons_of_mem _ later))

/-- Requests go through consensus, and those that are issued do not write the point. -/
def Sparing (encoding : Encoding) (k : CollectionId) (p : String) (g : Group) : GroupEvent → Prop
  | .bypass .. => False
  | .issue node request => ∀ ops, request.prepare encoding (g.members node).engine = some (.ok ops) →
    ∀ op ∈ ops, ¬ op.Touches k p
  | _ => True

/-- Nothing in flight writes the point, but for the proposals that are allowed to. -/
structure Quiet (encoding : Encoding) (k : CollectionId) (p : String) (allowed : Nat → Prop) (g : Group) : Prop where
  replicated : g.Replicated encoding
  logged : ∀ op ∈ g.log, ∀ j, ¬ op.Drops j
  inFlight : ∀ q ∈ g.proposals, ∀ op ∈ q.left, ∀ j, ¬ op.Drops j
  others : ∀ (i : Nat) (q : Proposal), g.proposals[i]? = some q → ¬ allowed i → ∀ op ∈ q.left, ¬ op.Touches k p
  finished : ∀ q ∈ g.proposals, q.status = .acknowledged → q.left = []

variable {allowed : Nat → Prop}

variable {request : Request} {i : Nat}

theorem not_drops_of_prepare (prepared : request.prepare encoding e = some (.ok ops)) :
    ∀ op ∈ ops, ∀ j, ¬ op.Drops j := by
  intro op member j
  obtain ⟨name, descriptor, rfl, _, rfl⟩ | ⟨_, plain⟩ := prepare_spec prepared
  · rw [mem_singleton.mp member]
    exact not_false
  · obtain ⟨_, _, _, _, rfl⟩ | ⟨_, _, rfl⟩ := plain op member
    · exact not_false
    · exact not_false

theorem Quiet.issue (quiet : Quiet encoding k p allowed g) {node : NodeId} {ops : List WalOp}
    (prepared : request.prepare encoding (g.members node).engine = some (.ok ops)) {allowed' : Nat → Prop}
    (more : ∀ i, allowed i → allowed' i)
    (fine : allowed' g.proposals.length ∨ ∀ op ∈ ops, ¬ op.Touches k p) :
    Quiet encoding k p allowed' ⟨g.log, g.members,
      g.proposals ++ [⟨node, request, ops, ops, g.log.length, .waiting⟩]⟩ := by
  refine ⟨quiet.replicated, quiet.logged, fun q member => ?_, fun i q here notAllowed op isLeft => ?_,
    fun q member acked => ?_⟩
  · obtain old | new := mem_append.mp member
    · exact quiet.inFlight q old
    · rw [mem_singleton.mp new]
      exact not_drops_of_prepare prepared
  · obtain old | ⟨rfl, rfl⟩ := getElem?_append_cases here
    · exact quiet.others i q old (fun isAllowed => notAllowed (more i isAllowed)) op isLeft
    · exact (fine.resolve_left notAllowed) op isLeft
  · obtain old | new := mem_append.mp member
    · exact quiet.finished q old acked
    · rw [mem_singleton.mp new] at acked
      contradiction

theorem Quiet.set (quiet : Quiet encoding k p allowed g) {q q' : Proposal} {log : List WalOp}
    (replicated : Replicated encoding ⟨log, g.members, g.proposals.set i q'⟩)
    (here : g.proposals[i]? = some q) (left : ∀ op ∈ q'.left, op ∈ q.left)
    (finished : q'.status = .acknowledged → q'.left = [])
    (logged : ∀ op ∈ log, ∀ j, ¬ op.Drops j) :
    Quiet encoding k p allowed ⟨log, g.members, g.proposals.set i q'⟩ := by
  refine ⟨replicated, logged, fun r member op isLeft => ?_, fun j r isThere notAllowed op isLeft => ?_,
    fun r member acked => ?_⟩
  · obtain rfl | ⟨j, _, old⟩ := mem_set_cases member
    · exact quiet.inFlight q (mem_of_getElem? here) op (left op isLeft)
    · exact quiet.inFlight r (mem_of_getElem? old) op isLeft
  · obtain ⟨rfl, rfl⟩ | ⟨_, old⟩ := getElem?_set_cases isThere
    · exact quiet.others j q here notAllowed op (left op isLeft)
    · exact quiet.others j r old notAllowed op isLeft
  · obtain rfl | ⟨j, _, old⟩ := mem_set_cases member
    · exact finished acked
    · exact quiet.finished r (mem_of_getElem? old) acked

theorem consensual_of_sparing (sparing : g.Sparing encoding k p event) : g.Consensual event := by
  cases event with
  | bypass => exact sparing.elim
  | _ => trivial

theorem Quiet.step (quiet : Quiet encoding k p allowed g) (sparing : g.Sparing encoding k p event)
    (stepped : Step encoding g event g') : Quiet encoding k p allowed g' := by
  have replicated := quiet.replicated.step (consensual_of_sparing sparing) stepped
  cases stepped with
  | issue prepared => exact quiet.issue prepared (fun _ => id) (.inr (sparing _ prepared))
  | bypass => exact sparing.elim
  | @commit i q j op here isLeft =>
    refine quiet.set replicated here (fun op => List.mem_of_mem_eraseIdx) (fun acked => ?_) fun op' member => ?_
    · have none := quiet.finished q (mem_of_getElem? here) acked
      simp [none] at isLeft
    · obtain before | now := mem_append.mp member
      · exact quiet.logged op' before
      · rw [mem_singleton.mp now]
        exact quiet.inFlight q (mem_of_getElem? here) op (mem_of_getElem? isLeft)
  | lose here =>
    exact quiet.set replicated here (fun op => List.mem_of_mem_eraseIdx) (fun acked => by contradiction) quiet.logged
  | cancel here =>
    exact quiet.set replicated here (fun op => id) (fun acked => by contradiction) quiet.logged
  | acknowledge here _ none => exact quiet.set replicated here (fun op => id) (fun _ => none) quiet.logged
  | apply => exact ⟨replicated, quiet.logged, quiet.inFlight, quiet.others, quiet.finished⟩

theorem Quiet.run {events : List GroupEvent} (quiet : Quiet encoding k p allowed g)
    (run : Run.Reaches (Run.Guarded (Sparing encoding k p) (Step encoding)) g events g') :
    Quiet encoding k p allowed g' := by
  refine run.invariant (fun _ g => Quiet encoding k p allowed g) quiet ?_
  rintro _ g event g' quiet ⟨sparing, stepped⟩
  exact quiet.step sparing stepped

theorem log_grows {guard : Group → GroupEvent → Prop} {events : List GroupEvent}
    (run : Run.Reaches (Run.Guarded guard (Step encoding)) g events g') : g.log <+: g'.log := by
  refine run.invariant (fun _ g' => g.log <+: g'.log) List.prefix_rfl ?_
  rintro _ _ event _ before ⟨_, stepped⟩
  cases stepped with
  | commit => exact before.trans (List.prefix_append ..)
  | _ => exact before

/-- After the delete: the log since then does not write the point, and the delete, if it was
proposed, fails, is in flight or is in that log. -/
structure Deleting (k : CollectionId) (p : String) (since : List WalOp) (proposal : Nat) (proposed : Prop)
    (g : Group) : Prop where
  grown : ∃ rest, g.log = since ++ rest ∧ (∀ vector payload, .upsert k p vector payload ∉ rest) ∧
    ∀ q, g.proposals[proposal]? = some q → (∀ op ∈ q.left, ∃ j id, op = .delete j id) ∧
      (proposed → q.status = .failed ∨ .delete k p ∈ q.left ∨ .delete k p ∈ rest)

theorem Deleting.step {since : List WalOp} {proposal : Nat} {proposed : Prop}
    (quiet : Quiet encoding k p (· = proposal) g) (deleting : Deleting k p since proposal proposed g)
    (inside : proposal < g.proposals.length)
    (sparing : g.Sparing encoding k p event) (stepped : Step encoding g event g') :
    Deleting k p since proposal proposed g' ∧ proposal < g'.proposals.length := by
  obtain ⟨rest, isLog, unwritten, mine⟩ := deleting.grown
  cases stepped with
  | issue prepared =>
    refine ⟨⟨rest, isLog, unwritten, fun q here => ?_⟩, ?_⟩
    · obtain old | ⟨same, _⟩ := getElem?_append_cases here
      · exact mine q old
      · exact absurd same (Nat.ne_of_lt inside)
    · rw [List.length_append]
      exact Nat.lt_add_right _ inside
  | bypass => exact sparing.elim
  | @commit i q j op here isLeft =>
    have isOp := mem_of_getElem? isLeft
    refine ⟨⟨rest ++ [op], by rw [isLog, List.append_assoc], fun vector payload written => ?_, fun q' isThere => ?_⟩, ?_⟩
    · obtain before | now := mem_append.mp written
      · exact unwritten vector payload before
      · rw [← mem_singleton.mp now] at isOp
        by_cases same : i = proposal
        · obtain ⟨_, _, isDelete⟩ := (mine q (same ▸ here)).1 _ isOp
          contradiction
        · exact quiet.others i q here same _ isOp ⟨rfl, rfl⟩
    · obtain ⟨same, rfl⟩ | ⟨_, old⟩ := getElem?_set_cases isThere
      · obtain ⟨deletes, kept⟩ := mine q (same ▸ here)
        refine ⟨fun op isLeft => deletes op (List.mem_of_mem_eraseIdx isLeft), fun isProposed => ?_⟩
        obtain failed | waiting | done := kept isProposed
        · exact .inl failed
        · by_cases now : WalOp.delete k p = op
          · exact .inr (.inr (mem_append_right _ (now ▸ List.mem_singleton_self _)))
          · exact .inr (.inl (mem_eraseIdx_of_ne waiting isLeft now))
        · exact .inr (.inr (List.mem_append_left _ done))
      · obtain ⟨deletes, kept⟩ := mine q' old
        refine ⟨deletes, fun isProposed => ?_⟩
        exact (kept isProposed).imp_right (Or.imp_right (List.mem_append_left _))
    · rw [length_set]
      exact inside
  | @lose i q j op here isLeft =>
    refine ⟨⟨rest, isLog, unwritten, fun q' isThere => ?_⟩, by rw [length_set]; exact inside⟩
    obtain ⟨same, rfl⟩ | ⟨_, old⟩ := getElem?_set_cases isThere
    · exact ⟨fun op isLeft => (mine q (same ▸ here)).1 op (List.mem_of_mem_eraseIdx isLeft), fun _ => .inl rfl⟩
    · exact mine q' old
  | @cancel i q here =>
    refine ⟨⟨rest, isLog, unwritten, fun q' isThere => ?_⟩, by rw [length_set]; exact inside⟩
    obtain ⟨same, rfl⟩ | ⟨_, old⟩ := getElem?_set_cases isThere
    · exact ⟨(mine q (same ▸ here)).1, fun _ => .inl rfl⟩
    · exact mine q' old
  | @acknowledge i q here wasWaiting none =>
    refine ⟨⟨rest, isLog, unwritten, fun q' isThere => ?_⟩, by rw [length_set]; exact inside⟩
    obtain ⟨same, rfl⟩ | ⟨_, old⟩ := getElem?_set_cases isThere
    · obtain ⟨deletes, kept⟩ := mine q (same ▸ here)
      refine ⟨deletes, fun isProposed => ?_⟩
      obtain failed | later := kept isProposed
      · rw [wasWaiting] at failed
        contradiction
      · exact .inr later
    · exact mine q' old
  | apply => exact ⟨⟨rest, isLog, unwritten, mine⟩, inside⟩

theorem prepare_deletePoints {ids : List String} (prepared : (Request.deletePoints c ids).prepare encoding e = some (.ok ops))
    (listed : p ∈ ids) : ∃ k lc, handle e c = .ok (k, lc) ∧ (p ∈ lc.points → .delete k p ∈ ops) := by
  simp only [Request.prepare, Option.some.injEq, bind_eq_ok] at prepared
  obtain ⟨found, each, isOps⟩ := prepared
  cases isOps
  have partners : List.Forall₂ (fun op id => prepareDelete e c id = .ok op) found ids :=
    (mapM_eq_ok.mp each).flip
  obtain ⟨op, inFound, decided⟩ := exists_of_mem partners listed
  simp only [prepareDelete, bind_eq_ok, Prod.exists] at decided
  obtain ⟨k, lc, isHandle, isOp⟩ := decided
  refine ⟨k, lc, isHandle, fun held => List.mem_filterMap.mpr ⟨op, inFound, ?_⟩⟩
  injection isOp with isOp
  rw [← isOp, if_pos held]
  rfl

theorem handle_spec {lc : LogicalCollection} (isHandle : handle e c = .ok (k, lc)) :
    e.handles[c]? = some k ∧ e.logical.collections[k]? = some lc := by
  unfold handle at isHandle
  split at isHandle
  · contradiction
  · split at isHandle
    · contradiction
    · cases isHandle
      exact ⟨‹_›, ‹_›⟩

theorem issue_spec {node : NodeId} (stepped : Step encoding g (.issue node request) g') :
    ∃ ops, request.prepare encoding (g.members node).engine = some (.ok ops) ∧
      g' = ⟨g.log, g.members, g.proposals ++ [⟨node, request, ops, ops, g.log.length, .waiting⟩]⟩ := by
  cases stepped with
  | issue prepared => exact ⟨_, prepared, rfl⟩

def Acknowledged (g : Group) (proposal : Nat) : Prop :=
  g.proposals[proposal]?.map Proposal.status = some .acknowledged

/-- An acknowledged upsert of a point, then an acknowledged delete of it that was prepared on an
engine with the whole log, and no other write of it: no voter with the whole log holds it. -/
theorem deleted_point_absent {start issued settled decided g : Group} {ev₀ ev₁ ev₂ : List GroupEvent}
    {writer deleter : NodeId} {request : Request} {lc : LogicalCollection} {ids : List String}
    (before : Run.Reaches (Run.Guarded (Sparing encoding k p) (Step encoding)) {} ev₀ start)
    (upsert : Step encoding start (.issue writer request) issued)
    (resolved : handle (start.members writer).engine c = .ok (k, lc))
    (between : Run.Reaches (Run.Guarded (Sparing encoding k p) (Step encoding)) issued ev₁ settled)
    (upserted : settled.Acknowledged start.proposals.length)
    (delete : Step encoding settled (.issue deleter (.deletePoints c ids)) decided) (listed : p ∈ ids)
    (current : (settled.members deleter).applied = settled.log.length)
    (after : Run.Reaches (Run.Guarded (Sparing encoding k p) (Step encoding)) decided ev₂ g)
    (deleted : g.Acknowledged settled.proposals.length)
    (voter : NodeId) (whole : (g.members voter).applied = g.log.length) :
    ¬ ∃ j found, handle (g.members voter).engine c = .ok (j, found) ∧ p ∈ found.points := by
  have quiet₀ : Quiet encoding k p (fun _ => False) start := by
    refine Quiet.run ⟨fun _ => ⟨Nat.le_refl _, rfl⟩, ?_, ?_, ?_, ?_⟩ before <;> simp
  obtain ⟨_, prepared, rfl⟩ := issue_spec upsert
  have opened : Quiet encoding k p (· = start.proposals.length) _ :=
    quiet₀.issue prepared (fun i impossible => impossible.elim) (.inl rfl)
  have writing := opened.run between
  -- The acknowledged upsert has nothing in flight any more.
  have quiet₁ : Quiet encoding k p (fun _ => False) settled := by
    refine ⟨writing.replicated, writing.logged, writing.inFlight, fun i q here _ op isLeft => ?_, writing.finished⟩
    by_cases same : i = start.proposals.length
    · rw [Acknowledged, ← same, here] at upserted
      rw [writing.finished q (mem_of_getElem? here) (Option.some.inj upserted)] at isLeft
      contradiction
    · exact writing.others i q here same op isLeft
  have loaded : (settled.final encoding).handles[c]? = some k := by
    obtain ⟨loaded, _⟩ := handle_spec resolved
    rw [(quiet₀.replicated writer).2] at loaded
    obtain ⟨rest, isLog⟩ := (List.take_prefix _ _).trans (log_grows between)
    rw [final, ← isLog, Engine.applyAll_append]
    refine handles_applyAll loaded fun op member => quiet₁.logged op ?_
    rw [← isLog]
    exact mem_append_right _ member
  obtain ⟨ops, prepared, rfl⟩ := issue_spec delete
  have engine : (settled.members deleter).engine = settled.final encoding := by
    rw [(quiet₁.replicated deleter).2, current, List.take_length, final]
  obtain ⟨k', lc', isHandle, proposes⟩ := prepare_deletePoints prepared listed
  rw [engine] at isHandle
  obtain ⟨loaded', held⟩ := handle_spec isHandle
  rw [loaded] at loaded'
  cases loaded'
  have deleting : Quiet encoding k p (· = settled.proposals.length) g ∧
      Deleting k p settled.log settled.proposals.length (p ∈ lc'.points) g ∧
      settled.proposals.length < g.proposals.length := by
    refine after.invariant (fun _ g => Quiet encoding k p (· = settled.proposals.length) g ∧
      Deleting k p settled.log settled.proposals.length (p ∈ lc'.points) g ∧
      settled.proposals.length < g.proposals.length) ⟨?_, ?_, ?_⟩ ?_
    · exact quiet₁.issue prepared (fun i impossible => impossible.elim) (.inl rfl)
    · refine ⟨[], (List.append_nil _).symm, by simp, fun q here => ?_⟩
      rw [List.getElem?_append_right (Nat.le_refl _), Nat.sub_self] at here
      cases here
      exact ⟨deletes_of_prepare prepared, fun present => .inr (.inl (proposes present))⟩
    · rw [List.length_append]
      exact Nat.lt_succ_self _
    · rintro _ g event g' ⟨quiet, deleting, inside⟩ ⟨sparing, stepped⟩
      exact ⟨quiet.step sparing stepped, deleting.step quiet inside sparing stepped⟩
  obtain ⟨quiet, deleting, inside⟩ := deleting
  obtain ⟨rest, isLog, unwritten, mine⟩ := deleting.grown
  have absent : AbsentAt ((settled.final encoding).applyAll encoding rest).logical k p := by
    by_cases present : p ∈ lc'.points
    · obtain ⟨q, here⟩ : ∃ q, g.proposals[settled.proposals.length]? = some q := ⟨_, List.getElem?_eq_getElem inside⟩
      have acked := deleted
      rw [Acknowledged, here] at acked
      have isAcked : q.status = .acknowledged := Option.some.inj acked
      have none := quiet.finished q (mem_of_getElem? here) isAcked
      obtain failed | waiting | done := (mine q here).2 present
      · rw [isAcked] at failed
        contradiction
      · rw [none] at waiting
        contradiction
      · exact absentAt_of_deleted _ done unwritten
    · refine absentAt_applyAll (fun c found => ?_) unwritten
      rw [held] at found
      cases found
      exact present
  rintro ⟨j, found, isHandle, present⟩
  rw [(quiet.replicated voter).2, whole, List.take_length, isLog, Engine.applyAll_append] at isHandle
  change handle ((settled.final encoding).applyAll encoding rest) c = _ at isHandle
  obtain ⟨loaded', held'⟩ := handle_spec isHandle
  rw [handles_applyAll loaded fun op member => quiet.logged op (by rw [isLog]; exact mem_append_right _ member)]
    at loaded'
  cases loaded'
  exact absent found held' present

section Runs

/-- The engine after a create, and after an upsert into it. -/
def created : Engine := Engine.empty.applyReplicated .plain (createSmall 0 "a")

def upsertOne : WalOp := .upsert 0 "p" (f32ToLeBytes [0]) []

def written : Engine := created.applyReplicated .plain upsertOne

theorem prepare_upsertOne : Request.prepare .plain created (.upsert "a" [⟨"p", [0], []⟩]) = some (.ok [upsertOne]) := by
  rfl

theorem prepare_deleteOne : Request.prepare .plain written (.deletePoints "a" ["p"]) = some (.ok [.delete 0 "p"]) := by
  rfl

theorem sparing_create {g : Group} (node : NodeId) (fresh : (g.members node).engine = .empty) :
    g.Sparing .plain 0 "p" (.issue node (.createCollection "a" smallDescriptor)) := by
  intro ops prepared op member
  rw [fresh, prepare_createSmall] at prepared
  cases prepared
  rw [mem_singleton.mp member]
  exact not_false

/-- The node that wrote the point deletes it. -/
theorem deleted_point_absent_current :
    ∃ g : Group, g.log = [createSmall 0 "a", upsertOne, .delete 0 "p"] ∧ (g.members 0).applied = 3 ∧
      ¬ ∃ j found, handle (g.members 0).engine "a" = .ok (j, found) ∧ "p" ∈ found.points := by
  have absent := deleted_point_absent (c := "a")
    (.next (.next (.next .refl
      ⟨sparing_create 0 rfl, .issue (prepare_createSmall "a") (by simp [Unlocked])⟩)
      ⟨show Sparing .plain 0 "p" _ (.commit 0 0) from trivial, .commit rfl rfl⟩)
      ⟨show Sparing .plain 0 "p" _ (.apply 0) from trivial, .apply rfl⟩)
    (show Step .plain _ (.issue 0 _) _ from .issue prepare_upsertOne (by simp [Request.creates]))
    rfl
    (.next (.next (.next .refl
      ⟨show Sparing .plain 0 "p" _ (.commit 1 0) from trivial, .commit rfl rfl⟩)
      ⟨show Sparing .plain 0 "p" _ (.apply 0) from trivial, .apply rfl⟩)
      ⟨show Sparing .plain 0 "p" _ (.acknowledge 1) from trivial, .acknowledge rfl rfl rfl⟩)
    rfl
    (show Step .plain _ (.issue 0 _) _ from .issue prepare_deleteOne (by simp [Request.creates]))
    (List.mem_singleton_self _) rfl
    (.next (.next (.next .refl
      ⟨show Sparing .plain 0 "p" _ (.commit 2 0) from trivial, .commit rfl rfl⟩)
      ⟨show Sparing .plain 0 "p" _ (.apply 0) from trivial, .apply rfl⟩)
      ⟨show Sparing .plain 0 "p" _ (.acknowledge 2) from trivial, .acknowledge rfl rfl rfl⟩)
    rfl 0 rfl
  exact ⟨_, rfl, rfl, absent⟩

/-- A node known as leader that has not applied the upsert acknowledges the delete and proposes
nothing. -/
theorem stale_leader_skips_delete :
    ∃ g : Group, Run.Reaches (Step .plain) {}
        [.issue 0 (.createCollection "a" smallDescriptor), .commit 0 0, .apply 0, .apply 1,
          .issue 0 (.upsert "a" [⟨"p", [0], []⟩]), .commit 1 0, .apply 0, .acknowledge 1,
          .issue 1 (.deletePoints "a" ["p"]), .acknowledge 2] g ∧
      g.Acknowledged 1 ∧ g.Acknowledged 2 ∧ (g.members 0).applied = g.log.length ∧
      ((handle (g.members 0).engine "a").toOption.map fun found => found.2.points.contains "p") = some true := by
  have stale : Request.prepare .plain created (.deletePoints "a" ["p"]) = some (.ok []) := by rfl
  refine Run.shown (.next (.next (.next (.next (.next (.next (.next (.next (.next (.next .refl
      (.issue (prepare_createSmall "a") (by simp [Unlocked]))) (.commit rfl rfl)) (.apply rfl)) (.apply rfl))
      (.issue prepare_upsertOne (by simp [Request.creates]))) (.commit rfl rfl)) (.apply rfl))
      (.acknowledge rfl rfl rfl)) (.issue stale (by simp [Request.creates]))) (.acknowledge rfl rfl rfl)) fun _ => ?_
  exact ⟨rfl, rfl, rfl, by decide +kernel⟩

end Runs

end Quiver.Raft.Group
