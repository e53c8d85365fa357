import Quiver.Base.Lists
import Quiver.Raft.DurableLog
import Quiver.Core.Encodings
import Quiver.Embed.Database

/-!
A Raft group serving external requests. A node that takes itself for the leader prepares a request's
operations on its own engine, caught up with the log or not, and proposes them; consensus orders the
proposals and loses some, and every voter applies the log in order. Some requests bypass consensus.
-/

namespace Quiver.Raft

open Quiver.Core Embed Lists Results
open List (mem_append mem_of_getElem? mem_singleton)

/-- The external requests that write. The texts of `upsertText` are already embedded. -/
inductive Request where
  | createCollection (name : String) (descriptor : Descriptor)
  | deleteCollection (name : String)
  | upsert (collection : String) (points : List PointIn)
  | upsertBulk (collection : String) (points : List PointIn)
  | upsertText (collection : String) (points : List PointIn)
  | deletePoints (collection : String) (ids : List String)
  | upsertDocuments (collection : String) (documents : List (DocumentIn × Nat))
  | deleteDocuments (collection : String) (ids : List (String × Option Nat))

/-- The requests that go through consensus, with the operations they propose. -/
def Request.prepare (encoding : Encoding) (e : Engine) : Request → Option (Except EmbedError (List WalOp))
  | .createCollection name descriptor =>
    some do return [← prepareCreateCollection encoding e name descriptor]
  | .upsert collection points | .upsertText collection points =>
    some (points.mapM (prepareUpsert e collection))
  | .deletePoints collection ids =>
    some do return (← ids.mapM (prepareDelete e collection)).filterMap id
  | _ => none

/-- Apply a write to each item, keeping what was written before a failure. -/
def writeEach {α : Type} (write : Engine → α → Except EmbedError Engine) : Engine → List α → Engine
  | e, [] => e
  | e, item :: items =>
    match write e item with
    | .ok e => writeEach write e items
    | .error _ => e

/-- The requests that write the local engine, voter or not. -/
def Request.direct (encoding : Encoding) (e : Engine) : Request → Option Engine
  | .deleteCollection name => some (e.dropCollection name)
  | .upsertBulk collection points =>
    some (writeEach (fun e points => Embed.upsertBulk encoding e collection points) e [points])
  | .upsertDocuments collection documents =>
    some (writeEach (fun e (doc, previous) => upsertDocument encoding e collection previous doc) e documents)
  | .deleteDocuments collection ids =>
    some (writeEach (fun e (id, count) => deleteDocument encoding e collection count id) e ids)
  | _ => none

/-- A voter: its engine and how much of the log it applied. -/
structure Member where
  engine : Engine := .empty
  applied : Nat := 0

/-- What became of a request. An open one is acknowledged once all its operations are committed;
one that is dropped, or lost a proposal, is not. -/
inductive Status where
  | waiting
  | acknowledged
  | failed
  deriving DecidableEq

/-- A request in consensus: the operations it proposed and those that may still be committed, with
the length of the log when it was prepared. -/
structure Proposal where
  node : NodeId
  request : Request
  prepared : List WalOp
  left : List WalOp
  since : Nat
  status : Status := .waiting

structure Group where
  log : List WalOp := []
  members : NodeId → Member := fun _ => {}
  proposals : List Proposal := []

inductive GroupEvent where
  | issue (node : NodeId) (request : Request)
  | bypass (node : NodeId) (request : Request)
  | commit (proposal index : Nat)
  | lose (proposal index : Nat)
  | cancel (proposal : Nat)
  | acknowledge (proposal : Nat)
  | apply (node : NodeId)

def Request.creates : Request → Bool
  | .createCollection .. => true
  | _ => false

namespace Group

def setMember (g : Group) (node : NodeId) (m : Member) : Group :=
  { g with members := Function.update g.members node m }

/-- The node's create lock is free: no create of this process waits for its commit. -/
def Unlocked (g : Group) (node : NodeId) : Prop :=
  ∀ p ∈ g.proposals, p.node = node → p.request.creates → p.status ≠ .waiting

/-- The steps of a group. Any node may take itself for the leader; a proposal may be committed or
lost at any time, also for a cancelled request; a create holds its process's lock until it returns.
-/
inductive Step (encoding : Encoding) : Group → GroupEvent → Group → Prop
  | issue {g node request ops} : request.prepare encoding (g.members node).engine = some (.ok ops) →
      (request.creates → g.Unlocked node) →
      Step encoding g (.issue node request)
        { g with proposals := g.proposals ++ [⟨node, request, ops, ops, g.log.length, .waiting⟩] }
  | bypass {g node request e} : request.direct encoding (g.members node).engine = some e →
      Step encoding g (.bypass node request) (g.setMember node { g.members node with engine := e })
  | commit {g i p j op} : g.proposals[i]? = some p → p.left[j]? = some op →
      Step encoding g (.commit i j)
        { g with log := g.log ++ [op], proposals := g.proposals.set i { p with left := p.left.eraseIdx j } }
  | lose {g i p j op} : g.proposals[i]? = some p → p.left[j]? = some op →
      Step encoding g (.lose i j)
        { g with proposals := g.proposals.set i { p with left := p.left.eraseIdx j, status := .failed } }
  | cancel {g i p} : g.proposals[i]? = some p → p.status = .waiting →
      Step encoding g (.cancel i) { g with proposals := g.proposals.set i { p with status := .failed } }
  | acknowledge {g i p} : g.proposals[i]? = some p → p.status = .waiting → p.left = [] →
      Step encoding g (.acknowledge i) { g with proposals := g.proposals.set i { p with status := .acknowledged } }
  | apply {g node op} : g.log[(g.members node).applied]? = some op →
      Step encoding g (.apply node) (g.setMember node
        ⟨(g.members node).engine.applyReplicated encoding op, (g.members node).applied + 1⟩)

variable {encoding : Encoding} {g g' : Group} {event : GroupEvent}

/-- Every voter's engine is what the log entries it applied make of the empty one. -/
def Replicated (encoding : Encoding) (g : Group) : Prop :=
  ∀ node, (g.members node).applied ≤ g.log.length ∧
    (g.members node).engine = Engine.empty.applyAll encoding (g.log.take (g.members node).applied)

def Consensual (_ : Group) : GroupEvent → Prop
  | .bypass .. => False
  | _ => True

theorem Replicated.step (replicated : g.Replicated encoding) (consensual : g.Consensual event)
    (stepped : Step encoding g event g') : g'.Replicated encoding := by
  cases stepped with
  | bypass => exact consensual.elim
  | @commit i p j op =>
    intro node
    obtain ⟨bound, engine⟩ := replicated node
    refine ⟨?_, ?_⟩
    · rw [List.length_append]
      exact Nat.le_add_right_of_le bound
    · rw [engine, List.take_append_of_le_length bound]
  | @apply node op next =>
    obtain ⟨bound, engine⟩ := replicated node
    intro other
    by_cases same : other = node
    · subst same
      simp only [setMember, Function.update_self]
      obtain ⟨inside, here⟩ := List.getElem?_eq_some_iff.mp next
      refine ⟨inside, ?_⟩
      rw [List.take_succ_eq_append_getElem inside, here, Engine.applyAll_append, ← engine]
      rfl
    · simp only [setMember, Function.update_of_ne same]
      exact replicated other
  | _ => exact replicated

theorem replicated_run {guard : Group → GroupEvent → Prop} (only : ∀ g e, guard g e → Consensual g e)
    {events : List GroupEvent} (run : Run.Reaches (Run.Guarded guard (Step encoding)) {} events g) :
    g.Replicated encoding := by
  refine run.invariant (fun _ g => g.Replicated encoding) (fun _ => ⟨Nat.le_refl _, rfl⟩) ?_
  rintro _ g event g' replicated ⟨guarded, stepped⟩
  exact replicated.step (only g event guarded) stepped

/-- Without requests that bypass consensus, voters that applied the same entries agree, and their
engines are functions of those entries. -/
theorem engine_of_log {events : List GroupEvent}
    (run : Run.Reaches (Run.Guarded Consensual (Step encoding)) {} events g) :
    (∀ node, (g.members node).engine = Engine.empty.applyAll encoding (g.log.take (g.members node).applied)) ∧
      ∀ first second, (g.members first).applied = (g.members second).applied →
        (g.members first).engine.logical = (g.members second).engine.logical := by
  have replicated := replicated_run (fun _ _ => id) run
  refine ⟨fun node => (replicated node).2, fun first second same => ?_⟩
  rw [(replicated first).2, (replicated second).2, same]

def smallDescriptor : Descriptor := { dim := 1, metric := .l2 }

def createSmall (k : CollectionId) (name : String) : WalOp :=
  .createCollection k name (Encoding.plain.descriptor.encode smallDescriptor)

theorem prepare_createSmall (name : String) :
    Request.prepare .plain Engine.empty (.createCollection name smallDescriptor) =
      some (.ok [createSmall 0 name]) := by
  simp [Request.prepare, prepareCreateCollection, validateIndex, smallDescriptor, createSmall, Engine.empty,
    Logical.empty]

theorem engine_of_log_created :
    ∃ g, Run.Reaches (Run.Guarded Consensual (Step .plain)) {}
        [.issue 0 (.createCollection "a" smallDescriptor), .commit 0 0, .apply 0, .apply 1] g ∧
      (g.members 0).applied = (g.members 1).applied ∧ (g.members 0).engine.logical = (g.members 1).engine.logical := by
  refine Run.shown (.next (.next (.next (.next .refl ⟨trivial, .issue (prepare_createSmall "a") (by simp [Unlocked])⟩)
      ⟨trivial, .commit rfl rfl⟩) ⟨trivial, .apply rfl⟩) ⟨trivial, .apply rfl⟩) fun run => ?_
  exact ⟨rfl, (engine_of_log run).2 0 1 rfl⟩

/-- A voter that serves `delete_collection` itself loses a collection that the log holds. -/
theorem delete_collection_diverges :
    ∃ g, Run.Reaches (Step .plain) {}
        [.issue 0 (.createCollection "a" smallDescriptor), .commit 0 0, .apply 0, .apply 1,
          .bypass 0 (.deleteCollection "a")] g ∧
      (g.members 0).applied = (g.members 1).applied ∧
      (g.members 0).engine.logical.collections.contains 0 = false ∧
      (g.members 1).engine.logical.collections.contains 0 = true := by
  refine ⟨_, .next (.next (.next (.next (.next .refl (.issue (prepare_createSmall "a") (by simp [Unlocked])))
      (.commit rfl rfl)) (.apply rfl)) (.apply rfl)) (.bypass rfl),
    rfl, by decide +kernel, by decide +kernel⟩

theorem deletes_of_prepare {e : Engine} {c : String} {ids : List String} {ops : List WalOp}
    (prepared : (Request.deletePoints c ids).prepare encoding e = some (.ok ops)) :
    ∀ op ∈ ops, ∃ j id, op = .delete j id := by
  intro op member
  simp only [Request.prepare, Option.some.injEq, bind_eq_ok] at prepared
  obtain ⟨found, each, isOps⟩ := prepared
  cases isOps
  obtain ⟨_, inFound, rfl⟩ := List.mem_filterMap.mp member
  obtain ⟨_, _, decided⟩ := exists_of_mem_mapM each inFound
  simp only [prepareDelete, bind_eq_ok, Prod.exists] at decided
  obtain ⟨k, lc, _, isOp⟩ := decided
  injection isOp with isOp
  split at isOp
  · cases isOp
    exact ⟨_, _, rfl⟩
  · contradiction

theorem prepare_spec {e : Engine} {request : Request} {ops : List WalOp}
    (prepared : request.prepare encoding e = some (.ok ops)) :
    (∃ name descriptor, request = .createCollection name descriptor ∧ name ∉ e.logical.names ∧
      ops = [.createCollection e.nextCollectionId name (encoding.descriptor.encode descriptor)]) ∨
    request.creates = false ∧
      ∀ op ∈ ops, (∃ k id vector payload, op = .upsert k id vector payload) ∨ ∃ k id, op = .delete k id := by
  have upserts : ∀ {collection : String} {points : List PointIn}, points.mapM (prepareUpsert e collection) = .ok ops →
      ∀ op ∈ ops, (∃ k id vector payload, op = .upsert k id vector payload) ∨ ∃ k id, op = .delete k id := by
    intro collection points each op member
    obtain ⟨_, _, prepared⟩ := exists_of_mem_mapM each member
    simp only [prepareUpsert, bind_eq_ok, Prod.exists] at prepared
    obtain ⟨k, c, _, _, _, _, _, isOp⟩ := prepared
    cases isOp
    exact .inl ⟨_, _, _, _, rfl⟩
  cases request with
  | createCollection name descriptor =>
    left
    simp only [Request.prepare, Option.some.injEq, bind_eq_ok] at prepared
    obtain ⟨op, isOp, isOps⟩ := prepared
    cases isOps
    simp only [prepareCreateCollection, bind_eq_ok] at isOp
    obtain ⟨_, _, isOp⟩ := isOp
    split at isOp
    · contradiction
    · rename_i free
      split at isOp
      · contradiction
      · cases isOp
        exact ⟨name, descriptor, rfl, free, rfl⟩
  | upsert collection points | upsertText collection points =>
    exact .inr ⟨rfl, upserts (Option.some.inj prepared)⟩
  | deletePoints collection ids =>
    exact .inr ⟨rfl, fun op member => .inr (deletes_of_prepare prepared op member)⟩
  | _ => contradiction

section Identifiers

/-- No two creates of the log carry one id. -/
def DistinctIds (log : List WalOp) : Prop :=
  log.Pairwise fun first second => ∀ k, ¬ (first.Creates k ∧ second.Creates k)

/-- Requests go through consensus, and a create is prepared by an engine that has applied the
whole log, when no other create may still be committed. -/
def Sole (g : Group) : GroupEvent → Prop
  | .bypass .. => False
  | .issue node (.createCollection ..) =>
    (g.members node).applied = g.log.length ∧ ∀ p ∈ g.proposals, p.request.creates → p.left = []
  | _ => True

/-- The state the whole log leads to. -/
def final (encoding : Encoding) (g : Group) : Engine := Engine.empty.applyAll encoding g.log

/-- The operations in flight over the state `e`: at most one create may still be committed, and
its id is not below the allocator and its name is free. -/
structure Pending (encoding : Encoding) (e : Engine) (proposals : List Proposal) : Prop where
  plain : ∀ p ∈ proposals, p.request.creates = false → ∀ op ∈ p.left,
    (∃ k id vector payload, op = .upsert k id vector payload) ∨ ∃ k id, op = .delete k id
  create : ∀ p ∈ proposals, p.request.creates → p.left ≠ [] → ∃ k name descriptor,
    p.left = [.createCollection k name (encoding.descriptor.encode descriptor)] ∧
      e.nextCollectionId ≤ k ∧ name ∉ e.handles
  sole : ∀ (i j : Nat) (p q : Proposal), proposals[i]? = some p → proposals[j]? = some q →
    p.request.creates → q.request.creates → p.left ≠ [] → q.left ≠ [] → i = j

/-- The ids of the log are below the allocator. -/
structure IdInvariant (encoding : Encoding) (g : Group) : Prop where
  replicated : g.Replicated encoding
  distinct : DistinctIds g.log
  below : ∀ k, Created g.log k → k < (g.final encoding).nextCollectionId
  named : (g.final encoding).handles = (g.final encoding).logical.names
  pending : Pending encoding (g.final encoding) g.proposals

theorem Pending.set {e : Engine} {proposals : List Proposal} (pending : Pending encoding e proposals) {i : Nat}
    {p q : Proposal} (here : proposals[i]? = some p) (request : q.request = p.request)
    (left : q.left.Sublist p.left) : Pending encoding e (proposals.set i q) := by
  have member := mem_of_getElem? here
  have kept : q.left ≠ [] → p.left ≠ [] := by
    intro some none
    rw [none] at left
    exact some (List.sublist_nil.mp left)
  constructor
  · intro r inside noCreate op isLeft
    obtain rfl | ⟨j, _, old⟩ := mem_set_cases inside
    · exact pending.plain p member (request ▸ noCreate) op (left.subset isLeft)
    · exact pending.plain r (mem_of_getElem? old) noCreate op isLeft
  · intro r inside creates some
    obtain rfl | ⟨j, _, old⟩ := mem_set_cases inside
    · obtain ⟨k, name, descriptor, isLeft, above, free⟩ := pending.create p member (request ▸ creates) (kept some)
      refine ⟨k, name, descriptor, ?_, above, free⟩
      rw [isLeft] at left
      exact (List.sublist_singleton.mp left).resolve_left some
    · exact pending.create r (mem_of_getElem? old) creates some
  · intro a b first second isFirst isSecond creates creates' some some'
    have original : ∀ {j : Nat} {r : Proposal}, (proposals.set i q)[j]? = .some r → r.request.creates → r.left ≠ [] →
        ∃ r', proposals[j]? = .some r' ∧ r'.request.creates ∧ r'.left ≠ [] := by
      intro j r isThere creates some
      obtain ⟨rfl, rfl⟩ | ⟨_, old⟩ := getElem?_set_cases isThere
      · exact ⟨p, here, request ▸ creates, kept some⟩
      · exact ⟨r, old, creates, some⟩
    obtain ⟨first', old, wasCreate, wasSome⟩ := original isFirst creates some
    obtain ⟨second', old', wasCreate', wasSome'⟩ := original isSecond creates' some'
    exact pending.sole a b first' second' old old' wasCreate wasCreate' wasSome wasSome'

theorem Pending.of_state {e e' : Engine} {proposals : List Proposal} (pending : Pending encoding e proposals)
    (next : e'.nextCollectionId = e.nextCollectionId) (handles : e'.handles = e.handles) :
    Pending encoding e' proposals := by
  refine ⟨pending.plain, fun p member creates some => ?_, pending.sole⟩
  rw [next, handles]
  exact pending.create p member creates some

theorem IdInvariant.issue (inv : g.IdInvariant encoding) {node : NodeId} {request : Request} {ops : List WalOp}
    (prepared : request.prepare encoding (g.members node).engine = some (.ok ops))
    (alone : g.Sole (.issue node request)) :
    Pending encoding (g.final encoding)
      (g.proposals ++ [⟨node, request, ops, ops, g.log.length, .waiting⟩]) := by
  obtain ⟨name, descriptor, rfl, free, rfl⟩ | ⟨noCreate, plain⟩ := prepare_spec prepared
  · obtain ⟨whole, none⟩ := alone
    have engine : (g.members node).engine = g.final encoding := by
      rw [(inv.replicated node).2, whole, List.take_length, final]
    rw [engine] at free ⊢
    constructor
    · intro p member noCreate op isLeft
      obtain old | new := mem_append.mp member
      · exact inv.pending.plain p old noCreate op isLeft
      · rw [mem_singleton.mp new] at noCreate
        contradiction
    · intro p member creates some
      obtain old | new := mem_append.mp member
      · exact absurd (none p old creates) some
      · rw [mem_singleton.mp new]
        refine ⟨_, name, descriptor, rfl, Nat.le_refl _, ?_⟩
        rw [inv.named]
        exact free
    · intro i j p q isFirst isSecond creates creates' some some'
      obtain old | ⟨first, _⟩ := getElem?_append_cases isFirst
      · exact absurd (none p (mem_of_getElem? old) creates) some
      · obtain old | ⟨second, _⟩ := getElem?_append_cases isSecond
        · exact absurd (none q (mem_of_getElem? old) creates') some'
        · rw [first, second]
  · constructor
    · intro p member noCreate op isLeft
      obtain old | new := mem_append.mp member
      · exact inv.pending.plain p old noCreate op isLeft
      · rw [mem_singleton.mp new] at isLeft
        exact plain op isLeft
    · intro p member creates some
      obtain old | new := mem_append.mp member
      · exact inv.pending.create p old creates some
      · rw [mem_singleton.mp new, noCreate] at creates
        contradiction
    · intro i j p q isFirst isSecond creates creates' some some'
      obtain old | ⟨_, rfl⟩ := getElem?_append_cases isFirst
      · obtain old' | ⟨_, rfl⟩ := getElem?_append_cases isSecond
        · exact inv.pending.sole i j p q old old' creates creates' some some'
        · rw [noCreate] at creates'
          contradiction
      · rw [noCreate] at creates
        contradiction

theorem final_append (op : WalOp) (log : List WalOp) :
    Engine.empty.applyAll encoding (log ++ [op]) = (Engine.empty.applyAll encoding log).applyReplicated encoding op :=
  Engine.applyAll_append encoding .empty log [op]

theorem distinctIds_append {log : List WalOp} {op : WalOp} (distinct : DistinctIds log)
    (other : ∀ k, Created log k → ¬ op.Creates k) : DistinctIds (log ++ [op]) := by
  refine List.pairwise_append.mpr ⟨distinct, List.pairwise_singleton .., fun a inside b isOp k both => ?_⟩
  rw [mem_singleton.mp isOp] at both
  exact other k ⟨a, inside, both.1⟩ both.2

theorem IdInvariant.commit (inv : g.IdInvariant encoding) {i j : Nat} {p : Proposal} {op : WalOp}
    (here : g.proposals[i]? = some p) (isLeft : p.left[j]? = some op)
    (replicated : Replicated encoding ⟨g.log ++ [op], g.members, g.proposals.set i { p with left := p.left.eraseIdx j }⟩) :
    IdInvariant encoding ⟨g.log ++ [op], g.members, g.proposals.set i { p with left := p.left.eraseIdx j }⟩ := by
  have member := mem_of_getElem? here
  have pending := inv.pending.set here (q := { p with left := p.left.eraseIdx j }) rfl (List.eraseIdx_sublist ..)
  cases creates : p.request.creates with
  | false =>
    obtain unchanged : (∀ k, ¬ op.Creates k) ∧
        ((g.final encoding).applyReplicated encoding op).nextCollectionId = (g.final encoding).nextCollectionId ∧
        ((g.final encoding).applyReplicated encoding op).handles = (g.final encoding).handles ∧
        ((g.final encoding).applyReplicated encoding op).logical.names = (g.final encoding).logical.names := by
      obtain ⟨k, id, vector, payload, rfl⟩ | ⟨k, id, rfl⟩ :=
        inv.pending.plain p member creates op (mem_of_getElem? isLeft)
      · exact ⟨fun _ => not_false, rfl, rfl, rfl⟩
      · exact ⟨fun _ => not_false, rfl, rfl, rfl⟩
    obtain ⟨noCreate, next, handles, names⟩ := unchanged
    refine ⟨replicated, distinctIds_append inv.distinct fun k _ => noCreate k, fun k created => ?_, ?_, ?_⟩
    · rw [final, final_append]
      obtain before | ⟨_, isOp, now⟩ := created_append.mp created
      · exact next ▸ inv.below k before
      · rw [mem_singleton.mp isOp] at now
        exact absurd now (noCreate k)
    · rw [final, final_append]
      exact handles.trans (inv.named.trans names.symm)
    · rw [final, final_append]
      exact pending.of_state next handles
  | true =>
    have some : p.left ≠ [] := fun none => by simp [none] at isLeft
    obtain ⟨k, name, descriptor, only, above, free⟩ := inv.pending.create p member creates some
    rw [only] at isLeft
    have first : j = 0 := by
      have := (List.getElem?_eq_some_iff.mp isLeft).1
      simpa using this
    subst first
    cases isLeft
    have applied : (g.final encoding).applyReplicated encoding
        (.createCollection k name (encoding.descriptor.encode descriptor)) =
        ⟨⟨(g.final encoding).logical.names.insert name k,
          (g.final encoding).logical.collections.insert k ⟨name, descriptor, ∅⟩⟩,
          (g.final encoding).handles.insert name k, max (g.final encoding).nextCollectionId (k + 1)⟩ := by
      simp only [Engine.applyReplicated, if_neg free, Logical.apply, encoding.decodeDescriptor_encode]
    refine ⟨replicated, distinctIds_append inv.distinct fun k' created isNew => ?_, fun k' created => ?_, ?_, ?_⟩
    · cases isNew
      exact absurd (Nat.lt_of_lt_of_le (inv.below _ created) above) (Nat.lt_irrefl _)
    · rw [final, final_append]
      change k' < ((g.final encoding).applyReplicated encoding _).nextCollectionId
      rw [applied]
      obtain before | ⟨_, isOp, now⟩ := created_append.mp created
      · exact Nat.lt_of_lt_of_le (inv.below k' before) (Nat.le_max_left _ _)
      · rw [mem_singleton.mp isOp] at now
        cases now
        exact Nat.lt_of_lt_of_le (Nat.lt_succ_self _) (Nat.le_max_right _ _)
    · rw [final, final_append]
      change ((g.final encoding).applyReplicated encoding _).handles =
        ((g.final encoding).applyReplicated encoding _).logical.names
      rw [applied]
      change (g.final encoding).handles.insert name k = (g.final encoding).logical.names.insert name k
      rw [inv.named]
    · -- No other create is in flight.
      refine ⟨pending.plain, fun q inside creates' some' => ?_, pending.sole⟩
      obtain rfl | ⟨i', differ, old⟩ := mem_set_cases inside
      · rw [only] at some'
        exact absurd rfl some'
      · exact absurd (inv.pending.sole i' i q p old here creates' creates some' some) differ

theorem IdInvariant.step (inv : g.IdInvariant encoding) (alone : g.Sole event)
    (stepped : Step encoding g event g') : g'.IdInvariant encoding := by
  have consensual : g.Consensual event := by
    cases event with
    | bypass => exact alone.elim
    | _ => trivial
  have replicated := inv.replicated.step consensual stepped
  cases stepped with
  | issue prepared => exact ⟨replicated, inv.distinct, inv.below, inv.named, inv.issue prepared alone⟩
  | bypass => exact alone.elim
  | commit here isLeft => exact inv.commit here isLeft replicated
  | lose here isLeft =>
    exact ⟨replicated, inv.distinct, inv.below, inv.named, inv.pending.set here rfl (List.eraseIdx_sublist ..)⟩
  | cancel here | acknowledge here =>
    exact ⟨replicated, inv.distinct, inv.below, inv.named, inv.pending.set here rfl (.refl _)⟩
  | apply => exact ⟨replicated, inv.distinct, inv.below, inv.named, inv.pending⟩

/-- In every run whose creates are prepared on an engine with the whole log while no other create
is in flight, no two committed creates carry one id. -/
theorem committed_ids_distinct {events : List GroupEvent}
    (run : Run.Reaches (Run.Guarded Sole (Step encoding)) {} events g) : DistinctIds g.log := by
  have inv := run.invariant (fun _ g => g.IdInvariant encoding) ?_ ?_
  · exact inv.distinct
  · refine ⟨fun _ => ⟨Nat.le_refl _, rfl⟩, .nil, ?_, rfl, ⟨?_, ?_, ?_⟩⟩ <;> simp [Created]
  · rintro _ g event g' inv ⟨alone, stepped⟩
    exact inv.step alone stepped

theorem committed_ids_distinct_two :
    ∃ g, Run.Reaches (Run.Guarded Sole (Step .plain)) {}
        [.issue 0 (.createCollection "a" smallDescriptor), .commit 0 0, .apply 0, .acknowledge 0,
          .issue 0 (.createCollection "b" smallDescriptor), .commit 1 0] g ∧
      g.log = [createSmall 0 "a", createSmall 1 "b"] ∧ DistinctIds g.log := by
  have second : Request.prepare .plain (Engine.empty.applyReplicated .plain (createSmall 0 "a"))
      (.createCollection "b" smallDescriptor) = some (.ok [createSmall 1 "b"]) := by rfl
  refine Run.shown (.next (.next (.next (.next (.next (.next .refl
      ⟨⟨rfl, by simp⟩, .issue (prepare_createSmall "a") (by simp [Unlocked])⟩)
      ⟨trivial, .commit rfl rfl⟩) ⟨trivial, .apply rfl⟩) ⟨trivial, .acknowledge rfl rfl rfl⟩)
      ⟨⟨rfl, by simp [setMember]⟩, .issue second (by simp [Unlocked, setMember])⟩) ⟨trivial, .commit rfl rfl⟩)
    fun run => ?_
  exact ⟨rfl, committed_ids_distinct run⟩

/-- A new leader that has not applied a committed create gives its id away again. -/
theorem new_leader_reuses_id :
    ∃ g, Run.Reaches (Step .plain) {}
        [.issue 0 (.createCollection "a" smallDescriptor), .commit 0 0,
          .issue 1 (.createCollection "b" smallDescriptor), .commit 1 0] g ∧ ¬ DistinctIds g.log := by
  refine ⟨_, .next (.next (.next (.next .refl (.issue (prepare_createSmall "a") (by simp [Unlocked])))
      (.commit rfl rfl)) (.issue (prepare_createSmall "b") (by simp [Unlocked]))) (.commit rfl rfl),
    fun distinct => ?_⟩
  exact (List.pairwise_cons.mp distinct).1 (createSmall 0 "b") (by simp) 0 ⟨rfl, rfl⟩

end Identifiers

end Group

end Quiver.Raft
