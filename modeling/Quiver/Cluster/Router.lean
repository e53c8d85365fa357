import Mathlib.Data.List.Sort
import Quiver.Base.Maps
import Quiver.Base.Run
import Quiver.Cluster.ShardMap
import Quiver.Cluster.Wire

/-!
Routers in front of shards. A collection is created and dropped on one shard after the other, up to
the first that does not do it. A search merges the answers in an order that each router remembers by
the collection's name.
-/

namespace Quiver.Cluster

open Quiver.Core Json
open Std (ExtTreeMap)

abbrev Catalog := ExtTreeMap String Descriptor

abbrev Catalogs := ShardId → Catalog

/-- How an attempt at one node goes. -/
inductive Contact where
  | unreachable
  /-- The node does what it is asked for, and the answer is lost. -/
  | lost
  /-- 421 -/
  | notLeader
  | refuses (status : Nat)
  | answers
  deriving DecidableEq, Repr

inductive RouterError where
  | unreachable
  | rejected (status : Nat)
  | noWriteTarget
  | noLeader
  | noShards
  deriving DecidableEq, Repr

/-- A request that goes to every shard. -/
inductive CollectionWrite where
  | create (body : Value)
  | drop (name : String)

/-- What a shard does; `admits` are its own checks of a descriptor. -/
def CollectionWrite.handle (admits : Descriptor → Bool) (cat : Catalog) : CollectionWrite → Catalog × Except Nat Unit
  | .create body =>
    match parseCreate body with
    | none => (cat, .error 422)
    | some (name, d) =>
      if !admits d then (cat, .error 400)
      else if name ∈ cat then (cat, .error 409)
      else (cat.insert name d, .ok ())
  | .drop name => (cat.erase name, .ok ())

/-! ## Writes -/

/-- The cached leader, then the primary and the replicas. -/
def candidates (cached : Option String) (shard : Shard) : List String :=
  (shard.primaryUrl :: shard.replicaUrls).foldl (fun urls url => if url ∈ urls then urls else urls ++ [url])
    cached.toList

inductive Tried where
  | done (url : String)
  | fatal (status : Nat)
  | exhausted (sawNotLeader unreachable : Bool)
  deriving DecidableEq, Repr

section Writes

variable (handle : Catalog → Catalog × Except Nat Unit)

/-- One round over the candidates, to the first that takes the write or rejects it. -/
def tryWrite (contact : String → Contact) (cat : Catalog) (sawNotLeader unreachable : Bool) :
    List String → Catalog × Tried
  | [] => (cat, .exhausted sawNotLeader unreachable)
  | url :: urls =>
    match contact url with
    | .unreachable => tryWrite contact cat sawNotLeader true urls
    | .lost => tryWrite contact (handle cat).1 sawNotLeader true urls
    | .notLeader => tryWrite contact cat true unreachable urls
    | .refuses status => (cat, .fatal status)
    | .answers =>
      match handle cat with
      | (cat, .ok ()) => (cat, .done url)
      | (cat, .error status) => (cat, .fatal status)

def writeLeaderAttempts : Nat := 60

/-- A write to the leader of a shard. As long as some node says it is not the leader the round is
repeated. -/
def writeToShard (contact : Nat → String → Contact) (cached : Option String) (shard : Shard) :
    (attempts : Nat) → Catalog → Catalog × Except RouterError String
  | 0, cat => (cat, .error .noLeader)
  | attempts + 1, cat =>
    match tryWrite handle (contact attempts) cat false false (candidates cached shard) with
    | (cat, .done url) => (cat, .ok url)
    | (cat, .fatal status) => (cat, .error (.rejected status))
    | (cat, .exhausted true _) => writeToShard contact cached shard attempts cat
    | (cat, .exhausted false true) => (cat, .error .unreachable)
    | (cat, .exhausted false false) => (cat, .error .noWriteTarget)

/-- The same request to one shard after the other, up to the first failure. -/
def broadcast (contact : ShardId → Nat → String → Contact) (leaders : ExtTreeMap ShardId String) (cats : Catalogs) :
    List Shard → Catalogs × ExtTreeMap ShardId String × Except RouterError Unit
  | [] => (cats, leaders, .ok ())
  | s :: shards =>
    match writeToShard handle (contact s.id) leaders[s.id]? s writeLeaderAttempts (cats s.id) with
    | (cat, .error e) => (Function.update cats s.id cat, leaders, .error e)
    | (cat, .ok url) => broadcast contact (leaders.insert s.id url) (Function.update cats s.id cat) shards

end Writes

/-! ## Routers -/

structure Router where
  map : ShardMap
  /-- Whether a higher score is better, by the name of a collection. -/
  ordering : ExtTreeMap String Bool := ∅
  leaders : ExtTreeMap ShardId String := ∅

def higherIsBetter : DistanceMetric → Bool
  | .l2 => false
  | _ => true

namespace Router

variable (admits : Descriptor → Bool) (contact : ShardId → Nat → String → Contact)

def createCollection (r : Router) (cats : Catalogs) (name : String) (d : Descriptor) :
    Catalogs × Router × Except RouterError Unit :=
  match broadcast (fun cat => (CollectionWrite.create (routerBody name d)).handle admits cat) contact r.leaders cats
      r.map.shards with
  | (cats, leaders, .error e) => (cats, { r with leaders := leaders }, .error e)
  | (cats, leaders, .ok ()) =>
    (cats, { r with leaders := leaders, ordering := r.ordering.insert name (higherIsBetter d.metric) }, .ok ())

def dropCollection (r : Router) (cats : Catalogs) (name : String) : Catalogs × Router × Except RouterError Unit :=
  match broadcast (fun cat => (CollectionWrite.drop name).handle admits cat) contact r.leaders cats r.map.shards with
  | (cats, leaders, .error e) => (cats, { r with leaders := leaders }, .error e)
  | (cats, leaders, .ok ()) => (cats, { r with leaders := leaders, ordering := r.ordering.erase name }, .ok ())

/-- The order for a collection: remembered, or learned from what the first shard answers. -/
def higherIsBetter (r : Router) (name : String) (describe : Shard → Except RouterError Value) :
    Except RouterError (Bool × Router) :=
  match r.ordering[name]? with
  | some higher => .ok (higher, r)
  | none =>
    match r.map.shards.head? with
    | none => .error .noShards
    | some shard => do
      let info ← describe shard
      let metric := ((info.get "metric").bind asString).getD "l2"
      let higher := metric == "cosine" || metric == "dot"
      return (higher, { r with ordering := r.ordering.insert name higher })

end Router

/-- A call that goes to every shard. -/
inductive CollectionCall where
  | create (name : String) (d : Descriptor) (requestable : Requestable d)
  | drop (name : String)

namespace CollectionCall

def name : CollectionCall → String
  | create name _ _ => name
  | drop name => name

def write : CollectionCall → CollectionWrite
  | create name d _ => .create (routerBody name d)
  | drop name => .drop name

end CollectionCall

/-- A router and the shards behind it. -/
structure Served where
  router : Router
  cats : Catalogs

def Served.call (admits : Descriptor → Bool) (contact : ShardId → Nat → String → Contact) (t : Served) :
    CollectionCall → Served × Except RouterError Unit
  | .create name d _ =>
    let (cats, router, result) := t.router.createCollection admits contact t.cats name d
    (⟨router, cats⟩, result)
  | .drop name =>
    let (cats, router, result) := t.router.dropCollection admits contact t.cats name
    (⟨router, cats⟩, result)

def describeCollection (cats : Catalogs) (name : String) (count : Nat) (indexReady : Bool) (shard : Shard) :
    Except RouterError Value :=
  match (cats shard.id)[name]? with
  | none => .error (.rejected 404)
  | some d => .ok (collectionDto name d count indexReady)

/-! ## Merging -/

/-- A key of the total order of `f32`. -/
def totalKey (x : F32) : Int := if x.toNat < 2 ^ 31 then x.toNat else 2 ^ 31 - 1 - x.toNat

section Merge

variable {T : Type} (scoreOf : T → F32)

/-- Whether the first one does not come after the second one. -/
def ranks (higher : Bool) (a b : T) : Bool :=
  if higher then decide (totalKey (scoreOf b) ≤ totalKey (scoreOf a))
  else decide (totalKey (scoreOf a) ≤ totalKey (scoreOf b))

def mergeTopK (perShard : List (List T)) (k : Nat) (higher : Bool) : List T :=
  (perShard.flatten.insertionSort fun a b => ranks scoreOf higher a b).take k

def dedupById (idOf : T → String) : List T → List String → List T
  | [], _ => []
  | m :: rest, seen => if idOf m ∈ seen then dedupById idOf rest seen else m :: dedupById idOf rest (idOf m :: seen)

end Merge

/-! ## Several routers -/

/-- The coordinator creates a collection that one shard lists on another one, unless that one says it
has it. -/
def ensureCollection (admits : Descriptor → Bool) (dto : Value) (answersHas : Bool) (cat : Catalog) :
    Catalog × Except Nat Unit :=
  if answersHas && (((dto.get "name").bind asString).getD "" ∈ cat) then (cat, .ok ())
  else (CollectionWrite.create (ensureBody dto)).handle admits cat

/-- Routers in front of the same shards. -/
structure Fleet where
  routers : Nat → Router
  cats : Catalogs

inductive FleetEvent where
  | call (router : Nat) (call : CollectionCall) (contact : ShardId → Nat → String → Contact)
  | search (router : Nat) (name : String)
  | refresh (router : Nat) (map : ShardMap)
  | ensure (donor target : ShardId) (name : String)

inductive Fleet.Step (admits : Descriptor → Bool) : Fleet → FleetEvent → Fleet → Prop
  | call {f : Fleet} {i : Nat} {call contact t r}
      (called : (Served.mk (f.routers i) f.cats).call admits contact call = (t, r)) :
      Step admits f (.call i call contact) ⟨Function.update f.routers i t.router, t.cats⟩
  | search {f : Fleet} {i : Nat} {name count indexReady higher router}
      (learned : (f.routers i).higherIsBetter name (describeCollection f.cats name count indexReady) =
        .ok (higher, router)) :
      Step admits f (.search i name) { f with routers := Function.update f.routers i router }
  | refresh {f : Fleet} {i : Nat} (map : ShardMap) :
      Step admits f (.refresh i map) { f with routers := Function.update f.routers i { f.routers i with map := map } }
  /-- A migration that finds a multi-vector collection is given up. -/
  | ensure {f : Fleet} {donor target : ShardId} {name d count indexReady answersHas}
      (listed : (f.cats donor)[name]? = some d)
      (single : ∀ (n : String) (e : Descriptor), (f.cats donor)[n]? = some e → e.multivector = false) :
      Step admits f (.ensure donor target name) { f with
        cats := Function.update f.cats target
          (ensureCollection admits (collectionDto name d count indexReady) answersHas (f.cats target)).1 }

end Quiver.Cluster
