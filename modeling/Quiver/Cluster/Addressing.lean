import Quiver.Cluster.Handoff
import Quiver.Cluster.Paths
import Quiver.Cluster.Router

/-!
What shards answer to requests for one point, and what the router's read and the coordinator's
checks make of the answers.
-/

namespace Quiver.Cluster

open Std (ExtTreeMap)

variable {V : Type}

/-! ## Shards -/

/-- The points of a shard, by collection and id. -/
abbrev Shelf (V : Type) := ExtTreeMap String (ExtTreeMap String V)

abbrev Shelves (V : Type) := ShardId → Shelf V

namespace Shelf

def lookup (shelf : Shelf V) (collection id : String) : Option V := shelf[collection]?.bind fun points => points[id]?

def upsert (shelf : Shelf V) (collection id : String) (value : V) : Except RouterError (Shelf V) :=
  match shelf[collection]? with
  | some points => .ok (shelf.insert collection (points.insert id value))
  | none => .error (.rejected 404)

def delete (shelf : Shelf V) (collection : String) (ids : List String) : Shelf V :=
  match shelf[collection]? with
  | some points => shelf.insert collection (ids.foldl (fun points id => points.erase id) points)
  | none => shelf

end Shelf

inductive Answer (V : Type) where
  | point (id : String) (value : V)
  /-- A collection was described instead. -/
  | collection
  | refused (status : Nat)
  | notFound

def Answer.isSuccess : Answer V → Bool
  | .point .. | .collection => true
  | .refused _ | .notFound => false

def answer (shelf : Shelf V) (target : String) : Answer V :=
  match route target with
  | .point collection id =>
    match shelf.lookup collection id with
    | some value => .point id value
    | none => .notFound
  | .collection name => if name ∈ shelf then .collection else .notFound
  | .refused status => .refused status
  | .notFound => .notFound

/-! ## Callers -/

def upsertAt (collection id : String) (value : V) (shelves : Shelves V) (s : ShardId) : Except RouterError (Shelves V) := do
  let shelf ← (shelves s).upsert collection id value
  return Function.update shelves s shelf

/-- A write without a concurrent one: to the owner, then to the donor. -/
def upsertPoint (map : ShardMap) (collection id : String) (value : V) (shelves : Shelves V) :
    Except RouterError (Shelves V) := do
  let shelves ← upsertAt collection id value shelves (owner map id)
  match donor map id with
  | some s => upsertAt collection id value shelves s
  | none => return shelves

def readsFrom (map : ShardMap) (id : String) : ShardId := (donor map id).getD (owner map id)

def getPoints (map : ShardMap) (shelves : Shelves V) (collection : String) :
    List String → Except RouterError (List (String × V))
  | [] => .ok []
  | id :: ids =>
    match answer (shelves (readsFrom map id)) (pointPath collection id) with
    | .notFound => getPoints map shelves collection ids
    | .refused status => .error (.rejected status)
    | .collection => getPoints map shelves collection ids
    | .point found value => do
      let rest ← getPoints map shelves collection ids
      return (found, value) :: rest

def hasPoint (shelf : Shelf V) (collection id : String) : Bool := (answer shelf (pointPath collection id)).isSuccess

/-- A listing read page by page, up to the first page that is not full. -/
def pagesFrom {α : Type} (listing : List α) (offset : Nat) : List α :=
  if ((listing.drop offset).take copyPage).length < copyPage then (listing.drop offset).take copyPage
  else (listing.drop offset).take copyPage ++ pagesFrom listing (offset + ((listing.drop offset).take copyPage).length)
termination_by listing.length - offset
decreasing_by
  simp only [copyPage, List.length_take, List.length_drop] at *
  omega

def listing (shelf : Shelf V) (collection : String) : List (String × V) := (shelf[collection]?.getD ∅).toList

/-- One point of a page; `listed` is the value on the page. -/
def copyPoint (destination : String → Option ShardId) (source : ShardId) (collection : String) (shelves : Shelves V)
    (point : String × V) : Except RouterError (Shelves V) :=
  match destination point.1 with
  | none => .ok shelves
  | some target =>
    if hasPoint (shelves target) collection point.1 then .ok shelves
    else
      match answer (shelves source) (pointPath collection point.1) with
      | .notFound => .ok shelves
      | .point _ value => upsertAt collection point.1 value shelves target
      -- A description of a collection has no vector, and a point without one is rejected.
      | .collection => .error (.rejected 422)
      | .refused _ => upsertAt collection point.1 point.2 shelves target

def copyPoints (destination : String → Option ShardId) (source : ShardId) (collection : String) (shelves : Shelves V) :
    Except RouterError (Shelves V) :=
  (pagesFrom (listing (shelves source) collection) 0).foldlM (copyPoint destination source collection) shelves

/-- The copies to delete, and the number of points that are kept. -/
def dropCopies (destination : String → Option ShardId) (source : ShardId) (collection : String) (shelves : Shelves V) :
    Shelves V × Nat :=
  let migrating := (pagesFrom ((listing (shelves source) collection).map Prod.fst) 0).filter fun id =>
    (destination id).isSome
  let arrived := fun id => (destination id).any fun target => hasPoint (shelves target) collection id
  (Function.update shelves source ((shelves source).delete collection (migrating.filter arrived)),
    (migrating.filter fun id => !arrived id).length)

/-! ## Points of a shard -/

namespace Shelf

variable {shelf shelf' : Shelf V} {collection id : String} {value : V}

theorem upsert_eq_ok : shelf.upsert collection id value = .ok shelf' ↔
    ∃ points, shelf[collection]? = some points ∧ shelf' = shelf.insert collection (points.insert id value) := by
  unfold upsert
  split
  next points found => simp [found, eq_comm]
  next absent => simp [absent]

theorem lookup_upsert (upserted : shelf.upsert collection id value = .ok shelf') (c i : String) :
    shelf'.lookup c i = if c = collection ∧ i = id then some value else shelf.lookup c i := by
  obtain ⟨points, found, rfl⟩ := upsert_eq_ok.mp upserted
  by_cases same : c = collection
  · subst same
    by_cases sameId : i = id
    · simp [lookup, sameId]
    · simp [lookup, found, sameId, ExtTreeMap.getElem?_insert, Ne.symm sameId]
  · simp [lookup, same, ExtTreeMap.getElem?_insert, Ne.symm same]

theorem mem_upsert (upserted : shelf.upsert collection id value = .ok shelf') (c : String) :
    c ∈ shelf' ↔ c ∈ shelf := by
  obtain ⟨points, found, rfl⟩ := upsert_eq_ok.mp upserted
  rw [ExtTreeMap.mem_insert, Std.LawfulEqCmp.compare_eq_iff_eq]
  refine ⟨?_, .inr⟩
  rintro (rfl | member)
  · exact Maps.mem_of_get found
  · exact member

theorem getElem?_foldl_erase (points : ExtTreeMap String V) (ids : List String) (i : String) :
    (ids.foldl (fun points id => points.erase id) points)[i]? = if i ∈ ids then none else points[i]? := by
  induction ids generalizing points with
  | nil => simp
  | cons id ids ih =>
    rw [List.foldl_cons, ih, ExtTreeMap.getElem?_erase]
    by_cases later : i ∈ ids
    · simp [later]
    · by_cases same : i = id
      · simp [same]
      · simp [later, same, Ne.symm same]

theorem lookup_delete (shelf : Shelf V) (collection : String) (ids : List String) (i : String) :
    (shelf.delete collection ids).lookup collection i = if i ∈ ids then none else shelf.lookup collection i := by
  unfold delete
  split
  next points found => simp [lookup, found, getElem?_foldl_erase]
  next absent => simp [lookup, absent]

theorem mem_listing {point : String × V} :
    point ∈ listing shelf collection ↔ shelf.lookup collection point.1 = some point.2 := by
  unfold listing lookup
  cases shelf[collection]? with
  | none => rw [Option.getD_none, ExtTreeMap.mem_toList_iff_getElem?_eq_some, ExtTreeMap.getElem?_empty, Option.bind_none]
  | some points => exact ExtTreeMap.mem_toList_iff_getElem?_eq_some

end Shelf

theorem pagesFrom_eq {α : Type} (listing : List α) (offset : Nat) : pagesFrom listing offset = listing.drop offset := by
  induction offset using pagesFrom.induct listing with
  | case1 offset last =>
    rw [pagesFrom, if_pos last, List.take_of_length_le]
    rw [List.length_take] at last
    omega
  | case2 offset full ih =>
    have isFull : ((listing.drop offset).take copyPage).length = copyPage := by
      rw [List.length_take] at full ⊢
      omega
    rw [pagesFrom, if_neg full, ih, isFull, ← List.drop_drop, List.take_append_drop]

section Exact

variable {collection id : String} {shelf : Shelf V} {shelves shelves' : Shelves V}

theorem answer_of_plain (plain : Plain collection id) (shelf : Shelf V) :
    answer shelf (pointPath collection id) = (shelf.lookup collection id).elim .notFound (.point id) := by
  unfold answer
  rw [(route_pointPath_iff collection id).mpr plain]
  cases found : shelf.lookup collection id <;> simp [found]

theorem hasPoint_of_plain (plain : Plain collection id) (shelf : Shelf V) :
    hasPoint shelf collection id = (shelf.lookup collection id).isSome := by
  rw [hasPoint, answer_of_plain plain]
  cases shelf.lookup collection id <;> rfl

theorem getPoints_of_plain {map : ShardMap} {ids : List String} (plain : ∀ i ∈ ids, Plain collection i) :
    getPoints map shelves collection ids =
      .ok (ids.filterMap fun i => ((shelves (readsFrom map i)).lookup collection i).map (i, ·)) := by
  induction ids with
  | nil => rfl
  | cons i ids ih =>
    have rest := ih fun i member => plain i (List.mem_cons_of_mem _ member)
    have answered := answer_of_plain (plain i List.mem_cons_self) (shelves (readsFrom map i))
    unfold getPoints
    simp only [answered, List.filterMap_cons]
    cases (shelves (readsFrom map i)).lookup collection i with
    | none => exact rest
    | some value =>
      simp only [Option.elim_some, rest]
      rfl

theorem upsertAt_eq_ok {value : V} {s : ShardId} : upsertAt collection id value shelves s = .ok shelves' ↔
    ∃ shelf, (shelves s).upsert collection id value = .ok shelf ∧ shelves' = Function.update shelves s shelf := by
  constructor
  · intro upserted
    obtain ⟨shelf, isShelf, isUpdate⟩ := Results.bind_eq_ok.mp upserted
    cases isUpdate
    exact ⟨shelf, isShelf, rfl⟩
  · rintro ⟨shelf, isShelf, rfl⟩
    exact Results.bind_eq_ok.mpr ⟨shelf, isShelf, rfl⟩

theorem lookup_upsertAt {value : V} {s : ShardId} (upserted : upsertAt collection id value shelves s = .ok shelves')
    (t : ShardId) (c i : String) : (shelves' t).lookup c i =
      if t = s ∧ c = collection ∧ i = id then some value else (shelves t).lookup c i := by
  obtain ⟨shelf, isShelf, rfl⟩ := upsertAt_eq_ok.mp upserted
  by_cases same : t = s
  · subst same
    simp [Shelf.lookup_upsert isShelf]
  · simp [same]

theorem lookup_upsertPoint {map : ShardMap} {value : V}
    (upserted : upsertPoint map collection id value shelves = .ok shelves') :
    (shelves' (readsFrom map id)).lookup collection id = some value := by
  obtain ⟨middle, first, upserted⟩ := Results.bind_eq_ok.mp upserted
  unfold readsFrom
  cases isDonor : donor map id with
  | none =>
    rw [isDonor] at upserted
    cases upserted
    simp [lookup_upsertAt first]
  | some s =>
    rw [isDonor] at upserted
    simp [lookup_upsertAt upserted]

end Exact

section Copy

variable {collection : String} {destination : String → Option ShardId} {source : ShardId} {shelves : Shelves V}

/-- What a copy of the points `ids` has made of the shards. -/
structure Copied (destination : String → Option ShardId) (source : ShardId) (collection : String) (ids : List String)
    (shelves shelves' : Shelves V) : Prop where
  same : shelves' source = shelves source
  mem : ∀ s c, c ∈ shelves' s ↔ c ∈ shelves s
  lookup : ∀ s i, (shelves' s).lookup collection i = if destination i = some s ∧ i ∈ ids then
    ((shelves s).lookup collection i).or ((shelves source).lookup collection i) else (shelves s).lookup collection i

theorem Copied.nil : Copied destination source collection [] shelves shelves := ⟨rfl, fun _ _ => .rfl, by simp⟩

theorem Copied.cons {i : String} {ids : List String} {middle shelves' : Shelves V}
    (first : Copied destination source collection [i] shelves middle)
    (rest : Copied destination source collection ids middle shelves') :
    Copied destination source collection (i :: ids) shelves shelves' where
  same := rest.same.trans first.same
  mem s c := (rest.mem s c).trans (first.mem s c)
  lookup s j := by
    rw [rest.lookup, first.lookup, first.same]
    by_cases goes : destination j = some s
    · by_cases isFirst : j = i
      · subst isFirst
        by_cases later : j ∈ ids
        · simp [goes, later, Option.or_assoc]
        · simp [goes, later]
      · simp [goes, isFirst]
    · simp [goes]

theorem copyPoint_of_plain {point : String × V} (plain : Plain collection point.1)
    (away : ∀ i, destination i ≠ some source) (present : ∀ i s, destination i = some s → collection ∈ shelves s)
    (held : (shelves source).lookup collection point.1 = some point.2) :
    ∃ shelves', copyPoint destination source collection shelves point = .ok shelves' ∧
      Copied destination source collection [point.1] shelves shelves' := by
  unfold copyPoint
  cases goes : destination point.1 with
  | none =>
    refine ⟨shelves, rfl, rfl, fun _ _ => .rfl, fun s i => ?_⟩
    by_cases isPoint : i = point.1
    · simp [isPoint, goes]
    · simp [isPoint]
  | some target =>
    simp only [hasPoint_of_plain plain, answer_of_plain plain, held, Option.elim_some]
    cases found : (shelves target).lookup collection point.1 with
    | some value =>
      refine ⟨shelves, by simp, rfl, fun _ _ => .rfl, fun s i => ?_⟩
      by_cases isPoint : i = point.1 ∧ s = target
      · simp [isPoint.1, isPoint.2, found]
      · by_cases isId : i = point.1
        · have differ : target ≠ s := fun same => isPoint ⟨isId, same.symm⟩
          simp [isId, goes, differ]
        · simp [isId]
    | none =>
      obtain ⟨points, isPoints⟩ : ∃ points, (shelves target)[collection]? = some points := by
        have member := present _ _ goes
        rw [ExtTreeMap.mem_iff_isSome_getElem?] at member
        exact Option.isSome_iff_exists.mp member
      obtain ⟨shelf, isShelf⟩ : ∃ shelf, (shelves target).upsert collection point.1 point.2 = .ok shelf :=
        ⟨_, Shelf.upsert_eq_ok.mpr ⟨points, isPoints, rfl⟩⟩
      have upserted := upsertAt_eq_ok.mpr ⟨shelf, isShelf, rfl⟩
      refine ⟨_, by simpa using upserted, ?_, fun s c => ?_, fun s i => ?_⟩
      · exact Function.update_of_ne (fun same => away _ (same ▸ goes)) _ _
      · by_cases same : s = target
        · subst same
          simpa using Shelf.mem_upsert isShelf c
        · rw [Function.update_of_ne same]
      · rw [lookup_upsertAt upserted]
        by_cases isPoint : i = point.1
        · by_cases same : s = target
          · simp [isPoint, same, goes, found, held]
          · simp [isPoint, same, goes, Ne.symm same]
        · simp [isPoint]

theorem copyPoints_of_plain (plain : ∀ i, ((shelves source).lookup collection i).isSome → Plain collection i)
    (away : ∀ i, destination i ≠ some source) (present : ∀ i s, destination i = some s → collection ∈ shelves s) :
    ∃ shelves', copyPoints destination source collection shelves = .ok shelves' ∧
      Copied destination source collection ((listing (shelves source) collection).map Prod.fst) shelves shelves' := by
  -- Every point of the list is still what the source holds, since nothing is written there.
  have folded : ∀ (points : List (String × V)) (shelves : Shelves V),
      (∀ i, ((shelves source).lookup collection i).isSome → Plain collection i) →
      (∀ i s, destination i = some s → collection ∈ shelves s) →
      (∀ point ∈ points, (shelves source).lookup collection point.1 = some point.2) →
      ∃ shelves', points.foldlM (copyPoint destination source collection) shelves = .ok shelves' ∧
        Copied destination source collection (points.map Prod.fst) shelves shelves' := by
    intro points
    induction points with
    | nil => exact fun shelves _ _ _ => ⟨shelves, rfl, .nil⟩
    | cons point points ih =>
      intro shelves plain present held
      have heldPoint := held point List.mem_cons_self
      obtain ⟨middle, isMiddle, first⟩ := copyPoint_of_plain (plain _ (by simp [heldPoint])) away present heldPoint
      obtain ⟨shelves', isEnd, rest⟩ := ih middle (by rw [first.same]; exact plain)
        (fun i s goes => (first.mem s collection).mpr (present i s goes))
        (fun point member => by rw [first.same]; exact held point (List.mem_cons_of_mem _ member))
      refine ⟨shelves', ?_, first.cons rest⟩
      rw [List.foldlM_cons, isMiddle]
      exact isEnd
  unfold copyPoints
  rw [pagesFrom_eq, List.drop_zero]
  exact folded _ _ plain present fun point member => Shelf.mem_listing.mp member

theorem lookup_dropCopies (shelves : Shelves V) (id : String) :
    ((dropCopies destination source collection shelves).1 source).lookup collection id =
      if (destination id).any fun target => hasPoint (shelves target) collection id then none
      else (shelves source).lookup collection id := by
  simp only [dropCopies, Function.update_self, Shelf.lookup_delete, pagesFrom_eq, List.drop_zero, List.mem_filter]
  by_cases arrived : ((destination id).any fun target => hasPoint (shelves target) collection id) = true
  · have goes : (destination id).isSome := by
      cases isDestination : destination id with
      | none => simp [isDestination] at arrived
      | some target => rfl
    cases found : (shelves source).lookup collection id with
    | none => simp [arrived]
    | some value =>
      have member : id ∈ (listing (shelves source) collection).map Prod.fst :=
        List.mem_map.mpr ⟨(id, value), Shelf.mem_listing.mpr found, rfl⟩
      simp [arrived, goes, member]
  · simp [arrived]

end Copy

/-! ## Requests for points -/

/-- Requests for the points `ids` of a collection that are about these points and no others. -/
structure Addressed (V : Type) (collection : String) (ids : List String) : Prop where
  gets : ∀ (map : ShardMap) (shelves : Shelves V), getPoints map shelves collection ids =
    .ok (ids.filterMap fun i => ((shelves (readsFrom map i)).lookup collection i).map (i, ·))
  latest : ∀ (map : ShardMap) (shelves shelves' : Shelves V) (id : String) (value : V), id ∈ ids →
    upsertPoint map collection id value shelves = .ok shelves' → getPoints map shelves' collection [id] = .ok [(id, value)]
  copies : ∀ (destination : String → Option ShardId) (source : ShardId) (shelves : Shelves V),
    (∀ i, ((shelves source).lookup collection i).isSome → i ∈ ids) → (∀ i, destination i ≠ some source) →
    (∀ i s, destination i = some s → collection ∈ shelves s) →
    ∃ shelves', copyPoints destination source collection shelves = .ok shelves' ∧
      ∀ s i, (shelves' s).lookup collection i = if destination i = some s then
        ((shelves s).lookup collection i).or ((shelves source).lookup collection i) else (shelves s).lookup collection i
  drops : ∀ (destination : String → Option ShardId) (source : ShardId) (shelves : Shelves V),
    (∀ i, ((shelves source).lookup collection i).isSome → i ∈ ids) → ∀ i,
    ((dropCopies destination source collection shelves).1 source).lookup collection i =
      if (destination i).any fun target => ((shelves target).lookup collection i).isSome then none
      else (shelves source).lookup collection i

theorem addressed_of_plain {collection : String} {ids : List String} (plain : ∀ i ∈ ids, Plain collection i) :
    Addressed V collection ids where
  gets map shelves := getPoints_of_plain plain
  latest map shelves shelves' id value member upserted := by
    rw [getPoints_of_plain (by simpa using plain id member)]
    simp [lookup_upsertPoint upserted]
  copies destination source shelves listed away present := by
    obtain ⟨shelves', isEnd, copied⟩ := copyPoints_of_plain (fun i held => plain i (listed i held)) away present
    refine ⟨shelves', isEnd, fun s i => ?_⟩
    rw [copied.lookup]
    by_cases goes : destination i = some s
    · cases found : (shelves source).lookup collection i with
      | none => simp [goes]
      | some value =>
        have member : i ∈ (listing (shelves source) collection).map Prod.fst :=
          List.mem_map.mpr ⟨(i, value), Shelf.mem_listing.mpr found, rfl⟩
        simp [goes, member]
    · simp [goes]
  drops destination source shelves listed i := by
    rw [lookup_dropCopies]
    cases found : (shelves source).lookup collection i with
    | none => simp
    | some value =>
      simp only [hasPoint_of_plain (plain i (listed i (by simp [found])))]

def onlyPoint (collection id : String) (value : V) : Shelf V :=
  (∅ : Shelf V).insert collection ((∅ : ExtTreeMap String V).insert id value)

theorem lookup_onlyPoint (collection id c i : String) (value : V) :
    (onlyPoint collection id value).lookup c i = if c = collection ∧ i = id then some value else none := by
  unfold onlyPoint Shelf.lookup
  by_cases same : c = collection
  · by_cases sameId : i = id
    · simp [same, sameId]
    · simp [same, sameId, Ne.symm sameId]
  · simp [same, Ne.symm same]

/-- A shard that has no other point answers with it only if the path is its path. -/
theorem plain_of_answer {shelf : Shelf V} {collection id found : String} {value : V}
    (only : ∀ c i, (shelf.lookup c i).isSome → c = collection ∧ i = id)
    (answered : answer shelf (pointPath collection id) = .point found value) : Plain collection id := by
  rw [← route_pointPath_iff]
  unfold answer at answered
  cases routed : route (pointPath collection id) with
  | point c i =>
    simp only [routed] at answered
    cases lookup : shelf.lookup c i with
    | none => simp [lookup] at answered
    | some _ =>
      obtain ⟨rfl, rfl⟩ := only c i (by simp [lookup])
      rfl
  | collection name =>
    simp only [routed] at answered
    split at answered <;> cases answered
  | refused status | notFound => simp [routed] at answered

/-- Requests for points are about these points exactly if the path carries their ids and the name of the
collection unchanged. -/
theorem points_addressed_iff (V : Type) [Inhabited V] (collection : String) (ids : List String) :
    Addressed V collection ids ↔ ∀ i ∈ ids, Plain collection i := by
  refine ⟨fun addressed i member => ?_, addressed_of_plain⟩
  -- The only shard holds the point and is sent it once more.
  let map : ShardMap := { shards := [⟨0, "", []⟩] }
  let shelves : Shelves V := fun _ => onlyPoint collection i default
  have noDonor : donor map i = none := by simp [donor, ShardMap.donorFor, ShardMap.isJoining, map]
  obtain ⟨shelves', first⟩ : ∃ shelves', upsertAt collection i default shelves (owner map i) = .ok shelves' := by
    have present : (shelves (owner map i))[collection]? = some _ := ExtTreeMap.getElem?_insert_self
    exact ⟨_, upsertAt_eq_ok.mpr ⟨_, Shelf.upsert_eq_ok.mpr ⟨_, present, rfl⟩, rfl⟩⟩
  have upserted : upsertPoint map collection i default shelves = .ok shelves' :=
    Results.bind_eq_ok.mpr ⟨_, first, by rw [noDonor]; rfl⟩
  have got := addressed.latest map _ _ i default member upserted
  have reads : readsFrom map i = owner map i := by simp [readsFrom, noDonor]
  have only (c j) : ((shelves' (owner map i)).lookup c j).isSome → c = collection ∧ j = i := by
    rw [lookup_upsertAt first]
    simp only [shelves, lookup_onlyPoint]
    split
    next same => exact fun _ => same.2
    next => split <;> simp_all
  unfold getPoints at got
  rw [reads] at got
  split at got
  case h_4 found value answered => exact plain_of_answer only answered
  all_goals cases got

/-- `a?b` is read as `a`, `%41` as `A`, and `a/b` as nothing: the router answers with another point or none,
the copy is left out, and the last one is dropped. -/
theorem points_not_addressed :
    let map : ShardMap := { shards := [⟨0, "http://s0", []⟩] }
    let shelf : Shelf Nat := ((onlyPoint "c" "a?b" 1).upsert "c" "a/b" 2).toOption.getD ∅
    let other : Shelf Nat := onlyPoint "c" "a" 3
    let shelves : Shelves Nat := fun s => if s = 0 then shelf else other
    getPoints map (fun _ => other) "c" ["a?b"] = .ok [("a", 3)] ∧ getPoints map shelves "c" ["a/b"] = .ok [] ∧
      hasPoint (onlyPoint "c" "A" 4) "c" "%41" = true ∧
      ((copyPoints (fun _ => some 1) 0 "c" shelves).toOption.map fun shelves =>
        ((shelves 1).lookup "c" "a?b", (shelves 1).lookup "c" "a/b")) = some (none, none) ∧
      ((dropCopies (fun _ => some 1) 0 "c" shelves).1 0).lookup "c" "a?b" = none := by
  simp only [copyPoints, lookup_dropCopies, pagesFrom_eq]
  decide +kernel

end Quiver.Cluster
