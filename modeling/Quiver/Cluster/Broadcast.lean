import Quiver.Cluster.Router

/-!
What a broadcast leaves on the shards. A call that fails has done its work on a first part of the
shards, and a create that is made again fails on those.
-/

namespace Quiver.Cluster

open Quiver.Core Json
open Std (ExtTreeMap)

variable {handle : Catalog → Catalog × Except Nat Unit} {cat cat' base : Catalog} {cats cats' : Catalogs}
  {leaders leaders' : ExtTreeMap ShardId String} {shards : List Shard} {s : Shard}

/-- A request that can be made twice: the second one changes nothing, and does not succeed where the
first one failed. -/
structure Repeatable (handle : Catalog → Catalog × Except Nat Unit) : Prop where
  same : ∀ cat, (handle (handle cat).1).1 = (handle cat).1
  ok : ∀ cat, (handle (handle cat).1).2 = .ok () → (handle cat).2 = .ok ()

theorem CollectionWrite.repeatable (admits : Descriptor → Bool) (write : CollectionWrite) :
    Repeatable fun cat => write.handle admits cat := by
  cases write with
  | create body =>
    cases parsed : parseCreate body with
    | none =>
      have rejects : ∀ cat, CollectionWrite.handle admits cat (.create body) = (cat, .error 422) := by
        intro cat
        simp only [handle, parsed]
      exact ⟨fun cat => by simp only [rejects], fun cat => by simp only [rejects]; exact id⟩
    | some request =>
      obtain ⟨name, d⟩ := request
      have cases : ∀ cat, (∃ status, CollectionWrite.handle admits cat (.create body) = (cat, .error status)) ∨
          CollectionWrite.handle admits cat (.create body) = (cat.insert name d, .ok ()) ∧
            ∃ status, CollectionWrite.handle admits (cat.insert name d) (.create body) =
              (cat.insert name d, .error status) := by
        intro cat
        simp only [handle, parsed]
        split
        · exact .inl ⟨_, rfl⟩
        · split
          · exact .inl ⟨_, rfl⟩
          · exact .inr ⟨rfl, 409, by simp⟩
      constructor
      · intro cat
        obtain ⟨status, failed⟩ | ⟨done, status, again⟩ := cases cat
        · simp only [failed]
        · simp only [done, again]
      · intro cat again
        obtain ⟨status, failed⟩ | ⟨done, _⟩ := cases cat
        · simp only [failed] at again ⊢
          exact again
        · simp only [done]
  | drop name =>
    refine ⟨fun cat => ?_, fun cat _ => rfl⟩
    refine ExtTreeMap.ext_getElem? fun other => ?_
    by_cases here : name = other <;> simp [handle, ExtTreeMap.getElem?_erase, here]

/-! ## One shard -/

/-- The request was done, or not. -/
def Reached (handle : Catalog → Catalog × Except Nat Unit) (base cat : Catalog) : Prop :=
  cat = base ∨ cat = (handle base).1

theorem Reached.again (repeatable : Repeatable handle) (reached : Reached handle base cat) :
    (handle cat).1 = (handle base).1 ∧ ((handle cat).2 = .ok () → (handle base).2 = .ok ()) := by
  obtain rfl | rfl := reached
  · exact ⟨rfl, id⟩
  · exact ⟨repeatable.same base, repeatable.ok base⟩

theorem tryWrite_spec (repeatable : Repeatable handle) (contact : String → Contact) (urls : List String)
    {sawNotLeader unreachable : Bool} {tried : Tried} (reached : Reached handle base cat)
    (isTried : tryWrite handle contact cat sawNotLeader unreachable urls = (cat', tried)) :
    Reached handle base cat' ∧
      ∀ url, tried = .done url → cat' = (handle base).1 ∧ (handle base).2 = .ok () := by
  induction urls generalizing cat sawNotLeader unreachable with
  | nil =>
    cases isTried
    exact ⟨reached, by simp⟩
  | cons url urls ih =>
    obtain ⟨same, ok⟩ := reached.again repeatable
    rw [tryWrite] at isTried
    cases isContact : contact url with
    | unreachable | notLeader =>
      rw [isContact] at isTried
      exact ih reached isTried
    | lost =>
      rw [isContact] at isTried
      exact ih (.inr same) isTried
    | refuses status =>
      rw [isContact] at isTried
      cases isTried
      exact ⟨reached, by simp⟩
    | answers =>
      rw [isContact] at isTried
      rcases isHandled : handle cat with ⟨after, result⟩
      simp only [isHandled] at isTried same ok
      cases result with
      | error status =>
        cases isTried
        exact ⟨.inr same, by simp⟩
      | ok u =>
        cases isTried
        exact ⟨.inr same, fun _ _ => ⟨same, ok rfl⟩⟩

theorem writeToShard_spec (repeatable : Repeatable handle) (contact : Nat → String → Contact)
    (cached : Option String) (attempts : Nat) (reached : Reached handle base cat) {r : Except RouterError String}
    (written : writeToShard handle contact cached s attempts cat = (cat', r)) :
    Reached handle base cat' ∧ ∀ url, r = .ok url → cat' = (handle base).1 ∧ (handle base).2 = .ok () := by
  induction attempts generalizing cat with
  | zero =>
    cases written
    exact ⟨reached, by simp⟩
  | succ attempts ih =>
    rw [writeToShard] at written
    rcases isTried : tryWrite handle (contact attempts) cat false false (candidates cached s) with ⟨after, tried⟩
    obtain ⟨reachedAfter, done⟩ := tryWrite_spec repeatable _ _ reached isTried
    rw [isTried] at written
    cases tried with
    | done url =>
      cases written
      exact ⟨reachedAfter, fun _ _ => done url rfl⟩
    | fatal status =>
      cases written
      exact ⟨reachedAfter, by simp⟩
    | exhausted sawNotLeader unreachable =>
      cases sawNotLeader with
      | true => exact ih reachedAfter written
      | false =>
        cases unreachable <;> cases written <;> exact ⟨reachedAfter, by simp⟩

theorem candidates_ne_nil (cached : Option String) (shard : Shard) : candidates cached shard ≠ [] := by
  have step : ∀ (start : List String) (url : String), (if url ∈ start then start else start ++ [url]) ≠ [] := by
    intro start url
    split
    · rename_i inside
      exact List.ne_nil_of_mem inside
    · simp
  have grows : ∀ (urls start : List String), start ≠ [] →
      urls.foldl (fun urls url => if url ∈ urls then urls else urls ++ [url]) start ≠ [] := by
    intro urls
    induction urls with
    | nil => exact fun start some => some
    | cons url urls ih => exact fun start _ => ih _ (step start url)
  rw [candidates, List.foldl_cons]
  exact grows _ _ (step _ _)

theorem writeToShard_answers (handle : Catalog → Catalog × Except Nat Unit) (s : Shard) (cached : Option String)
    (cat : Catalog) :
    ∃ r, writeToShard handle (fun _ _ => .answers) cached s writeLeaderAttempts cat = ((handle cat).1, r) ∧
      ((∃ url, r = .ok url) ↔ (handle cat).2 = .ok ()) := by
  obtain ⟨url, urls, some⟩ := List.exists_cons_of_ne_nil (candidates_ne_nil cached s)
  rw [show writeLeaderAttempts = 59 + 1 from rfl, writeToShard, some, tryWrite]
  obtain ⟨after, result⟩ := handle cat
  cases result with
  | ok u | error status => exact ⟨_, rfl, by simp⟩

/-- By the contacts of the shard, whatever is asked of it fails and changes nothing. -/
def Misses (contact : ShardId → Nat → String → Contact) (leaders : ExtTreeMap ShardId String) (s : Shard) : Prop :=
  ∃ error, ∀ handle cat, writeToShard handle (contact s.id) leaders[s.id]? s writeLeaderAttempts cat = (cat, .error error)

/-- By the contacts of the shard, it does once whatever it is asked for, and its answer arrives. -/
def Obeys (contact : ShardId → Nat → String → Contact) (leaders : ExtTreeMap ShardId String) (s : Shard) : Prop :=
  ∀ handle cat, ∃ r, writeToShard handle (contact s.id) leaders[s.id]? s writeLeaderAttempts cat = ((handle cat).1, r) ∧
    ((∃ url, r = .ok url) ↔ (handle cat).2 = .ok ())

/-! ## All shards -/

section Sent

variable {contact : ShardId → Nat → String → Contact} {r : Except RouterError Unit}

theorem broadcast_outside (sent : broadcast handle contact leaders cats shards = (cats', leaders', r)) :
    ∀ id, id ∉ shards.map Shard.id → cats' id = cats id := by
  induction shards generalizing cats leaders with
  | nil =>
    cases sent
    exact fun _ _ => rfl
  | cons s shards ih =>
    intro id absent
    rw [List.map_cons, List.mem_cons, not_or] at absent
    rw [broadcast] at sent
    rcases written : writeToShard handle (contact s.id) leaders[s.id]? s writeLeaderAttempts (cats s.id) with ⟨cat, result⟩
    rw [written] at sent
    cases result with
    | error e =>
      cases sent
      exact Function.update_of_ne absent.1 ..
    | ok url => rw [ih sent id absent.2, Function.update_of_ne absent.1]

theorem broadcast_ok (repeatable : Repeatable handle) (distinct : (shards.map Shard.id).Nodup)
    (sent : broadcast handle contact leaders cats shards = (cats', leaders', .ok ())) :
    ∀ s ∈ shards, cats' s.id = (handle (cats s.id)).1 ∧ (handle (cats s.id)).2 = .ok () := by
  induction shards generalizing cats leaders with
  | nil => simp
  | cons s shards ih =>
    obtain ⟨notBehind, distinct⟩ := List.nodup_cons.mp distinct
    rw [broadcast] at sent
    rcases written : writeToShard handle (contact s.id) leaders[s.id]? s writeLeaderAttempts (cats s.id) with ⟨cat, result⟩
    rw [written] at sent
    cases result with
    | error e => cases sent
    | ok url =>
      obtain ⟨isCat, handled⟩ := (writeToShard_spec repeatable _ _ _ (.inl rfl) written).2 url rfl
      refine List.forall_mem_cons.mpr ⟨⟨?_, handled⟩, fun t member => ?_⟩
      · rw [broadcast_outside sent s.id notBehind, Function.update_self, isCat]
      · have differs : t.id ≠ s.id := fun same => notBehind (same ▸ List.mem_map_of_mem member)
        have later := ih distinct sent t member
        rwa [Function.update_of_ne differs] at later

theorem broadcast_missed (misses : Misses contact leaders s)
    (sent : broadcast handle contact leaders cats (s :: shards) = (cats', leaders', r)) : cats' = cats := by
  obtain ⟨error, misses⟩ := misses
  rw [broadcast, misses] at sent
  cases sent
  exact Function.update_eq_self ..

/-- Where each shard answers, a broadcast succeeds if all shards take the request. -/
theorem broadcast_answers (distinct : (shards.map Shard.id).Nodup) (answers : ∀ s ∈ shards, Obeys contact leaders s) :
    (broadcast handle contact leaders cats shards).2.2 = .ok () ↔ ∀ s ∈ shards, (handle (cats s.id)).2 = .ok () := by
  induction shards generalizing cats leaders with
  | nil => simp [broadcast]
  | cons s shards ih =>
    obtain ⟨notBehind, distinct⟩ := List.nodup_cons.mp distinct
    obtain ⟨r, written, isOk⟩ := answers s List.mem_cons_self handle (cats s.id)
    have behind : ∀ t ∈ shards, t.id ≠ s.id := fun t member same => notBehind (same ▸ List.mem_map_of_mem member)
    rw [broadcast, written, List.forall_mem_cons]
    cases r with
    | error e =>
      have failed : ¬ (handle (cats s.id)).2 = .ok () := fun ok => by simpa using isOk.mpr ok
      simp [failed]
    | ok url =>
      change (broadcast handle _ _ _ shards).2.2 = _ ↔ _
      have later : ∀ t ∈ shards, Obeys contact (leaders.insert s.id url) t := by
        intro t member
        rw [Obeys, Maps.get_insert, if_neg (Ne.symm (behind t member))]
        exact answers t (List.mem_cons_of_mem _ member)
      rw [ih distinct later, and_iff_right (isOk.mp ⟨url, rfl⟩)]
      refine forall₂_congr fun t member => ?_
      rw [Function.update_of_ne (behind t member)]

end Sent

/-- Every shard has done the request or not. -/
theorem broadcast_reached (repeatable : Repeatable handle) (contact : ShardId → Nat → String → Contact)
    {r : Except RouterError Unit} {bases : Catalogs} (reached : ∀ id, Reached handle (bases id) (cats id))
    (sent : broadcast handle contact leaders cats shards = (cats', leaders', r)) (id : ShardId) :
    Reached handle (bases id) (cats' id) := by
  induction shards generalizing cats leaders with
  | nil =>
    cases sent
    exact reached id
  | cons s shards ih =>
    rw [broadcast] at sent
    rcases written : writeToShard handle (contact s.id) leaders[s.id]? s writeLeaderAttempts (cats s.id) with ⟨cat, result⟩
    obtain ⟨reachedCat, _⟩ := writeToShard_spec repeatable _ _ _ (reached s.id) written
    have reachedAll : ∀ id, Reached handle (bases id) (Function.update cats s.id cat id) := by
      intro id
      by_cases here : id = s.id
      · subst here
        rwa [Function.update_self]
      · rw [Function.update_of_ne here]
        exact reached id
    rw [written] at sent
    cases result with
    | error e =>
      cases sent
      exact reachedAll id
    | ok url => exact ih reachedAll sent

/-! ## Calls -/

section Calls

variable {admits : Descriptor → Bool} {contact : ShardId → Nat → String → Contact} {t t' start : Served}
  {call : CollectionCall} {name : String} {d : Descriptor} {r : Except RouterError Unit}

theorem handle_create (requestable : Requestable d) (cat : Catalog) :
    (CollectionWrite.create (routerBody name d)).handle admits cat =
      if d.filterable ≠ [] then (cat, .error 422)
      else if !admits (withoutBinary d) then (cat, .error 400)
      else if name ∈ cat then (cat, .error 409)
      else (cat.insert name (withoutBinary d), .ok ()) := by
  simp only [CollectionWrite.handle, parse_routerBody requestable]
  by_cases plain : d.filterable = [] <;> simp [plain]

theorem handle_create_ok (requestable : Requestable d)
    (ok : ((CollectionWrite.create (routerBody name d)).handle admits cat).2 = .ok ()) :
    name ∉ cat ∧ d.filterable = [] ∧ admits (withoutBinary d) = true ∧
      ((CollectionWrite.create (routerBody name d)).handle admits cat).1 = cat.insert name (withoutBinary d) := by
  rw [handle_create requestable] at ok ⊢
  split at ok
  · contradiction
  split at ok
  · contradiction
  split at ok
  · contradiction
  rename_i plain admitted absent
  refine ⟨absent, by simpa using plain, by simpa using admitted, ?_⟩
  rw [if_neg plain, if_neg admitted, if_neg absent]

theorem handle_other (call : CollectionCall) {other : String} (differs : other ≠ call.name) (cat : Catalog) :
    (call.write.handle admits cat).1[other]? = cat[other]? := by
  cases call with
  | create name d requestable =>
    simp only [CollectionCall.write, handle_create requestable]
    split
    · rfl
    split
    · rfl
    split
    · rfl
    · simp only [Maps.get_insert]
      exact if_neg (Ne.symm differs)
  | drop name =>
    simp only [CollectionCall.write, CollectionWrite.handle, Maps.get_erase]
    exact if_neg (Ne.symm differs)

theorem Served.call_broadcast (called : t.call admits contact call = (t', r)) :
    ∃ leaders, broadcast (fun cat => call.write.handle admits cat) contact t.router.leaders t.cats
      t.router.map.shards = (t'.cats, leaders, r) ∧ t'.router.map = t.router.map := by
  cases call with
  | create name d requestable | drop name =>
    simp only [Served.call, Router.createCollection, Router.dropCollection, CollectionCall.write] at called ⊢
    generalize broadcast _ contact t.router.leaders t.cats t.router.map.shards = out at called ⊢
    obtain ⟨cats, leaders, _ | _⟩ := out <;> cases called <;> exact ⟨_, rfl, rfl⟩

theorem Served.call_ok (distinct : (t.router.map.shards.map Shard.id).Nodup)
    (called : t.call admits contact call = (t', .ok ())) :
    ∀ s ∈ t.router.map.shards, t'.cats s.id = (call.write.handle admits (t.cats s.id)).1 ∧
      (call.write.handle admits (t.cats s.id)).2 = .ok () := by
  obtain ⟨leaders, sent, _⟩ := Served.call_broadcast called
  exact broadcast_ok (call.write.repeatable admits) distinct sent

theorem Served.call_reached (called : t.call admits contact call = (t', r)) (id : ShardId) :
    Reached (fun cat => call.write.handle admits cat) (t.cats id) (t'.cats id) := by
  obtain ⟨leaders, sent, _⟩ := Served.call_broadcast called
  exact broadcast_reached (call.write.repeatable admits) contact (fun _ => .inl rfl) sent id

/-- The shards of a map all hold a collection, or none of them. -/
def AllOrNone (shards : List Shard) (cats : Catalogs) (name : String) : Prop :=
  (∀ s ∈ shards, name ∈ cats s.id) ∨ ∀ s ∈ shards, name ∉ cats s.id

/-- A call and how its attempts go. -/
def Served.Step (admits : Descriptor → Bool) (t : Served)
    (event : CollectionCall × (ShardId → Nat → String → Contact)) (t' : Served) : Prop :=
  t' = (t.call admits event.2 event.1).1

/-- The first shard misses the call, or all shards answer. -/
def Resolves (t : Served) (event : CollectionCall × (ShardId → Nat → String → Contact)) : Prop :=
  (∃ s ∈ t.router.map.shards.head?, Misses event.2 t.router.leaders s) ∨
    ∀ s ∈ t.router.map.shards, Obeys event.2 t.router.leaders s

/-- A create of a collection that no shard has and every shard would take, or a drop of one that all
of them have. -/
def CollectionCall.Wanted (admits : Descriptor → Bool) (t : Served) : CollectionCall → Prop
  | .create name d _ => d.filterable = [] ∧ admits (withoutBinary d) = true ∧ ∀ s ∈ t.router.map.shards, name ∉ t.cats s.id
  | .drop name => ∀ s ∈ t.router.map.shards, name ∈ t.cats s.id

theorem AllOrNone.done (agree : AllOrNone shards cats name)
    (done : ∀ s ∈ shards, cats' s.id = (call.write.handle admits (cats s.id)).1 ∧
      (call.write.handle admits (cats s.id)).2 = .ok ()) : AllOrNone shards cats' name := by
  by_cases isIts : name = call.name
  · subst isIts
    cases call with
    | create name d requestable =>
      refine .inl fun s member => ?_
      obtain ⟨isCat, ok⟩ := done s member
      rw [isCat, CollectionCall.write, (handle_create_ok requestable ok).2.2.2]
      exact ExtTreeMap.mem_insert_self
    | drop name =>
      refine .inr fun s member => ?_
      rw [(done s member).1]
      simp [CollectionCall.write, CollectionWrite.handle, CollectionCall.name]
  · have same : ∀ s ∈ shards, (name ∈ cats' s.id ↔ name ∈ cats s.id) := by
      intro s member
      rw [(done s member).1, ExtTreeMap.mem_iff_isSome_getElem?, handle_other call isIts,
        ← ExtTreeMap.mem_iff_isSome_getElem?]
    exact agree.imp (fun all s member => (same s member).mpr (all s member))
      fun none s member => fun holds => none s member ((same s member).mp holds)

theorem AllOrNone.congr (agree : AllOrNone shards cats name) (same : ∀ s ∈ shards, cats' s.id = cats s.id) :
    AllOrNone shards cats' name :=
  agree.imp (fun all s member => same s member ▸ all s member) fun none s member => same s member ▸ none s member

theorem Served.retries (admits : Descriptor → Bool) (distinct : (t.router.map.shards.map Shard.id).Nodup)
    (call : CollectionCall) :
    (t.call admits (fun _ _ _ => .answers) call).2 = .ok () ↔
      ∀ s ∈ t.router.map.shards, (call.write.handle admits (t.cats s.id)).2 = .ok () := by
  rcases called : t.call admits (fun _ _ _ => .answers) call with ⟨t', r⟩
  obtain ⟨leaders, sent, _⟩ := Served.call_broadcast called
  have answers : (broadcast (fun cat => call.write.handle admits cat) (fun _ _ _ => .answers) t.router.leaders t.cats
      t.router.map.shards).2.2 = .ok () ↔ _ :=
    broadcast_answers distinct fun s _ handle cat => writeToShard_answers handle s _ cat
  rw [sent] at answers
  exact answers

theorem CollectionCall.Wanted.changes (wanted : call.Wanted admits t) {s : Shard} (member : s ∈ t.router.map.shards) :
    (call.write.handle admits (t.cats s.id)).1 ≠ t.cats s.id := by
  intro same
  cases call with
  | create name d requestable =>
    obtain ⟨plain, admitted, absent⟩ := wanted
    rw [CollectionCall.write, handle_create requestable] at same
    simp only [plain, ne_eq, not_true, if_false, admitted, Bool.not_true, Bool.false_eq_true, absent s member] at same
    exact absent s member (same ▸ ExtTreeMap.mem_insert_self)
  | drop name =>
    have present := wanted s member
    rw [← same] at present
    simp [CollectionCall.write, CollectionWrite.handle] at present

/-- Shards that agree on a name refuse a request for it together. -/
theorem AllOrNone.refused (agree : AllOrNone shards cats call.name)
    (fails : ¬ ∀ s ∈ shards, (call.write.handle admits (cats s.id)).2 = .ok ()) :
    ∀ s ∈ shards, (call.write.handle admits (cats s.id)).1 = cats s.id := by
  intro s member
  cases call with
  | drop name => exact absurd (fun _ _ => rfl) fails
  | create name d requestable =>
    simp only [CollectionCall.write, handle_create requestable] at fails ⊢
    split_ifs with filterable admitted present
    · rfl
    · rfl
    · rfl
    · have none : ∀ s ∈ shards, name ∉ cats s.id := agree.resolve_left fun all => present (all s member)
      refine absurd (fun t inside => ?_) fails
      rw [if_neg filterable, if_neg admitted, if_neg (none t inside)]

theorem AllOrNone.kept (distinct : (t.router.map.shards.map Shard.id).Nodup)
    (agree : ∀ name, AllOrNone t.router.map.shards t.cats name) (resolves : Resolves t (call, contact))
    (called : t.call admits contact call = (t', r)) (name : String) : AllOrNone t.router.map.shards t'.cats name := by
  cases r with
  | ok u => exact (agree name).done (Served.call_ok distinct called)
  | error e =>
    refine (agree name).congr fun s member => ?_
    obtain ⟨leaders, sent, _⟩ := Served.call_broadcast called
    obtain ⟨first, isFirst, misses⟩ | answers := resolves
    · obtain ⟨rest, isShards⟩ := List.head?_eq_some_iff.mp isFirst
      rw [isShards] at sent
      rw [broadcast_missed misses sent]
    · have all : (broadcast (fun cat => call.write.handle admits cat) contact t.router.leaders t.cats
          t.router.map.shards).2.2 = .ok () ↔ _ := broadcast_answers distinct answers
      rw [sent] at all
      have refused := (agree call.name).refused fun ok => by simpa using all.mpr ok
      obtain same | done := Served.call_reached called s.id
      · exact same
      · exact done.trans (refused s member)

def emptyPair : Served where
  router := { map := { shards := [⟨0, "http://s0", []⟩, ⟨1, "http://s1", []⟩] } }
  cats := fun _ => ∅

def flat : Descriptor := { dim := 2, metric := .l2 }

end Calls

end Quiver.Cluster
