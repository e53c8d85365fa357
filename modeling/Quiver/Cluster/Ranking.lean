import Quiver.Cluster.Broadcast

/-!
Where the collections of a shard come from: each was there, or was asked for by the call or the copy
that has just reached the shard.
-/

namespace Quiver.Cluster

open Quiver.Core Json Maps
open Std (ExtTreeMap)
open Function (update_of_ne update_self)

variable {admits : Descriptor → Bool} {f f' start : Fleet} {event : FleetEvent}

theorem Reached.found {call : CollectionCall} {base cat : Catalog} {name : String} {d : Descriptor}
    (reached : Reached (fun cat => call.write.handle admits cat) base cat) (found : cat[name]? = some d) :
    base[name]? = some d ∨ ∃ (e : Descriptor) (requestable : Requestable e), call = .create name e requestable ∧
      d = withoutBinary e := by
  obtain rfl | rfl := reached
  · exact .inl found
  · cases call with
    | create created e requestable =>
      simp only [CollectionCall.write, handle_create requestable] at found
      split at found
      · exact .inl found
      split at found
      · exact .inl found
      split at found
      · exact .inl found
      · obtain ⟨rfl, isNew⟩ | ⟨_, found⟩ := of_insert found
        · exact .inr ⟨e, requestable, rfl, isNew.symm⟩
        · exact .inl found
    | drop dropped =>
      simp only [CollectionCall.write, CollectionWrite.handle, ExtTreeMap.getElem?_erase] at found
      split at found
      · contradiction
      · exact .inl found

section

variable {t t' : Served} {call : CollectionCall} {contact : ShardId → Nat → String → Contact}
  {r : Except RouterError Unit} (called : t.call admits contact call = (t', r)) {name : String}
include called

theorem Served.call_found {s : ShardId} {d : Descriptor} (found : (t'.cats s)[name]? = some d) :
    (t.cats s)[name]? = some d ∨ ∃ (e : Descriptor) (requestable : Requestable e),
      call = .create name e requestable ∧ d = withoutBinary e := by
  exact (Served.call_reached called s).found found

end

theorem ensureCollection_found {dto : Value} {answersHas : Bool} {cat : Catalog} {name : String} {d e : Descriptor}
    {count : Nat} {indexReady : Bool} (requestable : Requestable e) (isDto : dto = collectionDto name e count indexReady)
    {other : String} (found : (ensureCollection admits dto answersHas cat).1[other]? = some d) :
    cat[other]? = some d ∨ other = name ∧ d = { withoutBinary e with multivector := false } := by
  subst isDto
  unfold ensureCollection at found
  split at found
  · exact .inl found
  · simp only [CollectionWrite.handle, parse_ensureBody requestable] at found
    split at found
    · exact .inl found
    split at found
    · exact .inl found
    · obtain ⟨rfl, rfl⟩ | ⟨_, found⟩ := of_insert found
      · exact .inr ⟨rfl, rfl⟩
      · exact .inl found

theorem Requestable.withoutBinary {d : Descriptor} (requestable : Requestable d) : Requestable (withoutBinary d) :=
  ⟨requestable.dim, requestable.pqSubspaces⟩

/-- Routers in front of one shard without collections. -/
def freshFleet : Fleet where
  routers := fun _ => { map := { shards := [⟨0, "http://s0", []⟩] } }
  cats := fun _ => ∅

def allAnswer : ShardId → Nat → String → Contact := fun _ _ _ => .answers

end Quiver.Cluster
