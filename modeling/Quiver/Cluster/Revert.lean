import Quiver.Cluster.Mirror

/-!
Migrations that fail. Until the flip, and after it while no write went to the new owner alone and no
copy was dropped, the old owners hold the latest values, so that a revert loses nothing. An aborted
drain leaves copies on the survivors: they serve no older value while no write passes them by.
-/

namespace Quiver.Cluster

open OrderedScan
open Std (ExtTreeMap)

variable {V : Type} {mig : Migration} {st st' : State V} {event : Event V} {name : String} {stores : Stores V}

/-- The migration fails only while nothing has passed the old owners by, and no router uses the
flipped map for a moving id after the revert. -/
def Revertible (mig : Migration) (st : State V) : Event V → Prop
  | .fail => st.spoiled = false
  | .first map x _ => (∃ flipped, st.stage = .reverted flipped) → map = mig.after → ¬ mig.Moves x
  | _ => True

theorem unspoiled_of_reverted {events : List (Event V)}
    (run : Run.Reaches (Run.Guarded (Revertible mig) (State.Step mig)) (State.start mig name stores) events st)
    (reverted : ∃ flipped, st.stage = .reverted flipped) : st.spoiled = false := by
  have inv := run.invariant (fun _ st => (∃ flipped, st.stage = .reverted flipped) → st.spoiled = false) ?_ ?_
  · exact inv reverted
  · rintro ⟨_, impossible⟩
    contradiction
  · rintro _ st event st' inv ⟨guarded, stepped⟩ reverted
    cases stepped with
    | @first map x value =>
      change (st.spoiled || decide (map = mig.after ∧ mig.Moves x)) = false
      rw [inv reverted, decide_eq_false fun both => guarded reverted both.1 both.2]
      rfl
    | second => exact inv reverted
    | failEarly | failLate => exact guarded
    | _ =>
      obtain ⟨_, impossible⟩ := reverted
      contradiction

/-- After a revert under these conditions every latest value is on its owner. -/
theorem failed_grow_keeps_writes {map : ShardMap} {id : ShardId} {url : String} {replicas : List String}
    (g : Grow map id url replicas) (steady : map.Steady) (clean : Clean g.migration stores) {events : List (Event V)}
    (run : Run.Reaches (Run.Guarded (Revertible g.migration) (State.Step g.migration))
      (State.start g.migration name stores) events st)
    (reverted : ∃ flipped, st.stage = .reverted flipped) {x : String} {v : V} (isLatest : st.latest x = some v) :
    (st.stores (owner g.restored x))[x]? = some v := by
  obtain ⟨_, current⟩ := placed_current (g.routes steady) clean run
  have here := current.moves (unspoiled_of_reverted run reverted) x
  rw [← isLatest, ← here]
  exact congrArg (fun s => (st.stores s)[x]?) ((g.routes steady).restored_owner x)

/-- A point dual written during the copy is on its old owner after the failure. -/
theorem failed_grow_keeps_writes_copying : ∃ st : State Nat,
    Run.Reaches (Run.Guarded (Revertible growOne.migration) (State.Step growOne.migration))
      (State.start growOne.migration "c" noPoints)
      [.startCopy, .first growOne.during "a" (some 5), .second 0, .fail] st ∧
    (st.stores (owner growOne.restored "a"))["a"]? = some 5 := by
  have donates : donor growOne.during "a" = some 0 := by decide +kernel
  refine Run.shown (.next (.next (.next (.next .refl ⟨trivial, .startCopy rfl⟩)
      ⟨by rintro ⟨_, impossible⟩; contradiction, .first (List.mem_singleton.mpr rfl)⟩)
      ⟨trivial, .second (p := ⟨"a", some 5, 0⟩) (by simp [State.first, State.start, donates])⟩)
      ⟨show (false || _) = false by decide +kernel, .failEarly (.inr ⟨_, rfl⟩)⟩) fun run => ?_
  exact failed_grow_keeps_writes growOne steady_oneShard clean_noPoints run ⟨_, rfl⟩ (by simp [State.second])

/-- A point written through the promoted map is on the joining shard alone, which the failed
migration then removes. -/
theorem failed_grow_loses_write : ∃ st : State Nat,
    Run.Reaches (State.Step growOne.migration) (State.start growOne.migration "c" noPoints)
      [.startCopy, .fetchPage, .nextSource, .flip, .first growOne.after "a" (some 5), .fail] st ∧
    st.stage = .reverted true ∧ st.latest "a" = some 5 ∧ st.pending = [] ∧
    (st.stores (owner growOne.restored "a"))["a"]? = none := by
  have isOwner : owner growOne.after "a" = 1 := by decide +kernel
  have noDonor : donor growOne.after "a" = none := by decide +kernel
  have restored : owner growOne.restored "a" = 0 := by decide +kernel
  refine ⟨_, .next (.next (.next (.next (.next (.next .refl (.startCopy rfl))
      (.fetchPage (c := { sources := [0] }) rfl rfl rfl rfl rfl))
      (.nextSource rfl rfl (by simp [State.fetched, page, noPoints, State.start]) rfl
        (by simp [State.fetched, page, noPoints, copyPage, State.start])))
      (.flip rfl rfl)) (.first (List.mem_cons_of_mem _ (List.mem_singleton.mpr rfl)))) (.failLate (.inl rfl)),
    rfl, ?_, ?_, ?_⟩
  · simp [State.first, noDonor]
  · simp [State.first, noDonor, State.start]
  · simp [State.first, isOwner, restored, getElem?_write, State.start, noPoints]

end Quiver.Cluster
