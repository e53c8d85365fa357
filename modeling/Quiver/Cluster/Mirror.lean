import Quiver.Base.Lists
import Quiver.Cluster.Handoff

/-!
The new owners' copies. While writes reach the old owner in the order of the new one, and none
meets the copier between its read and its write, a new owner holds the latest value of an id or
nothing; and what it lacks is still ahead of the copier, as long as no deletion moves an
uncopied row behind the offset.
-/

namespace Quiver.Cluster

open Lists OrderedScan
open Std (ExtTreeMap)
open List (filter_append mem_cons not_mem_nil)

variable {V : Type} {mig : Migration} {st st' : State V} {event : Event V} {strict : Bool}

/-- What the new owner of an id holds. -/
def State.mirror (mig : Migration) (st : State V) (x : String) : Option V := (st.stores (owner mig.after x))[x]?

/-- The writes of an id that have not reached the donor, in their order at the owner. -/
def State.inFlight (st : State V) (x : String) : List (Pending V) := st.pending.filter fun p => p.id == x

def Stage.early : Stage V → Prop
  | .announced | .copying _ | .reverted false => True
  | _ => False

/-- What a client's write at the owner does to an id that moves. -/
inductive FirstView (mig : Migration) (st : State V) (map : ShardMap) (x : String) (value : Option V) (y : String)
    (st' : State V) : Prop
  | other : x ≠ y → st'.mirror mig y = st.mirror mig y → st'.latest y = st.latest y →
      st'.inFlight y = st.inFlight y → FirstView mig st map x value y st'
  | old : x = y → map = mig.before ∨ map = mig.restored → st'.mirror mig y = st.mirror mig y → st'.latest y = value →
      st'.inFlight y = st.inFlight y → FirstView mig st map x value y st'
  | both : x = y → st'.mirror mig y = value → st'.latest y = st.latest y →
      st'.inFlight y = st.inFlight y ++ [⟨y, value, owner mig.before y⟩] → FirstView mig st map x value y st'
  | new : x = y → map = mig.after → st'.mirror mig y = value → st'.latest y = value →
      st'.inFlight y = st.inFlight y → FirstView mig st map x value y st'

theorem first_view (st : State V) {map : ShardMap} {x y : String} (sends : Sends mig map x) (moves : mig.Moves y)
    (value : Option V) : FirstView mig st map x value y (st.first mig map x value) := by
  by_cases same : x = y
  · subst same
    have isMirror : (st.first mig map x value).mirror mig x =
        if owner mig.after x = owner map x ∧ x = x then value else st.mirror mig x := getElem?_write ..
    have isLatest : (st.first mig map x value).latest x = if donor map x = none then value else st.latest x := by
      simp only [State.first]
      split
      · exact Function.update_self ..
      · rfl
    have queued : (st.first mig map x value).inFlight x =
        st.inFlight x ++ ((donor map x).map fun d => (⟨x, value, d⟩ : Pending V)).toList := by
      simp only [State.inFlight, State.first, filter_append]
      cases donor map x with
      | none => rfl
      | some d => simp
    cases sends with
    | stays stays => exact absurd moves stays
    | old _ isOwner noDonor isMap =>
      rw [isOwner, if_neg fun both => moves both.1.symm] at isMirror
      rw [if_pos noDonor] at isLatest
      rw [noDonor, Option.map_none, Option.toList_none, List.append_nil] at queued
      exact .old rfl isMap isMirror isLatest queued
    | both _ isOwner isDonor =>
      rw [isOwner, if_pos ⟨rfl, rfl⟩] at isMirror
      rw [isDonor, if_neg (by simp)] at isLatest
      rw [isDonor] at queued
      exact .both rfl isMirror isLatest queued
    | new _ isOwner noDonor isMap =>
      rw [isOwner, if_pos ⟨rfl, rfl⟩] at isMirror
      rw [if_pos noDonor] at isLatest
      rw [noDonor, Option.map_none, Option.toList_none, List.append_nil] at queued
      exact .new rfl isMap isMirror isLatest queued
  · refine .other same ?_ ?_ ?_
    · simp only [State.mirror, State.first, getElem?_write, if_neg fun both : _ ∧ x = y => same both.2]
    · simp only [State.first]
      split
      · exact Function.update_of_ne (Ne.symm same) ..
      · rfl
    · simp only [State.inFlight, State.first, filter_append]
      cases donor map x with
      | none => simp
      | some d => simp [same]

section Second

variable {i : Nat} {p : Pending V}

theorem mirror_second (placed : Placed mig st) (here : st.pending[i]? = some p) (y : String) :
    (st.second p i).mirror mig y = st.mirror mig y := by
  obtain ⟨moves, isDonor⟩ := placed.pending p (List.mem_of_getElem? here)
  refine (getElem?_write ..).trans (if_neg ?_)
  rintro ⟨same, rfl⟩
  exact moves (isDonor.symm.trans same.symm)

theorem inFlight_second_other (here : st.pending[i]? = some p) {y : String} (differ : p.id ≠ y) :
    (st.second p i).inFlight y = st.inFlight y :=
  (filter_eraseIdx here).1 (by simpa using differ)

theorem inFlight_second (here : st.pending[i]? = some p) (first : ∀ q ∈ st.pending.take i, q.id ≠ p.id) :
    st.inFlight p.id = p :: (st.second p i).inFlight p.id :=
  (filter_eraseIdx here).2 (by simp) fun q member => by simpa using first q member

end Second

section Maps

variable {map : ShardMap} {x : String} {stage : Stage V}

theorem maps_differ (routes : mig.Routes) (moves : mig.Moves x) :
    mig.before ≠ mig.during ∧ mig.restored ≠ mig.during ∧ mig.after ≠ mig.during ∧
      mig.after ≠ mig.before ∧ mig.after ≠ mig.restored := by
  have during : donor mig.during x ≠ none := by
    rw [routes.during_donor, if_pos moves]
    simp
  refine ⟨fun same => during ?_, fun same => during ?_, fun same => during ?_, fun same => moves ?_, fun same => moves ?_⟩
  · rw [← same, routes.before_donor]
  · rw [← same, routes.restored_donor]
  · rw [← same, routes.after_donor]
  · rw [same]
  · rw [same, routes.restored_owner]

theorem stage_of_old (routes : mig.Routes) (moves : mig.Moves x) (isMap : map = mig.before ∨ map = mig.restored)
    (inUse : map ∈ mig.inUse stage) : stage = .announced ∨ ∃ flipped, stage = .reverted flipped := by
  obtain ⟨beforeDuring, restoredDuring, _, afterBefore, afterRestored⟩ := maps_differ routes moves
  cases stage with
  | announced => exact .inl rfl
  | reverted flipped => exact .inr ⟨flipped, rfl⟩
  | _ =>
    simp only [Migration.inUse, mem_cons, not_mem_nil, or_false] at inUse
    grind

theorem not_after_of_early (routes : mig.Routes) (moves : mig.Moves x) (early : stage.early)
    (inUse : map ∈ mig.inUse stage) : map ≠ mig.after := by
  obtain ⟨_, _, afterDuring, afterBefore, afterRestored⟩ := maps_differ routes moves
  cases stage with
  | reverted flipped =>
    cases flipped with
    | false =>
      simp only [Migration.inUse, mem_cons, not_mem_nil, or_false, Bool.false_eq_true, if_false] at inUse
      grind
    | true => exact early.elim
  | announced | copying =>
    simp only [Migration.inUse, mem_cons, not_mem_nil, or_false] at inUse
    grind
  | flipped | dropping | finished => exact early.elim

end Maps

/-- The values a claim is about: all of them, or upserts alone. -/
def Relevant (strict : Bool) (value : Option V) : Prop := strict = true ∨ value ≠ none

/-- The copier has read the id and not yet written it. -/
def State.Carries (st : State V) (x : String) : Prop :=
  ∃ c v, st.stage = .copying c ∧ c.holding = some (x, some v)

/-- No races on one id: its writes reach the donor in their order at the owner, none reaches a
shard while the copier carries the id or is in flight when the copier reads it, and the old owner
alone is not written once the new one holds the id. What the copier reads has a path. -/
def Careful (strict : Bool) (mig : Migration) (st : State V) : Event V → Prop
  | .first map x value => mig.Moves x →
      (map = mig.before ∨ map = mig.restored → Relevant strict value → st.mirror mig x = none) ∧
      (map = mig.after → st.inFlight x = []) ∧ (Relevant strict value → ¬ st.Carries x)
  | .second i => ∀ p, st.pending[i]? = some p →
      (∀ q ∈ st.pending.take i, q.id ≠ p.id) ∧ (Relevant strict p.value → ¬ st.Carries p.id)
  | .read => ∀ c x, st.stage = .copying c → c.holding = some (x, none) →
      Plain st.collection x ∧ ∀ p ∈ st.inFlight x, ¬ Relevant strict p.value
  | _ => True

/-- A new owner holds the latest value or nothing, or the value of the newest write in flight;
and the copier carries the latest value. -/
structure Agrees (strict : Bool) (mig : Migration) (st : State V) : Prop where
  settled : ∀ x, mig.Moves x → st.inFlight x = [] → Relevant strict (st.latest x) →
    st.mirror mig x = none ∨ st.mirror mig x = st.latest x
  newest : ∀ x p, mig.Moves x → (st.inFlight x).getLast? = some p → Relevant strict p.value →
    st.mirror mig x = p.value
  carried : ∀ c x v, st.stage = .copying c → c.holding = some (x, some v) → mig.Moves x →
    (∀ p ∈ st.inFlight x, ¬ Relevant strict p.value) ∧ (Relevant strict (st.latest x) → st.latest x = some v)

theorem Agrees.first (routes : mig.Routes) (agrees : Agrees strict mig st) {map : ShardMap} {x : String}
    {value : Option V} (inUse : map ∈ mig.inUse st.stage) (careful : Careful strict mig st (.first map x value)) :
    Agrees strict mig (st.first mig map x value) := by
  have sends := sends_inUse routes inUse x
  refine ⟨fun y moves idle relevant => ?_, fun y p moves last relevant => ?_, fun c y v isStage held moves => ?_⟩
  · cases first_view st sends moves value with
    | other _ isMirror isLatest queued =>
      rw [isLatest] at relevant ⊢
      rw [isMirror]
      exact agrees.settled y moves (queued ▸ idle) relevant
    | old same isMap isMirror isLatest queued =>
      subst same
      rw [isMirror]
      exact .inl ((careful moves).1 isMap (isLatest ▸ relevant))
    | both same isMirror isLatest queued =>
      rw [queued] at idle
      simp at idle
    | new same isMap isMirror isLatest queued => exact .inr (isMirror.trans isLatest.symm)
  · cases first_view st sends moves value with
    | other _ isMirror _ queued | old _ _ isMirror _ queued =>
      rw [isMirror]
      exact agrees.newest y p moves (queued ▸ last) relevant
    | both same isMirror isLatest queued =>
      rw [queued, List.getLast?_concat, Option.some.injEq] at last
      rw [isMirror, ← last]
    | new same isMap isMirror isLatest queued =>
      subst same
      rw [queued, (careful moves).2.1 isMap] at last
      contradiction
  · have isStage : st.stage = .copying c := isStage
    obtain ⟨free, carries⟩ := agrees.carried c y v isStage held moves
    cases first_view st sends moves value with
    | other _ isMirror isLatest queued =>
      rw [isLatest, queued]
      exact ⟨free, carries⟩
    | old _ isMap =>
      obtain impossible | ⟨_, impossible⟩ := stage_of_old routes moves isMap inUse
      · rw [isStage] at impossible
        contradiction
      · rw [isStage] at impossible
        contradiction
    | both same isMirror isLatest queued =>
      subst same
      rw [isLatest, queued]
      refine ⟨fun p member => ?_, carries⟩
      obtain old | isNew := List.mem_append.mp member
      · exact free p old
      · rw [List.mem_singleton.mp isNew]
        exact fun relevant => (careful moves).2.2 relevant ⟨c, v, isStage, held⟩
    | new _ isMap =>
      exact absurd isMap (not_after_of_early routes moves (by rw [isStage]; trivial) inUse)

theorem Agrees.second (placed : Placed mig st) (agrees : Agrees strict mig st) {i : Nat} {p : Pending V}
    (here : st.pending[i]? = some p) (careful : Careful strict mig st (.second i)) :
    Agrees strict mig (st.second p i) := by
  obtain ⟨first, uncarried⟩ := careful p here
  have queue := inFlight_second here first
  have isLatest : (st.second p i).latest p.id = p.value := Function.update_self ..
  have unchanged : ∀ {y}, p.id ≠ y → (st.second p i).latest y = st.latest y := fun differ =>
    Function.update_of_ne (Ne.symm differ) ..
  refine ⟨fun y moves idle relevant => ?_, fun y q moves last relevant => ?_, fun c y v isStage held moves => ?_⟩
  · rw [mirror_second placed here]
    by_cases same : p.id = y
    · subst same
      rw [isLatest] at relevant ⊢
      rw [idle] at queue
      exact .inr (agrees.newest p.id p moves (by rw [queue]; rfl) relevant)
    · rw [unchanged same] at relevant ⊢
      rw [inFlight_second_other here same] at idle
      exact agrees.settled y moves idle relevant
  · rw [mirror_second placed here]
    by_cases same : p.id = y
    · subst same
      refine agrees.newest p.id q moves ?_ relevant
      rw [queue, List.getLast?_cons, last]
      rfl
    · rw [inFlight_second_other here same] at last
      exact agrees.newest y q moves last relevant
  · have isStage : st.stage = .copying c := isStage
    obtain ⟨free, carries⟩ := agrees.carried c y v isStage held moves
    by_cases same : p.id = y
    · subst same
      rw [isLatest]
      refine ⟨fun q member => free q ?_, fun relevant => ?_⟩
      · rw [queue]
        exact List.mem_cons_of_mem _ member
      · exact absurd ⟨c, v, isStage, held⟩ (uncarried relevant)
    · rw [unchanged same, inFlight_second_other here same]
      exact ⟨free, carries⟩

theorem mirror_deleteChunk (placed : Placed mig st) {d : Dropping} {source : ShardId} {rest : List ShardId}
    (isStage : st.stage = .dropping d) (isSource : d.sources = source :: rest) (y : String) :
    (State.deleteAll st.stores source (d.ids.take copyPage) (owner mig.after y))[y]? = st.mirror mig y := by
  obtain ⟨_, listed, moving⟩ := placed.dropping d isStage
  rw [getElem?_deleteAll, if_neg]
  · rfl
  · rintro ⟨same, member⟩
    have member := List.mem_of_mem_take member
    have here := listed y (.inr member)
    rw [isSource, List.head?_cons, Option.some.injEq] at here
    exact moving y member (here.symm.trans same.symm)

theorem Agrees.step (routes : mig.Routes) (placed : Placed mig st) (current : Current mig st)
    (unspoiled : st.stage.early → st.spoiled = false) (agrees : Agrees strict mig st)
    (careful : Careful strict mig st event) (stepped : State.Step mig st event st') : Agrees strict mig st' := by
  cases stepped with
  | first inUse => exact agrees.first routes inUse careful
  | second here => exact agrees.second placed here careful
  | @read c x source rest found isStage isHeld isSource answers =>
    refine ⟨agrees.settled, agrees.newest, fun c' y v isCopy held moves => ?_⟩
    cases isCopy
    obtain ⟨_, isRead, same⟩ := Option.map_eq_some_iff.mp held
    cases same
    obtain ⟨plain, free⟩ := careful c x isStage isHeld
    rw [(answers_iff plain).mp answers] at isRead
    refine ⟨free, fun _ => ?_⟩
    have here := (placed.copying c isStage).2 x (.inr ⟨_, isHeld⟩)
    rw [isSource, List.head?_cons, Option.some.injEq] at here
    rw [here] at isRead
    exact (current.moves (unspoiled (by rw [isStage]; trivial)) x).symm.trans isRead
  | @store c x v destination isStage isHeld isDestination =>
    obtain ⟨moving, rfl⟩ := placed.destination routes isStage isHeld isDestination
    obtain ⟨free, carries⟩ := agrees.carried c x v isStage isHeld moving
    have isMirror : ∀ y, (write st.stores (owner mig.after x) x (some v) (owner mig.after y))[y]? =
        if x = y then some v else st.mirror mig y := by
      intro y
      rw [getElem?_write]
      by_cases same : x = y
      · subst same
        rw [if_pos ⟨rfl, rfl⟩, if_pos rfl]
      · rw [if_neg fun both => same both.2, if_neg same]
        rfl
    refine ⟨fun y moves idle relevant => ?_, fun y p moves last relevant => ?_, fun c' y w isCopy held => ?_⟩
    · simp only [State.mirror, isMirror]
      split
      · rename_i same
        subst same
        exact .inr (carries relevant).symm
      · exact agrees.settled y moves idle relevant
    · simp only [State.mirror, isMirror]
      split
      · rename_i same
        subst same
        exact absurd relevant (free p (List.mem_of_mem_getLast? last))
      · exact agrees.newest y p moves last relevant
    · cases isCopy
      contradiction
  | @deleteChunk d source rest isStage isSource =>
    have isMirror := mirror_deleteChunk placed isStage isSource
    refine ⟨fun y moves idle relevant => ?_, fun y p moves last relevant => ?_, fun c y v isCopy => ?_⟩
    · simp only [State.mirror, isMirror]
      exact agrees.settled y moves idle relevant
    · simp only [State.mirror, isMirror]
      exact agrees.newest y p moves last relevant
    · contradiction
  | check =>
    refine ⟨agrees.settled, agrees.newest, fun c' y v isCopy held => ?_⟩
    cases isCopy
    simp only [State.checked] at held
    split at held
    · contradiction
    · cases held
  | fetchPage isStage _ _ noHold | skip isStage _ noHold =>
    refine ⟨agrees.settled, agrees.newest, fun c' y v isCopy held => ?_⟩
    cases isCopy
    exact absurd (noHold.symm.trans held) (by simp)
  | startCopy | nextSource =>
    refine ⟨agrees.settled, agrees.newest, fun c' y v isCopy held => ?_⟩
    cases isCopy
    contradiction
  | _ => exact ⟨agrees.settled, agrees.newest, fun c' y v isCopy => by contradiction⟩

theorem agrees_start {name : String} {stores : Stores V} (clean : Clean mig stores) :
    Agrees strict mig (State.start mig name stores) := by
  refine ⟨fun x moves _ _ => .inl ?_, fun x p _ last => ?_, fun c x v isCopy => ?_⟩
  · exact ExtTreeMap.getElem?_eq_none fun member => moves (clean _ x member).symm
  · contradiction
  · contradiction

section Runs

variable {name : String} {stores : Stores V} {events : List (Event V)} {guard : State V → Event V → Prop}

theorem placed_current (routes : mig.Routes) (clean : Clean mig stores)
    (run : Run.Reaches (Run.Guarded guard (State.Step mig)) (State.start mig name stores) events st) :
    Placed mig st ∧ Current mig st := by
  refine run.invariant (fun _ st => Placed mig st ∧ Current mig st) ⟨placed_start clean, current_start⟩ ?_
  rintro _ st event st' ⟨placed, current⟩ ⟨_, stepped⟩
  exact ⟨placed.step routes stepped, current.step routes placed stepped⟩

end Runs

def oneShard : ShardMap := { shards := [⟨0, "http://a", []⟩] }

def growOne : Grow oneShard 1 "http://b" [] where
  during := ⟨1, [⟨0, "http://a", []⟩, ⟨1, "http://b", []⟩], [1], []⟩
  after := ⟨2, [⟨0, "http://a", []⟩, ⟨1, "http://b", []⟩], [], []⟩
  restored := ⟨2, [⟨0, "http://a", []⟩], [], []⟩
  joined := by decide
  promoted := by decide
  removed := by decide

theorem steady_oneShard : oneShard.Steady := ⟨rfl, rfl, by decide, by decide⟩

def noPoints : Stores Nat := fun _ => ∅

theorem clean_noPoints {mig : Migration} : Clean mig noPoints := fun _ _ member => by simp [noPoints] at member

end Quiver.Cluster
