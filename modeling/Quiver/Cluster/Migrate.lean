import Quiver.Cluster.Mirror

/-!
Migrations that succeed. The copy visits every row that no deletion moves behind its offset, so
that after the flip the new owners hold the latest values; the drop then leaves the copies of
points that were deleted through the flipped map, and of rows that it passed by.
-/

namespace Quiver.Cluster

open OrderedScan
open Std (ExtTreeMap)
open Std.ExtTreeMap (mem_iff_isSome_getElem?)
open List (head?_cons mem_cons mem_singleton)
open Function (update_of_ne update_self)

variable {V : Type} {mig : Migration} {st st' : State V} {event : Event V} {strict : Bool}

/-- The copier has not passed the row by. -/
def Todo (mig : Migration) (stores : Stores V) (c : Copying V) (x : String) : Prop :=
  owner mig.before x ∈ c.sources.tail ∨ c.sources.head? = some (owner mig.before x) ∧
    (x ∈ c.page ∨ (∃ v, c.holding = some (x, v)) ∨
      c.last = false ∧ c.offset ≤ rank (stores (owner mig.before x)) x)

def Waiting (mig : Migration) (stores : Stores V) (x : String) : Stage V → Prop
  | .announced | .reverted _ => True
  | .copying c => Todo mig stores c x
  | _ => False

/-- A deletion of the id at its old owner moves no uncopied row behind the copier's offset. -/
def Keeps (mig : Migration) (st : State V) (z : String) : Prop :=
  ∀ c y, st.stage = .copying c → c.last = false → c.sources.head? = some (owner mig.before z) →
    z ∈ st.stores (owner mig.before z) → rank (st.stores (owner mig.before z)) z < c.offset →
    (st.stores (owner mig.before z)).keys[c.offset]? = some y → mig.Moves y →
    st.mirror mig y ≠ none ∨ st.inFlight y ≠ []

/-- The copier passes no row by: none is moved behind its offset, and each has a path. -/
def Unshifted (mig : Migration) (st : State V) : Event V → Prop
  | .check => ∀ c x rest, st.stage = .copying c → c.page = x :: rest → Plain st.collection x
  | .first _ z none => ¬ mig.Moves z → Keeps mig st z
  | .second i => ∀ p, st.pending[i]? = some p → p.value = none → Keeps mig st p.id
  | _ => True

/-- What a new owner lacks is ahead of the copier. -/
def Covered (mig : Migration) (st : State V) : Prop :=
  ∀ x, mig.Moves x → st.inFlight x = [] → st.latest x ≠ none → st.mirror mig x = none →
    Waiting mig st.stores x st.stage

theorem write_other {stores : Stores V} {s t : ShardId} (differ : t ≠ s) (x : String) (value : Option V) :
    write stores s x value t = stores t := update_of_ne differ ..

theorem Todo.write {c : Copying V} {y z : String} {value : Option V} (todo : Todo mig st.stores c y)
    (isStage : st.stage = .copying c) (moves : mig.Moves y) (present : y ∈ st.stores (owner mig.before y))
    (idle : st.inFlight y = []) (lacks : st.mirror mig y = none) (keeps : value = none → Keeps mig st z) :
    Todo mig (write st.stores (owner mig.before z) z value) c y := by
  obtain later | ⟨isHead, inPage | held | ⟨more, ahead⟩⟩ := todo
  · exact .inl later
  · exact .inr ⟨isHead, .inl inPage⟩
  · exact .inr ⟨isHead, .inr (.inl held)⟩
  refine .inr ⟨isHead, .inr (.inr ⟨more, ?_⟩)⟩
  by_cases here : owner mig.before y = owner mig.before z
  · rw [here] at ahead present ⊢
    cases value with
    | some v =>
      simp only [Cluster.write, update_self]
      exact Nat.le_trans ahead (rank_insert ..)
    | none =>
      simp only [Cluster.write, update_self]
      refine le_rank_erase present ahead fun member behind isNext => ?_
      obtain holds | busy := keeps rfl c y isStage more (here ▸ isHead) member behind isNext moves
      · exact holds lacks
      · exact busy idle
  · rw [write_other here]
    exact ahead

theorem Waiting.write_target {stage : Stage V} {s : ShardId} {x y : String} {value : Option V} {stores : Stores V}
    (waiting : Waiting mig stores y stage) (differ : owner mig.before y ≠ s) :
    Waiting mig (write stores s x value) y stage := by
  cases stage with
  | copying c =>
    rw [Waiting, Todo, write_other differ]
    exact waiting
  | _ => exact waiting

section

variable (current : Current mig st) (unspoiled : st.stage.early → st.spoiled = false)
include current unspoiled

theorem Current.present (early : st.stage.early) {y : String} (isLatest : st.latest y ≠ none) :
    y ∈ st.stores (owner mig.before y) := by
  rw [mem_iff_isSome_getElem?, current.moves (unspoiled early) y]
  exact Option.isSome_iff_ne_none.mpr isLatest

theorem Waiting.write_source {y z : String} {value : Option V} (moves : mig.Moves y) (idle : st.inFlight y = [])
    (isLatest : st.latest y ≠ none) (lacks : st.mirror mig y = none) (keeps : value = none → Keeps mig st z)
    (waiting : Waiting mig st.stores y st.stage) :
    Waiting mig (write st.stores (owner mig.before z) z value) y st.stage := by
  cases isStage : st.stage with
  | copying c =>
    rw [isStage] at waiting
    have present := current.present unspoiled (by rw [isStage]; trivial) isLatest
    exact Todo.write waiting isStage moves present idle lacks keeps
  | announced | reverted => trivial
  | flipped | dropping | finished =>
    rw [isStage] at waiting
    exact waiting

theorem Covered.first (routes : mig.Routes) (covered : Covered mig st) {map : ShardMap} {x : String} {value : Option V}
    (inUse : map ∈ mig.inUse st.stage)
    (unshifted : Unshifted mig st (.first map x value)) : Covered mig (st.first mig map x value) := by
  have sends := sends_inUse routes inUse x
  intro y moves idle isLatest lacks
  have unread {z : String} {stores : Stores V} (moving : mig.Moves z) (isMap : map = mig.before ∨ map = mig.restored) :
      Waiting mig stores y st.stage := by
    obtain isStage | ⟨_, isStage⟩ := stage_of_old routes moving isMap inUse
    all_goals
      rw [isStage]
      trivial
  cases first_view st sends moves value with
  | other differ sameMirror sameLatest queued =>
    rw [sameLatest] at isLatest
    rw [sameMirror] at lacks
    rw [queued] at idle
    have waiting := covered y moves idle isLatest lacks
    by_cases here : owner mig.before y = owner map x
    · cases sends with
      | stays stays isOwner =>
        change Waiting mig (write st.stores (owner map x) x value) y st.stage
        rw [isOwner]
        refine waiting.write_source current unspoiled moves idle isLatest lacks ?_
        rintro rfl
        exact unshifted stays
      | old moving _ _ isMap => exact unread moving isMap
      | both moving isOwner | new moving isOwner =>
        rw [isOwner] at here
        exact absurd (here ▸ routes.source y moves) (routes.target x moving)
    · exact waiting.write_target here
  | old same isMap => exact unread moves isMap
  | both _ _ _ queued =>
    rw [queued] at idle
    simp at idle
  | new _ _ sameMirror sameLatest => exact absurd (sameLatest.trans (sameMirror.symm.trans lacks)) isLatest

theorem Covered.second (placed : Placed mig st) (agrees : Agrees strict mig st) (covered : Covered mig st)
    {i : Nat} {p : Pending V} (here : st.pending[i]? = some p) (careful : Careful strict mig st (.second i))
    (unshifted : Unshifted mig st (.second i)) : Covered mig (st.second p i) := by
  obtain ⟨_, isDonor⟩ := placed.pending p (List.mem_of_getElem? here)
  intro y moves idle isLatest lacks
  rw [mirror_second placed here] at lacks
  by_cases same : p.id = y
  · subst same
    have queue := inFlight_second here (careful p here).1
    rw [idle] at queue
    have wrote : (st.second p i).latest p.id = p.value := update_self ..
    rw [wrote] at isLatest
    exact absurd ((agrees.newest p.id p moves (by rw [queue]; rfl) (.inr isLatest)).symm.trans lacks) isLatest
  · rw [inFlight_second_other here same] at idle
    have kept : (st.second p i).latest y = st.latest y := update_of_ne (Ne.symm same) ..
    rw [kept] at isLatest
    have waiting := covered y moves idle isLatest lacks
    change Waiting mig (write st.stores p.donor p.id p.value) y st.stage
    rw [isDonor]
    exact waiting.write_source current unspoiled moves idle isLatest lacks (unshifted p here)

end

/-- A scan of sources starts with the first of them. -/
theorem scan_starts {sources : List ShardId} {s : ShardId} {place : Prop} (source : s ∈ sources) (start : place) :
    s ∈ sources.tail ∨ sources.head? = some s ∧ place := by
  cases sources with
  | nil => contradiction
  | cons first rest =>
    obtain rfl | later := mem_cons.mp source
    · exact .inr ⟨rfl, start⟩
    · exact .inl later

theorem scan_next {source s : ShardId} {sources rest : List ShardId} {place next : Prop}
    (isSource : sources = source :: rest) (done : ¬ place) (start : next)
    (todo : s ∈ sources.tail ∨ sources.head? = some s ∧ place) : s ∈ rest.tail ∨ rest.head? = some s ∧ next := by
  subst isSource
  exact scan_starts (todo.resolve_right fun here => done here.2) start

theorem scan_over {s : ShardId} {sources : List ShardId} {place : Prop} (noSources : sources = []) :
    ¬ (s ∈ sources.tail ∨ sources.head? = some s ∧ place) := by
  simp [noSources]

theorem Covered.advance (covered : Covered mig st) {stage stage' : Stage V} (isStage : st.stage = stage)
    (next : ∀ {y}, mig.Moves y → st.latest y ≠ none → st.mirror mig y = none →
      Waiting mig st.stores y stage → Waiting mig st.stores y stage') : Covered mig { st with stage := stage' } :=
  fun y moves idle isLatest lacks => next moves isLatest lacks (isStage ▸ covered y moves idle isLatest lacks)

theorem Covered.step (routes : mig.Routes) (placed : Placed mig st) (current : Current mig st)
    (unspoiled : st.stage.early → st.spoiled = false) (agrees : Agrees strict mig st) (covered : Covered mig st)
    (careful : Careful strict mig st event) (unshifted : Unshifted mig st event)
    (stepped : State.Step mig st event st') : Covered mig st' := by
  cases stepped with
  | first inUse => exact covered.first current unspoiled routes inUse unshifted
  | second here => exact covered.second current unspoiled placed agrees here careful unshifted
  | startCopy =>
    intro y moves _ _ _
    exact scan_starts (routes.source y moves) (.inr (.inr ⟨rfl, Nat.zero_le _⟩))
  | @fetchPage c source rest isStage isSource noPage noHold more =>
    refine covered.advance isStage fun {y} moves isLatest lacks todo => ?_
    obtain later | ⟨isHead, inPage | ⟨v, held⟩ | ⟨_, ahead⟩⟩ := todo
    · exact .inl later
    · rw [noPage] at inPage
      contradiction
    · rw [noHold] at held
      contradiction
    · refine .inr ⟨isHead, ?_⟩
      rw [isSource, head?_cons, Option.some.injEq] at isHead
      have present := current.present unspoiled (by rw [isStage]; trivial) isLatest
      rw [← isHead] at ahead present ⊢
      obtain inRows | ⟨behind, full⟩ := page_covers copyPage present ahead
      · exact .inl inRows
      · exact .inr (.inr ⟨decide_eq_false full, behind⟩)
  | @skip c x rest isStage isPage _ stays =>
    refine covered.advance isStage fun {y} moves isLatest lacks todo => ?_
    refine todo.imp_right fun ⟨isHead, place⟩ => ⟨isHead, place.imp_left fun inPage => ?_⟩
    rw [isPage] at inPage
    obtain rfl | later := mem_cons.mp inPage
    · rw [routes.moves_to y moves] at stays
      contradiction
    · exact later
  | @check c x rest destination found isStage isPage noHold isDestination answers =>
    refine covered.advance isStage fun {y} moves isLatest lacks todo => ?_
    obtain later | ⟨isHead, inPage | ⟨v, held⟩ | behind⟩ := todo
    · exact .inl later
    · refine .inr ⟨isHead, ?_⟩
      rw [isPage] at inPage
      obtain rfl | later := mem_cons.mp inPage
      · have absent : found = none := by
          rw [routes.moves_to y moves, Option.some.injEq] at isDestination
          rw [(answers_iff (unshifted c y rest isStage isPage)).mp answers, ← isDestination]
          exact lacks
        exact .inr (.inl ⟨none, by simp [State.checked, absent]⟩)
      · exact .inl later
    · rw [noHold] at held
      contradiction
    · exact .inr ⟨isHead, .inr (.inr behind)⟩
  | @read c x source rest found isStage isHeld isSource answers =>
    refine covered.advance isStage fun {y} moves isLatest lacks todo => ?_
    refine todo.imp_right fun ⟨isHead, place⟩ => ⟨isHead, place.imp_right (Or.imp_left ?_)⟩
    rintro ⟨v, held⟩
    rw [isHeld] at held
    cases held
    have present := current.present unspoiled (by rw [isStage]; trivial) isLatest
    rw [isSource, head?_cons, Option.some.injEq] at isHead
    obtain ⟨v, isRead⟩ := Option.isSome_iff_exists.mp (mem_iff_isSome_getElem?.mp present)
    rw [← isHead, ← (answers_iff (careful c x isStage isHeld).1).mp answers] at isRead
    exact ⟨some v, by simp only [State.readFrom, isRead, Option.map_some]⟩
  | @store c x v destination isStage isHeld isDestination =>
    obtain ⟨moving, rfl⟩ := placed.destination routes isStage isHeld isDestination
    intro y moves idle isLatest lacks
    simp only [State.mirror, getElem?_write] at lacks
    by_cases same : x = y
    · subst same
      simp at lacks
    · rw [if_neg fun both => same both.2] at lacks
      have todo := covered y moves idle isLatest lacks
      rw [isStage] at todo
      have differ : owner mig.before y ≠ owner mig.after x := fun here =>
        routes.target x moving (here ▸ routes.source y moves)
      change Todo mig (write st.stores (owner mig.after x) x (some v)) _ y
      rw [Todo, write_other differ]
      refine todo.imp_right fun ⟨isHead, place⟩ => ⟨isHead, place.imp_right (Or.imp_left ?_)⟩
      rintro ⟨w, held⟩
      rw [isHeld] at held
      cases held
      contradiction
  | @nextSource c source rest isStage isSource noPage noHold isLast =>
    exact covered.advance isStage fun _ _ _ =>
      scan_next isSource (by simp [noPage, noHold, isLast]) (.inr (.inr ⟨rfl, Nat.zero_le _⟩))
  | @flip c isStage noSources => exact covered.advance isStage fun _ _ _ todo => scan_over noSources todo
  | @deleteChunk d source rest isStage isSource =>
    obtain ⟨_, listed, moving⟩ := placed.dropping d isStage
    intro y moves idle isLatest lacks
    rw [State.mirror, mirror_deleteChunk placed isStage isSource] at lacks
    have waiting := covered y moves idle isLatest lacks
    rw [isStage] at waiting
    exact waiting
  | startDrop isStage | dropPage isStage | examine isStage | nextDrop isStage | finish isStage =>
    exact covered.advance isStage fun _ _ _ waiting => waiting
  | failEarly | failLate => exact fun _ _ _ _ _ => trivial

section Runs

variable {name : String} {stores : Stores V} {events : List (Event V)} {guard : State V → Event V → Prop}

end Runs

section Drop

/-- The drop has not passed the row by. -/
def Left (mig : Migration) (stores : Stores V) (d : Dropping) (x : String) : Prop :=
  owner mig.before x ∈ d.sources.tail ∨ d.sources.head? = some (owner mig.before x) ∧
    (x ∈ d.page ∨ x ∈ d.ids ∨ d.last = false ∧ d.offset ≤ rank (stores (owner mig.before x)) x)

/-- No write is in flight when the drop starts, no row that moves is moved behind its offset, and the
new owner holds what the drop meets and is asked by its path: it was not deleted through the flipped map. -/
def Droppable (mig : Migration) (st : State V) : Event V → Prop
  | .first _ z none => ¬ mig.Moves z → ∀ d y, st.stage = .dropping d → d.last = false →
      d.sources.head? = some (owner mig.before z) → z ∈ st.stores (owner mig.before z) →
      rank (st.stores (owner mig.before z)) z < d.offset →
      (st.stores (owner mig.before z)).keys[d.offset]? = some y → ¬ mig.Moves y
  | .startDrop => st.pending = []
  | .examine => ∀ d x rest, st.stage = .dropping d → d.page = x :: rest → mig.Moves x →
      Plain st.collection x ∧ st.mirror mig x ≠ none
  | _ => True

/-- No write is in flight, and the old copies are ahead of the drop. -/
def Dropped (mig : Migration) (st : State V) : Stage V → Prop
  | .dropping d => st.pending = [] ∧
      ∀ x, mig.Moves x → x ∈ st.stores (owner mig.before x) → Left mig st.stores d x
  | .finished => st.pending = [] ∧ ∀ x, mig.Moves x → x ∉ st.stores (owner mig.before x)
  | _ => True

theorem first_stores (st : State V) (map : ShardMap) (x : String) (value : Option V) :
    (st.first mig map x value).stores = write st.stores (owner map x) x value := rfl

theorem first_after (routes : mig.Routes) {x y : String} (moves : mig.Moves y) (value : Option V)
    (member : y ∈ (st.first mig mig.after x value).stores (owner mig.before y)) :
    y ∈ st.stores (owner mig.before y) ∧
      ((st.first mig mig.after x value).stores (owner mig.before y) = st.stores (owner mig.before y) ∨
        ¬ mig.Moves x ∧ owner mig.before y = owner mig.before x ∧
          (st.first mig mig.after x value).stores = write st.stores (owner mig.before x) x value) := by
  rw [first_stores] at member ⊢
  have present : owner mig.after x ≠ owner mig.before y ∨ x ≠ y → y ∈ st.stores (owner mig.before y) := by
    intro differ
    obtain old | ⟨here, same, _⟩ := mem_write member
    · exact old
    · exact absurd ⟨here.symm, same⟩ (not_and_or.mpr differ)
  by_cases moving : mig.Moves x
  · have differ : owner mig.before y ≠ owner mig.after x := fun here =>
      routes.target x moving (here ▸ routes.source y moves)
    exact ⟨present (.inl (Ne.symm differ)), .inl (write_other differ ..)⟩
  · have isOwner : owner mig.after x = owner mig.before x := (not_not.mp moving).symm
    refine ⟨present (.inr fun same => moving (same ▸ moves)), ?_⟩
    by_cases here : owner mig.before y = owner mig.before x
    · exact .inr ⟨moving, here, by rw [isOwner]⟩
    · rw [isOwner]
      exact .inl (write_other here ..)

theorem Dropped.first (routes : mig.Routes) {map : ShardMap} {x : String} {value : Option V}
    (dropped : Dropped mig st st.stage) (inUse : map ∈ mig.inUse st.stage)
    (droppable : Droppable mig st (.first map x value)) :
    Dropped mig (st.first mig map x value) (st.first mig map x value).stage := by
  have quiet : map = mig.after → st.pending = [] → (st.first mig map x value).pending = [] := by
    rintro rfl none
    change st.pending ++ _ = []
    rw [none, routes.after_donor]
    rfl
  change Dropped mig (st.first mig map x value) st.stage
  cases isStage : st.stage with
  | dropping d =>
    rw [isStage] at dropped inUse
    obtain rfl := mem_singleton.mp inUse
    refine ⟨quiet rfl dropped.1, fun y moves member => ?_⟩
    obtain ⟨present, same | ⟨stays, here, isStores⟩⟩ := first_after routes moves value member
    · rw [Left, same]
      exact dropped.2 y moves present
    · obtain later | ⟨isHead, inPage | inIds | ⟨more, ahead⟩⟩ := dropped.2 y moves present
      · exact .inl later
      · exact .inr ⟨isHead, .inl inPage⟩
      · exact .inr ⟨isHead, .inr (.inl inIds)⟩
      refine .inr ⟨isHead, .inr (.inr ⟨more, ?_⟩)⟩
      rw [isStores]
      rw [here] at ahead present ⊢
      cases value with
      | some v =>
        simp only [write, update_self]
        exact Nat.le_trans ahead (rank_insert ..)
      | none =>
        simp only [write, update_self]
        exact le_rank_erase present ahead fun member behind isNext =>
          droppable stays d y isStage more (here ▸ isHead) member behind isNext moves
  | finished =>
    rw [isStage] at dropped inUse
    obtain rfl := mem_singleton.mp inUse
    exact ⟨quiet rfl dropped.1, fun y moves member => dropped.2 y moves (first_after routes moves value member).1⟩
  | announced | copying | flipped | reverted => trivial

theorem Dropped.step (routes : mig.Routes) (dropped : Dropped mig st st.stage) (droppable : Droppable mig st event)
    (stepped : State.Step mig st event st') : Dropped mig st' st'.stage := by
  cases stepped with
  | first inUse => exact dropped.first routes inUse droppable
  | @second i p here =>
    change Dropped mig (st.second p i) st.stage
    have busy : st.pending ≠ [] := fun none => by simp [none] at here
    cases isStage : st.stage with
    | dropping | finished =>
      rw [isStage] at dropped
      exact absurd dropped.1 busy
    | announced | copying | flipped | reverted => trivial
  | startDrop =>
    exact ⟨droppable, fun x moves _ => scan_starts (routes.source x moves) (.inr (.inr ⟨rfl, Nat.zero_le _⟩))⟩
  | @dropPage d source rest isStage isSource noPage more =>
    rw [isStage] at dropped
    refine ⟨dropped.1, fun x moves present => ?_⟩
    obtain later | ⟨isHead, inPage | inIds | ⟨_, ahead⟩⟩ := dropped.2 x moves present
    · exact .inl later
    · rw [noPage] at inPage
      contradiction
    · exact .inr ⟨isHead, .inr (.inl inIds)⟩
    · refine .inr ⟨isHead, ?_⟩
      rw [isSource, head?_cons, Option.some.injEq] at isHead
      rw [← isHead] at ahead ⊢
      obtain inRows | ⟨behind, full⟩ := page_covers copyPage (isHead ▸ present) ahead
      · exact .inl inRows
      · exact .inr (.inr ⟨decide_eq_false full, behind⟩)
  | @examine d x rest found isStage isPage answers =>
    rw [isStage] at dropped
    refine ⟨dropped.1, fun y moves present => ?_⟩
    refine (dropped.2 y moves present).imp_right fun ⟨isHead, place⟩ => ⟨isHead, ?_⟩
    have kept : ∀ z ∈ d.ids, z ∈ (State.examined mig d x rest found).ids := by
      intro z member
      simp only [State.examined]
      split
      · exact List.mem_append_left _ member
      · exact member
    obtain inPage | inIds | behind := place
    · rw [isPage] at inPage
      obtain rfl | later := mem_cons.mp inPage
      · obtain ⟨plain, holds⟩ := droppable d y rest isStage isPage moves
        have isFound := (answers_iff plain).mp (answers _ (routes.moves_to y moves))
        have arrived : found.isSome := isFound ▸ Option.isSome_iff_ne_none.mpr holds
        exact .inr (.inl (by simp [State.examined, routes.moves_to y moves, arrived]))
      · exact .inl later
    · exact .inr (.inl (kept y inIds))
    · exact .inr (.inr behind)
  | @deleteChunk d source rest isStage isSource noPage isLast =>
    rw [isStage] at dropped
    refine ⟨dropped.1, fun x moves present => ?_⟩
    rw [mem_iff_isSome_getElem?, getElem?_deleteAll] at present
    split at present
    · contradiction
    rename_i survives
    refine (dropped.2 x moves (mem_iff_isSome_getElem?.mpr present)).imp_right
      fun ⟨isHead, place⟩ => ⟨isHead, ?_⟩
    obtain inPage | inIds | ⟨more, _⟩ := place
    · exact .inl inPage
    · rw [← List.take_append_drop copyPage d.ids] at inIds
      rw [isSource, head?_cons, Option.some.injEq] at isHead
      obtain taken | dropped := List.mem_append.mp inIds
      · exact absurd ⟨isHead.symm, taken⟩ survives
      · exact .inr (.inl dropped)
    · rw [isLast] at more
      contradiction
  | @nextDrop d source rest isStage isSource noPage isLast noIds =>
    rw [isStage] at dropped
    refine ⟨dropped.1, fun x moves present => ?_⟩
    exact scan_next isSource (by simp [noPage, noIds, isLast]) (.inr (.inr ⟨rfl, Nat.zero_le _⟩))
      (dropped.2 x moves present)
  | @finish d isStage noSources =>
    rw [isStage] at dropped
    exact ⟨dropped.1, fun x moves present => scan_over noSources (dropped.2 x moves present)⟩
  | _ => trivial

end Drop

end Quiver.Cluster
