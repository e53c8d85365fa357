import Quiver.Base.OrderedScan
import Quiver.Base.Run
import Quiver.Cluster.Paths
import Quiver.Cluster.ShardMap

/-!
The migration of a slice, with clients writing through routers: to the owner and then, while a
migration is on, to the donor. The coordinator copies the slice page by page, checking that the
destination lacks a point before it writes it, flips the map and drops the copies that the new owner
holds.
-/

namespace Quiver.Cluster

open OrderedScan
open Std (ExtTreeMap)

variable {V : Type}

/-- What every shard holds of a collection. -/
abbrev Stores (V : Type) := ShardId → ExtTreeMap String V

def write (stores : Stores V) (s : ShardId) (x : String) (value : Option V) : Stores V :=
  Function.update stores s (match value with
    | some v => (stores s).insert x v
    | none => (stores s).erase x)

theorem getElem?_write (stores : Stores V) (s t : ShardId) (x y : String) (value : Option V) :
    (write stores s x value t)[y]? = if t = s ∧ x = y then value else (stores t)[y]? := by
  by_cases same : t = s
  · subst same
    cases value with
    | some v => simp [write, ExtTreeMap.getElem?_insert]
    | none => simp [write, ExtTreeMap.getElem?_erase]
  · simp [write, same]

/-- What a shard answers to the request for a point. A path that does not address the point meets
something else or nothing, so that any answer is possible. -/
def Answers (collection : String) (store : ExtTreeMap String V) (x : String) (found : Option V) : Prop :=
  route (pointPath collection x) = .point collection x → found = store[x]?

theorem answers_iff {collection x : String} (plain : Plain collection x) {store : ExtTreeMap String V}
    {found : Option V} : Answers collection store x found ↔ found = store[x]? :=
  ⟨fun answers => answers ((route_pointPath_iff collection x).mpr plain), fun isFound _ => isFound⟩

/-- A write that has reached the owner and not yet the donor. -/
structure Pending (V : Type) where
  id : String
  value : Option V
  donor : ShardId

/-- The progress of a copy: the sources that are left, the page being worked on, and a point that
was found absent, with the value read for it. -/
structure Copying (V : Type) where
  sources : List ShardId
  offset : Nat := 0
  page : List String := []
  last : Bool := false
  holding : Option (String × Option V) := none

/-- The progress of a drop: it lists a whole source before it deletes. -/
structure Dropping where
  sources : List ShardId
  offset : Nat := 0
  page : List String := []
  last : Bool := false
  ids : List String := []

inductive Stage (V : Type) where
  | announced
  | copying (c : Copying V)
  | flipped
  | dropping (d : Dropping)
  | finished
  | reverted (flipped : Bool)

/-- The cluster during a migration, with one collection, whose name is no dot segment. `latest`
records the last write of each id that reached all its shards; `spoiled` that a write went to the
new owner alone or a source's copy was deleted. -/
structure State (V : Type) where
  collection : String
  stage : Stage V := .announced
  stores : Stores V
  latest : String → Option V
  pending : List (Pending V) := []
  spoiled : Bool := false

def copyPage : Nat := 1000

/-- The maps that routers use at a stage: all of them have adopted the migration's map before the
copy starts, and the flipped one before the drop starts. -/
def Migration.inUse (mig : Migration) : Stage V → List ShardMap
  | .announced => [mig.before, mig.during]
  | .copying _ => [mig.during]
  | .flipped => [mig.during, mig.after]
  | .dropping _ | .finished => [mig.after]
  | .reverted flipped => mig.before :: mig.during :: mig.restored :: if flipped then [mig.after] else []

inductive Event (V : Type) where
  | first (map : ShardMap) (x : String) (value : Option V)
  | second (i : Nat)
  | startCopy
  | fetchPage
  | skip
  | check
  | read
  | store
  | nextSource
  | flip
  | startDrop
  | dropPage
  | examine
  | deleteChunk
  | nextDrop
  | finish
  | fail

namespace State

variable (mig : Migration) (st : State V)

def first (map : ShardMap) (x : String) (value : Option V) : State V :=
  { st with
    stores := write st.stores (owner map x) x value
    latest := if donor map x = none then Function.update st.latest x value else st.latest
    pending := st.pending ++ ((donor map x).map fun d => ⟨x, value, d⟩).toList
    spoiled := st.spoiled || decide (map = mig.after ∧ mig.Moves x) }

def second (p : Pending V) (i : Nat) : State V :=
  { st with
    stores := write st.stores p.donor p.id p.value
    latest := Function.update st.latest p.id p.value
    pending := st.pending.eraseIdx i }

def fetched (c : Copying V) (source : ShardId) : Copying V :=
  let rows := page (st.stores source) c.offset copyPage
  { c with page := rows, offset := c.offset + rows.length, last := rows.length < copyPage }

def checked (c : Copying V) (x : String) (rest : List String) (found : Option V) : Copying V :=
  { c with page := rest, holding := if found.isSome then none else some (x, none) }

def readFrom (c : Copying V) (x : String) (found : Option V) : Copying V :=
  { c with holding := found.map fun v => (x, some v) }

def dropFetched (d : Dropping) (source : ShardId) : Dropping :=
  let rows := page (st.stores source) d.offset copyPage
  { d with page := rows, offset := d.offset + rows.length, last := rows.length < copyPage }

/-- The listed row, kept for deletion if its destination has answered with it. -/
def examined (d : Dropping) (x : String) (rest : List String) (found : Option V) : Dropping :=
  { d with page := rest, ids := if (mig.destination x).isSome && found.isSome then d.ids ++ [x] else d.ids }

def deleteAll (stores : Stores V) (s : ShardId) (ids : List String) : Stores V :=
  ids.foldl (fun stores x => write stores s x none) stores

inductive Step : State V → Event V → State V → Prop
  | first {st : State V} {map x value} : map ∈ mig.inUse st.stage →
      Step st (.first map x value) (st.first mig map x value)
  | second {st : State V} {i p} : st.pending[i]? = some p → Step st (.second i) (st.second p i)
  | startCopy {st : State V} : st.stage = .announced →
      Step st .startCopy { st with stage := .copying { sources := mig.sources } }
  | fetchPage {st : State V} {c source rest} : st.stage = .copying c → c.sources = source :: rest →
      c.page = [] → c.holding = none → c.last = false →
      Step st .fetchPage { st with stage := .copying (st.fetched c source) }
  | skip {st : State V} {c x rest} : st.stage = .copying c → c.page = x :: rest → c.holding = none →
      mig.destination x = none → Step st .skip { st with stage := .copying { c with page := rest } }
  | check {st : State V} {c x rest destination found} : st.stage = .copying c → c.page = x :: rest →
      c.holding = none → mig.destination x = some destination →
      Answers st.collection (st.stores destination) x found →
      Step st .check { st with stage := .copying (checked c x rest found) }
  | read {st : State V} {c x source rest found} : st.stage = .copying c → c.holding = some (x, none) →
      c.sources = source :: rest → Answers st.collection (st.stores source) x found →
      Step st .read { st with stage := .copying (readFrom c x found) }
  | store {st : State V} {c x v destination} : st.stage = .copying c → c.holding = some (x, some v) →
      mig.destination x = some destination →
      Step st .store { st with
        stage := .copying { c with holding := none }
        stores := write st.stores destination x (some v) }
  | nextSource {st : State V} {c source rest} : st.stage = .copying c → c.sources = source :: rest →
      c.page = [] → c.holding = none → c.last = true →
      Step st .nextSource { st with stage := .copying { sources := rest } }
  | flip {st : State V} {c} : st.stage = .copying c → c.sources = [] → Step st .flip { st with stage := .flipped }
  | startDrop {st : State V} : st.stage = .flipped →
      Step st .startDrop { st with stage := .dropping { sources := mig.sources } }
  | dropPage {st : State V} {d source rest} : st.stage = .dropping d → d.sources = source :: rest →
      d.page = [] → d.last = false → Step st .dropPage { st with stage := .dropping (st.dropFetched d source) }
  | examine {st : State V} {d x rest found} : st.stage = .dropping d → d.page = x :: rest →
      (∀ destination, mig.destination x = some destination → Answers st.collection (st.stores destination) x found) →
      Step st .examine { st with stage := .dropping (examined mig d x rest found) }
  | deleteChunk {st : State V} {d source rest} : st.stage = .dropping d → d.sources = source :: rest →
      d.page = [] → d.last = true → d.ids ≠ [] →
      Step st .deleteChunk { st with
        stage := .dropping { d with ids := d.ids.drop copyPage }
        stores := deleteAll st.stores source (d.ids.take copyPage)
        spoiled := true }
  | nextDrop {st : State V} {d source rest} : st.stage = .dropping d → d.sources = source :: rest →
      d.page = [] → d.last = true → d.ids = [] →
      Step st .nextDrop { st with stage := .dropping { sources := rest } }
  | finish {st : State V} {d} : st.stage = .dropping d → d.sources = [] →
      Step st .finish { st with stage := .finished }
  | failEarly {st : State V} : (st.stage = .announced ∨ ∃ c, st.stage = .copying c) →
      Step st .fail { st with stage := .reverted false }
  | failLate {st : State V} : (st.stage = .flipped ∨ ∃ d, st.stage = .dropping d) →
      Step st .fail { st with stage := .reverted true }

end State

/-- A cluster before a migration: every point on its owner, and nowhere else. -/
def State.start (mig : Migration) (name : String) (stores : Stores V) : State V where
  collection := name
  stores := stores
  latest x := (stores (owner mig.before x))[x]?

def Clean (mig : Migration) (stores : Stores V) : Prop := ∀ s x, x ∈ stores s → s = owner mig.before x

section Routing

variable {mig : Migration} {x : String} {map : ShardMap}

/-- Where a map sends the writes of an id. -/
inductive Sends (mig : Migration) (map : ShardMap) (x : String) : Prop
  | stays : ¬ mig.Moves x → owner map x = owner mig.before x → donor map x = none → Sends mig map x
  | old : mig.Moves x → owner map x = owner mig.before x → donor map x = none →
      (map = mig.before ∨ map = mig.restored) → Sends mig map x
  | both : mig.Moves x → owner map x = owner mig.after x → donor map x = some (owner mig.before x) →
      map = mig.during → Sends mig map x
  | new : mig.Moves x → owner map x = owner mig.after x → donor map x = none → map = mig.after → Sends mig map x

section

variable (routes : mig.Routes)
include routes

theorem sends_before (x : String) : Sends mig mig.before x := by
  by_cases moves : mig.Moves x
  · exact .old moves rfl (routes.before_donor x) (.inl rfl)
  · exact .stays moves rfl (routes.before_donor x)

theorem sends_during (x : String) : Sends mig mig.during x := by
  by_cases moves : mig.Moves x
  · exact .both moves (routes.during_owner x) (by rw [routes.during_donor, if_pos moves]) rfl
  · refine .stays moves ?_ (by rw [routes.during_donor, if_neg moves])
    rw [routes.during_owner]
    exact (not_not.mp moves).symm

theorem sends_after (x : String) : Sends mig mig.after x := by
  by_cases moves : mig.Moves x
  · exact .new moves rfl (routes.after_donor x) rfl
  · exact .stays moves (not_not.mp moves).symm (routes.after_donor x)

theorem sends_restored (x : String) : Sends mig mig.restored x := by
  by_cases moves : mig.Moves x
  · exact .old moves (routes.restored_owner x) (routes.restored_donor x) (.inr rfl)
  · exact .stays moves (routes.restored_owner x) (routes.restored_donor x)

theorem sends_inUse {stage : Stage V} (inUse : map ∈ mig.inUse stage) (x : String) :
    Sends mig map x := by
  have cases : map = mig.before ∨ map = mig.during ∨ map = mig.after ∨ map = mig.restored := by
    cases stage with
    | reverted flipped => cases flipped <;> simp [Migration.inUse] at inUse <;> tauto
    | _ => simp [Migration.inUse] at inUse; tauto
  obtain rfl | rfl | rfl | rfl := cases
  · exact sends_before routes x
  · exact sends_during routes x
  · exact sends_after routes x
  · exact sends_restored routes x

theorem destination_spec (source : owner mig.before x ∈ mig.sources) {destination : ShardId}
    (isDestination : mig.destination x = some destination) : mig.Moves x ∧ destination = owner mig.after x := by
  by_cases moves : mig.Moves x
  · rw [routes.moves_to x moves] at isDestination
    exact ⟨moves, (Option.some.inj isDestination).symm⟩
  · rw [routes.stays x moves source] at isDestination
    contradiction

end

end Routing

theorem mem_write {stores : Stores V} {s t : ShardId} {x y : String} {value : Option V}
    (member : y ∈ write stores s x value t) : y ∈ stores t ∨ t = s ∧ x = y ∧ value ≠ none := by
  rw [ExtTreeMap.mem_iff_isSome_getElem?, getElem?_write] at member
  split at member
  · rename_i here
    refine .inr ⟨here.1, here.2, ?_⟩
    rintro rfl
    contradiction
  · exact .inl (ExtTreeMap.mem_iff_isSome_getElem?.mpr member)

theorem getElem?_deleteAll (stores : Stores V) (s t : ShardId) (ids : List String) (y : String) :
    (State.deleteAll stores s ids t)[y]? = if t = s ∧ y ∈ ids then none else (stores t)[y]? := by
  induction ids generalizing stores with
  | nil => simp [State.deleteAll]
  | cons x ids ih =>
    change (State.deleteAll (write stores s x none) s ids t)[y]? = _
    rw [ih, getElem?_write]
    by_cases here : t = s
    · by_cases now : x = y
      · simp [here, now]
      · simp [here, now, Ne.symm now]
    · simp [here]

/-- Points are on their old owner, or on their new one if they move, and the progress of the copy
and the drop is about rows of the current source. -/
structure Placed (mig : Migration) (st : State V) : Prop where
  only : ∀ (s : ShardId) (x : String), x ∈ st.stores s →
    s = owner mig.before x ∨ mig.Moves x ∧ s = owner mig.after x
  pending : ∀ p ∈ st.pending, mig.Moves p.id ∧ p.donor = owner mig.before p.id
  copying : ∀ c, st.stage = .copying c → (∀ s ∈ c.sources, s ∈ mig.sources) ∧
    ∀ x, (x ∈ c.page ∨ ∃ v, c.holding = some (x, v)) → c.sources.head? = some (owner mig.before x)
  dropping : ∀ d, st.stage = .dropping d → (∀ s ∈ d.sources, s ∈ mig.sources) ∧
    (∀ x, (x ∈ d.page ∨ x ∈ d.ids) → d.sources.head? = some (owner mig.before x)) ∧ ∀ x ∈ d.ids, mig.Moves x

/-- The old owner holds the latest value of every id that stays, and of every id until a write or
a drop passes it by. -/
structure Current (mig : Migration) (st : State V) : Prop where
  stays : ∀ x, ¬ mig.Moves x → (st.stores (owner mig.before x))[x]? = st.latest x
  moves : st.spoiled = false → ∀ x, (st.stores (owner mig.before x))[x]? = st.latest x

section Steps

variable {mig : Migration} {st st' : State V} {event : Event V}

theorem Placed.of_source (placed : Placed mig st) (routes : mig.Routes) {s : ShardId} {x : String}
    (source : s ∈ mig.sources) (member : x ∈ st.stores s) : s = owner mig.before x := by
  obtain old | ⟨moves, rfl⟩ := placed.only s x member
  · exact old
  · exact absurd source (routes.target x moves)

theorem Placed.destination {c : Copying V} {x : String} {v : V} {destination : ShardId} (placed : Placed mig st)
    (routes : mig.Routes) (isStage : st.stage = .copying c) (isHeld : c.holding = some (x, some v))
    (isDestination : mig.destination x = some destination) : mig.Moves x ∧ destination = owner mig.after x := by
  obtain ⟨inside, listed⟩ := placed.copying c isStage
  have source : owner mig.before x ∈ mig.sources :=
    inside _ (List.mem_of_mem_head? (listed x (.inr ⟨_, isHeld⟩)))
  exact destination_spec routes source isDestination

theorem only_write {stores : Stores V} {s : ShardId} {x : String} {value : Option V}
    (only : ∀ (s : ShardId) (x : String), x ∈ stores s → s = owner mig.before x ∨ mig.Moves x ∧ s = owner mig.after x)
    (fits : s = owner mig.before x ∨ mig.Moves x ∧ s = owner mig.after x) :
    ∀ (t : ShardId) (y : String), y ∈ write stores s x value t →
      t = owner mig.before y ∨ mig.Moves y ∧ t = owner mig.after y := by
  intro t y member
  obtain before | ⟨rfl, rfl, _⟩ := mem_write member
  · exact only t y before
  · exact fits

theorem Placed.first (placed : Placed mig st) {map : ShardMap} {x : String} {value : Option V}
    (sends : Sends mig map x) : Placed mig (st.first mig map x value) := by
  refine ⟨only_write placed.only ?_, fun p member => ?_, placed.copying, placed.dropping⟩
  · cases sends with
    | stays _ isOwner | old _ isOwner => exact .inl isOwner
    | both moves isOwner | new moves isOwner => exact .inr ⟨moves, isOwner⟩
  · obtain old | new := List.mem_append.mp member
    · exact placed.pending p old
    · cases sends with
      | both moves _ isDonor =>
        rw [isDonor] at new
        rw [show p = ⟨x, value, owner mig.before x⟩ from by simpa using new]
        exact ⟨moves, rfl⟩
      | stays _ _ isDonor | old _ _ isDonor | new _ _ isDonor =>
        rw [isDonor] at new
        contradiction

theorem Placed.listed (placed : Placed mig st) (routes : mig.Routes) {source : ShardId} {sources rest : List ShardId}
    {offset limit : Nat} {x : String} (isSource : sources = source :: rest) (inside : ∀ s ∈ sources, s ∈ mig.sources)
    (inPage : x ∈ page (st.stores source) offset limit) : sources.head? = some (owner mig.before x) := by
  subst isSource
  rw [← placed.of_source routes (inside source (List.mem_cons_self ..)) (mem_of_page inPage)]
  rfl

theorem Placed.copies (placed : Placed mig st) {c : Copying V} (inside : ∀ s ∈ c.sources, s ∈ mig.sources)
    (listed : ∀ x, (x ∈ c.page ∨ ∃ v, c.holding = some (x, v)) → c.sources.head? = some (owner mig.before x)) :
    Placed mig { st with stage := .copying c } := by
  refine ⟨placed.only, placed.pending, fun c' isCopy => ?_, by simp⟩
  cases isCopy
  exact ⟨inside, listed⟩

theorem Placed.drops (placed : Placed mig st) {d : Dropping} (inside : ∀ s ∈ d.sources, s ∈ mig.sources)
    (listed : ∀ x, (x ∈ d.page ∨ x ∈ d.ids) → d.sources.head? = some (owner mig.before x))
    (moving : ∀ x ∈ d.ids, mig.Moves x) : Placed mig { st with stage := .dropping d } := by
  refine ⟨placed.only, placed.pending, by simp, fun d' isDrop => ?_⟩
  cases isDrop
  exact ⟨inside, listed, moving⟩

theorem Placed.step (routes : mig.Routes) (placed : Placed mig st) (stepped : State.Step mig st event st') :
    Placed mig st' := by
  cases stepped with
  | first inUse => exact placed.first (sends_inUse routes inUse _)
  | @second i p here =>
    have fits := placed.pending p (List.mem_of_getElem? here)
    refine ⟨only_write placed.only (.inl fits.2), fun q member => ?_, placed.copying, placed.dropping⟩
    exact placed.pending q (List.mem_of_mem_eraseIdx member)
  | startCopy => exact placed.copies (fun s => id) (by simp)
  | @fetchPage c source rest isStage isSource noPage noHold =>
    obtain ⟨inside, _⟩ := placed.copying c isStage
    refine placed.copies inside fun x listed => ?_
    obtain inPage | ⟨v, held⟩ := listed
    · exact placed.listed routes isSource inside inPage
    · change c.holding = _ at held
      rw [noHold] at held
      contradiction
  | @skip c x rest isStage isPage noHold =>
    obtain ⟨inside, listed⟩ := placed.copying c isStage
    refine placed.copies inside fun y isListed => listed y (isListed.imp_left fun inPage => ?_)
    rw [isPage]
    exact List.mem_cons_of_mem _ inPage
  | @check c x rest destination found isStage isPage noHold =>
    obtain ⟨inside, listed⟩ := placed.copying c isStage
    refine placed.copies inside fun y isListed => listed y (.inl ?_)
    rw [isPage]
    obtain inPage | ⟨v, held⟩ := isListed
    · exact List.mem_cons_of_mem _ inPage
    · simp only [State.checked] at held
      split at held
      · contradiction
      · cases held
        exact List.mem_cons_self ..
  | @read c x source rest found isStage isHeld =>
    obtain ⟨inside, listed⟩ := placed.copying c isStage
    refine placed.copies inside fun y isListed => listed y (isListed.imp_right ?_)
    rintro ⟨v, held⟩
    obtain ⟨_, _, same⟩ := Option.map_eq_some_iff.mp held
    cases same
    exact ⟨_, isHeld⟩
  | @store c x v destination isStage isHeld isDestination =>
    obtain ⟨inside, listed⟩ := placed.copying c isStage
    obtain ⟨moves, rfl⟩ := placed.destination routes isStage isHeld isDestination
    have copied := placed.copies (c := { c with holding := none }) inside fun y isListed =>
      listed y (.inl (isListed.resolve_right (by simp)))
    exact ⟨only_write placed.only (.inr ⟨moves, rfl⟩), placed.pending, copied.copying, copied.dropping⟩
  | @nextSource c source rest isStage isSource =>
    obtain ⟨inside, _⟩ := placed.copying c isStage
    exact placed.copies (fun s member => inside s (by rw [isSource]; exact List.mem_cons_of_mem _ member)) (by simp)
  | startDrop => exact placed.drops (fun s => id) (by simp) (by simp)
  | @dropPage d source rest isStage isSource noPage =>
    obtain ⟨inside, listed, moving⟩ := placed.dropping d isStage
    refine placed.drops inside (fun x isListed => ?_) moving
    obtain inPage | inIds := isListed
    · exact placed.listed routes isSource inside inPage
    · exact listed x (.inr inIds)
  | @examine d x rest found isStage isPage =>
    obtain ⟨inside, listed, moving⟩ := placed.dropping d isStage
    have here := listed x (.inl (by rw [isPage]; exact List.mem_cons_self ..))
    have source : owner mig.before x ∈ mig.sources := inside _ (List.mem_of_mem_head? here)
    have kept : ∀ y ∈ (State.examined mig d x rest found).ids, y ∈ d.ids ∨ y = x ∧ mig.Moves x := by
      intro y member
      simp only [State.examined] at member
      split at member
      next arrived =>
        obtain ⟨destination, isDestination⟩ := Option.isSome_iff_exists.mp (Bool.and_eq_true_iff.mp arrived).1
        obtain old | new := List.mem_append.mp member
        · exact .inl old
        · exact .inr ⟨List.mem_singleton.mp new, (destination_spec routes source isDestination).1⟩
      next => exact .inl member
    refine placed.drops inside (fun y isListed => ?_) fun y member => ?_
    · obtain inPage | inIds := isListed
      · exact listed y (.inl (by rw [isPage]; exact List.mem_cons_of_mem _ inPage))
      · obtain old | ⟨rfl, _⟩ := kept y inIds
        · exact listed y (.inr old)
        · exact here
    · obtain old | ⟨rfl, moves⟩ := kept y member
      · exact moving y old
      · exact moves
  | @deleteChunk d source rest isStage =>
    obtain ⟨inside, listed, moving⟩ := placed.dropping d isStage
    have dropped := placed.drops (d := { d with ids := d.ids.drop copyPage }) inside
      (fun x isListed => listed x (isListed.imp_right List.mem_of_mem_drop))
      fun x member => moving x (List.mem_of_mem_drop member)
    refine ⟨fun s x member => ?_, placed.pending, dropped.copying, dropped.dropping⟩
    rw [ExtTreeMap.mem_iff_isSome_getElem?, getElem?_deleteAll] at member
    split at member
    · contradiction
    · exact placed.only s x (ExtTreeMap.mem_iff_isSome_getElem?.mpr member)
  | @nextDrop d source rest isStage isSource =>
    obtain ⟨inside, _⟩ := placed.dropping d isStage
    exact placed.drops (fun s member => inside s (by rw [isSource]; exact List.mem_cons_of_mem _ member))
      (by simp) (by simp)
  | flip | finish | failEarly | failLate => exact ⟨placed.only, placed.pending, by simp, by simp⟩

theorem current_write {stores : Stores V} {latest : String → Option V} {x : String} {value : Option V} {y : String}
    (same : (stores (owner mig.before y))[y]? = latest y) :
    (write stores (owner mig.before x) x value (owner mig.before y))[y]? = Function.update latest x value y := by
  rw [getElem?_write]
  by_cases here : x = y
  · subst here
    simp
  · rw [if_neg fun both => here both.2, Function.update_of_ne (Ne.symm here)]
    exact same

theorem old_write_new {stores : Stores V} {x : String} {value : Option V} (moves : mig.Moves x) (y : String) :
    (write stores (owner mig.after x) x value (owner mig.before y))[y]? = (stores (owner mig.before y))[y]? := by
  rw [getElem?_write, if_neg]
  rintro ⟨same, rfl⟩
  exact moves same

theorem Current.first (routes : mig.Routes) (current : Current mig st) {map : ShardMap} {x : String} {value : Option V}
    (sends : Sends mig map x) : Current mig (st.first mig map x value) := by
  have isStores {s : ShardId} (isOwner : owner map x = s) :
      (st.first mig map x value).stores = write st.stores s x value := by
    rw [← isOwner]
    rfl
  have isLatest (noDonor : donor map x = none) :
      (st.first mig map x value).latest = Function.update st.latest x value := if_pos noDonor
  have isSpoiled (other : map = mig.after → ¬ mig.Moves x) : (st.first mig map x value).spoiled = st.spoiled := by
    change (st.spoiled || decide (map = mig.after ∧ mig.Moves x)) = _
    rw [decide_eq_false fun both => other both.1 both.2, Bool.or_false]
  have old (isOwner : owner map x = owner mig.before x) (noDonor : donor map x = none)
      (other : map = mig.after → ¬ mig.Moves x) : Current mig (st.first mig map x value) := by
    refine ⟨fun y stays => ?_, fun unspoiled y => ?_⟩
    · rw [isStores isOwner, isLatest noDonor]
      exact current_write (current.stays y stays)
    · rw [isStores isOwner, isLatest noDonor]
      exact current_write (current.moves (isSpoiled other ▸ unspoiled) y)
  cases sends with
  | stays stays isOwner noDonor => exact old isOwner noDonor fun _ => stays
  | old moves isOwner noDonor isMap =>
    refine old isOwner noDonor fun isAfter moves => moves ?_
    rw [isAfter] at isOwner
    exact isOwner.symm
  | both moves isOwner isDonor isMap =>
    have sameLatest : (st.first mig map x value).latest = st.latest := if_neg (by rw [isDonor]; simp)
    have other : map = mig.after → ¬ mig.Moves x := by
      rintro isAfter
      rw [isAfter, routes.after_donor] at isDonor
      contradiction
    refine ⟨fun y stays => ?_, fun unspoiled y => ?_⟩
    · rw [isStores isOwner, sameLatest, old_write_new moves]
      exact current.stays y stays
    · rw [isStores isOwner, sameLatest, old_write_new moves]
      exact current.moves (isSpoiled other ▸ unspoiled) y
  | new moves isOwner noDonor isMap =>
    refine ⟨fun y stays => ?_, fun unspoiled => ?_⟩
    · have differ : y ≠ x := fun same => stays (same ▸ moves)
      rw [isStores isOwner, isLatest noDonor, old_write_new moves, Function.update_of_ne differ]
      exact current.stays y stays
    · have spoils : (st.first mig map x value).spoiled = true := by
        change (st.spoiled || decide (map = mig.after ∧ mig.Moves x)) = true
        rw [decide_eq_true ⟨isMap, moves⟩, Bool.or_true]
      rw [spoils] at unspoiled
      contradiction

theorem Current.step (routes : mig.Routes) (placed : Placed mig st) (current : Current mig st)
    (stepped : State.Step mig st event st') : Current mig st' := by
  cases stepped with
  | first inUse => exact current.first routes (sends_inUse routes inUse _)
  | @second i p here =>
    obtain ⟨moves, isDonor⟩ := placed.pending p (List.mem_of_getElem? here)
    refine ⟨fun y stays => ?_, fun unspoiled y => ?_⟩
    · change (write st.stores p.donor p.id p.value _)[y]? = Function.update st.latest p.id p.value y
      rw [isDonor]
      exact current_write (current.stays y stays)
    · change (write st.stores p.donor p.id p.value _)[y]? = Function.update st.latest p.id p.value y
      rw [isDonor]
      exact current_write (current.moves unspoiled y)
  | @store c x v destination isStage isHeld isDestination =>
    obtain ⟨moves, rfl⟩ := placed.destination routes isStage isHeld isDestination
    refine ⟨fun y stays => ?_, fun unspoiled y => ?_⟩
    · simp only [old_write_new moves]
      exact current.stays y stays
    · simp only [old_write_new moves]
      exact current.moves unspoiled y
  | @deleteChunk d source rest isStage =>
    obtain ⟨_, _, moving⟩ := placed.dropping d isStage
    refine ⟨fun y stays => ?_, fun unspoiled => by contradiction⟩
    change (State.deleteAll st.stores source (d.ids.take copyPage) _)[y]? = _
    rw [getElem?_deleteAll, if_neg fun both => stays (moving y (List.mem_of_mem_take both.2))]
    exact current.stays y stays
  | _ => exact ⟨current.stays, current.moves⟩

theorem placed_start {name : String} {stores : Stores V} (clean : Clean mig stores) :
    Placed mig (State.start mig name stores) :=
  ⟨fun s x member => .inl (clean s x member), by simp [State.start], by simp [State.start], by simp [State.start]⟩

theorem current_start {name : String} {stores : Stores V} : Current mig (State.start mig name stores) :=
  ⟨fun _ _ => rfl, fun _ _ => rfl⟩

end Steps

end Quiver.Cluster

