import Mathlib.Data.List.Nodup
import Mathlib.Logic.Relation
import Quiver.Cluster.Coordinator

/-!
What a restart of the coordinator keeps. The files hold maps the coordinator has held, made from
the acknowledged one. The version and the shard ids of a served map name one map and one shard as
long as every write succeeds: a write that fails leaves in memory a map that routers see and the
file does not have.
-/

namespace Quiver.Cluster

open List (mem_cons mem_cons_of_mem mem_singleton)

/-- Made from a map by changes. -/
def Derives : ShardMap → ShardMap → Prop := Relation.ReflTransGen fun m m' => ∃ ch : Change, ch.apply m = .ok m'

theorem persist_path (c : Coordinator) (p : Persist) (path : c.path = true) :
    ∃ file synced, (c.persist p).1 = { c with file := file, synced := synced } ∧
      (file = c.file ∨ file = c.snapshot) ∧ (synced = c.synced ∨ synced = c.snapshot) ∧
      ((c.persist p).2 = .ok () → file = c.snapshot ∧ synced = c.snapshot) := by
  unfold Coordinator.persist
  rw [if_neg (by simp [path])]
  match p with
  | .done => exact ⟨_, _, rfl, .inr rfl, .inr rfl, fun _ => ⟨rfl, rfl⟩⟩
  | .failed true => exact ⟨_, _, rfl, .inr rfl, .inl rfl, fun ok => nomatch ok⟩
  | .failed false => exact ⟨_, _, rfl, .inl rfl, .inl rfl, fun ok => nomatch ok⟩

theorem persist_done (c : Coordinator) (path : c.path = true) :
    c.persist .done = ({ c with file := c.snapshot, synced := c.snapshot }, .ok ()) := by
  unfold Coordinator.persist
  rw [if_neg (by simp [path])]

section Survival

variable {c : Coordinator} {current : List ShardMap} {acknowledged : ShardMap}

/-- A map that was held and has the acknowledged change in it. -/
def Survives (current : List ShardMap) (acknowledged m : ShardMap) : Prop := m ∈ current ∧ Derives acknowledged m

/-- Memory and both files keep what was acknowledged. -/
structure Kept (c : Coordinator) (current : List ShardMap) (acknowledged : ShardMap) : Prop where
  path : c.path = true
  memory : Survives current acknowledged c.map
  file : Survives current acknowledged (bootState c.seed c.file).map
  synced : Survives current acknowledged (bootState c.seed c.synced).map

theorem Survives.cons {m held : ShardMap} (survives : Survives current acknowledged m) :
    Survives (held :: current) acknowledged m := ⟨mem_cons_of_mem _ survives.1, survives.2⟩

section

variable (kept : Kept c current acknowledged)
include kept

theorem Kept.holding (m : ShardMap) : Kept c (m :: current) acknowledged :=
  ⟨kept.path, kept.memory.cons, kept.file.cons, kept.synced.cons⟩

theorem Kept.apply {ch : Change} {map : ShardMap}
    (applied : ch.apply c.map = .ok map) : Kept { c with map := map } (map :: current) acknowledged :=
  ⟨kept.path, ⟨List.mem_cons_self .., kept.memory.2.tail ⟨ch, applied⟩⟩, kept.file.cons, kept.synced.cons⟩

theorem Kept.persist (p : Persist) :
    Kept (c.persist p).1 current acknowledged := by
  obtain ⟨file, synced, isPersisted, isFile, isSynced, _⟩ := persist_path c p kept.path
  rw [isPersisted]
  refine ⟨kept.path, kept.memory, ?_, ?_⟩
  · obtain rfl | rfl := isFile
    · exact kept.file
    · exact kept.memory
  · obtain rfl | rfl := isSynced
    · exact kept.synced
    · exact kept.memory

/-- A write that succeeds has put the map in memory in both files. -/
theorem Kept.acknowledge {p : Persist} (written : (c.persist p).2 = .ok ()) :
    Kept (c.persist p).1 current c.map := by
  obtain ⟨file, synced, isPersisted, _, _, isWritten⟩ := persist_path c p kept.path
  obtain ⟨rfl, rfl⟩ := isWritten written
  rw [isPersisted]
  have survives : Survives current c.map c.map := ⟨kept.memory.1, .refl⟩
  exact ⟨kept.path, survives, survives, survives⟩

theorem Kept.interrupted (inFlight : Option Change) (renamed : Bool) :
    Kept (c.interrupted inFlight renamed) ((c.interrupted inFlight renamed).map :: current) acknowledged := by
  unfold Coordinator.interrupted
  split
  · exact kept.holding _
  split
  · exact kept.holding _
  · rename_i map applied
    have sameMap : ((Coordinator.persist { c with map := map } (.failed renamed)).1).map = map := by
      obtain ⟨_, _, isPersisted, _⟩ := persist_path { c with map := map } (.failed renamed) kept.path
      rw [isPersisted]
    rw [sameMap]
    exact (kept.apply applied).persist _

theorem Kept.restarted (powerKeeps : Option Bool) :
    Kept (c.restarted powerKeeps) current acknowledged := by
  match powerKeeps with
  | none => exact ⟨kept.path, kept.file, kept.file, kept.synced⟩
  | some true => exact ⟨kept.path, kept.file, kept.file, kept.file⟩
  | some false => exact ⟨kept.path, kept.synced, kept.synced, kept.synced⟩

theorem Kept.used (ch : Change) : Kept (c.used ch) current acknowledged :=
  ⟨kept.path, kept.memory, kept.file, kept.synced⟩

end

end Survival

section

variable {c c' : Coordinator} {ch : Change} {p : Persist}

theorem change_eq_ok {map : ShardMap} (changed : c.change ch p = (c', .ok map)) : ch.apply c.map = .ok map ∧
    c' = ({ c with map }.persist p).1 ∧ ({ c with map }.persist p).2 = .ok () := by
  unfold Coordinator.change at changed
  split at changed
  · cases changed
  case h_2 map' applied =>
    change (({ c with map := map' }.persist p).1, ({ c with map := map' }.persist p).2.map fun _ => map') = _ at changed
    rw [Prod.mk.injEq] at changed
    obtain ⟨rfl, written⟩ := changed
    cases persisted : ({ c with map := map' }.persist p).2 with
    | error e =>
      rw [persisted] at written
      cases written
    | ok u =>
      rw [persisted] at written
      cases written
      exact ⟨applied, rfl, persisted⟩

theorem change_eq_error {e : ChangeError} (changed : c.change ch p = (c', .error e)) : c' = c ∨
    ∃ map, ch.apply c.map = .ok map ∧ c' = ({ c with map }.persist p).1 ∧ ({ c with map }.persist p).2 ≠ .ok () := by
  unfold Coordinator.change at changed
  split at changed
  · cases changed
    exact .inl rfl
  case h_2 map applied =>
    change (({ c with map }.persist p).1, ({ c with map }.persist p).2.map fun _ => map) = _ at changed
    rw [Prod.mk.injEq] at changed
    obtain ⟨rfl, failed⟩ := changed
    refine .inr ⟨map, applied, rfl, fun written => ?_⟩
    rw [written] at failed
    cases failed

end

theorem persist_map (c : Coordinator) (p : Persist) : (c.persist p).1.map = c.map := by
  unfold Coordinator.persist
  split
  · rfl
  split <;> rfl

variable {e : CoordinatorEvent} {o o' : Observed}

theorem Kept.step (kept : Kept o.coordinator o.current o.acknowledged)
    (stepped : Observed.Step o e o') : Kept o'.coordinator o'.current o'.acknowledged := by
  cases stepped with
  | fetchId => exact ⟨kept.path, kept.memory, kept.file, kept.synced⟩
  | @change ch p c map owns changed =>
    obtain ⟨applied, rfl, written⟩ := change_eq_ok changed
    change Kept _ (({ o.coordinator with map }.persist p).1.map :: o.current) map
    rw [persist_map]
    exact ((kept.apply applied).acknowledge written).used ch
  | @refused ch p c e owns changed =>
    obtain rfl | ⟨map, applied, rfl, _⟩ := change_eq_error changed
    · exact (kept.used ch).holding _
    · change Kept _ (({ o.coordinator with map }.persist p).1.map :: o.current) o.acknowledged
      rw [persist_map]
      exact ((kept.apply applied).persist p).used ch
  | @revert ch p adds =>
    change Kept (o.coordinator.revert ch p) ((o.coordinator.revert ch p).map :: o.current) o.acknowledged
    rw [Coordinator.revert, persist_map]
    cases applied : ch.apply o.coordinator.map with
    | error e => exact (kept.holding _).persist p
    | ok map => exact (kept.apply applied).persist p
  | restart owns => exact ((kept.interrupted _ _).restarted _).holding _
  | getMap => exact kept
  | refresh served => exact kept

theorem kept_start (seed : ShardMap) :
    Kept (Observed.start seed true).coordinator (Observed.start seed true).current
      (Observed.start seed true).acknowledged :=
  have survives : Survives [seed] seed seed := ⟨List.mem_singleton_self _, .refl⟩
  ⟨rfl, survives, survives, survives⟩

section Identity

variable {c : Coordinator} {served : List ShardMap}

/-- The id counter the next start reads. -/
def Coordinator.nextIdOnFile (c : Coordinator) : ShardId := (bootState c.seed c.file).nextId

/-- The file is the memory, served maps are older or the same, and a shard's id is taken for
good in the file. -/
structure Identified (c : Coordinator) (served : List ShardMap) : Prop where
  path : c.path = true
  onFile : (bootState c.seed c.file).map = c.map
  older : ∀ m ∈ served, m.version < c.map.version ∨ m = c.map
  unique : ∀ m ∈ served, ∀ m' ∈ served, m.version = m'.version → m = m'
  counter : c.nextIdOnFile ≤ c.nextId
  below : ∀ id ∈ c.taken, id < c.nextId
  distinct : c.taken.Nodup
  known : ∀ m ∈ c.map :: served, ∀ s ∈ m.shards, s.id < c.nextIdOnFile ∧ s.id ∉ c.taken
  one : ∀ m ∈ c.map :: served, ∀ m' ∈ c.map :: served, ∀ s ∈ m.shards, ∀ s' ∈ m'.shards, s.id = s'.id → s = s'

theorem Identified.fetchId (identified : Identified c served) : Identified c.fetchId served where
  path := identified.path
  onFile := identified.onFile
  older := identified.older
  unique := identified.unique
  counter := Nat.le_succ_of_le identified.counter
  below id taken := by
    obtain rfl | taken := mem_cons.mp taken
    · exact Nat.lt_succ_self _
    · exact Nat.lt_succ_of_lt (identified.below id taken)
  distinct := List.nodup_cons.mpr ⟨fun taken => Nat.lt_irrefl _ (identified.below _ taken), identified.distinct⟩
  known m member s shard := by
    obtain ⟨onFile, free⟩ := identified.known m member s shard
    refine ⟨onFile, fun taken => ?_⟩
    obtain same | taken := mem_cons.mp taken
    · exact absurd (same ▸ onFile) (Nat.not_lt.mpr identified.counter)
    · exact free taken
  one := identified.one

variable {ch : Change}

theorem mem_used {id : ShardId} (taken : id ∈ (c.used ch).taken) : id ∈ c.taken := by
  unfold Coordinator.used at taken
  split at taken
  · exact List.mem_of_mem_erase taken
  · exact taken

theorem nodup_used (ch : Change) (distinct : c.taken.Nodup) : (c.used ch).taken.Nodup := by
  unfold Coordinator.used
  split
  · exact distinct.erase _
  · exact distinct

theorem not_mem_used {s : Shard} (distinct : c.taken.Nodup) (isShard : ch.shard = some s) :
    s.id ∉ (c.used ch).taken := by
  simp only [Coordinator.used, isShard]
  exact distinct.not_mem_erase

section

variable (identified : Identified c served)
include identified

theorem Identified.used (ch : Change) : Identified (c.used ch) served where
  path := identified.path
  onFile := identified.onFile
  older := identified.older
  unique := identified.unique
  counter := identified.counter
  below id taken := identified.below id (mem_used taken)
  distinct := nodup_used ch identified.distinct
  known m member s shard :=
    ⟨(identified.known m member s shard).1, fun taken => (identified.known m member s shard).2 (mem_used taken)⟩
  one := identified.one

theorem Identified.write (synced : Option Persisted) :
    Identified { c with file := c.snapshot, synced := synced } served where
  path := identified.path
  onFile := rfl
  older := identified.older
  unique := identified.unique
  counter := Nat.le_refl _
  below := identified.below
  distinct := identified.distinct
  known m member s shard :=
    ⟨Nat.lt_of_lt_of_le (identified.known m member s shard).1 identified.counter, (identified.known m member s shard).2⟩
  one := identified.one

theorem Identified.commit {map : ShardMap}
    (owns : c.owns ch) (applied : ch.apply c.map = .ok map) (synced : Option Persisted) :
    Identified ({ c with map := map, file := some ⟨c.nextId, map⟩, synced := synced }.used ch) served := by
  obtain ⟨version, shards⟩ := Change.apply_spec applied
  have old : ∀ m ∈ map :: served, ∀ s ∈ m.shards,
      (∃ m' ∈ c.map :: served, s ∈ m'.shards) ∨ m = map ∧ ch.shard = some s := by
    intro m member s shard
    obtain rfl | member := mem_cons.mp member
    · exact (shards s shard).imp (fun old => ⟨c.map, List.mem_cons_self .., old⟩) fun new => ⟨rfl, new⟩
    · exact .inl ⟨m, mem_cons_of_mem _ member, shard⟩
  -- An id that a request has taken is on no shard yet.
  have fresh : ∀ m ∈ c.map :: served, ∀ s ∈ m.shards, ∀ s', ch.shard = some s' → s.id ≠ s'.id :=
    fun m member s shard s' isNew same => (identified.known m member s shard).2 (same ▸ owns s' isNew)
  constructor
  case path => exact identified.path
  case onFile => rfl
  case older =>
    intro m member
    left
    change m.version < map.version
    obtain older | rfl := identified.older m member <;> omega
  case unique => exact identified.unique
  case counter => exact Nat.le_refl _
  case below => exact fun id taken => identified.below id (mem_used taken)
  case distinct => exact nodup_used ch identified.distinct
  case known =>
    intro m member s shard
    obtain ⟨m', member', shard'⟩ | ⟨_, isNew⟩ := old m member s shard
    · obtain ⟨onFile, free⟩ := identified.known m' member' s shard'
      exact ⟨Nat.lt_of_lt_of_le onFile identified.counter, fun taken => free (mem_used taken)⟩
    · refine ⟨identified.below _ (owns s isNew), ?_⟩
      have free : s.id ∉ (c.used ch).taken := not_mem_used identified.distinct isNew
      exact free
  case one =>
    intro m member m' member' s shard s' shard' same
    obtain ⟨first, inFirst, shard⟩ | ⟨_, isNew⟩ := old m member s shard
    · obtain ⟨second, inSecond, shard'⟩ | ⟨_, isNew'⟩ := old m' member' s' shard'
      · exact identified.one first inFirst second inSecond s shard s' shard' same
      · exact absurd same (fresh first inFirst s shard s' isNew')
    · obtain ⟨second, inSecond, shard'⟩ | ⟨_, isNew'⟩ := old m' member' s' shard'
      · exact absurd same.symm (fresh second inSecond s' shard' s isNew)
      · rw [isNew] at isNew'
        exact Option.some.inj isNew'

theorem Identified.bootstrap (synced : Option Persisted) :
    Identified (.bootstrap c.seed c.path c.file synced) served := by
  have sameMap : (Coordinator.bootstrap c.seed c.path c.file synced).map = c.map := identified.onFile
  constructor
  case path => exact identified.path
  case onFile => rfl
  case older => rw [sameMap]; exact identified.older
  case unique => exact identified.unique
  case counter => exact Nat.le_refl _
  case below => intro id taken; cases taken
  case distinct => exact List.nodup_nil
  case known =>
    rw [sameMap]
    exact fun m member s shard => ⟨(identified.known m member s shard).1, List.not_mem_nil⟩
  case one => rw [sameMap]; exact identified.one

theorem Identified.getMap : Identified c (c.map :: served) := by
  have same : ∀ m ∈ c.map :: c.map :: served, m ∈ c.map :: served := by simp
  constructor
  case path => exact identified.path
  case onFile => exact identified.onFile
  case older =>
    intro m member
    obtain rfl | member := mem_cons.mp member
    · exact .inr rfl
    · exact identified.older m member
  case unique =>
    intro m member m' member' version
    obtain rfl | member := mem_cons.mp member
    · obtain rfl | member' := mem_cons.mp member'
      · rfl
      · exact ((identified.older m' member').resolve_left (by omega)).symm
    · obtain rfl | member' := mem_cons.mp member'
      · exact (identified.older m member).resolve_left (by omega)
      · exact identified.unique m member m' member' version
  case counter => exact identified.counter
  case below => exact identified.below
  case distinct => exact identified.distinct
  case known => exact fun m member => identified.known m (same m member)
  case one => exact fun m member m' member' => identified.one m (same m member) m' (same m' member')

/-- A start finds the change that was interrupted, or the map before it. -/
theorem Identified.restart {inFlight : Option Change} {renamed : Bool}
    {powerKeeps : Option Bool} (owns : ∀ ch, inFlight = some ch → c.owns ch)
    (reliable : powerKeeps = some false → c.synced = c.file) :
    Identified ((c.interrupted inFlight renamed).restarted powerKeeps) served := by
  have unchanged : ∀ c' : Coordinator, c'.seed = c.seed → c'.path = c.path → c'.file = c.file → c'.synced = c.synced →
      Identified (c'.restarted powerKeeps) served := by
    intro c' seed path file synced
    match powerKeeps with
    | none | some true =>
      simp only [Coordinator.restarted, seed, path, file]
      exact identified.bootstrap _
    | some false =>
      simp only [Coordinator.restarted, seed, path, synced, reliable rfl]
      exact identified.bootstrap _
  unfold Coordinator.interrupted
  split
  · exact unchanged c rfl rfl rfl rfl
  rename_i ch
  split
  · exact unchanged c rfl rfl rfl rfl
  rename_i map applied
  unfold Coordinator.persist
  rw [if_neg (by simp [identified.path])]
  cases renamed with
  | false => exact unchanged { c with map := map } rfl rfl rfl rfl
  | true =>
    have committed := identified.commit (owns ch rfl) applied
    match powerKeeps with
    | none => exact (committed c.synced).bootstrap c.synced
    | some true => exact (committed c.synced).bootstrap (some ⟨c.nextId, map⟩)
    | some false =>
      have sameFile : c.synced = c.file := reliable rfl
      simp only [Coordinator.restarted, sameFile]
      exact identified.bootstrap _

end

end Identity

theorem Identified.step (identified : Identified o.coordinator o.served)
    (stepped : Run.Guarded Reliable Observed.Step o e o') : Identified o'.coordinator o'.served := by
  obtain ⟨reliable, stepped⟩ := stepped
  cases stepped with
  | fetchId => exact identified.fetchId
  | @change ch p c map owns changed =>
    obtain ⟨applied, rfl, _⟩ := change_eq_ok changed
    rw [show p = .done from reliable, persist_done { o.coordinator with map } identified.path]
    exact identified.commit owns applied _
  | @refused ch p c e owns changed =>
    obtain rfl | ⟨map, applied, _, failed⟩ := change_eq_error changed
    · exact identified.used ch
    · rw [show p = .done from reliable, persist_done { o.coordinator with map } identified.path] at failed
      exact absurd rfl failed
  | @revert ch p adds =>
    change Identified (o.coordinator.revert ch p) o.served
    have owns : o.coordinator.owns ch := by
      intro s isShard
      rw [adds] at isShard
      cases isShard
    have unused : ∀ c : Coordinator, c.used ch = c := fun c => by simp [Coordinator.used, adds]
    rw [Coordinator.revert, show p = .done from reliable,
      persist_done { o.coordinator with map := (ch.apply o.coordinator.map).toOption.getD o.coordinator.map } identified.path]
    cases applied : ch.apply o.coordinator.map with
    | error e => exact identified.write _
    | ok map =>
      have committed := identified.commit owns applied (some ⟨o.coordinator.nextId, map⟩)
      rw [unused] at committed
      exact committed
  | restart owns => exact identified.restart owns reliable
  | getMap => exact identified.getMap
  | refresh served => exact identified

theorem identified_start {seed : ShardMap} (seeded : Seeded seed) :
    Identified (Observed.start seed true).coordinator (Observed.start seed true).served := by
  have ids : ∀ s ∈ seed.shards, s.id < seed.shards.length := fun s member =>
    List.mem_range.mp (seeded.ids ▸ List.mem_map_of_mem member)
  have isSeed : ∀ m ∈ [seed, seed], m = seed := by simp
  constructor
  case path => rfl
  case onFile => rfl
  case older => exact fun m member => .inr (mem_singleton.mp member)
  case unique =>
    intro m member m' member' _
    rw [mem_singleton.mp member, mem_singleton.mp member']
  case counter => exact Nat.le_refl _
  case below => intro id taken; cases taken
  case distinct => exact List.nodup_nil
  case known =>
    intro m member s shard
    rw [isSeed m member] at shard
    exact ⟨ids s shard, List.not_mem_nil⟩
  case one =>
    intro m member m' member' s shard s' shard' same
    rw [isSeed m member] at shard
    rw [isSeed m' member'] at shard'
    exact List.inj_on_of_nodup_map (seeded.steady.distinct) shard shard' same

theorem router_served (routed : o.router ∈ o.served)
    (stepped : Observed.Step o e o') : o'.router ∈ o'.served := by
  cases stepped with
  | getMap => exact mem_cons_of_mem _ routed
  | @refresh answered served =>
    change refreshFrom o.router answered ∈ o.served
    unfold refreshFrom
    split
    · exact served
    · exact routed
  | _ => exact routed

theorem refreshFrom_current {c : Coordinator} {served : List ShardMap} (identified : Identified c served)
    {router : ShardMap} (routed : router ∈ served) : refreshFrom router c.map = c.map := by
  unfold refreshFrom
  split
  · rfl
  · exact (identified.older router routed).resolve_left ‹_›

/-- While writes succeed, over any restarts: what a start loads was held and keeps every
acknowledged change, a served version is one map, a refreshed router has the coordinator's map,
and an id is one shard. -/
theorem coordinator_durable {urls : List String} {replicas : List (ShardId × String)} {seed : ShardMap}
    (built : buildSeedMap urls replicas = .ok seed) {events : List CoordinatorEvent} {o : Observed}
    (run : Run.Reaches (Run.Guarded Reliable Observed.Step) (Observed.start seed true) events o) :
    (∀ powerKeeps, Survives o.current o.acknowledged (o.coordinator.restarted powerKeeps).map) ∧
      (∀ m ∈ o.served, ∀ m' ∈ o.served, m.version = m'.version → m = m') ∧
      refreshFrom o.router o.coordinator.map = o.coordinator.map ∧
      ∀ m ∈ o.served, ∀ m' ∈ o.served, ∀ s ∈ m.shards, ∀ s' ∈ m'.shards, s.id = s'.id → s = s' := by
  have seeded := seeded_buildSeedMap built
  have kept : Kept o.coordinator o.current o.acknowledged :=
    run.invariant (fun _ o => Kept o.coordinator o.current o.acknowledged) (kept_start seed)
      fun kept stepped => kept.step stepped.2
  have identified : Identified o.coordinator o.served :=
    run.invariant (fun _ o => Identified o.coordinator o.served) (identified_start seeded)
      fun identified stepped => identified.step stepped
  have routed : o.router ∈ o.served :=
    run.invariant (fun _ o => o.router ∈ o.served) (List.mem_singleton_self _)
      fun routed stepped => router_served routed stepped.2
  refine ⟨fun powerKeeps => (kept.restarted powerKeeps).memory, identified.unique, refreshFrom_current identified routed, ?_⟩
  intro m member m' member'
  exact identified.one m (mem_cons_of_mem _ member) m' (mem_cons_of_mem _ member')

def seedShard : ShardMap := { shards := [⟨0, "http://s0", []⟩] }

theorem coordinator_durable_added : ∃ o,
    Run.Reaches (Run.Guarded Reliable Observed.Step) (.start seedShard true)
        [.fetchId, .change (.add 1 "http://s1" []) .done, .getMap, .restart (some (.drain 0)) true none, .getMap] o ∧
      o.served.map ShardMap.version = [2, 1, 0] ∧
      ∀ m ∈ o.served, ∀ m' ∈ o.served, m.version = m'.version → m = m' := by
  have built : buildSeedMap ["http://s0"] [] = .ok seedShard := rfl
  refine Run.shown (.next (.next (.next (.next (.next .refl ⟨trivial, .fetchId⟩) ⟨rfl, .change (by decide) rfl⟩)
    ⟨trivial, .getMap⟩) ⟨(fun lost => nomatch lost), .restart (by rintro ch ⟨⟩; decide)⟩)
    ⟨trivial, .getMap⟩) fun run => ?_
  exact ⟨by decide, (coordinator_durable built run).2.1⟩

/-- The write of an added shard fails, the map with it is served, and after a restart its version
and its id go to another shard. -/
theorem failed_persist_reuses_version : buildSeedMap ["http://s0"] [] = .ok seedShard ∧ ∃ o,
    Run.Reaches Observed.Step (.start seedShard true)
        [.fetchId, .change (.add 1 "http://s1" []) (.failed false), .getMap, .restart none false none,
          .fetchId, .change (.add 1 "http://s2" []) .done, .getMap] o ∧
      ∃ m ∈ o.served, ∃ m' ∈ o.served, m.version = m'.version ∧
        ∃ s ∈ m.shards, ∃ s' ∈ m'.shards, s.id = s'.id ∧ s.primaryUrl ≠ s'.primaryUrl := by
  refine ⟨rfl, Run.shown (.next (.next (.next (.next (.next (.next (.next .refl .fetchId) (.refused (by decide) rfl))
    .getMap) (.restart (by rintro ch ⟨⟩))) .fetchId) (.change (by decide) rfl)) .getMap) fun _ => ?_⟩
  decide

end Quiver.Cluster
