import Mathlib.Data.List.Nodup
import Quiver.Cluster.Coordinator

/-!
Which shard holds an id while migrations run, and which one routers take for it. The donor is worked
out from the current map alone. With one migration at a time it is the holder; a grow that starts
during a drain hides the leaving shard.
-/

namespace Quiver.Cluster

/-- A map, and for every id the shard that holds its data. -/
structure Placement where
  map : ShardMap
  holder : String → ShardId

def readShard (m : ShardMap) (x : String) : ShardId := (donor m x).getD (owner m x)

def writeShards (m : ShardMap) (x : String) : List ShardId := owner m x :: (donor m x).toList

theorem readShard_mem_writeShards (m : ShardMap) (x : String) : readShard m x ∈ writeShards m x := by
  unfold readShard writeShards
  cases donor m x <;> simp

/-- A step of a migration. The copies of a join or a drain are complete at its flip; nothing moves
at its start, nor when it is given up. -/
inductive Placement.Step : Placement → Change → Placement → Prop
  | grow {p id url replicas map} (joined : (Change.addJoining id url replicas).apply p.map = .ok map) :
      Step p (.addJoining id url replicas) ⟨map, p.holder⟩
  | drain {p id map} (marked : (Change.drain id).apply p.map = .ok map) : Step p (.drain id) ⟨map, p.holder⟩
  | promote {p id map} (promoted : (Change.promote id).apply p.map = .ok map) :
      Step p (.promote id) ⟨map, fun x => if owner p.map x = id then id else p.holder x⟩
  | cancelLeave {p id map} (cancelled : (Change.cancelLeave id).apply p.map = .ok map) :
      Step p (.cancelLeave id) ⟨map, p.holder⟩
  | removeDrained {p id map} (leaving : p.map.isLeaving id) (removed : (Change.remove id).apply p.map = .ok map) :
      Step p (.remove id) ⟨map, fun x => if p.holder x = id then owner p.map x else p.holder x⟩
  | removeJoining {p id map} (joining : p.map.isJoining id) (removed : (Change.remove id).apply p.map = .ok map) :
      Step p (.remove id) ⟨map, p.holder⟩

def Placement.start (seed : ShardMap) : Placement := ⟨seed, owner seed⟩

/-- A migration starts when none is in flight. -/
def OneAtATime (p : Placement) : Change → Prop
  | .addJoining .. | .drain _ => p.map.joining = [] ∧ p.map.leaving = []
  | _ => True

section Single

variable {map during : ShardMap} {id : ShardId} {url : String} {replicas : List String}

theorem exists_grow (steady : map.Steady) (joined : map.addJoiningShard id url replicas = .ok during) :
    ∃ g : Grow map id url replicas, g.during = during := by
  obtain ⟨_, isDuring⟩ := addJoiningShard_eq_ok joined
  rw [steady.joining, steady.leaving, List.nil_append] at isDuring
  obtain ⟨after, promoted⟩ : ∃ after, during.promote id = .ok after := by
    rw [isDuring, ShardMap.promote, if_pos (by simp [ShardMap.isJoining])]
    exact ⟨_, rfl⟩
  obtain ⟨restored, removed⟩ : ∃ restored, during.removeShard id = .ok restored := by
    have some : map.shards.length ≠ 0 := fun none => steady.nonempty (List.length_eq_zero_iff.mp none)
    rw [isDuring, ShardMap.removeShard, if_neg (by simp), if_neg (by simpa using some)]
    exact ⟨_, rfl⟩
  exact ⟨⟨during, after, restored, joined, promoted, removed⟩, rfl⟩

theorem exists_drain (steady : map.Steady) (marked : map.markLeaving id = .ok during) :
    ∃ d : Drain map id, d.during = during := by
  obtain ⟨⟨s, isShard, isIt⟩, _, ⟨t, isOther, differs, _⟩, isDuring⟩ := markLeaving_eq_ok marked
  rw [steady.leaving, List.nil_append] at isDuring
  obtain ⟨after, removed⟩ : ∃ after, during.removeShard id = .ok after := by
    have two : map.shards.length ≠ 1 := by
      intro one
      obtain ⟨only, isOnly⟩ := List.length_eq_one_iff.mp one
      rw [isOnly, List.mem_singleton] at isShard isOther
      exact differs (isOther ▸ isShard ▸ isIt)
    have known : map.shards.any (·.id == id) := List.any_eq_true.mpr ⟨s, isShard, by simp [isIt]⟩
    rw [isDuring, ShardMap.removeShard, if_neg (by simp [known]), if_neg two]
    exact ⟨_, rfl⟩
  obtain ⟨restored, cancelled⟩ : ∃ restored, during.cancelLeave id = .ok restored := by
    rw [isDuring, ShardMap.cancelLeave, if_pos (by simp [ShardMap.isLeaving])]
    exact ⟨_, rfl⟩
  exact ⟨⟨during, after, restored, marked, removed, cancelled⟩, rfl⟩

theorem Grow.steady_after (g : Grow map id url replicas) (steady : map.Steady) : g.after.Steady := by
  obtain ⟨fresh, _, isAfter, _⟩ := g.spec steady
  rw [isAfter]
  refine ⟨rfl, rfl, ?_, by simp⟩
  rw [List.map_append]
  refine List.Nodup.append steady.distinct (List.nodup_singleton _) fun a old new => ?_
  obtain ⟨s, member, isId⟩ := List.mem_map.mp old
  exact fresh s member (isId.trans (List.mem_singleton.mp new))

theorem Grow.steady_restored (g : Grow map id url replicas) (steady : map.Steady) : g.restored.Steady := by
  obtain ⟨_, _, _, shards, joining, leaving⟩ := g.spec steady
  exact ⟨joining, leaving, shards ▸ steady.distinct, shards ▸ steady.nonempty⟩

theorem Drain.steady_after (d : Drain map id) (steady : map.Steady) : d.after.Steady := by
  obtain ⟨⟨s, member, other⟩, _, isAfter, _⟩ := d.spec steady
  rw [isAfter]
  refine ⟨rfl, rfl, steady.distinct.sublist (List.filter_sublist.map _), ?_⟩
  exact List.ne_nil_of_mem (List.mem_filter.mpr ⟨member, by simpa using other⟩)

theorem Drain.steady_restored (d : Drain map id) (steady : map.Steady) : d.restored.Steady := by
  obtain ⟨_, _, _, shards, joining, leaving⟩ := d.spec steady
  exact ⟨joining, leaving, shards ▸ steady.distinct, shards ▸ steady.nonempty⟩

theorem Migration.Routes.readShard_during {mig : Migration} (routes : mig.Routes) (x : String) :
    readShard mig.during x = owner mig.before x := by
  unfold readShard
  rw [routes.during_donor x, routes.during_owner x]
  split
  · rfl
  · rename_i stays
    exact (not_not.mp stays).symm

theorem readShard_steady (steady : map.Steady) (x : String) : readShard map x = owner map x := by
  rw [readShard, donor_of_no_joining steady.leaving steady.joining]
  rfl

end Single

/-- At most one migration is in flight, and what it moves is held where it was before it. -/
inductive Settled (p : Placement) : Prop
  | steady (steady : p.map.Steady) (held : ∀ x, p.holder x = owner p.map x)
  | growing {before : ShardMap} {id : ShardId} {url : String} {replicas : List String} (steady : before.Steady)
      (g : Grow before id url replicas) (isDuring : p.map = g.during) (held : ∀ x, p.holder x = owner before x)
  | draining {before : ShardMap} {id : ShardId} (steady : before.Steady) (d : Drain before id)
      (isDuring : p.map = d.during) (held : ∀ x, p.holder x = owner before x)

theorem Settled.readShard_eq {p : Placement} (settled : Settled p) (x : String) : readShard p.map x = p.holder x := by
  cases settled with
  | steady steady held => rw [readShard_steady steady, held]
  | growing steady g isDuring held => rw [isDuring, held]; exact (g.routes steady).readShard_during x
  | draining steady d isDuring held => rw [isDuring, held]; exact (d.routes steady).readShard_during x

section Steps

variable {before : ShardMap} {id : ShardId} {url : String} {replicas : List String}

theorem grow_flags (g : Grow before id url replicas) (steady : before.Steady) :
    g.during.joining = [id] ∧ g.during.leaving = [] := by
  obtain ⟨_, isDuring, _⟩ := g.spec steady
  rw [isDuring]
  exact ⟨rfl, rfl⟩

theorem drain_flags (d : Drain before id) (steady : before.Steady) :
    d.during.joining = [] ∧ d.during.leaving = [id] := by
  obtain ⟨_, isDuring, _⟩ := d.spec steady
  rw [isDuring]
  exact ⟨rfl, rfl⟩

theorem Grow.held_after (g : Grow before id url replicas) (steady : before.Steady) (x : String) :
    (if owner g.during x = id then id else owner before x) = owner g.after x := by
  have routes := g.routes steady
  have during : owner g.during x = owner g.after x := routes.during_owner x
  split
  · rename_i isNew
    rw [← during, isNew]
  · rename_i isOld
    by_contra differ
    have destination : (if owner g.during x = id then some id else none) = some (owner g.after x) := routes.moves_to x differ
    rw [if_neg isOld] at destination
    cases destination

theorem Drain.held_after (d : Drain before id) (steady : before.Steady) (x : String) :
    (if owner before x = id then owner d.during x else owner before x) = owner d.after x := by
  have routes := d.routes steady
  split
  · exact routes.during_owner x
  · rename_i other
    by_contra differ
    exact other (List.mem_singleton.mp (routes.source x differ))

variable {p : Placement} (settled : Settled p)
include settled

theorem Settled.of_alone (alone : p.map.joining = [] ∧ p.map.leaving = []) :
    p.map.Steady ∧ ∀ x, p.holder x = owner p.map x := by
  cases settled with
  | steady steady held => exact ⟨steady, held⟩
  | growing steady g isDuring held =>
    rw [isDuring, (grow_flags g steady).1] at alone
    cases alone.1
  | draining steady d isDuring held =>
    rw [isDuring, (drain_flags d steady).2] at alone
    cases alone.2

/-- A shard that is joining joins by the migration in flight. -/
theorem Settled.of_joining (joins : p.map.isJoining id = true) : ∃ before url replicas,
    ∃ g : Grow before id url replicas, before.Steady ∧ p.map = g.during ∧ ∀ x, p.holder x = owner before x := by
  rw [ShardMap.isJoining, List.contains_iff_mem] at joins
  cases settled with
  | steady steady held =>
    rw [steady.joining] at joins
    cases joins
  | growing steady g isDuring held =>
    rw [isDuring, (grow_flags g steady).1] at joins
    cases List.mem_singleton.mp joins
    exact ⟨_, _, _, g, steady, isDuring, held⟩
  | draining steady d isDuring held =>
    rw [isDuring, (drain_flags d steady).1] at joins
    cases joins

theorem Settled.of_leaving (leaves : p.map.isLeaving id = true) : ∃ before,
    ∃ d : Drain before id, before.Steady ∧ p.map = d.during ∧ ∀ x, p.holder x = owner before x := by
  rw [ShardMap.isLeaving, List.contains_iff_mem] at leaves
  cases settled with
  | steady steady held =>
    rw [steady.leaving] at leaves
    cases leaves
  | growing steady g isDuring held =>
    rw [isDuring, (grow_flags g steady).2] at leaves
    cases leaves
  | draining steady d isDuring held =>
    rw [isDuring, (drain_flags d steady).2] at leaves
    cases List.mem_singleton.mp leaves
    exact ⟨_, d, steady, isDuring, held⟩

theorem Settled.step {p' : Placement} {ch : Change}
    (stepped : Run.Guarded OneAtATime Placement.Step p ch p') : Settled p' := by
  obtain ⟨alone, stepped⟩ := stepped
  cases stepped with
  | grow joined =>
    obtain ⟨steady, held⟩ := settled.of_alone alone
    obtain ⟨g, isDuring⟩ := exists_grow steady (badRequest_eq_ok.mp joined)
    exact .growing steady g isDuring.symm held
  | drain marked =>
    obtain ⟨steady, held⟩ := settled.of_alone alone
    simp only [Change.apply] at marked
    split at marked
    · contradiction
    obtain ⟨d, isDuring⟩ := exists_drain steady (badRequest_eq_ok.mp marked)
    exact .draining steady d isDuring.symm held
  | promote promoted =>
    have promoted := badRequest_eq_ok.mp promoted
    obtain ⟨_, _, _, g, steady, isDuring, held⟩ := settled.of_joining (promote_eq_ok promoted).1
    rw [isDuring, g.promoted] at promoted
    cases promoted
    refine .steady (g.steady_after steady) fun x => ?_
    simp only [held, isDuring]
    exact g.held_after steady x
  | cancelLeave cancelled =>
    have cancelled := badRequest_eq_ok.mp cancelled
    obtain ⟨_, d, steady, isDuring, held⟩ := settled.of_leaving (cancelLeave_eq_ok cancelled).1
    rw [isDuring, d.cancelled] at cancelled
    cases cancelled
    exact .steady (d.steady_restored steady) fun x => (held x).trans ((d.routes steady).restored_owner x).symm
  | removeDrained leaves removed =>
    have removed := badRequest_eq_ok.mp removed
    obtain ⟨_, d, steady, isDuring, held⟩ := settled.of_leaving leaves
    rw [isDuring, d.removed] at removed
    cases removed
    refine .steady (d.steady_after steady) fun x => ?_
    simp only [held, isDuring]
    exact d.held_after steady x
  | removeJoining joins removed =>
    have removed := badRequest_eq_ok.mp removed
    obtain ⟨_, _, _, g, steady, isDuring, held⟩ := settled.of_joining joins
    rw [isDuring, g.removed] at removed
    cases removed
    exact .steady (g.steady_restored steady) fun x => (held x).trans ((g.routes steady).restored_owner x).symm

end Steps

/-- One migration at a time: every id is read from the shard that holds it, and written there. -/
theorem donor_names_holder {urls : List String} {urlsOfReplicas : List (ShardId × String)} {seed : ShardMap}
    (built : buildSeedMap urls urlsOfReplicas = .ok seed) {changes : List Change} {p : Placement}
    (run : Run.Reaches (Run.Guarded OneAtATime Placement.Step) (.start seed) changes p) (x : String) :
    readShard p.map x = p.holder x ∧ p.holder x ∈ writeShards p.map x := by
  have settled : Settled p := run.invariant (fun _ p => Settled p)
    (.steady (seeded_buildSeedMap built).steady fun _ => rfl) fun settled stepped => settled.step stepped
  refine ⟨settled.readShard_eq x, ?_⟩
  rw [← settled.readShard_eq x]
  exact readShard_mem_writeShards p.map x

def seedPair : ShardMap := { shards := [⟨0, "http://s0", []⟩, ⟨1, "http://s1", []⟩] }

theorem donor_names_holder_draining : ∃ p,
    Run.Reaches (Run.Guarded OneAtATime Placement.Step) (.start seedPair) [.drain 0] p ∧
      owner p.map "c" = 1 ∧ readShard p.map "c" = p.holder "c" ∧ p.holder "c" ∈ writeShards p.map "c" := by
  have built : buildSeedMap ["http://s0", "http://s1"] [] = .ok seedPair := rfl
  refine Run.shown (.next .refl ⟨⟨rfl, rfl⟩, .drain rfl⟩) fun run => ?_
  exact ⟨by decide +kernel, donor_names_holder built run "c"⟩

/-- A shard that joins while another is drained and wins the id takes the place of the leaving
one, and the donor is a shard that has never owned it. -/
theorem grow_hides_draining_holder : ∃ p,
    Run.Reaches Placement.Step (.start seedPair) [.drain 0, .addJoining 2 "http://s2" []] p ∧
      p.holder "c" = 0 ∧ readShard p.map "c" = 1 ∧ p.holder "c" ∉ writeShards p.map "c" := by
  refine Run.shown (.next (.next .refl (.drain rfl)) (.grow rfl)) fun _ => ?_
  exact ⟨by decide +kernel, by decide +kernel, by decide +kernel⟩

end Quiver.Cluster
