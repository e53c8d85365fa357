import Quiver.Base.TreeCopy
import Quiver.Core.History

/-!
Online backups. A snapshot checkpoints the store and copies its directory; restoring copies it
again. A snapshot below the store's own directory does not end; any other keeps the collections, but
that of a store that was never checkpointed cannot be restored.
-/

namespace Quiver.Core

open FileSystem TreeCopy
open Std (ExtTreeMap TransOrd LawfulEqOrd)
open Std.ExtTreeMap (ext_getElem? getElem?_eq_none getElem?_insert mem_iff_isSome_getElem? mem_keys)
open Option (isSome_map map_eq_some_iff map_map)

structure SnapshotInfo where
  manifestVersion : Nat
  files : Nat
  bytes : Nat
  deriving DecidableEq, Repr

/-- The files of the machine, by name. -/
abbrev Files (N : Type) [Ord N] := Tree N (List Chunk)

def nodeContent : Node (List Chunk) → List Chunk
  | .dir => []
  | .file content => content

section Definitions

variable {N : Type} [Ord N] [TransOrd N] [LawfulEqOrd N] [DecidableEq N] (components : Path → List N)
  (display : List N → String) (size : List Chunk → Nat) (encoding : Encoding) (ring : KeyRing)

/-- Take a consistent snapshot of the store in `root` into `dest`, which must not exist. The files of
the machine are those of the data directory and others, as `files` has them. -/
def Store.snapshot (s : Store) (snapshots : ExtTreeMap CollectionId Bytes) (files : DataDir → Files N)
    (root dest : List N) (d : DataDir) (fuel : Nat) :
    Option (DataDir × Except CoreError (Store × Files N × SnapshotInfo)) :=
  if dest ∈ files d then some (d, .error (.alreadyExists (display dest)))
  else match (s.checkpointWithIndexSnapshots encoding snapshots).run d with
    | (d', .error e) => some (d', .error e)
    | (d', .ok s') => (copyTree size fuel (files d') root dest).map fun c =>
      (d', .ok (s', c.tree, ⟨s'.manifestVersion, c.files, c.bytes⟩))

def restoreSnapshot (t : Files N) (src dest : List N) (fuel : Nat) :
    Option (Except CoreError (Files N × SnapshotInfo)) :=
  if dest ∈ t then some (.error (.alreadyExists (display dest)))
  else if src ++ components .current ∉ t then
    some (.error (.invalidArgument (display src ++ " is not a snapshot (no CURRENT)")))
  else (copyTree size fuel t src dest).map fun c => .ok (c.tree, ⟨0, c.files, c.bytes⟩)

/-- The data directory is in `root`. -/
def Holds (t : Files N) (root : List N) (d : DataDir) : Prop :=
  ∀ p, t[root ++ components p]?.map nodeContent = d[p]?.map File.content

/-- The files before a checkpoint of the store in `root`, and after it. The checkpoint works in the
directory of the store only, and makes no file of the destination and no copy of its own layout in it. -/
structure Site (root dest : List N) (before after : Files N) (d' : DataDir) : Prop where
  absent : dest ∉ before
  isDir : before[root]? = some .dir ∧ after[root]? = some .dir
  wellFormed : before.WellFormed ∧ after.WellFormed
  outside : ∀ p, ¬ root <+: p → after[p]? = before[p]?
  clear : ∀ p, p <+: dest → ∀ content, after[p]? ≠ some (.file content)
  unnested : ∀ name, root ++ [name] <+: dest → ∀ q, after[dest ++ name :: q]? = none
  holds : Holds components after root d'

/-- What is in a directory opens as a store with the given content, with nothing to replay. -/
structure Reopens (t : Files N) (dir : List N) (mem : Logical) : Prop where
  directory : ∃ d, Holds components t dir d ∧ closed d = d
  opens : ∀ d, Holds components t dir d → closed d = d →
    (∃ m, readManifest d = .ok m ∧ ∀ seq, Path.wal seq ∈ d →
      ∃ replay, readWal encoding d seq = .ok replay ∧ ∀ e ∈ replay.entries, e.lsn ≤ m.lastCheckpointedLsn) ∧
    ∃ s d', (openWithKeyring encoding ring).run d = (d', .ok s) ∧ s.catalog.Represents mem

end Definitions

section Copies

variable {N : Type} [Ord N] [TransOrd N] {components : Path → List N} {display : List N → String}
  {size : List Chunk → Nat} {encoding : Encoding} {ring : KeyRing} {s s' : Store} {d d' : DataDir} {img : Image}
  {mem : Logical} {t : Files N} {root dest : List N} {fuel : Nat}

theorem getElem?_closed {p : Path} : (closed d)[p]? = (d[p]?.map File.content).map (⟨·, []⟩) := by
  rw [closed, ExtTreeMap.getElem?_map, map_map]
  rfl

theorem Holds.unique (holds : Holds components t root d) (holds' : Holds components t root d') (isClosed : closed d' = d') :
    d' = closed d := by
  refine ext_getElem? fun p => ?_
  rw [← isClosed, getElem?_closed, getElem?_closed, ← holds p, ← holds' p]

theorem Holds.closed (holds : Holds components t root d) : Holds components t root (closed d) := by
  intro p
  rw [holds p, getElem?_closed, map_map]
  cases d[p]? with
  | none => rfl
  | some f => simp [File.content]

theorem closed_closed : closed (closed d) = closed d := by
  refine ext_getElem? fun p => ?_
  rw [getElem?_closed, getElem?_closed]
  cases d[p]? with
  | none => rfl
  | some f => simp [File.content]

theorem Standing.copied (standing : Standing encoding ring s d img mem) (tail : img.tail = [])
    (pending : img.pending = []) (holds : Holds components t root d) : Reopens components encoding ring t root mem := by
  refine ⟨⟨_, holds.closed, closed_closed⟩, fun d' holds' isClosed => ?_⟩
  obtain rfl := holds.unique holds' isClosed
  have running := standing.running
  have crashed := crashed_closed d
  constructor
  · obtain ⟨files, kept, isKept, settled, tail', _, on, _⟩ := running.on.crashed running.sound crashed
    rw [pending, List.prefix_nil] at isKept
    rw [tail, isKept] at tail'
    refine ⟨img.mfst, on.current.readManifest, fun seq present => ?_⟩
    obtain ⟨⟨seq, synced, unsynced⟩, member, rfl⟩ := (on.listed seq).mp present
    have isOn := on.logs _ member
    obtain rfl : unsynced = [] := settled _ member
    obtain ⟨replay, read, entries⟩ := isOn.readWal
    refine ⟨replay, read, fun e held => Nat.not_lt.mp fun above => ?_⟩
    rw [entries] at held
    have live : e.op ∈ Image.tail { img with files } :=
      List.mem_map_of_mem (List.mem_filter.mpr ⟨List.mem_flatMap.mpr ⟨_, member, held⟩, by simpa using above⟩)
    rw [tail'] at live
    contradiction
  · obtain ⟨kept, s', d₀, _, isKept, opened, after, _⟩ := standing.reopens crashed
    rw [pending, List.prefix_nil] at isKept
    rw [isKept, tail, standing.settled tail pending] at after
    exact ⟨s', d₀, opened, after.running.represents⟩

theorem Holds.moved {t' : Files N} (holds : Holds components t root d) (same : ∀ q, t'[dest ++ q]? = t[root ++ q]?) :
    Holds components t' dest d := fun p => by
  rw [same]
  exact holds p

namespace Site

variable {before after : Files N}

theorem notAbove (site : Site components root dest before after d') : ¬ dest <+: root := by
  rintro ⟨rest, rfl⟩
  have absent := getElem?_eq_none site.absent
  have isDir := site.isDir.1
  cases rest with
  | nil =>
    rw [List.append_nil, absent] at isDir
    contradiction
  | cons name rest =>
    have above := site.wellFormed.1 dest name rest (by simp [isDir])
    rw [absent] at above
    contradiction

theorem free (site : Site components root dest before after d') (notBelow : ¬ root <+: dest) (q : List N) :
    after[dest ++ q]? = none := by
  have absent := getElem?_eq_none site.absent
  rw [site.outside]
  · cases q with
    | nil => rw [List.append_nil, absent]
    | cons name q =>
      by_contra present
      have above := site.wellFormed.1 dest name q present
      rw [absent] at above
      contradiction
  · intro under
    exact (List.prefix_or_prefix_of_prefix under (List.prefix_append ..)).elim notBelow site.notAbove

variable [LawfulEqOrd N] [DecidableEq N]

theorem endless (site : Site components root dest before after d') (below : root <+: dest) :
    copyTree size fuel after root dest = none := by
  obtain ⟨rest, rfl⟩ := below
  cases rest with
  | nil => exact absurd (by simp) site.notAbove
  | cons name rest =>
    have first : root ++ [name] <+: root ++ name :: rest := by simp [List.prefix_append_right_inj]
    exact copyTree_below first site.clear (site.unnested name first)

end Site

variable [LawfulEqOrd N] [DecidableEq N]

omit [LawfulEqOrd N] in
theorem Store.snapshot_eq {snapshots : ExtTreeMap CollectionId Bytes} {files : DataDir → Files N}
    (absent : dest ∉ files d) (ran : (s.checkpointWithIndexSnapshots encoding snapshots).run d = (d', .ok s')) :
    s.snapshot display size encoding snapshots files root dest d fuel =
      (copyTree size fuel (files d') root dest).map fun c =>
        (d', .ok (s', c.tree, ⟨s'.manifestVersion, c.files, c.bytes⟩)) := by
  simp only [Store.snapshot, if_neg absent, ran]

variable (display size) in
/-- Restoring what was copied to `src` into a directory that is neither there nor below. -/
theorem restoreSnapshot_spec {f : List N → Option (Node (List Chunk))} {depth : Nat} {src : List N}
    (rooted : Rooted f depth) (held : ∀ q, t[src ++ q]? = f q) (holds : Holds components t src d)
    (absent : ∀ q, t[dest ++ q]? = none) (notBelow : ¬ src <+: dest) (notAbove : ¬ dest <+: src) :
    ((∃ fuel t' info, restoreSnapshot components display size t src dest fuel = some (.ok (t', info))) ↔
      Path.current ∈ d) ∧
    ∀ fuel t' info, restoreSnapshot components display size t src dest fuel = some (.ok (t', info)) →
      ∀ q, t'[dest ++ q]? = t[src ++ q]? := by
  have fresh : dest ∉ t := by
    have free := absent []
    rw [List.append_nil] at free
    rw [mem_iff_isSome_getElem?, free]
    simp
  have pointer : src ++ components .current ∈ t ↔ Path.current ∈ d := by
    have same := congrArg Option.isSome (holds .current)
    rw [isSome_map, isSome_map] at same
    rw [mem_iff_isSome_getElem?, mem_iff_isSome_getElem?, same]
  by_cases current : Path.current ∈ d
  · have is : ∀ fuel, restoreSnapshot components display size t src dest fuel =
        (copyTree size fuel t src dest).map fun c => .ok (c.tree, ⟨0, c.files, c.bytes⟩) := fun fuel => by
      rw [restoreSnapshot, if_neg fresh, if_neg (not_not_intro (pointer.mpr current))]
    obtain ⟨c, copied, _⟩ : ∃ c, copyTree size depth t src dest = some c ∧ ∀ q, c.tree[dest ++ q]? = f q :=
      copyTree_whole rooted held notBelow notAbove absent
    refine ⟨⟨fun _ => current, fun _ => ⟨depth, c.tree, ⟨0, c.files, c.bytes⟩, by rw [is, copied]; rfl⟩⟩, ?_⟩
    intro fuel t' info restored q
    obtain ⟨c, copied, same⟩ := map_eq_some_iff.mp ((is fuel).symm.trans restored)
    cases same
    rw [held, copyTree_faithful rooted held notBelow notAbove absent copied]
  · have is : ∀ fuel, restoreSnapshot components display size t src dest fuel =
        some (.error (.invalidArgument (display src ++ " is not a snapshot (no CURRENT)"))) := fun fuel => by
      rw [restoreSnapshot, if_neg fresh, if_pos (mt pointer.mp current)]
    refine ⟨⟨?_, fun present => absurd present current⟩, ?_⟩
    · rintro ⟨fuel, t', info, restored⟩
      rw [is] at restored
      cases restored
    · intro fuel t' info restored
      rw [is] at restored
      cases restored

/-- After any run, a snapshot ends unless its destination is below the data directory. It then opens as
the store, and so does what it is restored to. Restoring needs the `CURRENT` pointer that the first
checkpoint makes. -/
theorem snapshot_faithful {start t : Opened} {commands : List Command} {snapshots : ExtTreeMap CollectionId Bytes}
    {files : DataDir → Files N} (opened : (openWithKeyring encoding ring).run ∅ = (start.dir, .ok start.store))
    (run : Run.Reaches (Opened.Step encoding ring) start commands t)
    (checkpointed : (t.store.checkpointWithIndexSnapshots encoding snapshots).run t.dir = (d', .ok s'))
    (site : Site components root dest (files t.dir) (files d') d') :
    ((∃ fuel result, t.store.snapshot display size encoding snapshots files root dest t.dir fuel = some result) ↔
      ¬ root <+: dest) ∧
    ∃ mem, t.store.catalog.Represents mem ∧ ∀ fuel d₁ s₁ tree info,
      t.store.snapshot display size encoding snapshots files root dest t.dir fuel = some (d₁, .ok (s₁, tree, info)) →
      s₁.catalog.Represents mem ∧ Holds components tree root d₁ ∧ Reopens components encoding ring tree dest mem ∧
      ∀ dest', dest' ∉ tree → ¬ dest <+: dest' →
        ((∃ fuel tree' info, restoreSnapshot components display size tree dest dest' fuel = some (.ok (tree', info))) ↔
          Path.current ∈ d₁) ∧
        ∀ fuel tree' info, restoreSnapshot components display size tree dest dest' fuel = some (.ok (tree', info)) →
          Reopens components encoding ring tree' dest' mem := by
  obtain ⟨img, mem, standing⟩ := Standing.reached opened run
  obtain ⟨img', after, tail, pending⟩ := standing.checkpoint checkpointed
  have is : ∀ fuel, t.store.snapshot display size encoding snapshots files root dest t.dir fuel =
      (copyTree size fuel (files d') root dest).map fun c =>
        (d', .ok (s', c.tree, ⟨s'.manifestVersion, c.files, c.bytes⟩)) :=
    fun fuel => Store.snapshot_eq site.absent checkpointed
  obtain ⟨depth, rooted⟩ := site.wellFormed.2.rooted site.isDir.2
  refine ⟨⟨?_, fun notBelow => ?_⟩, mem, standing.running.represents, fun fuel d₁ s₁ tree info taken => ?_⟩
  · rintro ⟨fuel, result, ends⟩ below
    rw [is, site.endless below] at ends
    contradiction
  · obtain ⟨c, copied, _⟩ : ∃ c, copyTree size depth (files d') root dest = some c ∧
        ∀ q, c.tree[dest ++ q]? = (files d')[root ++ q]? :=
      copyTree_whole rooted (fun _ => rfl) notBelow site.notAbove (site.free notBelow)
    exact ⟨depth, _, by rw [is, copied]; rfl⟩
  · obtain ⟨c, copied, same⟩ := map_eq_some_iff.mp ((is fuel).symm.trans taken)
    cases same
    have notBelow : ¬ root <+: dest := fun below => by
      rw [site.endless below] at copied
      contradiction
    have faithful : ∀ q, c.tree[dest ++ q]? = (files d')[root ++ q]? :=
      copyTree_faithful rooted (fun _ => rfl) notBelow site.notAbove (site.free notBelow) copied
    have elsewhere : ∀ {p}, ¬ dest <+: p → ¬ p <+: dest → c.tree[p]? = (files d')[p]? := fun outside notAbove => by
      rw [copyTree_framed copied outside, Tree.getElem?_mkdirAll, if_neg notAbove]
    have snapshotHolds := site.holds.moved faithful
    have opens := after.copied tail pending snapshotHolds
    refine ⟨after.running.represents, site.holds.moved fun q => elsewhere (fun under => ?_) fun above => ?_, opens, ?_⟩
    · exact (List.prefix_or_prefix_of_prefix under (List.prefix_append ..)).elim site.notAbove notBelow
    · exact notBelow ((List.prefix_append ..).trans above)
    · intro dest' fresh apart
      obtain ⟨notAbove, absent⟩ := copyTree_fresh site.wellFormed.2 copied fresh apart
      have restores := restoreSnapshot_spec display size rooted faithful snapshotHolds absent apart notAbove
      refine ⟨restores.1, fun fuel tree' info restored => ?_⟩
      exact after.copied tail pending (snapshotHolds.moved (restores.2 fuel tree' info restored))

end Copies

/-- The directories of a machine with a data directory in `[0]`. -/
def machineDirs : Files Nat :=
  ((((∅ : Files Nat).insert [] .dir).insert [0] .dir).insert [0, 2] .dir).insert [0, 3] .dir |>.insert [0, 5] .dir

/-- The machine with the files that a store with one empty collection may have. -/
def machine (d : DataDir) : Files Nat :=
  [Path.current, .manifest 1, .wal 1, .wal 2, .dek 0].foldr (fun p t =>
    (d[p]?.map fun f => t.insert (0 :: p.key) (.file f.content)).getD t) machineDirs

theorem machine_elsewhere {d : DataDir} {q : List Nat}
    (other : ∀ p ∈ [Path.current, .manifest 1, .wal 1, .wal 2, .dek 0], 0 :: p.key ≠ q) :
    (machine d)[q]? = machineDirs[q]? := by
  unfold machine
  generalize [Path.current, .manifest 1, .wal 1, .wal 2, .dek 0] = paths at other ⊢
  induction paths with
  | nil => rfl
  | cons p paths ih =>
    have rest := ih fun p member => other p (List.mem_cons_of_mem _ member)
    rw [List.foldr_cons]
    cases d[p]? with
    | none => exact rest
    | some f =>
      have differs := other p (List.mem_cons_self ..)
      rw [Option.map_some, Option.getD_some, getElem?_insert, if_neg (by simpa using differs)]
      exact rest

theorem machine_holds {d : DataDir} (covers : ∀ p ∈ d.keys, p ∈ [Path.current, .manifest 1, .wal 1, .wal 2, .dek 0]) :
    Holds Path.key (machine d) [0] d := by
  intro q
  have outside : ∀ q : Path, machineDirs[0 :: q.key]? = none := by
    intro q
    cases q <;> simp [machineDirs, Path.key]
  have held : ∀ paths : List Path, (paths.foldr (fun p t =>
      (d[p]?.map fun f => t.insert (0 :: p.key) (.file f.content)).getD t) machineDirs)[0 :: q.key]?.map nodeContent =
      if q ∈ paths then d[q]?.map File.content else none := by
    intro paths
    induction paths with
    | nil => simp [outside]
    | cons p paths ih =>
      rw [List.foldr_cons]
      by_cases here : q = p
      · subst here
        cases found : d[q]? with
        | none =>
          rw [found] at ih
          simpa using ih
        | some f => simp [nodeContent]
      · have differs : p.key ≠ q.key := fun same => here (Path.key_injective same).symm
        cases d[p]? with
        | none => simpa [here] using ih
        | some f => simpa [here, getElem?_insert, differs] using ih
  refine (held _).trans ?_
  split
  case isTrue => rfl
  case isFalse unlisted =>
    have absent : q ∉ d := fun present => unlisted (covers q (mem_keys.mpr present))
    rw [getElem?_eq_none absent]
    rfl

theorem wellFormed_of_keys {t : Files Nat} (checked : ∀ k ∈ t.keys, ∀ p ∈ k.inits, p ≠ k → t[p]? = some .dir) :
    t.WellFormed := by
  intro p n q present
  have listed : p ++ n :: q ∈ t.keys := by
    rwa [mem_keys, mem_iff_isSome_getElem?, Option.isSome_iff_ne_none]
  exact checked _ listed p ((List.mem_inits ..).mpr (List.prefix_append ..)) (by simp)

theorem machine_site {d d' : DataDir} (absent : [1] ∉ machine d)
    (isDir : (machine d)[[0]]? = some .dir ∧ (machine d')[[0]]? = some .dir) (wellFormed : (machine d).WellFormed)
    (wellFormed' : (machine d').WellFormed)
    (clear : ∀ p ∈ List.inits [1], (machine d')[p]? = none ∨ (machine d')[p]? = some .dir)
    (covers : ∀ p ∈ d'.keys, p ∈ [Path.current, .manifest 1, .wal 1, .wal 2, .dek 0]) :
    Site Path.key [0] [1] (machine d) (machine d') d' := by
  refine ⟨absent, isDir, ⟨wellFormed, wellFormed'⟩, fun p outside => ?_, fun p above content found => ?_,
    fun name within => ?_, machine_holds covers⟩
  · have other : ∀ r ∈ [Path.current, .manifest 1, .wal 1, .wal 2, .dek 0], 0 :: r.key ≠ p := by
      rintro r _ rfl
      exact outside (by simp)
    rw [machine_elsewhere other, machine_elsewhere other]
  · have listed := clear p ((List.mem_inits ..).mpr above)
    simp [found] at listed
  · have shorter := within.length_le
    simp at shorter

/-- A store that was just opened: the snapshot to a directory in its own does not end, and the one to
another directory cannot be restored. -/
theorem fresh_store_not_backed_up : ∃ start : Opened,
    (openWithKeyring .plain .envelope).run ∅ = (start.dir, .ok start.store) ∧ [0, 9] ∉ machine start.dir ∧
    (∀ fuel, start.store.snapshot (fun _ => "") List.length .plain ∅ machine [0] [0, 9] start.dir fuel = none) ∧
    ∃ fuel d s tree info,
      start.store.snapshot (fun _ => "") List.length .plain ∅ machine [0] [1] start.dir fuel =
        some (d, .ok (s, tree, info)) ∧ [2] ∉ tree ∧
      ∀ fuel', restoreSnapshot Path.key (fun _ => "") List.length tree [1] [2] fuel' =
        some (.error (.invalidArgument " is not a snapshot (no CURRENT)")) := by
  have evaluated : ((openWithKeyring .plain .envelope).run ∅).2.toOption.map (fun s =>
      let files := machine ((openWithKeyring .plain .envelope).run ∅).1
      (decide (s.nextLsn - 1 ≤ s.lastCheckpointedLsn ∧ [0, 9] ∉ files ∧ [1] ∉ files ∧
          ∀ p ∈ List.inits [0, 9], files[p]? = none ∨ files[p]? = some .dir),
        (copyTree List.length 4 files [0] [1]).map fun c => decide ([2] ∉ c.tree ∧ [1] ++ Path.current.key ∉ c.tree))) =
      some (true, some true) := by
    decide +kernel
  obtain ⟨s, isOk, values⟩ := map_eq_some_iff.mp evaluated
  obtain ⟨checks, copies⟩ := Prod.mk.inj values
  obtain ⟨early, below, apart, clear⟩ := of_decide_eq_true checks
  obtain ⟨c, copied, free⟩ := map_eq_some_iff.mp copies
  obtain ⟨fresh, missing⟩ := of_decide_eq_true free
  have opened := Prog.run_of_toOption isOk
  have checkpointed : (s.checkpointWithIndexSnapshots .plain ∅).run ((openWithKeyring .plain .envelope).run ∅).1 =
      (((openWithKeyring .plain .envelope).run ∅).1, .ok s) := by
    simp only [Store.checkpointWithIndexSnapshots, if_pos early]
    rfl
  have taken : s.snapshot (fun _ => "") List.length .plain ∅ machine [0] [1]
      ((openWithKeyring .plain .envelope).run ∅).1 4 =
        some (((openWithKeyring .plain .envelope).run ∅).1, .ok (s, c.tree, ⟨s.manifestVersion, c.files, c.bytes⟩)) := by
    rw [Store.snapshot_eq apart checkpointed, copied]
    rfl
  refine ⟨⟨s, _⟩, opened, below, fun fuel => ?_, 4, _, s, c.tree, _, taken, fresh, fun fuel' => ?_⟩
  · have endless : copyTree List.length fuel (machine ((openWithKeyring .plain .envelope).run ∅).1) [0] [0, 9] = none := by
      refine copyTree_below (List.prefix_refl [0, 9]) (fun p above content found => ?_) fun q => ?_
      · have listed := clear p ((List.mem_inits ..).mpr above)
        simp [found] at listed
      · rw [machine_elsewhere (by simp [Path.key])]
        simp [machineDirs]
    rw [Store.snapshot_eq below checkpointed, endless]
    rfl
  · rw [restoreSnapshot, if_neg fresh, if_pos missing]
    rfl

/-- A store with one collection, backed up beside its directory. -/
theorem snapshot_faithful_created : ∃ (start t : Opened) (s' : Store) (d' : DataDir),
    (openWithKeyring .plain .envelope).run ∅ = (start.dir, .ok start.store) ∧ t = start.serve .plain createOne ∧
    (t.store.checkpointWithIndexSnapshots .plain ∅).run t.dir = (d', .ok s') ∧
    Site Path.key [0] [1] (machine t.dir) (machine d') d' ∧
    ∃ fuel result, t.store.snapshot (fun _ => "") List.length .plain ∅ machine [0] [1] t.dir fuel = some result := by
  have evaluated : ((openWithKeyring .plain .envelope).run ∅).2.toOption.bind (fun s =>
      let t := (Opened.mk s ((openWithKeyring .plain .envelope).run ∅).1).serve .plain createOne
      let ran := (t.store.checkpointWithIndexSnapshots .plain ∅).run t.dir
      ran.2.toOption.map fun _ => decide ([1] ∉ machine t.dir ∧
        ((machine t.dir)[[0]]? = some .dir ∧ (machine ran.1)[[0]]? = some .dir) ∧
        (∀ k ∈ (machine t.dir).keys, ∀ p ∈ k.inits, p ≠ k → (machine t.dir)[p]? = some .dir) ∧
        (∀ k ∈ (machine ran.1).keys, ∀ p ∈ k.inits, p ≠ k → (machine ran.1)[p]? = some .dir) ∧
        (∀ p ∈ List.inits [1], (machine ran.1)[p]? = none ∨ (machine ran.1)[p]? = some .dir) ∧
        ∀ p ∈ ran.1.keys, p ∈ [Path.current, .manifest 1, .wal 1, .wal 2, .dek 0])) = some true := by
    decide +kernel
  obtain ⟨s, isOk, rest⟩ := Option.bind_eq_some_iff.mp evaluated
  obtain ⟨s', isOk', checks⟩ := map_eq_some_iff.mp rest
  obtain ⟨absent, isDir, wellFormed, wellFormed', clear, covers⟩ := of_decide_eq_true checks
  have opened := Prog.run_of_toOption isOk
  have checkpointed := Prog.run_of_toOption isOk'
  have site := machine_site absent isDir (wellFormed_of_keys wellFormed) (wellFormed_of_keys wellFormed') clear covers
  exact ⟨⟨s, _⟩, _, s', _, opened, rfl, checkpointed, site,
    (snapshot_faithful opened (Run.Reaches.refl.next (.request createOne)) checkpointed site).1.mpr (by simp)⟩

end Quiver.Core
