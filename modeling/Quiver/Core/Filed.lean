import Quiver.Core.History
import Quiver.Core.Sec

/-!
The secondary indexes in every run of a store. A segment is opened with an index over its own rows when it
is written, whatever was on the disk before; no operation changes it later, and opening the store reads it
back.
-/

namespace Quiver.Core

open FileSystem Results Prog
open Std (ExtTreeMap)

section Segments

variable {filterable : List FilterableField} {seg : SealedSegment} {c : CollectionState}

/-- The index of a segment is over these fields and the payloads that the segment reads. -/
def SealedSegment.SecOver (filterable : List FilterableField) (seg : SealedSegment) : Prop :=
  ∃ payloads, seg.sec = some ⟨filterable, payloads⟩ ∧ payloads.length = seg.rowCount ∧
    ∀ {i : Nat} {p : Bytes}, payloads[i]? = some p → seg.readPayload i = .ok p

theorem SealedSegment.SecOver.markDead (isOver : seg.SecOver filterable) (rows : Bitmap) :
    (seg.markDead rows).SecOver filterable := isOver

theorem sealedSegment_secOver (declared : filterable ≠ []) (segmentId : Nat) (rows : List SealRow) (dead : Bitmap) :
    (sealedSegment segmentId rows filterable dead).SecOver filterable := by
  refine ⟨rows.map (·.payload), ?_, by simp [SealedSegment.rowCount, sealedSegment], fun {i p} here => ?_⟩
  · simp [sealedSegment, segmentFiles, declared]
  · obtain ⟨row, found, rfl⟩ := Option.map_eq_some_iff.mp (List.getElem?_map ▸ here)
    exact sealedSegment_readPayload found

theorem secOver_of_written (declared : filterable ≠ []) {d : DataDir} {cid : CollectionId} {segId : Nat} {codec : Key}
    {rows : List SealRow} (loaded : loadSegment (applyAll d (writeSegment cid segId codec
      (segmentFiles segId rows filterable))) cid segId codec = .ok seg) : seg.SecOver filterable := by
  obtain ⟨vec, pay, ids, dir⟩ := writeSegment_columns d cid segId codec (segmentFiles segId rows filterable)
  have sec := writeSegment_sec d cid segId codec (segmentFiles segId rows filterable)
  have isSome : (segmentFiles segId rows filterable).sec = some ⟨filterable, rows.map (·.payload)⟩ := by
    simp [segmentFiles, declared]
  rw [isSome, Option.map_some, Option.some_or] at sec
  generalize applyAll d (writeSegment cid segId codec (segmentFiles segId rows filterable)) = d' at *
  have present : Path.segment cid segId .sec ∈ d' := by
    rw [ExtTreeMap.mem_iff_isSome_getElem?, sec]
    rfl
  have hasSec : readSec d' cid segId codec = .ok (segmentFiles segId rows filterable).sec := by
    simp only [readSec, present, if_true, readPaged, sec, File.content, List.append_nil, ok_bind, isSome]
  simp only [loadSegment, readDir, readPaged, dir, readColumn, vec, pay, ids, File.content, List.append_nil,
    ok_bind, if_true, hasSec] at loaded
  obtain ⟨dead, _, opened⟩ := bind_eq_ok.mp loaded
  rw [openSegment_segmentFiles] at opened
  cases opened
  exact sealedSegment_secOver declared segId rows dead

/-- If fields are declared, every segment has its index. -/
def CollectionState.Filed (c : CollectionState) : Prop :=
  c.descriptor.filterable ≠ [] → ∀ seg ∈ c.sealed, seg.SecOver c.descriptor.filterable

variable {c' : CollectionState}

/-- What is buffered does not matter. -/
theorem CollectionState.Filed.of_base (filed : c.Filed) (same : c'.base = c.base) : c'.Filed := by
  have descriptor : c'.base.descriptor = c.base.descriptor := by rw [same]
  have sealed : c'.base.sealed = c.base.sealed := by rw [same]
  change c'.descriptor = c.descriptor at descriptor
  intro declared seg inside
  rw [descriptor] at declared ⊢
  exact filed declared seg (sealed ▸ inside)

theorem CollectionState.Filed.indexed (filed : c.Filed) (declared : c.descriptor.filterable ≠ [])
    {rows : List (List SealRow)} (inv : c.Inv rows) : c.Indexed rows := by
  intro i seg ids isSeg isRows
  obtain ⟨payloads, isSec, length, reads⟩ := filed declared seg (List.mem_of_getElem? isSeg)
  obtain ⟨ids', isRows', holds⟩ := inv.rowsAt isSeg
  cases isRows.symm.trans isRows'
  have same : payloads = ids.map (·.payload) := by
    refine List.ext_getElem? fun j => ?_
    rw [List.getElem?_map]
    by_cases bound : j < payloads.length
    · have bound' : j < ids.length := by rw [← holds.rowCount, ← length]; exact bound
      have read := reads (List.getElem?_eq_getElem bound)
      rw [holds.readPayload (List.getElem?_eq_getElem bound')] at read
      rw [List.getElem?_eq_getElem bound, List.getElem?_eq_getElem bound', Option.map_some, Except.ok.inj read]
    · rw [List.getElem?_eq_none (Nat.le_of_not_lt bound), List.getElem?_eq_none, Option.map_none]
      rw [← holds.rowCount, ← length]
      exact Nat.le_of_not_lt bound
  simp [isSec, segmentFiles, declared, same]

theorem CollectionState.Filed.install (filed : c.Filed) {pending : List (SegmentRef × SealedSegment)}
    (written : c.descriptor.filterable ≠ [] → ∀ p ∈ pending, p.2.SecOver c.descriptor.filterable)
    (snapshot : Option IndexSnapshotRef) : (c.install pending snapshot).Filed := by
  intro declared seg inside
  obtain old | new := List.mem_append.mp inside
  · obtain ⟨i, bound, rfl⟩ := List.mem_mapIdx.mp old
    exact (filed declared _ (List.getElem_mem bound)).markDead _
  · obtain ⟨p, member, rfl⟩ := List.mem_map.mp new
    exact written declared p member

theorem CollectionState.Filed.replaceSegments {merged : SealedSegment} (ref : SegmentRef)
    (written : c.descriptor.filterable ≠ [] → merged.SecOver c.descriptor.filterable) :
    (c.replaceSegments ref merged).Filed := by
  intro declared seg inside
  rw [List.mem_singleton.mp inside]
  exact written declared

end Segments

/-- Every collection has the indexes of its segments. -/
def Catalog.Filed (cat : Catalog) : Prop :=
  ∀ (k : CollectionId) (c : CollectionState), cat.collections[k]? = some c → c.Filed

namespace Catalog.Filed

variable {cat cat' : Catalog} {k : CollectionId}

theorem insert (filed : cat.Filed) {c : CollectionState} (new : c.Filed) (names : ExtTreeMap String CollectionId) :
    Catalog.Filed ⟨cat.collections.insert k c, names⟩ := by
  intro j b found
  obtain ⟨_, rfl⟩ | ⟨_, found⟩ := Maps.of_insert found
  · exact new
  · exact filed j b found

theorem erase (filed : cat.Filed) (names : ExtTreeMap String CollectionId) :
    Catalog.Filed ⟨cat.collections.erase k, names⟩ :=
  fun j b found => filed j b (Maps.of_erase found).2

theorem modify (filed : cat.Filed) {f : CollectionState → Except CoreError CollectionState}
    (keeps : ∀ {c c' : CollectionState}, c.Filed → f c = .ok c' → c'.Filed) (changed : cat.modify k f = .ok cat') : cat'.Filed := by
  unfold Catalog.modify at changed
  split at changed
  · contradiction
  · rename_i c found
    obtain ⟨c', made, rest⟩ := bind_eq_ok.mp changed
    cases rest
    exact filed.insert (keeps (filed k c found) made) _

theorem applyUpserts (filed : cat.Filed) (records : List (String × List F32 × Bytes)) :
    (cat.applyUpserts k records).1.Filed := by
  induction records generalizing cat with
  | nil => exact filed
  | cons record records ih =>
    unfold Catalog.applyUpserts
    split
    · exact filed
    · rename_i changed
      exact ih (filed.modify (fun old made => old.of_base (CollectionState.base_applyUpsert made)) changed)

end Catalog.Filed

section Requests

variable (encoding : Encoding) {s : Store} {α : Type}

theorem filed_logged (filed : s.catalog.Filed) {entries : List WalEntry} {io : WalIo}
    {next : Store → Store × Except CoreError α} (goesOn : ∀ t : Store, t.catalog.Filed → (next t).1.catalog.Filed) :
    (s.logged encoding entries io next).store.catalog.Filed := by
  unfold Store.logged
  dsimp only
  split
  · exact filed
  · exact goesOn _ filed

theorem filed_install (filed : s.catalog.Filed) {changed : Except CoreError Catalog} {answer : α}
    (changes : ∀ cat, changed = .ok cat → cat.Filed) : (s.install changed answer).1.catalog.Filed := by
  unfold Store.install
  split
  · exact filed
  · exact changes _ rfl

theorem filed_serve (filed : s.catalog.Filed) (d : DataDir) (io : WalIo) (asked : Request) :
    (s.serve encoding d io asked).store.catalog.Filed := by
  cases asked with
  | createCollection name descriptor entropy =>
    simp only [Store.serve, Outcome.forget, Store.createCollection]
    split
    · exact filed
    · exact filed
    · refine filed_logged encoding filed fun t filed => ?_
      split
      · exact filed
      · exact filed.insert (fun _ seg inside => absurd inside List.not_mem_nil) _
  | dropCollection name =>
    simp only [Store.serve, Outcome.forget, Store.dropCollection]
    split
    · exact filed
    · exact filed_logged encoding filed fun t filed => filed.erase _
  | upsert cid id vector payload =>
    simp only [Store.serve, Outcome.forget, Store.upsert]
    split
    · exact filed
    · refine filed_logged encoding filed fun t filed => filed_install ?_ fun cat changed => ?_
      · exact filed
      · exact filed.modify (fun old made => old.of_base (CollectionState.base_applyUpsert made)) changed
  | upsertBatch cid records =>
    simp only [Store.serve, Outcome.forget, Store.upsertBatch]
    split
    · exact filed
    split
    · exact filed
    · refine filed_logged encoding ?_ fun t filed => ?_
      · exact filed
      have kept := filed.applyUpserts (k := cid) records
      split
      · rename_i is
        rw [is] at kept
        exact kept
      · rename_i is
        rw [is] at kept
        exact kept
  | delete cid id =>
    simp only [Store.serve, Outcome.forget, Store.delete]
    split
    · exact filed
    split
    · exact filed
    · exact filed
    · refine filed_logged encoding filed fun t filed => filed_install ?_ fun cat changed => ?_
      · exact filed
      · refine filed.modify (fun old made => ?_) changed
        obtain ⟨⟨c', existed⟩, deleted, rest⟩ := bind_eq_ok.mp made
        cases rest
        exact old.of_base (CollectionState.base_applyDelete deleted)

end Requests

section Maintenance

variable {encoding : Encoding} {s : Store}

theorem returns_written {β : Type} {cid : CollectionId} {segId : Nat} {codec : Key} {rows : List SealRow}
    {filterable : List FilterableField} {next : SealedSegment → Io β} {post : β → Prop}
    (goesOn : ∀ seg : SealedSegment, (filterable ≠ [] → seg.SecOver filterable) → (next seg).Returns post) :
    (do
      performAll (writeSegment cid segId codec (segmentFiles segId rows filterable))
      let seg ← read fun d => loadSegment d cid segId codec
      next seg : Io β).Returns post := by
  intro d b result
  obtain ⟨_, _, result⟩ := bind_ok result
  obtain ⟨seg, loaded, result⟩ := bind_ok result
  exact goesOn seg (fun declared => secOver_of_written declared loaded) _ b result

/-- The segments that a checkpoint has written for the collections of a store have their indexes. -/
def Store.Sealed.Filed (s : Store) (σ : Store.Sealed) : Prop :=
  ∀ c : CollectionState, s.catalog.collections[c.id]? = some c → c.descriptor.filterable ≠ [] →
    ∀ p ∈ σ.segments c, p.2.SecOver c.descriptor.filterable

theorem returns_sealCollection {c : CollectionState} (known : s.catalog.collections[c.id]? = some c) (lastLsn : Lsn)
    {σ : Store.Sealed} (filed : σ.Filed s) :
    (s.sealCollection lastLsn σ c).Returns (Store.Sealed.Filed s) := by
  unfold Store.sealCollection
  split
  · refine returns_skip fun _ => returns_skip fun _ => ?_
    split
    · exact returns_pure filed
    · refine returns_written fun seg isOver => returns_pure fun other found declared p member => ?_
      by_cases same : other.id = c.id
      · rw [same, known] at found
        cases found
        rw [Store.Sealed.segments_add, List.mem_singleton] at member
        rw [member]
        exact isOver declared
      · rw [Store.Sealed.segments_add_other same] at member
        exact filed other found declared p member
  · exact returns_pure filed

theorem returns_compactCollection (filed : s.catalog.Filed) (cid : CollectionId) :
    (s.compactCollection encoding cid).Returns fun s' => s'.catalog.Filed := by
  unfold Store.compactCollection
  refine returns_skip fun c => returns_skip fun rows => returns_skip fun _ => ?_
  refine returns_written fun seg isOver => returns_skip fun _ => returns_skip fun _ => ?_
  refine returns_skip fun _ => returns_pure ?_
  exact filed.insert (CollectionState.Filed.replaceSegments _ isOver) _

theorem returns_autoCompact (filed : s.catalog.Filed) :
    (s.autoCompact encoding).Returns fun s' => s'.catalog.Filed := by
  unfold Store.autoCompact
  split
  · exact returns_compactCollection filed _
  · exact returns_pure filed

theorem returns_compact (filed : s.catalog.Filed) :
    (s.compact encoding).Returns fun s' => s'.catalog.Filed := by
  refine returns_foldlM _ filed fun cid _ s' filed => ?_
  split
  · exact returns_compactCollection filed cid
  · exact returns_pure filed

theorem returns_rotateWal (s : Store) : s.rotateWal.Returns fun s' => s'.catalog = s.catalog := by
  unfold Store.rotateWal
  refine returns_skip fun _ => returns_skip fun _ => ?_
  exact returns_skip fun _ => returns_pure rfl

theorem returns_checkpoint (filed : s.catalog.Filed)
    (ids : ∀ {k : CollectionId} {c : CollectionState}, s.catalog.collections[k]? = some c → c.id = k)
    (snapshots : ExtTreeMap CollectionId Bytes) :
    (s.checkpointWithIndexSnapshots encoding snapshots).Returns fun s' => s'.catalog.Filed := by
  have known : ∀ c ∈ s.catalog.collections.toList.map Prod.snd, s.catalog.collections[c.id]? = some c := by
    intro c member
    obtain ⟨⟨k, c⟩, inside, rfl⟩ := List.mem_map.mp member
    have found := ExtTreeMap.mem_toList_iff_getElem?_eq_some.mp inside
    exact (ids found).symm ▸ found
  unfold Store.checkpointWithIndexSnapshots
  dsimp only
  split
  · exact returns_pure filed
  refine returns_bind _ (returns_foldlM (Store.Sealed.Filed s) ?_ fun c member σ filed =>
    returns_sealCollection (known c member) _ filed) fun σ written => ?_
  · intro c _ _ p member
    simp [Store.Sealed.segments] at member
  refine returns_skip fun _ => returns_skip fun _ => ?_
  refine returns_bind _ (returns_rotateWal _) fun s' sameCatalog => ?_
  refine returns_skip fun _ => returns_skip fun _ => returns_autoCompact ?_
  rw [sameCatalog]
  intro k c found
  simp only [ExtTreeMap.getElem?_map, Option.map_eq_some_iff] at found
  obtain ⟨c, found, rfl⟩ := found
  exact (filed k c found).install (written c ((ids found).symm ▸ found)) _

end Maintenance

namespace Standing

variable {encoding : Encoding} {ring : KeyRing} {s s' : Store} {d d' mid : DataDir} {img : Image} {mem : Logical}

theorem filed_reopen (standing : Standing encoding ring s d img mem) (filed : s.catalog.Filed) (crashed : Crashed d mid)
    (ran : (openWithKeyring encoding ring).run mid = (d', .ok s')) : s'.catalog.Filed := by
  obtain ⟨kept, s'', d'', files, isKept, opened, after, tail, _⟩ := standing.reopens crashed
  rw [ran] at opened
  cases opened
  intro k c' found'
  obtain ⟨fresh, base⟩ | ⟨_, bare⟩ := after.running.backed.sealed found'
  swap
  · intro _ seg inside
    rw [bare.sealed] at inside
    exact absurd inside List.not_mem_nil
  rw [tail, created_append, not_or] at fresh
  have same := standing.kept_sameCatalog isKept
  obtain ⟨e, held, _⟩ := after.running.represents.some_left found'
  obtain ⟨e', held', _⟩ := same.some_left held
  obtain ⟨c, found, _⟩ := standing.running.represents.some_right held'
  obtain ⟨_, base'⟩ | ⟨created, _⟩ := standing.running.backed.sealed found
  · exact (filed k c found).of_base (Option.some.inj (base.symm.trans base'))
  · exact absurd created fresh.1

theorem filed_fresh (opened : (openWithKeyring encoding ring).run ∅ = (d, .ok s)) : s.catalog.Filed := by
  obtain ⟨files, mem, standing, tail, _⟩ := fresh opened
  intro k c found
  obtain ⟨_, base⟩ | ⟨created, _⟩ := standing.running.backed.sealed found
  · simp [Image.initial] at base
  · simp [tail, Created] at created

theorem filed_shred (standing : Standing encoding ring s d img mem) (filed : s.catalog.Filed) {name : String} {existed : Bool}
    (ran : (s.shredCollection encoding name).run d = (d', .ok (s', existed))) : s'.catalog.Filed := by
  obtain ⟨_, _, dropped, _⟩ := step (t := ⟨s, d⟩) standing (.request (.dropCollection name))
  have filedDropped := filed_serve encoding filed d .ok (.dropCollection name)
  have returns : (s.shredCollection encoding name).Returns fun a => a.1.catalog.Filed := by
    unfold Store.shredCollection
    split
    · exact returns_pure filed
    · refine returns_bind (fun a => a.1 = (s.dropCollection encoding name .ok).store) (fun d a result => ?_)
        fun a is => ?_
      · simp only [Outcome.perform] at result
        cases answered : (s.dropCollection encoding name .ok).result with
        | error error =>
          rw [answered] at result
          cases result
        | ok existed =>
          rw [answered] at result
          cases result
          rfl
      · refine returns_bind _ (returns_checkpoint ?_ ?_ ∅) fun s' filed => ?_
        · rw [is]
          exact filedDropped
        · rw [is]
          exact fun found => dropped.running.represents.id_eq found
        · exact returns_skip fun _ => returns_pure filed
  exact returns.of_run ran

theorem filed_step {t t' : Opened} {command : Command} (standing : Standing encoding ring t.store t.dir img mem)
    (filed : t.store.catalog.Filed) (stepped : Opened.Step encoding ring t command t') : t'.store.catalog.Filed := by
  cases stepped with
  | request asked => exact filed_serve encoding filed _ _ asked
  | checkpoint snapshots ran =>
    exact (returns_checkpoint filed (fun found => standing.running.represents.id_eq found) snapshots).of_run ran
  | compact ran => exact (returns_compact filed).of_run ran
  | shred name existed ran => exact standing.filed_shred filed ran
  | reopen crashed ran => exact standing.filed_reopen filed crashed ran

theorem filed_reached {start t : Opened} {commands : List Command}
    (opened : (openWithKeyring encoding ring).run ∅ = (start.dir, .ok start.store))
    (run : Run.Reaches (Opened.Step encoding ring) start commands t) :
    (∃ img mem, Standing encoding ring t.store t.dir img mem) ∧ t.store.catalog.Filed := by
  refine run.invariant (fun _ t => (∃ img mem, Standing encoding ring t.store t.dir img mem) ∧ t.store.catalog.Filed)
    ⟨reached opened .refl, filed_fresh opened⟩ ?_
  rintro _ t _ t' ⟨⟨img, mem, standing⟩, filed⟩ stepped
  obtain ⟨img', mem', after, _⟩ := standing.step stepped
  exact ⟨⟨img', mem', after⟩, standing.filed_step filed stepped⟩

end Standing

section Exact

variable {encoding : Encoding} {ring : KeyRing}

theorem matchingIds_ascending {parse : Parse} {c : CollectionState} {predicate : SecPredicate} {ids : List String}
    (isOk : c.matchingIds parse predicate = .ok ids) : ids.Pairwise (· < ·) := by
  unfold CollectionState.matchingIds at isOk
  split at isOk
  · contradiction
  · obtain ⟨sealed, _, rest⟩ := bind_eq_ok.mp isOk
    cases rest
    generalize sealed.flatten ++ _ = all
    have sorted := (List.pairwise_insertionSort (· ≤ ·) all).sublist (List.dedup_sublist _)
    exact (sorted.and (List.nodup_dedup _)).imp fun both => lt_of_le_of_ne both.1 both.2

/-- In every run of a store, for every predicate on a declared field, the ids that match are found
without error: in order, each once, and exactly those of the rows whose payload matches. -/
theorem matching_ids_exact (parse : Parse) {start t : Opened} {commands : List Command}
    (opened : (openWithKeyring encoding ring).run ∅ = (start.dir, .ok start.store))
    (run : Run.Reaches (Opened.Step encoding ring) start commands t) {k : CollectionId} {c : CollectionState}
    (found : t.store.catalog.collections[k]? = some c) {predicate : SecPredicate} {field : FilterableField}
    (declared : (c.descriptor.filterable.find? fun f => f.path == predicate.field) = some field) :
    ∃ ids, c.matchingIds parse predicate = .ok ids ∧ ids.Pairwise (· < ·) ∧ ∀ id, id ∈ ids ↔ ∃ record,
      c.get id = .ok (some record) ∧ payloadMatches parse predicate field.fieldType record.payload = true := by
  obtain ⟨⟨img, mem, standing⟩, filed⟩ := Standing.filed_reached opened run
  obtain ⟨e, _, stands⟩ := standing.running.represents.some_left found
  obtain ⟨rows, inv, content⟩ := stands.points
  have some : c.descriptor.filterable ≠ [] := by
    intro none
    simp [none] at declared
  obtain ⟨ids, isOk, members⟩ : ∃ ids, c.matchingIds parse predicate = .ok ids ∧ _ :=
    inv.matchingIds ((filed k c found).indexed some inv) declared
  refine ⟨ids, isOk, matchingIds_ascending isOk, fun id => ?_⟩
  simp only [members, stands.points.get, Except.ok.injEq, content]

def declareOne : Request :=
  .createCollection "c" { dim := 1, metric := .l2, filterable := [⟨"n", .numeric⟩] } default

/-- Payloads that are all read as `n = 1`. -/
def readOne : Parse := fun _ => some (.object [("n", .number (.posInt 1))])

def isOne : SecPredicate := .eq "n" (.numeric (Double.ofInt 1))

/-- A sealed row is found by its field. -/
theorem matching_ids_exact_sealed : ∃ (start t : Opened) (c : CollectionState),
    (openWithKeyring .plain .envelope).run ∅ = (start.dir, .ok start.store) ∧
      Run.Reaches (Opened.Step .plain .envelope) start [.request declareOne, .request fillOne, .checkpoint ∅] t ∧
      t.store.catalog.collections[0]? = some c ∧ c.sealed.length = 1 ∧ c.matchingIds readOne isOne = .ok ["a"] ∧
      ∃ ids, c.matchingIds readOne isOne = .ok ids ∧ ids.Pairwise (· < ·) ∧ ∀ id, id ∈ ids ↔ ∃ record,
        c.get id = .ok (some record) ∧ payloadMatches readOne isOne .numeric record.payload = true := by
  have evaluated : (((openWithKeyring .plain .envelope).run ∅).2.toOption.bind fun s =>
      let t := ((Opened.mk s ((openWithKeyring .plain .envelope).run ∅).1).serve .plain declareOne).serve .plain fillOne
      ((t.store.checkpointWithIndexSnapshots .plain ∅).run t.dir).2.toOption.bind fun s' =>
        (s'.catalog.collections[0]?).map fun c => (c.sealed.length, c.descriptor.filterable,
          (c.matchingIds readOne isOne).toOption)) = some (1, [⟨"n", .numeric⟩], some ["a"]) := by
    decide +kernel
  obtain ⟨s, isOk, evaluated⟩ := Option.bind_eq_some_iff.mp evaluated
  obtain ⟨s', sealed, evaluated⟩ := Option.bind_eq_some_iff.mp evaluated
  obtain ⟨c, found, evaluated⟩ := Option.map_eq_some_iff.mp evaluated
  obtain ⟨one, evaluated⟩ := Prod.mk.inj evaluated
  obtain ⟨fields, matching⟩ := Prod.mk.inj evaluated
  have opened := run_of_toOption isOk
  have run : Run.Reaches (Opened.Step .plain .envelope) ⟨s, ((openWithKeyring .plain .envelope).run ∅).1⟩
      [.request declareOne, .request fillOne, .checkpoint ∅] ⟨s', _⟩ :=
    ((Run.Reaches.refl.next (.request declareOne)).next (.request fillOne)).next
      (.checkpoint ∅ (run_of_toOption sealed))
  have declared : (c.descriptor.filterable.find? fun f => f.path == isOne.field) = some ⟨"n", .numeric⟩ := by
    rw [fields]
    rfl
  exact ⟨_, _, c, opened, run, found, one, toOption_eq_some.mp matching,
    matching_ids_exact readOne opened run found declared⟩

end Exact

end Quiver.Core
