import Quiver.Core.Thinning

/-!
The first phase of a checkpoint: every collection's tombstones are rewritten and its active
buffer is written as a new segment. Until the manifest is swapped the directory still holds
the old image, with some of the dead rows gone.
-/

namespace Quiver.Core

open FileSystem Prog
open Std (ExtTreeMap)
open List (forall_mem_append forall_mem_singleton mem_append mem_cons mem_cons_of_mem mem_cons_self mem_singleton)

variable {encoding : Encoding} {ring : KeyRing} {s : Store} {img img' : Image} {mem : Logical}
  {d d' mid : DataDir} {c : CollectionState}

/-- Another image of the same manifest and log, with other contents of its segments. -/
def Image.Thins (img img' : Image) : Prop := img' = { img with base := img'.base, loaded := img'.loaded }

variable (encoding ring) in
/-- The directory holds the image with some rows gone that the log makes up for. -/
def Image.Thinned (img : Image) (d d' : DataDir) : Prop :=
  ∃ img', img.Thins img' ∧ img'.On encoding ring d' ∧ img'.Sound encoding ∧
    ∀ p, img.Needed p → (∀ cid seg, p ≠ .segment cid seg .del) → d'[p]? = d[p]?

theorem Image.Thins.trans {img'' : Image} (first : img.Thins img') (second : img'.Thins img'') :
    img.Thins img'' := by
  unfold Image.Thins at *
  rw [second, first]

theorem Image.Thins.tail (thins : img.Thins img') : img'.tail = img.tail := by
  rw [thins]
  rfl

theorem Image.Thins.pending (thins : img.Thins img') : img'.pending = img.pending := by
  rw [thins]
  rfl

theorem Image.thins_thin (img : Image) (k : CollectionId) (b : CollectionState) (e : LogicalCollection) :
    img.Thins (img.thin k b e) := rfl

namespace Running

section

variable (running : Running encoding ring s d img mem)
include running

variable (found : s.catalog.collections[c.id]? = some c)
include found

theorem loaded : (¬ Created img.tail c.id ∧ img.base.collections[c.id]? = some c.base ∧
      ∃ entry ∈ img.mfst.collections, entry.id = c.id ∧ Loaded encoding ring d entry c.base) ∨
    Created img.tail c.id ∧ c.Bare := by
  refine (running.backed.sealed found).imp_left fun ⟨fresh, base⟩ => ⟨fresh, base, ?_⟩
  exact loadCatalog_found running.on.loads base

theorem segId_lt {seg : SealedSegment} (inside : seg ∈ c.sealed) :
    seg.segId < s.nextSegmentId := by
  obtain ⟨_, _, entry, member, _, loaded⟩ | ⟨_, bare⟩ := running.loaded found
  · obtain ⟨lengths, each⟩ := Results.forall₂_getElem?.mp loaded.sealed
    obtain ⟨i, isSeg⟩ := List.mem_iff_getElem?.mp inside
    have bound : i < entry.segments.length := lengths ▸ (List.getElem?_eq_some_iff.mp isSeg).1
    have isRef := List.getElem?_eq_getElem bound
    rw [loadSegment_segId (each i _ seg isRef isSeg)]
    exact Nat.lt_of_lt_of_le (running.sound.refs entry member _ (List.mem_of_getElem? isRef))
      running.nextSegment
  · rw [bare.sealed] at inside
    simp at inside

theorem segmentsMeta :
    (∀ ref ∈ c.segmentsMeta, ref.id < s.nextSegmentId) ∧ (c.segmentsMeta.map (·.id)).Nodup := by
  obtain ⟨_, _, entry, member, _, loaded⟩ | ⟨_, bare⟩ := running.loaded found
  · have same : c.segmentsMeta = entry.segments := loaded.segments
    rw [same]
    refine ⟨fun ref inside => ?_, running.sound.distinct.segments entry member⟩
    exact Nat.lt_of_lt_of_le (running.sound.refs entry member ref inside) running.nextSegment
  · simp [bare.segments]

theorem inv : ∃ rows, c.Inv rows := by
  obtain ⟨e, _, stands⟩ := running.represents.some_left found
  obtain ⟨rows, inv, _⟩ := stands.points
  exact ⟨rows, inv⟩

end

end Running

theorem Store.Sealed.segments_add (σ : Store.Sealed) (c : CollectionState) (ref : SegmentRef)
    (seg : SealedSegment) : (σ.add c ref seg).segments c = [(ref, seg)] := by
  simp [segments, add]

theorem Store.Sealed.segments_add_other {σ : Store.Sealed} {other : CollectionState} {ref : SegmentRef}
    {seg : SealedSegment} (differ : other.id ≠ c.id) : (σ.add c ref seg).segments other = σ.segments other := by
  simp [segments, add, ExtTreeMap.getElem?_insert, Ne.symm differ]

/-- What a checkpoint has written for a collection's buffer. -/
structure Store.Sealed.Written (σ : Store.Sealed) (first : Nat) (d : DataDir) (c : CollectionState) :
    Prop where
  pending : c.Pending (σ.segments c)
  loads : ∀ p ∈ σ.segments c, loadSegment d c.id p.1.id c.codec = .ok p.2
  range : ∀ p ∈ σ.segments c, first ≤ p.1.id ∧ p.1.id < σ.nextSegmentId
  settled : ∀ p ∈ σ.segments c, ∀ part, Settled d (.segment c.id p.1.id part)

theorem Store.Sealed.Written.congr {σ : Store.Sealed} {first : Nat} (isWritten : σ.Written first mid c)
    (same : ∀ seg part, first ≤ seg → d'[Path.segment c.id seg part]? = mid[Path.segment c.id seg part]?) :
    σ.Written first d' c where
  pending := isWritten.pending
  loads p member := by
    rw [loadSegment_congr fun part _ => same _ part (isWritten.range p member).1]
    exact isWritten.loads p member
  range := isWritten.range
  settled p member part f stored := by
    rw [same _ part (isWritten.range p member).1] at stored
    exact isWritten.settled p member part f stored

variable (encoding ring) in
/-- A checkpoint under way: the tombstones of the collections in `folded` are rewritten, and
the buffers of those in `written` are in segments. -/
structure Persisted (s : Store) (img : Image) (d : DataDir)
    (folded unfolded written unwritten : List CollectionState) (σ : Store.Sealed) (img' : Image)
    (d' : DataDir) : Prop where
  thins : img.Thins img'
  on : img'.On encoding ring d'
  sound : img'.Sound encoding
  folded : ∀ c ∈ folded, ¬ Created img.tail c.id →
    img'.base.collections[c.id]? = some (c.install [] c.indexSnapshot)
  unfolded : ∀ c ∈ unfolded, ¬ Created img.tail c.id → img'.base.collections[c.id]? = some c.base
  written : ∀ c ∈ written, σ.Written s.nextSegmentId d' c
  unwritten : ∀ c ∈ unwritten, σ.pending[c.id]? = none
  next : s.nextSegmentId ≤ σ.nextSegmentId
  fresh : ∀ {cid seg part}, σ.nextSegmentId ≤ seg → d'[Path.segment cid seg part]? = none
  same : ∀ p : Path, p.collection? = none → d'[p]? = d[p]?
  kept : ∀ p, img.Needed p → (∀ cid seg, p ≠ .segment cid seg .del) → d'[p]? = d[p]?

namespace Persisted

variable {folded unfolded written unwritten : List CollectionState} {σ : Store.Sealed}

theorem thinned (inv : Persisted encoding ring s img d folded unfolded written unwritten σ img' d') :
    img.Thinned encoding ring d d' :=
  ⟨img', inv.thins, inv.on, inv.sound, inv.kept⟩

theorem congr (inv : Persisted encoding ring s img d folded unfolded written unwritten σ img' mid)
    (segments : ∀ cid seg part, d'[Path.segment cid seg part]? = mid[Path.segment cid seg part]?)
    (outside : ∀ p : Path, p.collection? = none → d'[p]? = mid[p]?) :
    Persisted encoding ring s img d folded unfolded written unwritten σ img' d' := by
  have needed : ∀ {img : Image} p, img.Needed p → d'[p]? = mid[p]? := by
    intro img p isNeeded
    cases p with
    | segment cid seg part => exact segments cid seg part
    | current | manifest | wal | dek => exact outside _ rfl
    | _ => exact isNeeded.elim
  exact { inv with
    on := inv.on.congr needed
    written := fun c member => (inv.written c member).congr fun seg part _ => segments c.id seg part
    fresh := fun above => (segments _ _ _).trans (inv.fresh above)
    same := fun p isOutside => (outside p isOutside).trans (inv.same p isOutside)
    kept := fun p isNeeded other => (needed p isNeeded).trans (inv.kept p isNeeded other) }

theorem window (inv : Persisted encoding ring s img d folded (c :: unfolded) written unwritten σ img' mid)
    (running : Running encoding ring s d img mem) (found : s.catalog.collections[c.id]? = some c)
    (others : ∀ other ∈ folded ++ unfolded, other.id ≠ c.id) :
    (Store.writeWindow c).Spec mid (img.Thinned encoding ring d) fun _ d' =>
      ∃ img'', Persisted encoding ring s img d (folded ++ [c]) unfolded written unwritten σ img'' d' := by
  have low : ∀ {p : Path}, c.IsTombstone p →
      ∃ seg part, p = .segment c.id seg part ∧ seg < s.nextSegmentId ∧ (part = .del ∨ part = .delTmp) := by
    rintro p ⟨seg, inside, rfl | rfl⟩
    · exact ⟨_, _, rfl, running.segId_lt found inside, .inl rfl⟩
    · exact ⟨_, _, rfl, running.segId_lt found inside, .inr rfl⟩
  obtain ⟨fresh, _, _⟩ | ⟨created, bare⟩ := running.loaded found
  · have foldable : Foldable img' c := {
      found := inv.unfolded c (mem_cons_self ..) fresh
      fresh := by rw [inv.thins.tail]; exact fresh
      inv := running.inv found
      touched := fun id killed => by rw [inv.thins.tail]; exact running.backed.window found killed }
    have kept : ∀ {d' : DataDir}, (∀ p, ¬ c.IsTombstone p → d'[p]? = mid[p]?) → ∀ p, img.Needed p →
        (∀ cid seg, p ≠ .segment cid seg .del) → d'[p]? = d[p]? := by
      intro d' same p needed other
      refine (same p fun tombstone => ?_).trans (inv.kept p needed other)
      obtain ⟨seg, part, rfl, _, rfl | rfl⟩ := low tombstone
      · exact other _ _ rfl
      · exact needed.1 rfl
    refine Prog.Spec.weaken (writeWindow_spec foldable inv.on inv.sound fun segs e d' on sound same =>
      ⟨_, inv.thins.trans (img'.thins_thin ..), on, sound, kept same⟩) ?_
    rintro _ d' ⟨e, on, sound, same⟩
    refine ⟨_, inv.thins.trans (img'.thins_thin ..), on, sound, ?_, ?_, ?_, inv.unwritten, inv.next, ?_, ?_,
      kept same⟩
    · intro other member isFresh
      obtain before | rfl := mem_append.mp member |>.imp_right mem_singleton.mp
      · simp only [Image.thin, Maps.get_insert,
          Ne.symm (others other (List.mem_append_left _ before)), if_false]
        exact inv.folded other before isFresh
      · simp [Image.thin]
    · intro other member isFresh
      simp only [Image.thin, Maps.get_insert,
        Ne.symm (others other (List.mem_append_right _ member)), if_false]
      exact inv.unfolded other (mem_cons_of_mem _ member) isFresh
    · intro other member
      refine (inv.written other member).congr fun seg part above => same _ fun tombstone => ?_
      obtain ⟨seg', _, isPath, below, _⟩ := low tombstone
      injection isPath with _ isSeg
      exact absurd (isSeg ▸ above) (Nat.not_le.mpr below)
    · intro cid seg part above
      refine (same _ fun tombstone => ?_).trans (inv.fresh above)
      obtain ⟨seg', _, isPath, below, _⟩ := low tombstone
      injection isPath with _ isSeg
      exact absurd (Nat.le_trans inv.next (isSeg ▸ above)) (Nat.not_le.mpr below)
    · intro p outside
      refine (same p fun tombstone => ?_).trans (inv.same p outside)
      obtain ⟨_, _, rfl, _⟩ := low tombstone
      simp [Path.collection?] at outside
  · -- A collection that is not in the manifest yet has no segment to rewrite.
    refine Prog.Spec.weaken (spec_forM (fun _ d' => d' = mid) rfl (fun _ _ same => same ▸ inv.thinned) ?_) ?_
    · rintro done ⟨i, rows⟩ rest d' _ rfl
      simp only [bare.sealed, List.getElem?_nil]
      exact spec_pure inv.thinned rfl
    · rintro _ d' rfl
      exact ⟨img', { inv with
        folded := forall_mem_append.mpr ⟨inv.folded, forall_mem_singleton.mpr (absurd created)⟩
        unfolded := fun other member => inv.unfolded other (mem_cons_of_mem _ member) }⟩

theorem unwritten_nothing (inv : Persisted encoding ring s img d folded unfolded written unwritten σ img' mid)
    (member : c ∈ unwritten) (empty : c.activeIndex.isEmpty) : σ.Written s.nextSegmentId mid c := by
  have nothing : σ.segments c = [] := by
    simp [Store.Sealed.segments, inv.unwritten c member]
  refine ⟨?_, ?_, ?_, ?_⟩ <;> rw [nothing]
  · exact .nothing (ExtTreeMap.isEmpty_iff.mp empty)
  all_goals simp

/-- Files of a segment that is not referenced yet are no file that is needed. -/
theorem aside (inv : Persisted encoding ring s img d folded unfolded written unwritten σ img' mid)
    (running : Running encoding ring s d img mem) {cid : CollectionId}
    (same : ∀ p : Path, (∀ part, p ≠ .segment cid σ.nextSegmentId part) → d'[p]? = mid[p]?) :
    img'.On encoding ring d' ∧
      ∀ p, img.Needed p → (∀ cid seg, p ≠ .segment cid seg .del) → d'[p]? = d[p]? := by
  have needed : ∀ p, img.Needed p → d'[p]? = mid[p]? := by
    refine fun p isNeeded => same p ?_
    rintro part rfl
    obtain ⟨_, entry, member, _, ref, inside, isId⟩ := isNeeded
    have below := running.sound.refs entry member ref inside
    exact absurd (isId ▸ below) (Nat.not_lt.mpr (Nat.le_trans running.nextSegment inv.next))
  refine ⟨inv.on.congr fun p isNeeded => needed p ?_, fun p isNeeded other => ?_⟩
  · rw [inv.thins] at isNeeded
    exact isNeeded
  · exact (needed p isNeeded).trans (inv.kept p isNeeded other)

theorem add (inv : Persisted encoding ring s img d folded unfolded written (c :: unwritten) σ img' mid)
    (running : Running encoding ring s d img mem) (others : ∀ other ∈ written ++ unwritten, other.id ≠ c.id)
    (same : ∀ p : Path, (∀ part, p ≠ .segment c.id σ.nextSegmentId part) → d'[p]? = mid[p]?)
    (loads : loadSegment d' c.id σ.nextSegmentId c.codec =
      .ok (sealedSegment σ.nextSegmentId c.sealRows c.descriptor.filterable ∅))
    (settled : ∀ part, Settled d' (.segment c.id σ.nextSegmentId part)) (minLsn maxLsn : Lsn) :
    Persisted encoding ring s img d folded unfolded (written ++ [c]) unwritten
      (σ.add c ⟨σ.nextSegmentId, c.sealRows.length, minLsn, maxLsn⟩
        (sealedSegment σ.nextSegmentId c.sealRows c.descriptor.filterable ∅)) img' d' := by
  have sameOther : ∀ {cid : CollectionId} {seg : Nat} {part : SegmentPart},
      cid ≠ c.id ∨ seg ≠ σ.nextSegmentId →
      d'[Path.segment cid seg part]? = mid[Path.segment cid seg part]? := by
    intro cid seg part differ
    refine same _ fun part' isPath => ?_
    injection isPath with isId isSeg
    exact differ.elim (· isId) (· isSeg)
  obtain ⟨on, kept⟩ := inv.aside running same
  refine ⟨inv.thins, on, inv.sound, inv.folded, inv.unfolded, ?_, ?_, Nat.le_succ_of_le inv.next, ?_, ?_, kept⟩
  · intro other member
    obtain before | rfl := mem_append.mp member |>.imp_right mem_singleton.mp
    · have differ := others other (List.mem_append_left _ before)
      have isWritten := (inv.written other before).congr fun seg part _ => sameOther (.inl differ)
      refine ⟨?_, ?_, ?_, ?_⟩ <;> rw [Store.Sealed.segments_add_other differ]
      · exact isWritten.pending
      · exact isWritten.loads
      · exact fun p member => ⟨(isWritten.range p member).1, Nat.lt_succ_of_lt (isWritten.range p member).2⟩
      · exact isWritten.settled
    · refine ⟨?_, ?_, ?_, ?_⟩ <;> rw [Store.Sealed.segments_add]
      · exact .buffer _
      · simpa using loads
      · simpa [Store.Sealed.add] using inv.next
      · simpa using settled
  · intro other member
    have differ := others other (List.mem_append_right _ member)
    simp only [Store.Sealed.add, Maps.get_insert, Ne.symm differ, if_false]
    exact inv.unwritten other (mem_cons_of_mem _ member)
  · intro cid seg part above
    exact (sameOther (.inr (Nat.ne_of_gt above))).trans (inv.fresh (Nat.le_of_succ_le above))
  · intro p outside
    refine (same p ?_).trans (inv.same p outside)
    rintro part rfl
    simp [Path.collection?] at outside

theorem buffer (inv : Persisted encoding ring s img d folded unfolded written (c :: unwritten) σ img' mid)
    (running : Running encoding ring s d img mem)
    (others : ∀ other ∈ written ++ unwritten, other.id ≠ c.id) (lastLsn : Lsn) :
    (if c.activeIndex.isEmpty then (return σ : Io Store.Sealed) else do
      performAll (writeSegment c.id σ.nextSegmentId c.codec
        (segmentFiles σ.nextSegmentId c.sealRows c.descriptor.filterable))
      let sealed ← read fun d => loadSegment d c.id σ.nextSegmentId c.codec
      return σ.add c ⟨σ.nextSegmentId, c.sealRows.length, s.lastCheckpointedLsn + 1, lastLsn⟩ sealed).Spec
      mid (img.Thinned encoding ring d) fun σ' d' =>
        ∃ img'', Persisted encoding ring s img d folded unfolded (written ++ [c]) unwritten σ' img'' d' := by
  split
  case isTrue empty =>
    exact spec_pure inv.thinned ⟨img', { inv with
      written := forall_mem_append.mpr
        ⟨inv.written, forall_mem_singleton.mpr (inv.unwritten_nothing (mem_cons_self ..) empty)⟩
      unwritten := fun other member => inv.unwritten other (mem_cons_of_mem _ member) }⟩
  case isFalse some =>
    have fresh : ∀ part, mid[Path.segment c.id σ.nextSegmentId part]? = none :=
      fun part => inv.fresh (Nat.le_refl _)
    have elsewhere : ∀ (count : Nat) (p : Path), (∀ part, p ≠ .segment c.id σ.nextSegmentId part) →
        (applyAll mid ((writeSegment c.id σ.nextSegmentId c.codec
          (segmentFiles σ.nextSegmentId c.sealRows c.descriptor.filterable)).take count))[p]? = mid[p]? := by
      intro count p other
      refine applyAll_untouched (fun e member touches => ?_) mid
      obtain ⟨part, isPath, _⟩ := writeSegment_touches (List.mem_of_mem_take member) touches
      exact other part isPath
    refine spec_performAll_bind (fun count => ?_) ?_
    · obtain ⟨on, kept⟩ := inv.aside running (elsewhere count)
      exact ⟨img', inv.thins, on, inv.sound, kept⟩
    · have same := elsewhere (writeSegment c.id σ.nextSegmentId c.codec
        (segmentFiles σ.nextSegmentId c.sealRows c.descriptor.filterable)).length
      rw [List.take_length] at same
      have loads := loadSegment_writeSegment c.codec c.sealRows c.descriptor.filterable fresh
      have added := inv.add running others same loads (settled_writeSegment c.codec _ fresh)
        (s.lastCheckpointedLsn + 1) lastLsn
      exact spec_read_bind loads (spec_pure added.thinned ⟨img', added⟩)

section

variable (inv : Persisted encoding ring s img d folded unfolded written unwritten σ img' mid)
include inv

variable {effects : List (Effect Path Chunk)} (elsewhere : ∀ e ∈ effects, ∀ p, e.Touches p →
  p.collection?.isSome ∧ ∀ cid seg part, p ≠ .segment cid seg part)
include elsewhere

theorem performed (count : Nat) :
    Persisted encoding ring s img d folded unfolded written unwritten σ img'
      (applyAll mid (effects.take count)) := by
  refine inv.congr (fun cid seg part => ?_) fun p outside => ?_
  · refine applyAll_untouched (fun e member touches => ?_) mid
    exact (elsewhere e (List.mem_of_mem_take member) _ touches).2 cid seg part rfl
  · refine applyAll_untouched (fun e member touches => ?_) mid
    have inside := (elsewhere e (List.mem_of_mem_take member) p touches).1
    rw [outside] at inside
    contradiction

theorem performAll :
    (performAll effects : Io Unit).Spec mid (img.Thinned encoding ring d) fun _ d' =>
      Persisted encoding ring s img d folded unfolded written unwritten σ img' d' := by
  have whole := inv.performed elsewhere effects.length
  rw [List.take_length] at whole
  exact spec_performAll (fun count => (inv.performed elsewhere count).thinned) whole

end

theorem collection {done rest : List CollectionState}
    (inv : Persisted encoding ring s img d done (c :: rest) done (c :: rest) σ img' mid)
    (running : Running encoding ring s d img mem) (found : s.catalog.collections[c.id]? = some c)
    (others : ∀ other ∈ done ++ rest, other.id ≠ c.id) (lastLsn : Lsn) :
    (s.sealCollection lastLsn σ c).Spec mid (img.Thinned encoding ring d) fun σ' d' =>
      ∃ img'', Persisted encoding ring s img d (done ++ [c]) rest (done ++ [c]) rest σ' img'' d' := by
  simp only [Store.sealCollection]
  split
  case isTrue =>
    refine spec_bind _ (inv.performAll ?_) fun _ d₁ inv₁ => ?_
    · intro e member p touches
      simp only [mem_cons, List.not_mem_nil, or_false] at member
      obtain rfl | rfl := member <;> cases touches <;> simp [Path.collection?]
    · refine spec_bind _ (inv₁.window running found others) ?_
      rintro _ d₂ ⟨img₂, inv₂⟩
      exact inv₂.buffer running others lastLsn
  case isFalse nothing =>
    simp only [CollectionState.hasPending, Bool.or_eq_true, Bool.not_eq_eq_eq_not, Bool.not_true, not_or,
      Bool.not_eq_false] at nothing
    obtain ⟨noBuffer, noWindow⟩ := nothing
    have noWindow : c.deadThisWindow = ∅ := ExtTreeMap.isEmpty_iff.mp noWindow
    have unchanged : c.install [] c.indexSnapshot = c.base := by
      have all : c.foldPart [] = c.install [] c.indexSnapshot :=
        CollectionState.foldPart_all (by simp [noWindow])
      rw [← all, CollectionState.foldPart_nil]
    exact spec_pure inv.thinned ⟨img', { inv with
      folded := forall_mem_append.mpr
        ⟨inv.folded, forall_mem_singleton.mpr (unchanged ▸ inv.unfolded c (mem_cons_self ..))⟩
      unfolded := fun other member => inv.unfolded other (mem_cons_of_mem _ member)
      written := forall_mem_append.mpr
        ⟨inv.written, forall_mem_singleton.mpr (inv.unwritten_nothing (mem_cons_self ..) noBuffer)⟩
      unwritten := fun other member => inv.unwritten other (mem_cons_of_mem _ member) }⟩

theorem seal_spec (running : Running encoding ring s d img mem) {states : List CollectionState}
    (known : ∀ c ∈ states, s.catalog.collections[c.id]? = some c) (distinct : (states.map (·.id)).Nodup)
    (lastLsn : Lsn) :
    (states.foldlM (s.sealCollection lastLsn) { nextSegmentId := s.nextSegmentId }).Spec d
      (img.Thinned encoding ring d) fun σ d' =>
        ∃ img', Persisted encoding ring s img d states [] states [] σ img' d' := by
  refine Prog.Spec.weaken (spec_foldlM (fun done σ d' => ∃ rest, states = done ++ rest ∧
    ∃ img', Persisted encoding ring s img d done rest done rest σ img' d') ?_ ?_ ?_) ?_
  · refine ⟨states, rfl, img, rfl, running.on, running.sound, by simp, ?_, by simp, by simp, Nat.le_refl _,
      running.fresh, fun _ _ => rfl, fun _ _ _ => rfl⟩
    intro c member isFresh
    obtain ⟨_, base, _⟩ | ⟨created, _⟩ := running.loaded (known c member)
    · exact base
    · exact absurd created isFresh
  · rintro done σ d' ⟨rest, _, img', inv⟩
    exact inv.thinned
  · rintro done c rest σ mid split ⟨rest', split', img', inv⟩
    obtain rfl : rest' = c :: rest := List.append_cancel_left (split'.symm.trans split)
    have member : c ∈ states := by rw [split]; simp
    refine Prog.Spec.weaken (inv.collection running (known c member) ?_ lastLsn) ?_
    · intro other inside same
      rw [split, List.map_append, List.map_cons] at distinct
      have outside : c.id ∉ done.map (·.id) ++ rest.map (·.id) :=
        (List.nodup_middle.mp distinct).notMem
      exact outside (by rw [← List.map_append]; exact List.mem_map.mpr ⟨other, inside, same⟩)
    · rintro σ' d' ⟨img'', after⟩
      exact ⟨rest, by rw [split]; simp, img'', after⟩
  · rintro σ d' ⟨rest, split, img', inv⟩
    obtain rfl : rest = [] := by simpa using split
    exact ⟨img', inv⟩

theorem snapshots_spec (inv : Persisted encoding ring s img d folded unfolded written unwritten σ img' mid)
    (snapshots : ExtTreeMap CollectionId Bytes) (version : Nat) (states : List CollectionState) :
    (states.forM (Store.writeSnapshot snapshots version)).Spec mid (img.Thinned encoding ring d) fun _ d' =>
      Persisted encoding ring s img d folded unfolded written unwritten σ img' d' := by
  refine spec_forM (fun _ d' =>
    Persisted encoding ring s img d folded unfolded written unwritten σ img' d') inv
    (fun _ _ here => here.thinned) fun done c rest d' _ here => ?_
  simp only [Store.writeSnapshot]
  split
  · exact spec_pure here.thinned here
  · refine here.performAll fun e member p touches => ?_
    obtain dirs | paged := mem_append.mp member
    · simp only [mem_cons, List.not_mem_nil, or_false] at dirs
      obtain rfl | rfl := dirs <;> cases touches <;> simp [Path.collection?]
    · rw [writePaged_touches paged touches]
      simp [Path.collection?]

end Persisted

end Quiver.Core
