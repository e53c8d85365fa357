import Quiver.Core.SegmentWrites
import Quiver.Core.Writes

/-!
Rewriting tombstones ahead of a manifest swap. The rows that died since the last checkpoint
belong to ids that the log writes, so replaying the log over the thinned segments still gives
the logged state.
-/

namespace Quiver.Core

open FileSystem Maps
open Std (ExtTreeMap)

variable {encoding : Encoding} {ring : KeyRing} {img : Image} {d d' : DataDir} {k : CollectionId}
  {b b' c : CollectionState} {e e' : LogicalCollection}

def Image.thin (img : Image) (k : CollectionId) (b : CollectionState) (e : LogicalCollection) : Image :=
  { img with
    base := { img.base with collections := img.base.collections.insert k b }
    loaded := { img.loaded with collections := img.loaded.collections.insert k e } }

namespace Image

theorem Sound.thin (sound : img.Sound encoding) (held : img.loaded.collections[k]? = some e)
    (stands : Stands k b' e') (settled : b'.base = b')
    (name : e'.name = e.name) (descriptor : e'.descriptor = e.descriptor)
    (points : ¬ Created img.tail k → ∀ id : String, ¬ Touched img.tail k id →
      e'.points[id]? = e.points[id]?)
    (bare : Created img.tail k → b'.Bare) : (img.thin k b' e').Sound encoding where
  ordered := sound.ordered
  lastOnly := sound.lastOnly
  indexed := sound.indexed
  below := sound.below
  nextId := sound.nextId
  valid := sound.valid
  absorbs := by
    refine sound.absorbs.thin rfl fun j => ?_
    simp only [Image.thin, get_insert]
    split
    case isTrue same =>
      subst same
      rw [held]
      exact .some ⟨name, descriptor, points⟩
    case isFalse =>
      cases img.loaded.collections[j]? with
      | none => exact .none
      | some other => exact .some ⟨rfl, rfl, fun _ _ _ => rfl⟩
  represents := by
    refine ⟨sound.represents.names, fun j => ?_⟩
    simp only [Image.thin, get_insert]
    split
    case isTrue same => exact .some (same ▸ stands)
    case isFalse => exact sound.represents.collections j
  settled here := by
    obtain ⟨_, rfl⟩ | ⟨_, here⟩ := of_insert here
    · exact settled
    · exact sound.settled here
  bare here created := by
    obtain ⟨same, rfl⟩ | ⟨_, here⟩ := of_insert here
    · exact bare (same ▸ created)
    · exact sound.bare here created
  refs := sound.refs
  distinct := sound.distinct

theorem On.thin (on : img.On encoding ring d) (sound : img.Sound encoding) {entry : CollectionEntry}
    (member : entry ∈ img.mfst.collections) (loaded : Loaded encoding ring d' entry b')
    (others : ∀ p, img.Needed p → (∀ seg part, p ≠ .segment entry.id seg part) → d'[p]? = d[p]?)
    (settled : ∀ seg part, img.Needed (.segment entry.id seg part) →
      Settled d' (.segment entry.id seg part)) :
    (img.thin entry.id b' e').On encoding ring d' := by
  constructor
  · exact CurrentIs_congr on.current (others .current trivial (by simp)) (others (.manifest _) rfl (by simp))
  · refine loadCatalog_of sound.distinct (fun other inside => ?_) (fun {j c} here => ?_) ?_
    · simp only [Image.thin, get_insert]
      split
      case isTrue same =>
        cases sound.distinct.eq_of_id inside member same
        exact ⟨b', rfl, loaded⟩
      case isFalse differ =>
        obtain ⟨c, found, before⟩ := loadCatalog_entry sound.distinct on.loads inside
        refine ⟨c, found, before.congr ?_ fun ref inRefs part notTmp => ?_⟩
        · exact others (.dek other.id) (.inl ⟨other, inside, rfl⟩) (by simp)
        · refine others (.segment _ _ _) ⟨notTmp, other, inside, rfl, ref, inRefs, rfl⟩ fun _ _ same => ?_
          injection same with isId
          exact differ isId.symm
    · obtain ⟨same, _⟩ | ⟨_, here⟩ := of_insert here
      · exact ⟨entry, member, same⟩
      · obtain ⟨other, inside, isId, _⟩ := loadCatalog_found on.loads here
        exact ⟨other, inside, isId⟩
    · intro name j
      exact loadCatalog_names sound.distinct on.loads name j
  · intro seq
    rw [mem_congr (others (.wal seq) trivial (by simp))]
    exact on.listed seq
  · intro file inside
    obtain ⟨f, found, reads⟩ := on.logs file inside
    exact ⟨f, (others (.wal file.seq) trivial (by simp)).trans found, reads⟩
  · intro j created
    rw [collectionCodec_congr (others (.dek j) (.inr created) (by simp))]
    exact on.keys j created
  · intro cid seg part needed
    by_cases same : cid = entry.id
    · subst same
      exact settled seg part needed
    · intro f found
      have elsewhere : ∀ seg' part', Path.segment cid seg part ≠ .segment entry.id seg' part' := by
        intro _ _ isPath
        injection isPath with isId
        exact same isId
      rw [others (.segment cid seg part) needed elsewhere] at found
      exact on.segments needed f found
  · intro cid needed f found
    rw [others (.dek cid) needed (by simp)] at found
    exact on.deks needed f found

end Image

namespace CollectionState

/-- The part of the window over these segments. -/
def windowOver (c : CollectionState) (segs : List Nat) : ExtTreeMap Nat Bitmap :=
  c.deadThisWindow.filter fun seg _ => seg ∈ segs

/-- What the collection's files hold once the tombstones of these segments are rewritten. -/
def foldPart (c : CollectionState) (segs : List Nat) : CollectionState :=
  (c.windowed (c.windowOver segs)).install [] c.indexSnapshot

theorem getD_windowOver (segs : List Nat) (seg : Nat) :
    (c.windowOver segs).getD seg ∅ = if seg ∈ segs then c.windowDead seg else ∅ := by
  rw [windowOver, windowDead, ExtTreeMap.getD_eq_getD_getElem?, ExtTreeMap.getElem?_filter',
    ExtTreeMap.getD_eq_getD_getElem?]
  cases c.deadThisWindow[seg]? with
  | none => simp
  | some rows => by_cases inside : seg ∈ segs <;> simp [Option.filter, inside]

theorem foldPart_eq (segs : List Nat) : c.foldPart segs = { c.base with
    sealed := c.sealed.mapIdx fun seg s => s.markDead (if seg ∈ segs then c.windowDead seg else ∅) } := by
  have sealed : (c.windowed (c.windowOver segs)).foldWindow =
      c.sealed.mapIdx fun seg s => s.markDead (if seg ∈ segs then c.windowDead seg else ∅) := by
    simp only [foldWindow, CollectionState.windowed, base]
    congr 1
    funext seg s
    rw [← getD_windowOver]
    rfl
  simp only [foldPart, install, sealed]
  simp [CollectionState.windowed, base]

theorem sealed_foldPart (segs : List Nat) (seg : Nat) : (c.foldPart segs).sealed[seg]? =
    c.sealed[seg]?.map fun s => s.markDead (if seg ∈ segs then c.windowDead seg else ∅) := by
  rw [foldPart_eq]
  simp

theorem markDead_nothing (s : SealedSegment) : s.markDead ∅ = s := by
  simp [SealedSegment.markDead]

theorem foldPart_nil : c.foldPart [] = c.base := by
  rw [foldPart_eq]
  have same : (c.sealed.mapIdx fun seg s => s.markDead (if seg ∈ [] then c.windowDead seg else ∅)) =
      c.sealed := by
    simp [markDead_nothing, List.mapIdx_eq_zipIdx_map]
  rw [same]
  rfl

variable {segs : List Nat}

theorem foldPart_all (all : ∀ seg, seg ∈ c.deadThisWindow → seg ∈ segs) :
    c.foldPart segs = c.install [] c.indexSnapshot := by
  rw [foldPart_eq]
  have same : (c.sealed.mapIdx fun seg s => s.markDead (if seg ∈ segs then c.windowDead seg else ∅)) =
      c.foldWindow := by
    rw [foldWindow]
    congr 1
    funext seg s
    split
    · rfl
    · rename_i outside
      have absent : seg ∉ c.deadThisWindow := fun present => outside (all seg present)
      simp [windowDead, ExtTreeMap.getD_eq_fallback absent]
  simp [same, install, base]

theorem Represents.foldPart {m : ExtTreeMap String Record} {rows : List (List SealRow)}
    (represents : c.base.Represents m) (inv : c.Inv rows) (segs : List Nat) :
    ∃ m', (c.foldPart segs).Represents m' ∧
      ∀ id : String, ¬ c.Killed c.deadThisWindow id → m'[id]? = m[id]? := by
  have part : ∀ {seg row}, row ∈ (c.windowOver segs).getD seg ∅ → row ∈ c.windowDead seg := by
    intro seg row inside
    rw [getD_windowOver] at inside
    split at inside
    · exact inside
    · simp at inside
  obtain ⟨m', thinned, same⟩ := represents.windowed (w := c.windowOver segs) fun inside => inv.window (part inside)
  refine ⟨m', thinned.install (.nothing rfl) c.indexSnapshot, fun id spared => same id ?_⟩
  rintro ⟨seg, row, s, inside, found, isId⟩
  exact spared ⟨seg, row, s, part inside, found, isId⟩

theorem foldPart_snoc_none {i : Nat} (absent : c.sealed[i]? = none) :
    c.foldPart (segs ++ [i]) = c.foldPart segs := by
  have same : (c.foldPart (segs ++ [i])).sealed = (c.foldPart segs).sealed := by
    refine List.ext_getElem? fun j => ?_
    rw [sealed_foldPart, sealed_foldPart]
    by_cases here : j = i
    · rw [here, absent]
      rfl
    · simp [here]
  rw [foldPart_eq, foldPart_eq] at same ⊢
  simpa using same

theorem foldPart_snoc {i : Nat} {s : SealedSegment} (found : c.sealed[i]? = some s) :
    c.foldPart (segs ++ [i]) = { c.foldPart segs with
      sealed := (c.foldPart segs).sealed.set i (s.markDead (c.windowDead i)) } := by
  have same : (c.foldPart (segs ++ [i])).sealed =
      (c.foldPart segs).sealed.set i (s.markDead (c.windowDead i)) := by
    refine List.ext_getElem? fun j => ?_
    rw [sealed_foldPart, List.getElem?_set]
    by_cases here : i = j
    · subst here
      have bound : i < (c.foldPart segs).sealed.length := by
        rw [foldPart_eq, List.length_mapIdx]
        exact (List.getElem?_eq_some_iff.mp found).1
      simp [found, bound]
    · rw [if_neg here, sealed_foldPart]
      simp [Ne.symm here]
  rw [foldPart_eq, foldPart_eq] at same ⊢
  simpa using same

end CollectionState

theorem Loaded.writeDel {entry : CollectionEntry} (loaded : Loaded encoding ring d entry b)
    (distinct : (entry.segments.map (·.id)).Nodup) {i : Nat} {s : SealedSegment}
    (found : b.sealed[i]? = some s) (dead : Bitmap) :
    Loaded encoding ring (applyAll d (Core.writeDel entry.id s.segId b.codec dead)) entry
      { b with sealed := b.sealed.set i { s with dead } } := by
  obtain ⟨lengths, each⟩ := Results.forall₂_getElem?.mp loaded.sealed
  have stored := getElem?_writeDel d entry.id s.segId b.codec dead
  constructor
  · exact loaded.id
  · exact loaded.name
  · exact loaded.descriptor
  · have key : (applyAll d (Core.writeDel entry.id s.segId b.codec dead))[Path.dek entry.id]? =
        d[Path.dek entry.id]? := by rw [stored, if_neg (by simp), if_neg (by simp)]
    exact (collectionCodec_congr key).trans loaded.codec
  · exact loaded.segments
  · refine Results.forall₂_getElem?.mpr ⟨by simpa using lengths, fun j ref seg isRef isSeg => ?_⟩
    rw [List.getElem?_set] at isSeg
    by_cases here : i = j
    · subst here
      rw [if_pos rfl, if_pos (List.getElem?_eq_some_iff.mp found).1] at isSeg
      cases isSeg
      have before := each i ref s isRef found
      have isId := loadSegment_segId before
      have after := loadSegment_writeDel before dead
      rw [← isId] at after ⊢
      exact after
    · rw [if_neg here] at isSeg
      have bound : i < entry.segments.length := lengths ▸ (List.getElem?_eq_some_iff.mp found).1
      have isId := loadSegment_segId (each i _ s (List.getElem?_eq_getElem bound) found)
      have differ : ref.id ≠ s.segId := by
        rw [isId]
        intro same
        obtain ⟨inJ, rfl⟩ := List.getElem?_eq_some_iff.mp isRef
        have injective := List.nodup_iff_injective_get.mp distinct
        have := @injective ⟨j, by simpa using inJ⟩ ⟨i, by simpa using bound⟩ (by simpa using same)
        exact here (by simpa using this.symm)
      rw [loadSegment_congr (d := d) fun part _ => ?_]
      · exact each j ref seg isRef isSeg
      · rw [stored, if_neg (by simp [differ]), if_neg (by simp [differ])]
  · exact loaded.snapshot
  · exact congrArg (fun c : CollectionState => { c with sealed := b.sealed.set i { s with dead } })
      loaded.settled

/-- Where rewriting the tombstones of a collection writes. -/
def CollectionState.IsTombstone (c : CollectionState) (p : Path) : Prop :=
  ∃ s ∈ c.sealed, p = .segment c.id s.segId .del ∨ p = .segment c.id s.segId .delTmp

/-- A collection whose files the image has, and whose window the log explains. -/
structure Foldable (img : Image) (c : CollectionState) : Prop where
  found : img.base.collections[c.id]? = some c.base
  fresh : ¬ Created img.tail c.id
  inv : ∃ rows, c.Inv rows
  touched : ∀ id, c.Killed c.deadThisWindow id → Touched img.tail c.id id

theorem Foldable.sound (foldable : Foldable img c) (sound : img.Sound encoding) (segs : List Nat) :
    ∃ e, (img.thin c.id (c.foldPart segs) e).Sound encoding := by
  obtain ⟨rows, inv⟩ := foldable.inv
  obtain ⟨e, held, stands⟩ := sound.represents.some_left foldable.found
  obtain ⟨points, represents, same⟩ := stands.points.foldPart inv segs
  refine ⟨{ e with points }, sound.thin held ⟨rfl, stands.name, stands.descriptor, represents⟩ rfl rfl rfl ?_ ?_⟩
  · exact fun _ id untouched => same id fun killed => untouched (foldable.touched id killed)
  · exact fun created => absurd created foldable.fresh

theorem take_writeDel (cid : CollectionId) (seg : Nat) (codec : Key) (dead : Bitmap) (count : Nat) :
    (writeDel cid seg codec dead).take count = writeDel cid seg codec dead ∨
      ∃ part, (writeDel cid seg codec dead).take count =
        (writePaged (.segment cid seg .delTmp) (.bitmap codec dead)).take part := by
  by_cases all : 4 ≤ count
  · exact .inl (List.take_of_length_le (by simpa [writeDel, writePaged] using all))
  · refine .inr ⟨count, ?_⟩
    rw [writeDel, List.take_append_of_le_length]
    simp only [writePaged, List.length_cons, List.length_nil]
    omega

theorem Foldable.writeDel (foldable : Foldable img c) (on : img.On encoding ring d)
    (sound : img.Sound encoding) {mid : DataDir} {segs : List Nat}
    (onMid : (img.thin c.id (c.foldPart segs) e).On encoding ring mid)
    (same : ∀ p, ¬ c.IsTombstone p → mid[p]? = d[p]?) {i : Nat} {s : SealedSegment}
    (found : c.sealed[i]? = some s) :
    (img.thin c.id (c.foldPart (segs ++ [i])) e').On encoding ring
        (applyAll mid (Core.writeDel c.id s.segId c.codec (s.dead ∪ c.windowDead i))) ∧
      ∀ p, ¬ c.IsTombstone p →
        (applyAll mid (Core.writeDel c.id s.segId c.codec (s.dead ∪ c.windowDead i)))[p]? = d[p]? := by
  have stored := getElem?_writeDel mid c.id s.segId c.codec (s.dead ∪ c.windowDead i)
  have inside : s ∈ c.sealed := List.mem_of_getElem? found
  have same' : ∀ p, ¬ c.IsTombstone p →
      (applyAll mid (Core.writeDel c.id s.segId c.codec (s.dead ∪ c.windowDead i)))[p]? = d[p]? := by
    intro p other
    rw [stored, if_neg fun here => other ⟨s, inside, .inl here⟩,
      if_neg fun here => other ⟨s, inside, .inr here⟩]
    exact same p other
  refine ⟨?_, same'⟩
  obtain ⟨entry, member, isId, _⟩ := loadCatalog_found on.loads foldable.found
  obtain ⟨b, isBase, loaded⟩ := loadCatalog_entry sound.distinct onMid.loads member
  have isPart : b = c.foldPart segs := by
    simpa [Image.thin, isId] using isBase.symm
  subst isPart
  have foundPart : (c.foldPart segs).sealed[i]? =
      some (s.markDead (if i ∈ segs then c.windowDead i else ∅)) := by
    rw [CollectionState.sealed_foldPart, found]
    rfl
  have after := loaded.writeDel (sound.distinct.segments entry member) foundPart (s.dead ∪ c.windowDead i)
  rw [CollectionState.foldPart_snoc found]
  rw [← isId] at stored same' ⊢
  refine on.thin sound member after (fun p _ elsewhere => same' p ?_) fun seg part needed f stays => ?_
  · rintro ⟨other, _, rfl | rfl⟩
    · exact elsewhere _ _ (by rw [isId])
    · exact elsewhere _ _ (by rw [isId])
  · rw [stored] at stays
    split at stays
    · cases stays
      rfl
    · split at stays
      · contradiction
      · exact onMid.segments needed f stays

/-- Rewriting the tombstones of a collection: at every point the directory holds the image
with some part of the window folded in. -/
theorem writeWindow_spec (foldable : Foldable img c) (on : img.On encoding ring d)
    (sound : img.Sound encoding) {crash : DataDir → Prop}
    (safe : ∀ segs e d', (img.thin c.id (c.foldPart segs) e).On encoding ring d' →
      (img.thin c.id (c.foldPart segs) e).Sound encoding →
      (∀ p, ¬ c.IsTombstone p → d'[p]? = d[p]?) → crash d') :
    (Store.writeWindow c).Spec d crash fun _ d' =>
      ∃ e, (img.thin c.id (c.install [] c.indexSnapshot) e).On encoding ring d' ∧
        (img.thin c.id (c.install [] c.indexSnapshot) e).Sound encoding ∧
        ∀ p, ¬ c.IsTombstone p → d'[p]? = d[p]? := by
  refine Prog.Spec.weaken (Prog.spec_forM (fun done d' =>
    ∃ e, (img.thin c.id (c.foldPart (done.map Prod.fst)) e).On encoding ring d' ∧
      (img.thin c.id (c.foldPart (done.map Prod.fst)) e).Sound encoding ∧
      ∀ p, ¬ c.IsTombstone p → d'[p]? = d[p]?) ?_ ?_ ?_) ?_
  · obtain ⟨e, sound'⟩ := foldable.sound sound []
    refine ⟨e, ?_, sound', fun _ _ => rfl⟩
    obtain ⟨entry, member, isId, loaded⟩ := loadCatalog_found on.loads foldable.found
    rw [List.map_nil, CollectionState.foldPart_nil, ← isId]
    exact on.thin sound member loaded (fun _ _ _ => rfl) fun _ _ needed => on.segments needed
  · rintro done d' ⟨e, on', sound', same⟩
    exact safe _ e d' on' sound' same
  · rintro done ⟨i, rows⟩ rest mid split ⟨e, on', sound', same⟩
    have isWindow : c.windowDead i = rows := by
      have member : (i, rows) ∈ c.deadThisWindow.toList := by rw [split]; simp
      rw [CollectionState.windowDead, ExtTreeMap.getD_eq_getD_getElem?,
        ExtTreeMap.mem_toList_iff_getElem?_eq_some.mp member]
      rfl
    simp only [List.map_append, List.map_cons, List.map_nil]
    cases found : c.sealed[i]? with
    | none =>
      rw [CollectionState.foldPart_snoc_none found]
      exact Prog.spec_pure (safe _ e mid on' sound' same) ⟨e, on', sound', same⟩
    | some s =>
      subst isWindow
      obtain ⟨e', sound''⟩ := foldable.sound sound (done.map Prod.fst ++ [i])
      obtain ⟨on'', same'⟩ := foldable.writeDel on sound on' same found
      refine Prog.spec_performAll (fun count => ?_) ⟨e', on'', sound'', same'⟩
      -- Up to the rename only the temporary file is written.
      obtain all | ⟨part, take⟩ := take_writeDel c.id s.segId c.codec (s.dead ∪ c.windowDead i) count
      · rw [all]
        exact safe _ e' _ on'' sound'' same'
      · have touched : ∀ p : Path, p ≠ .segment c.id s.segId .delTmp → (applyAll mid
            ((writeDel c.id s.segId c.codec (s.dead ∪ c.windowDead i)).take count))[p]? = mid[p]? := by
          intro p other
          rw [take]
          exact applyAll_untouched (fun f member touches =>
            other (writePaged_touches (List.mem_of_mem_take member) touches)) mid
        refine safe _ e _ (on'.congr fun p needed => touched p ?_) sound' fun p other => ?_
        · rintro rfl
          exact needed.1 rfl
        · refine (touched p ?_).trans (same p other)
          rintro rfl
          exact other ⟨s, List.mem_of_getElem? found, .inr rfl⟩
  · rintro _ d' ⟨e, on', sound', same⟩
    have all : c.foldPart (c.deadThisWindow.toList.map Prod.fst) = c.install [] c.indexSnapshot := by
      refine CollectionState.foldPart_all fun seg present => ?_
      rw [ExtTreeMap.map_fst_toList_eq_keys]
      exact ExtTreeMap.mem_keys.mpr present
    rw [all] at on' sound'
    exact ⟨e, on', sound', same⟩

end Quiver.Core
