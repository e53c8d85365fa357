import Quiver.Embed.Loaded

/-!
How a handle moves on with its collection. While it lives, every change of its collection's rows moves
its write generation, unless clients encrypt the vectors.
-/

namespace Quiver.Core.Logical

open Std (ExtTreeMap)

/-- Nothing but the rows of one collection has changed. -/
structure OnlyRows (k : CollectionId) (l l' : Logical) : Prop where
  names : l'.names = l.names
  elsewhere : ∀ j, j ≠ k → l'.collections[j]? = l.collections[j]?
  kept : ∀ e', l'.collections[k]? = some e' →
    ∃ e, l.collections[k]? = some e ∧ e'.name = e.name ∧ e'.descriptor = e.descriptor
  present : ∀ e, l.collections[k]? = some e → ∃ e', l'.collections[k]? = some e'

namespace OnlyRows

variable {k : CollectionId} {a b c : Logical}

theorem refl (k : CollectionId) (l : Logical) : OnlyRows k l l :=
  ⟨rfl, fun _ _ => rfl, fun e here => ⟨e, here, rfl, rfl⟩, fun e here => ⟨e, here⟩⟩

theorem trans (first : OnlyRows k a b) (second : OnlyRows k b c) : OnlyRows k a c where
  names := second.names.trans first.names
  elsewhere j other := (second.elsewhere j other).trans (first.elsewhere j other)
  kept e' here := by
    obtain ⟨e, middle, name, descriptor⟩ := second.kept e' here
    obtain ⟨e₀, start, name₀, descriptor₀⟩ := first.kept e middle
    exact ⟨e₀, start, name.trans name₀, descriptor.trans descriptor₀⟩
  present e here := by
    obtain ⟨e', middle⟩ := first.present e here
    exact second.present e' middle

theorem onPoints (k : CollectionId) (l : Logical) (f : ExtTreeMap String Record → ExtTreeMap String Record) :
    OnlyRows k l (l.onPoints k f) where
  names := rfl
  elsewhere j other := by rw [collections_onPoints, if_neg (Ne.symm other)]
  kept e' here := by
    rw [collections_onPoints, if_pos rfl, Option.map_eq_some_iff] at here
    obtain ⟨e, found, rfl⟩ := here
    exact ⟨e, found, rfl, rfl⟩
  present e here := by
    rw [collections_onPoints, if_pos rfl, here]
    exact ⟨_, rfl⟩

theorem upsert (encoding : Encoding) (k : CollectionId) (l : Logical) (id : String) (vector payload : Bytes) :
    OnlyRows k l (l.apply encoding (.upsert k id vector payload)) :=
  onPoints k l (·.insert id ⟨leBytesToF32 vector, payload⟩)

theorem delete (encoding : Encoding) (k : CollectionId) (l : Logical) (id : String) :
    OnlyRows k l (l.apply encoding (.delete k id)) :=
  onPoints k l (·.erase id)

theorem indexed (changed : OnlyRows k a b) (indexed : a.Indexed) : b.Indexed := by
  intro name j
  rw [changed.names, indexed name j]
  by_cases same : j = k
  · subst same
    constructor
    · rintro ⟨e, here, named⟩
      obtain ⟨e', there⟩ := changed.present e here
      obtain ⟨e₀, back, name', _⟩ := changed.kept e' there
      rw [here] at back
      cases back
      exact ⟨e', there, name'.trans named⟩
    · rintro ⟨e', there, named⟩
      obtain ⟨e, here, name', _⟩ := changed.kept e' there
      exact ⟨e, here, name'.symm.trans named⟩
  · rw [changed.elsewhere j same]

theorem below {next : CollectionId} (changed : OnlyRows k a b) (below : a.Below next) : b.Below next := by
  intro j e' there
  by_cases same : j = k
  · subst same
    obtain ⟨e, here, _⟩ := changed.kept e' there
    exact below j e here
  · exact below j e' (changed.elsewhere j same ▸ there)

end OnlyRows

end Quiver.Core.Logical

namespace Quiver.Embed

open Quiver.Core Results Maps
open Std (ExtTreeMap)

variable {cfg : Setting}

variable {l l' : Logical}

theorem storeLog_ok {ops : List WalOp} (logged : storeLog cfg l ops = .ok l') :
    l' = l.applyAll cfg.encoding ops := by
  obtain ⟨_, _, rest⟩ := bind_eq_ok.mp logged
  cases rest
  rfl

theorem onlyRows_upserts (k : CollectionId) (l : Logical) (points : List PointIn) :
    l.OnlyRows k (l.applyAll cfg.encoding (points.map (PointIn.op k))) := by
  induction points generalizing l with
  | nil => exact .refl k l
  | cons p points ih => exact (Logical.OnlyRows.upsert cfg.encoding k l p.id _ p.payload).trans (ih _)

/-- The rows of a collection, none if there is no such collection. -/
def rowsOf (l : Logical) (k : CollectionId) : ExtTreeMap String Record :=
  ((l.collections[k]?).map LogicalCollection.points).getD ∅

theorem rowsOf_onPoints {k : CollectionId} {l : Logical} {c : LogicalCollection}
    (held : l.collections[k]? = some c) (f : ExtTreeMap String Record → ExtTreeMap String Record) :
    rowsOf (l.onPoints k f) k = f (rowsOf l k) := by
  simp only [rowsOf, Logical.collections_onPoints, if_true, held, Option.map_some, Option.getD_some]

def insertPoints (rows : ExtTreeMap String Record) (points : List PointIn) : ExtTreeMap String Record :=
  points.foldl (fun rows p => rows.insert p.id ⟨p.vector, p.payload⟩) rows

theorem rowsOf_upserts (l : Logical) (k : CollectionId) {c : LogicalCollection} (held : l.collections[k]? = some c)
    (points : List PointIn) :
    rowsOf (l.applyAll cfg.encoding (points.map (PointIn.op k))) k = insertPoints (rowsOf l k) points := by
  induction points generalizing l c with
  | nil => rfl
  | cons p points ih =>
    rw [List.map_cons, Logical.applyAll_cons]
    have applied : l.apply cfg.encoding (p.op k) = l.onPoints k (·.insert p.id ⟨p.vector, p.payload⟩) := by
      simp only [PointIn.op, Logical.apply, leBytesToF32_f32ToLeBytes]
    have still : (l.onPoints k (·.insert p.id ⟨p.vector, p.payload⟩)).collections[k]? =
        some { c with points := c.points.insert p.id ⟨p.vector, p.payload⟩ } := by
      rw [Logical.collections_onPoints, if_pos rfl, held]
      rfl
    rw [applied, ih _ still, rowsOf_onPoints held]
    rfl

theorem storeUpsertBatch_spec {k : CollectionId} {points : List PointIn}
    (written : storeUpsertBatch cfg l k points = .ok l') :
    l.OnlyRows k l' ∧ rowsOf l' k = insertPoints (rowsOf l k) points := by
  unfold storeUpsertBatch at written
  split at written
  · rename_i none
    cases written
    rw [List.isEmpty_iff.mp none]
    exact ⟨.refl k l, rfl⟩
  · obtain ⟨_, checked, logged⟩ := bind_eq_ok.mp written
    rw [storeLog_ok logged]
    refine ⟨onlyRows_upserts k l points, ?_⟩
    unfold storeCheckDims at checked
    split at checked
    · contradiction
    · rename_i c held
      exact rowsOf_upserts l k held points

theorem storeUpsert_spec {k : CollectionId} {point : PointIn} (written : storeUpsert cfg l k point = .ok l') :
    l.OnlyRows k l' ∧ rowsOf l' k = (rowsOf l k).insert point.id ⟨point.vector, point.payload⟩ :=
  storeUpsertBatch_spec (show storeUpsertBatch cfg l k [point] = .ok l' from written)

theorem storeDelete_spec {k : CollectionId} {id : String} {existed : Bool}
    (deleted : storeDelete cfg l k id = .ok (l', existed)) :
    l.OnlyRows k l' ∧ rowsOf l' k = (rowsOf l k).erase id := by
  unfold storeDelete at deleted
  split at deleted
  · contradiction
  case h_2 c held =>
    split at deleted
    case isTrue =>
      obtain ⟨_, logged, rest⟩ := bind_eq_ok.mp deleted
      cases rest
      rw [storeLog_ok logged]
      exact ⟨.delete cfg.encoding k l id, rowsOf_onPoints held (·.erase id)⟩
    case isFalse absent =>
      cases deleted
      refine ⟨.refl k l, (erase_absent ?_).symm⟩
      rw [rowsOf, held]
      exact ExtTreeMap.getElem?_eq_none absent

/-- A handle after writes that its index was told of. -/
structure CollectionHandle.Written (h h' : CollectionHandle) : Prop where
  id : h'.id = h.id
  descriptor : h'.descriptor = h.descriptor
  mvcc : h'.mvcc = h.mvcc
  cell : h'.cell = h.cell
  built : h'.everBuilt = h.everBuilt
  docs : h'.docs = h.docs
  generation : h.writeGen < h'.writeGen

namespace CollectionHandle

variable {h h' h'' : CollectionHandle}

theorem Written.trans (first : h.Written h') (second : h'.Written h'') : h.Written h'' :=
  ⟨second.id.trans first.id, second.descriptor.trans first.descriptor, second.mvcc.trans first.mvcc,
    second.cell.trans first.cell, second.built.trans first.built, second.docs.trans first.docs,
    first.generation.trans second.generation⟩

theorem written_bumpWriteGen (h : CollectionHandle) : h.Written h.bumpWriteGen :=
  ⟨rfl, rfl, rfl, rfl, rfl, rfl, Nat.lt_succ_self _⟩

theorem written_markStale (h : CollectionHandle) : h.Written h.markStale :=
  ⟨rfl, rfl, rfl, rfl, rfl, rfl, Nat.lt_succ_self _⟩

theorem Written.staleIf (written : h.Written h') (crowded : Bool) : h.Written (h'.staleIf crowded) := by
  cases crowded with
  | false => exact written
  | true => exact written.trans h'.written_markStale

theorem written_overlayUpsertBatch (h : CollectionHandle) (points : List (String × List F32)) :
    h.Written (h.overlayUpsertBatch points) :=
  ⟨rfl, rfl, rfl, rfl, rfl, rfl, Nat.lt_succ_self _⟩

theorem written_overlayDelete (h : CollectionHandle) (ext : String) : h.Written (h.overlayDelete ext) := by
  unfold overlayDelete
  split <;> exact ⟨rfl, rfl, rfl, rfl, rfl, rfl, Nat.lt_succ_self _⟩

theorem written_of_bump (index : LiveIndex) (idmap : IdMap) :
    h.Written { h.bumpWriteGen with index, idmap } :=
  ⟨rfl, rfl, rfl, rfl, rfl, rfl, Nat.lt_succ_self _⟩

theorem written_indexUpsertPoint (h : CollectionHandle) (ext : String) (vector : List F32) :
    h.Written (h.indexUpsertPoint ext vector) := by
  have bumped := h.written_bumpWriteGen
  unfold indexUpsertPoint
  split
  · exact h.written_overlayUpsertBatch _
  · dsimp only
    split
    · exact bumped
    · split
      · split
        · exact written_of_bump _ _
        · exact bumped.trans (written_markStale _)
      · split
        · exact bumped.trans (written_markStale _)
        · split <;> exact written_of_bump _ _
      · exact (written_of_bump _ _).staleIf _
      · exact (written_of_bump _ _).staleIf _
      · exact (written_of_bump _ _).staleIf _
      · exact bumped.trans (written_markStale _)

theorem written_indexDeletePoint (h : CollectionHandle) (ext : String) :
    h.Written (h.indexDeletePoint ext) := by
  have bumped := h.written_bumpWriteGen
  unfold indexDeletePoint
  split
  · exact h.written_overlayDelete ext
  · dsimp only
    split
    · exact bumped
    · split
      · exact written_of_bump _ _
      · exact (written_of_bump _ _).staleIf _
      · exact (written_of_bump _ _).staleIf _
      · exact (written_of_bump _ _).staleIf _
      · exact (written_of_bump _ _).staleIf _
      · exact bumped.trans (written_markStale _)

theorem Written.sparseUpsertPoint (written : h.Written h') (ext : String) (payload : Bytes) :
    h.Written (h'.sparseUpsertPoint cfg ext payload) := by
  unfold CollectionHandle.sparseUpsertPoint
  split
  · exact written
  · exact ⟨written.id, written.descriptor, written.mvcc, written.cell, written.built, written.docs, written.generation⟩

theorem Written.sparseDeletePoint (written : h.Written h') (ext : String) : h.Written (h'.sparseDeletePoint ext) :=
  ⟨written.id, written.descriptor, written.mvcc, written.cell, written.built, written.docs, written.generation⟩

end CollectionHandle

/-- A handle some time later, with its collection. The rows change only with the generation,
except under client-side encryption. -/
structure Advanced (l : Logical) (h : CollectionHandle) (l' : Logical) (h' : CollectionHandle) : Prop where
  id : h'.id = h.id
  descriptor : h'.descriptor = h.descriptor
  mvcc : h'.mvcc = h.mvcc
  cell : h'.cell = h.cell
  built : h.everBuilt = true → h'.everBuilt = true
  generation : h.writeGen ≤ h'.writeGen
  rows : h'.writeGen = h.writeGen → h.descriptor.vectorEncryption = .clientSide ∨
    l'.collections[h.id]? = l.collections[h.id]?

namespace Advanced

variable {a b c : Logical} {h h' h'' : CollectionHandle}

theorem of_eq (same : b.collections[h.id]? = a.collections[h.id]?) : Advanced a h b h :=
  ⟨rfl, rfl, rfl, rfl, fun built => built, Nat.le_refl _, fun _ => .inr same⟩

theorem of_written (written : h.Written h') : Advanced a h b h' :=
  ⟨written.id, written.descriptor, written.mvcc, written.cell, fun built => written.built.trans built,
    Nat.le_of_lt written.generation, fun same => absurd same (Nat.ne_of_gt written.generation)⟩

theorem trans (first : Advanced a h b h') (second : Advanced b h' c h'') : Advanced a h c h'' where
  id := second.id.trans first.id
  descriptor := second.descriptor.trans first.descriptor
  mvcc := second.mvcc.trans first.mvcc
  cell := second.cell.trans first.cell
  built done := second.built (first.built done)
  generation := first.generation.trans second.generation
  rows same := by
    have low := first.generation
    have high := second.generation
    obtain client | kept := first.rows (by omega)
    · exact .inl client
    · obtain client | kept' := second.rows (by omega)
      · exact .inl (first.descriptor ▸ client)
      · rw [first.id] at kept'
        exact .inr (kept'.trans kept)

theorem served (advanced : Advanced a h b h') : h'.mvccServed = h.mvccServed := by
  rw [CollectionHandle.mvccServed, CollectionHandle.mvccServed, advanced.mvcc, advanced.descriptor]

end Advanced

/-- A handle whose derived data was rebuilt. -/
structure CollectionHandle.Maintained (h h' : CollectionHandle) : Prop where
  id : h'.id = h.id
  descriptor : h'.descriptor = h.descriptor
  mvcc : h'.mvcc = h.mvcc
  cell : h'.cell = h.cell
  built : h.everBuilt = true → h'.everBuilt = true
  generation : h'.writeGen = h.writeGen

namespace CollectionHandle

variable {h h' : CollectionHandle}

theorem Maintained.advanced (maintained : h.Maintained h') (l : Logical) : Advanced l h l h' :=
  ⟨maintained.id, maintained.descriptor, maintained.mvcc, maintained.cell, maintained.built,
    Nat.le_of_eq maintained.generation.symm, fun _ => .inr rfl⟩

theorem Maintained.publishIfServed (maintained : h.Maintained h') : h.Maintained h'.publishIfServed := by
  unfold CollectionHandle.publishIfServed
  split
  · exact ⟨maintained.id, maintained.descriptor, maintained.mvcc, maintained.cell, maintained.built, maintained.generation⟩
  · exact maintained

theorem rebuild_ok {cfg : Setting} {rows : ExtTreeMap String Record} {g : CollectionHandle}
    (built : h.rebuild cfg rows = (.ok (), g)) :
    g = { h with
      index := builtIndex h.descriptor (scanCollection cfg h.descriptor rows).vectors
      idmap := ⟨(scanCollection cfg h.descriptor rows).intToExt⟩
      docs := (scanCollection cfg h.descriptor rows).docs
      sparse := (scanCollection cfg h.descriptor rows).sparse
      stale := false
      everBuilt := true } := by
  unfold rebuild at built
  dsimp only at built
  split at built
  · cases built
  · cases built
    rfl

theorem maintained_rebuild (cfg : Setting) (h : CollectionHandle) (points : ExtTreeMap String Record) :
    h.Maintained (h.rebuild cfg points).2 := by
  unfold rebuild
  dsimp only
  split
  · exact ⟨rfl, rfl, rfl, rfl, fun built => built, rfl⟩
  · exact ⟨rfl, rfl, rfl, rfl, fun _ => rfl, rfl⟩

theorem maintained_install (h : CollectionHandle) (r : RebuiltIndex) : h.Maintained (h.install r).2 := by
  unfold install
  dsimp only
  split
  · exact ⟨rfl, rfl, rfl, rfl, fun built => built, rfl⟩
  · exact Maintained.publishIfServed ⟨rfl, rfl, rfl, rfl, fun _ => rfl, rfl⟩

/-- What an operation can do to the rows of a collection and its handle. Some operations install a
rebuild. -/
inductive Effect (cfg : Setting) (installs : Option RebuiltIndex) (rows : ExtTreeMap String Record) (h : CollectionHandle) :
    ExtTreeMap String Record → CollectionHandle → Prop
  | same : Effect cfg installs rows h rows h
  | upserts (points : List PointIn) :
      Effect cfg installs rows h (insertPoints rows points) (Database.indexBatch cfg h points)
  | sealed {rows' : ExtTreeMap String Record} (client : h.descriptor.vectorEncryption = .clientSide) :
      Effect cfg installs rows h rows' h
  | bulk {rows' : ExtTreeMap String Record} : Effect cfg installs rows h rows' h.markStale
  | delete (id : String) : Effect cfg installs rows h (rows.erase id) ((h.indexDeletePoint id).sparseDeletePoint id)
  | rebuilt {g : CollectionHandle} (built : h.rebuild cfg rows = (.ok (), g)) :
      Effect cfg installs rows h rows g.publishIfServed
  | failed {error : BuildError} {g : CollectionHandle} (built : h.rebuild cfg rows = (.error error, g)) :
      Effect cfg installs rows h rows g
  | installed {r : RebuiltIndex} (isRebuild : installs = some r) : Effect cfg installs rows h rows (h.install r).2

end CollectionHandle

end Quiver.Embed
