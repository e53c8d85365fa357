import Quiver.Base.Lists
import Quiver.Embed.Documents
import Quiver.Embed.Rebuild

/-!
What a multi-vector collection is for: a map from document ids to documents. The rows carry its
content and the handle's token counts are the only way in. Writes keep the two together; a rebuild
brings the counts of the moment it was captured, and replicated rows bring none.
-/

namespace Quiver.Embed

open Quiver.Core Lists Maps
open Std (ExtTreeMap)
open Std.ExtTreeMap (ext_getElem? getElem?_empty size_map)
open Option (bind_none bind_some getD_some map_some)

variable {cfg : Setting}

/-- The documents that were written and not deleted since. -/
abbrev DocMap := ExtTreeMap String DocumentIn

/-- A database, the documents that one of its collections should hold, and the rebuilds of that
collection under way. -/
structure DocState where
  db : Database
  docs : DocMap := ∅
  pending : List RebuiltIndex := []

inductive DocsEvent where
  | upsert (doc : DocumentIn)
  | delete (d : String)
  | reopen
  | ensureIndexed
  | capture
  | commit
  /-- A row of the collection from another node. -/
  | replicate (op : WalOp)
  /-- Anything that leaves the collection alone, as a checkpoint or another collection's write. -/
  | other

namespace Database

/-- One event. An acknowledged write changes what the collection should hold. -/
inductive DocsStep (cfg : Setting) (name : String) : DocState → DocsEvent → DocState → Prop
  | upsert {s : DocState} {doc : DocumentIn} : DocsStep cfg name s (.upsert doc)
      ⟨(s.db.upsertDocument cfg name doc).1,
        if (s.db.upsertDocument cfg name doc).2.isOk then s.docs.insert doc.id doc else s.docs, s.pending⟩
  | delete {s : DocState} {d : String} : DocsStep cfg name s (.delete d)
      ⟨(s.db.deleteDocument cfg name d).1,
        if (s.db.deleteDocument cfg name d).2.isOk then s.docs.erase d else s.docs, s.pending⟩
  | reopen {s : DocState} {db : Database} : s.db.reopen cfg = .ok db →
      DocsStep cfg name s .reopen ⟨db, s.docs, []⟩
  | ensureIndexed {s : DocState} :
      DocsStep cfg name s .ensureIndexed { s with db := (s.db.ensureIndexed cfg name).1 }
  | capture {s : DocState} {rebuilt : RebuiltIndex} : capture cfg s.db name = some rebuilt →
      DocsStep cfg name s .capture { s with pending := rebuilt :: s.pending }
  | commit {s : DocState} {rebuilt : RebuiltIndex} {before after : List RebuiltIndex} :
      s.pending = before ++ rebuilt :: after →
      DocsStep cfg name s .commit ⟨(s.db.commitRebuild rebuilt).1, s.docs, before ++ after⟩
  | replicate {s : DocState} {h : CollectionHandle} {op : WalOp} {id : String} : s.db.handles[name]? = some h →
      op.Touches h.id id → DocsStep cfg name s (.replicate op) { s with db := (s.db.applyReplicated cfg op).1 }
  | other {s : DocState} {db : Database} : s.db.Follows db → db.handles[name]? = s.db.handles[name]? →
      db.rows name = s.db.rows name → DocsStep cfg name s .other { s with db }

/-- The records that delete the rows of a document are within the cap. -/
def DeletesFit (cfg : Setting) (k : CollectionId) (d : String) : Prop :=
  ∀ j < 2 ^ 32, cfg.recordLen (.delete k (tokenId d j)) ≤ maxRecordBytes

/-- So are the records that write its rows. -/
def TokensFit (cfg : Setting) (k : CollectionId) (doc : DocumentIn) : Prop :=
  ∀ token ∈ doc.vectors.zipIdx, cfg.recordLen (PointIn.op k ⟨tokenId doc.id token.2, token.1,
    if token.2 = 0 then doc.payload else []⟩) ≤ maxRecordBytes

/-- No document is written while a rebuild is under way, no row comes from another node, and the
records of a document are within the cap. -/
def Quiet (cfg : Setting) (name : String) (s : DocState) : DocsEvent → Prop
  | .upsert doc => s.pending = [] ∧ doc.vectors.length < 2 ^ 32 ∧ doc.payload ≠ [] ∧
    ∀ h, s.db.handles[name]? = some h → DeletesFit cfg h.id doc.id ∧ TokensFit cfg h.id doc
  | .delete d => s.pending = [] ∧ ∀ h, s.db.handles[name]? = some h → DeletesFit cfg h.id d
  | .replicate _ => False
  | _ => True

section Writes

theorem forEach_ok {σ α ε : Type} {f : σ → α → Except ε σ} {P : σ → Prop} {items : List α}
    (each : ∀ a ∈ items, ∀ s, P s → ∃ s', f s a = .ok s' ∧ P s') {s : σ} (start : P s) :
    ∃ s', forEach f s items = (s', .ok ()) ∧ P s' := by
  induction items generalizing s with
  | nil => exact ⟨s, rfl, start⟩
  | cons a items ih =>
    obtain ⟨s', done, next⟩ := each a List.mem_cons_self s start
    rw [forEach, done]
    exact ih (fun a inside => each a (List.mem_cons_of_mem _ inside)) next

theorem storeLog_of_fits {l : Logical} {op : WalOp} (fits : cfg.recordLen op ≤ maxRecordBytes) :
    storeLog cfg l [op] = .ok (l.applyAll cfg.encoding [op]) := by
  simp [storeLog, checkRecord, Nat.not_lt.mpr fits, bind, Except.bind, pure, Except.pure]

variable {s s₀ : Rows} {c : LogicalCollection} (held : s₀.1.collections[s₀.2.id]? = some c) (kept : s₀.Kept s)
include held kept

theorem Rows.Kept.stands : ∃ c', s.1.collections[s₀.2.id]? = some c' ∧ c'.descriptor = c.descriptor := by
  obtain ⟨c', held'⟩ := kept.1.present c held
  obtain ⟨c₀, held₀, _, same⟩ := kept.1.kept c' held'
  rw [held] at held₀
  cases held₀
  exact ⟨c', held', same⟩

theorem deleteToken_ok {d : String} {j : Nat} (fits : cfg.recordLen (.delete s₀.2.id (tokenId d j)) ≤ maxRecordBytes) :
    ∃ s', deleteToken cfg d s j = .ok s' ∧ s₀.Kept s' := by
  obtain ⟨c', held', _⟩ := Rows.Kept.stands held kept
  obtain ⟨l, existed, stored⟩ : ∃ l existed, storeDelete cfg s.1 s.2.id (tokenId d j) = .ok (l, existed) := by
    rw [kept.2.id, storeDelete, held']
    dsimp only
    split
    · rw [storeLog_of_fits fits]
      exact ⟨_, _, rfl⟩
    · exact ⟨_, _, rfl⟩
  have done : deleteToken cfg d s j = .ok (l, s.2.indexDeletePoint (tokenId d j)) := by rw [deleteToken, stored]
  exact ⟨_, done, kept.trans (deleteToken_kept cfg d s j _ done)⟩

theorem upsertToken_ok {doc : DocumentIn} {token : List F32 × Nat} (dims : token.1.length = c.descriptor.dim)
    (fits : cfg.recordLen (PointIn.op s₀.2.id ⟨tokenId doc.id token.2, token.1,
      if token.2 = 0 then doc.payload else []⟩) ≤ maxRecordBytes) :
    ∃ s', upsertToken cfg doc s token = .ok s' ∧ s₀.Kept s' := by
  obtain ⟨c', held', same⟩ := Rows.Kept.stands held kept
  obtain ⟨l, stored⟩ : ∃ l, storeUpsert cfg s.1 s.2.id
      ⟨tokenId doc.id token.2, token.1, if token.2 = 0 then doc.payload else []⟩ = .ok l := by
    rw [kept.2.id, storeUpsert, storeCheckDims, held', storeLog_of_fits fits]
    simp [same, dims, bind, Except.bind]
  have done : upsertToken cfg doc s token = .ok (l, s.2.indexUpsertPoint (tokenId doc.id token.2) token.1) := by
    rw [upsertToken, stored]
  exact ⟨_, done, kept.trans (upsertToken_kept cfg doc s token _ done)⟩

end Writes

section Answers

variable {db : Database} {name d : String} {h : CollectionHandle} (ok : db.Ok)
include ok

/-- A document write whose records are within the cap is done, or refused before its first row. -/
theorem upsertDocument_answers {doc : DocumentIn} (short : ∀ h, db.handles[name]? = some h →
      (knownTokens h doc.id).getD 0 ≤ 2 ^ 32 ∧ DeletesFit cfg h.id doc.id ∧ TokensFit cfg h.id doc) :
    (db.upsertDocument cfg name doc).2 = .ok () ∨ (db.upsertDocument cfg name doc).1 = db := by
  unfold upsertDocument
  split
  · exact .inr rfl
  case h_2 h found =>
    split
    · exact .inr rfl
    split
    · exact .inr rfl
    split
    · exact .inr rfl
    split
    · exact .inr rfl
    case isFalse dims =>
      obtain ⟨few, deletesFit, tokensFit⟩ := short h found
      obtain ⟨c, held, _⟩ := ok.collection found
      have start : Rows.Kept (db.logical, h) (db.logical, h) := ⟨.refl _ _, .of_eq rfl⟩
      obtain ⟨s₁, deleted, kept⟩ : ∃ s₁, forEach (deleteToken cfg doc.id) (db.logical, h)
          ((List.range ((knownTokens h doc.id).getD 0)).drop doc.vectors.length) = (s₁, .ok ()) ∧
          Rows.Kept (db.logical, h) s₁ := forEach_ok
        (fun j inside s kept => deleteToken_ok held kept (deletesFit j
          (Nat.lt_of_lt_of_le (List.mem_range.mp (List.mem_of_mem_drop inside)) few))) start
      obtain ⟨s₂, written, _⟩ := forEach_ok (f := upsertToken cfg doc) (P := Rows.Kept (db.logical, h))
        (fun token inside s kept => by
          refine upsertToken_ok held kept ?_ (tokensFit token inside)
          have isVector : token.1 ∈ doc.vectors := List.fst_mem_of_mem_zipIdx inside
          rw [← ok.descriptor found held]
          by_contra differ
          exact dims (List.any_eq_true.mpr ⟨token.1, isVector, by simpa using differ⟩)) kept
      refine .inl ?_
      simp only [writeDocument, deleted, written]

theorem deleteDocument_answers (short : ∀ h, db.handles[name]? = some h →
      (knownTokens h d).getD 0 ≤ 2 ^ 32 ∧ DeletesFit cfg h.id d) :
    (∃ existed, (db.deleteDocument cfg name d).2 = .ok existed) ∨ (db.deleteDocument cfg name d).1 = db := by
  unfold deleteDocument
  split
  · exact .inr rfl
  case h_2 h found =>
    split
    · exact .inr rfl
    obtain ⟨few, deletesFit⟩ := short h found
    obtain ⟨c, held, _⟩ := ok.collection found
    split
    · exact .inr rfl
    case h_2 count isKnown =>
      rw [isKnown, Option.getD_some] at few
      obtain ⟨s₁, deleted, _⟩ : ∃ s₁, forEach (deleteToken cfg d) (db.logical, h) (List.range count) = (s₁, .ok ()) ∧
          Rows.Kept (db.logical, h) s₁ := forEach_ok
        (fun j inside s kept => deleteToken_ok held kept (deletesFit j (Nat.lt_of_lt_of_le (List.mem_range.mp inside) few)))
        ⟨.refl _ _, .of_eq rfl⟩
      rw [deleted]
      exact .inl ⟨true, rfl⟩

end Answers

/-- The token counts are those of the documents. -/
def Counts (docs : DocMap) (counts : Option (ExtTreeMap String Nat)) : Prop :=
  ∃ m, counts = some m ∧ ∀ d : String, m[d]? = (docs[d]?).map fun doc => doc.vectors.length

/-- The collection holds its documents. -/
structure Agrees (name : String) (s : DocState) : Prop where
  documents : s.db.Documents name
  known : ∀ {d : String} {doc : DocumentIn}, s.docs[d]? = some doc →
    doc.id = d ∧ doc.vectors ≠ [] ∧ doc.vectors.length < 2 ^ 32 ∧ doc.payload ≠ []
  rows : ∀ d j, (s.db.rows name)[tokenId d j]? = (s.docs[d]?).bind fun doc => doc.row j
  counts : ∀ {h : CollectionHandle}, s.db.handles[name]? = some h → Counts s.docs h.docs
  pending : ∀ r ∈ s.pending, r.collection = name ∧ Counts s.docs r.docs

namespace Agrees

variable {name : String} {s s' : DocState}

theorem counted (agrees : Agrees name s) {points : ExtTreeMap String Record} (isRows : s.db.rows name = points) :
    Counts s.docs (some (points.keys.foldl countToken ∅)) := by
  refine ⟨_, rfl, fun d => ?_⟩
  have tokens := isRows ▸ agrees.documents.tokens
  have count : (survivors points d).length = ((s.docs[d]?).map fun doc => doc.vectors.length).getD 0 := by
    refine length_of_mem_iff tokens.nodup_survivors fun j => ?_
    rw [tokens.mem_survivors, ← isRows, ExtTreeMap.mem_iff_isSome_getElem?, agrees.rows d j]
    cases s.docs[d]? with
    | none => simp
    | some doc => simp [DocumentIn.row]
  rw [countTokens, ← survivors]
  cases held : s.docs[d]? with
  | none =>
    rw [held] at count
    have none : survivors points d = [] := List.length_eq_zero_iff.mp count
    rw [if_pos none]
    rfl
  | some doc =>
    rw [held] at count
    have filled : survivors points d ≠ [] := by
      intro none
      rw [none] at count
      exact (agrees.known held).2.1 (List.length_eq_zero_iff.mp count.symm)
    rw [if_neg filled, getElem?_empty]
    simp only [Option.getD_none, Nat.zero_add, map_some, count, getD_some,
      Nat.mod_eq_of_lt (agrees.known held).2.2.1]

theorem scanned (cfg : Setting) (agrees : Agrees name s) {h : CollectionHandle} (found : s.db.handles[name]? = some h)
    {c : LogicalCollection} (held : s.db.logical.collections[h.id]? = some c) :
    Counts s.docs (scanCollection cfg h.descriptor c.points).docs := by
  obtain ⟨h', found', multi⟩ := agrees.documents.loaded
  rw [found] at found'
  cases found'
  have isRows : s.db.rows name = c.points := by
    rw [rows_of_found found, rowsOf, held]
    rfl
  simp only [scanCollection, multi, if_true]
  exact agrees.counted isRows

section

variable (agrees : Agrees name s)
include agrees

theorem known_eq (d : String) :
    s.db.known name d = ((s.docs[d]?).map fun doc => doc.vectors.length).getD 0 := by
  obtain ⟨h, found, _⟩ := agrees.documents.loaded
  obtain ⟨m, docs, counts⟩ := agrees.counts found
  rw [known_of_found found, knownTokens, docs, bind_some, counts]

theorem known_le {h : CollectionHandle} (found : s.db.handles[name]? = some h) (d : String) :
    (knownTokens h d).getD 0 ≤ 2 ^ 32 := by
  rw [← known_of_found found, agrees.known_eq]
  cases held : s.docs[d]? with
  | none => exact Nat.zero_le _
  | some doc => exact (agrees.known held).2.2.1.le

theorem cleared (d : String) (j : Nat) :
    (if j < s.db.known name d then none else (s.db.rows name)[tokenId d j]?) = none := by
  rw [agrees.known_eq, agrees.rows]
  cases s.docs[d]? with
  | none => simp
  | some old =>
    simp only [map_some, getD_some, bind_some, ite_eq_left_iff, DocumentIn.row, Option.map_eq_none_iff,
      List.getElem?_eq_none_iff]
    omega

theorem put {h h' : CollectionHandle} (found : s.db.handles[name]? = some h)
    (maintained : h.Maintained h') (counts : Counts s.docs h'.docs) {pending : List RebuiltIndex}
    (kept : ∀ r ∈ pending, r ∈ s.pending) :
    Agrees name ⟨s.db.put name s.db.logical h', s.docs, pending⟩ := by
  have sameRows : (s.db.put name s.db.logical h').rows name = s.db.rows name := by
    rw [rows_of_found (handles_put ..), rows_of_found found, maintained.id]
    rfl
  obtain ⟨h₀, found₀, multi⟩ := agrees.documents.loaded
  rw [found] at found₀
  cases found₀
  refine ⟨⟨?_, ⟨h', handles_put .., by rw [maintained.descriptor, multi]⟩, ?_⟩, agrees.known, ?_, ?_, ?_⟩
  · exact (agrees.documents.ok.put found (.refl _ _) (maintained.advanced _)).ok
  · exact sameRows ▸ agrees.documents.tokens
  · intro d j
    rw [sameRows]
    exact agrees.rows d j
  · intro g there
    rw [handles_put] at there
    cases there
    exact counts
  · exact fun r inside => agrees.pending r (kept r inside)

theorem upsert {doc : DocumentIn} (quiet : Quiet cfg name s (.upsert doc)) :
    Agrees name ⟨(s.db.upsertDocument cfg name doc).1,
      if (s.db.upsertDocument cfg name doc).2.isOk then s.docs.insert doc.id doc else s.docs, s.pending⟩ := by
  obtain ⟨none, short, payload, fits⟩ := quiet
  have clean := upsertDocument_answers agrees.documents.ok fun h found => ⟨agrees.known_le found doc.id, fits h found⟩
  cases answer : (s.db.upsertDocument cfg name doc).2 with
  | error error =>
    rw [answer] at clean
    have same : (s.db.upsertDocument cfg name doc).1 = s.db := clean.resolve_left fun ok => by cases ok
    rw [same]
    exact agrees
  | ok done =>
    obtain ⟨filled, elsewhere, h, h', found, found', docs⟩ := upsertDocument_elsewhere answer
    simp only [Except.isOk, Except.toBool, if_true]
    refine ⟨agrees.documents.upsert short, ?_, ?_, ?_, ?_⟩
    · intro d stored held
      obtain ⟨same, rfl⟩ | ⟨_, held⟩ := of_insert held
      · exact ⟨same, filled, short, payload⟩
      · exact agrees.known held
    · intro d j
      rw [get_insert]
      split
      case isTrue same =>
        subst same
        rw [upsertDocument_rows answer, agrees.cleared, bind_some]
        split
        · rfl
        case isFalse long =>
          symm
          simp only [DocumentIn.row, Option.map_eq_none_iff, List.getElem?_eq_none_iff]
          omega
      case isFalse differ =>
        rw [elsewhere _ fun i same => differ (tokenId_inj.mp same).1.symm]
        exact agrees.rows d j
    · intro g there
      rw [found'] at there
      cases there
      obtain ⟨m, isMap, counts⟩ := agrees.counts found
      refine ⟨m.insert doc.id (doc.vectors.length % 2 ^ 32), by rw [docs, isMap]; rfl, fun d => ?_⟩
      rw [get_insert, get_insert]
      split
      · rw [Nat.mod_eq_of_lt short]
        rfl
      · exact counts d
    · intro r inside
      rw [none] at inside
      contradiction

theorem delete {d : String} (quiet : Quiet cfg name s (.delete d)) :
    Agrees name ⟨(s.db.deleteDocument cfg name d).1,
      if (s.db.deleteDocument cfg name d).2.isOk then s.docs.erase d else s.docs, s.pending⟩ := by
  obtain ⟨none, fits⟩ := quiet
  have clean := deleteDocument_answers agrees.documents.ok fun h found => ⟨agrees.known_le found d, fits h found⟩
  cases answer : (s.db.deleteDocument cfg name d).2 with
  | error error =>
    rw [answer] at clean
    have same : (s.db.deleteDocument cfg name d).1 = s.db := by
      obtain ⟨_, ok⟩ | same := clean
      · cases ok
      · exact same
    rw [same]
    exact agrees
  | ok existed =>
    simp only [Except.isOk, Except.toBool, if_true]
    obtain ⟨same, unknown⟩ | ⟨elsewhere, h, h', found, found', docs⟩ := deleteDocument_elsewhere answer
    · have absent : s.docs[d]? = Option.none := by
        cases held : s.docs[d]? with
        | none => rfl
        | some doc =>
          rw [agrees.known_eq, held] at unknown
          exact absurd (List.length_eq_zero_iff.mp unknown) (agrees.known held).2.1
      rw [same, erase_absent absent]
      exact agrees
    · refine ⟨agrees.documents.delete d, ?_, ?_, ?_, ?_⟩
      · intro d' stored held
        exact agrees.known (of_erase held).2
      · intro d' j
        rw [get_erase]
        split
        case isTrue isD =>
          subst isD
          rw [deleteDocument_rows answer, agrees.cleared]
          rfl
        case isFalse differ =>
          rw [elsewhere _ fun i same => differ (tokenId_inj.mp same).1.symm]
          exact agrees.rows d' j
      · intro g there
        rw [found'] at there
        cases there
        obtain ⟨m, isMap, counts⟩ := agrees.counts found
        refine ⟨m.erase d, by rw [docs, isMap]; rfl, fun d' => ?_⟩
        rw [get_erase, get_erase]
        split
        · rfl
        · exact counts d'
      · intro r inside
        rw [none] at inside
        contradiction

theorem reopen {db : Database} (opened : s.db.reopen cfg = .ok db) :
    Agrees name ⟨db, s.docs, []⟩ := by
  obtain ⟨h, found, multi⟩ := agrees.documents.loaded
  obtain ⟨h', c, found', isId, _, same, held, docs⟩ := reopen_handle agrees.documents.ok opened found
  have isRows : s.db.rows name = c.points := by
    rw [rows_of_found found, rowsOf, held]
    rfl
  have sameRows : db.rows name = s.db.rows name := by
    rw [rows_of_found found', rows_of_found found, isId, same]
  refine ⟨agrees.documents.reopen opened, agrees.known, ?_, ?_, ?_⟩
  · intro d j
    rw [sameRows]
    exact agrees.rows d j
  · intro g there
    rw [found'] at there
    cases there
    rw [docs, if_pos multi]
    exact agrees.counted isRows
  · intro r inside
    contradiction

end

theorem publishIfServed_docs (h : CollectionHandle) : h.publishIfServed.docs = h.docs := by
  unfold CollectionHandle.publishIfServed
  split <;> rfl

theorem ensureIndexed (agrees : Agrees name s) :
    Agrees name { s with db := (s.db.ensureIndexed cfg name).1 } := by
  unfold Database.ensureIndexed
  split
  · exact agrees
  case h_2 h found =>
    split
    · obtain ⟨c, held, _⟩ := agrees.documents.ok.collection found
      rw [held]
      dsimp only
      have maintained := h.maintained_rebuild cfg c.points
      have counts : Counts s.docs (h.rebuild cfg c.points).2.docs := by
        unfold CollectionHandle.rebuild
        dsimp only
        have counts := agrees.counts found
        split
        · exact counts
        · exact agrees.scanned cfg found held
      split
      case h_1 error g rebuilt =>
        rw [rebuilt] at maintained counts
        exact agrees.put found maintained counts fun r inside => inside
      case h_2 g rebuilt =>
        rw [rebuilt] at maintained counts
        refine agrees.put found maintained.publishIfServed ?_ fun r inside => inside
        rw [publishIfServed_docs]
        exact counts
    · exact agrees

theorem capture (agrees : Agrees name s) {rebuilt : RebuiltIndex}
    (captured : Database.capture cfg s.db name = some rebuilt) :
    Agrees name { s with pending := rebuilt :: s.pending } := by
  obtain ⟨inputs, taken, built⟩ := capture_eq_some.mp captured
  obtain ⟨h, c, found, held, rfl⟩ := snapshotRebuildInputs_spec agrees.documents.ok taken
  obtain ⟨isName, _, _, docs, _⟩ := RebuildInputs.build_spec built
  exact ⟨agrees.documents, agrees.known, agrees.rows, agrees.counts,
    List.forall_mem_cons.mpr ⟨⟨isName, docs ▸ agrees.scanned cfg found held⟩, agrees.pending⟩⟩

theorem commit (agrees : Agrees name s) {rebuilt : RebuiltIndex} {before after : List RebuiltIndex}
    (isPending : s.pending = before ++ rebuilt :: after) :
    Agrees name ⟨(s.db.commitRebuild rebuilt).1, s.docs, before ++ after⟩ := by
  obtain ⟨isName, counts⟩ := agrees.pending rebuilt (by simp [isPending])
  obtain ⟨h, found, _⟩ := agrees.documents.loaded
  have kept : ∀ r ∈ before ++ after, r ∈ s.pending := by
    intro r inside
    rw [isPending]
    simp only [List.mem_append, List.mem_cons] at inside ⊢
    exact inside.imp_right .inr
  have installed : Counts s.docs (h.install rebuilt).2.docs := by
    unfold CollectionHandle.install
    dsimp only
    have old := agrees.counts found
    split
    · exact old
    · rw [publishIfServed_docs]
      exact counts
  subst isName
  rw [commitRebuild_eq found]
  exact agrees.put found (h.maintained_install rebuilt) installed kept

theorem step (agrees : Agrees name s) {event : DocsEvent} (quiet : Quiet cfg name s event)
    (stepped : DocsStep cfg name s event s') : Agrees name s' := by
  cases stepped with
  | upsert => exact agrees.upsert quiet
  | delete => exact agrees.delete quiet
  | reopen opened => exact agrees.reopen opened
  | ensureIndexed => exact agrees.ensureIndexed
  | capture captured => exact agrees.capture captured
  | commit isPending => exact agrees.commit isPending
  | replicate => exact quiet.elim
  | other follows sameHandle sameRows =>
    obtain ⟨h, found, multi⟩ := agrees.documents.loaded
    refine ⟨⟨follows.ok, ⟨h, sameHandle ▸ found, multi⟩, sameRows ▸ agrees.documents.tokens⟩, agrees.known, ?_, ?_,
      agrees.pending⟩
    · intro d j
      rw [sameRows]
      exact agrees.rows d j
    · intro g there
      exact agrees.counts (sameHandle ▸ there)

theorem create {mvcc : Bool} {descriptor : Descriptor} (multi : descriptor.multivector = true) {db : Database}
    (created : ({ mvcc := mvcc } : Database).createCollection cfg name descriptor = (db, .ok ())) :
    Agrees name ⟨db, ∅, []⟩ := by
  obtain ⟨none, found⟩ := createCollection_new created
  refine ⟨.create multi created, fun held => ?_, fun d j => ?_, fun {g} there => ?_, fun r inside => ?_⟩
  · rw [getElem?_empty] at held
    contradiction
  · simp only [none, getElem?_empty, bind_none]
  · rw [found] at there
    cases there
    refine ⟨∅, by simp [newHandle, multi], fun d => by simp only [getElem?_empty, Option.map_none]⟩
  · contradiction

theorem filterMap_getElem? {α : Type} (items : List α) : (List.range items.length).filterMap (fun j => items[j]?) = items := by
  induction items with
  | nil => rfl
  | cons a items ih =>
    rw [List.length_cons, List.range_succ_eq_map, List.filterMap_cons, List.filterMap_map]
    simp only [List.getElem?_cons_zero, Function.comp_def, Nat.succ_eq_add_one, List.getElem?_cons_succ, ih]

theorem getDocument_eq (agrees : Agrees name s) (d : String) :
    s.db.getDocument name d = .ok ((s.docs[d]?).map fun doc => ⟨some doc.payload, doc.vectors⟩) := by
  obtain ⟨h, found, multi⟩ := agrees.documents.loaded
  obtain ⟨c, held, _⟩ := agrees.documents.ok.collection found
  obtain ⟨m, isMap, counts⟩ := agrees.counts found
  have isKnown : knownTokens h d = (s.docs[d]?).map fun doc => doc.vectors.length := by
    rw [knownTokens, isMap, bind_some, counts]
  have rows : ∀ j, c.points[tokenId d j]? = (s.docs[d]?).bind fun doc => doc.row j := by
    intro j
    rw [← agrees.rows d j, rows_of_found found, rowsOf, held]
    rfl
  unfold getDocument
  rw [found]
  simp only [multi, Bool.not_true, Bool.false_eq_true, if_false, isKnown, held]
  cases stored : s.docs[d]? with
  | none => rfl
  | some doc =>
    obtain ⟨_, filled, _, payload⟩ := agrees.known stored
    have vectors : (gatherDocument c.points d doc.vectors.length).vectors = doc.vectors := by
      simp only [gatherDocument, rows, stored, bind_some, DocumentIn.row, Option.map_map, Function.comp_def,
        Option.map_id']
      exact filterMap_getElem? doc.vectors
    have first : (gatherDocument c.points d doc.vectors.length).payload = some doc.payload := by
      obtain ⟨v, others, split⟩ := List.exists_cons_of_ne_nil filled
      simp only [gatherDocument, rows, stored, bind_some, DocumentIn.row, split, List.getElem?_cons_zero,
        map_some, DocumentIn.payloadAt, if_true, List.length_cons, Nat.zero_lt_succ, true_and, ne_eq, payload,
        not_false_eq_true]
    simp only [map_some, vectors, if_neg filled]
    congr 2
    exact congrArg₂ DocumentOut.mk first vectors

theorem documentCount_eq (agrees : Agrees name s) : s.db.documentCount name = .ok s.docs.size := by
  obtain ⟨h, found, multi⟩ := agrees.documents.loaded
  obtain ⟨m, isMap, counts⟩ := agrees.counts found
  have isLengths : m = s.docs.map fun _ doc => doc.vectors.length := by
    refine ext_getElem? fun d => ?_
    rw [ExtTreeMap.getElem?_map]
    exact counts d
  unfold documentCount
  rw [found]
  simp only [multi, Bool.not_true, Bool.false_eq_true, if_false, isMap, map_some, getD_some, isLengths,
    size_map]

end Agrees

/-- In every quiet run, the document interface answers from the documents that were written and
not deleted since, and a delete leaves no row. -/
theorem documents_agree {mvcc : Bool} {descriptor : Descriptor} (multi : descriptor.multivector = true)
    {name : String} {start : Database}
    (created : ({ mvcc := mvcc } : Database).createCollection cfg name descriptor = (start, .ok ()))
    {events : List DocsEvent} {s : DocState}
    (reached : Run.Reaches (Run.Guarded (Quiet cfg name) (DocsStep cfg name)) ⟨start, ∅, []⟩ events s) :
    (∀ d, s.db.getDocument name d = .ok ((s.docs[d]?).map fun doc => ⟨some doc.payload, doc.vectors⟩)) ∧
    s.db.documentCount name = .ok s.docs.size ∧
    ∀ d existed, (s.db.deleteDocument cfg name d).2 = .ok existed →
      ∀ j, tokenId d j ∉ (s.db.deleteDocument cfg name d).1.rows name := by
  have agrees : Agrees name s := reached.invariant (fun _ s => Agrees name s) (.create multi created)
    fun held stepped => held.step stepped.1 stepped.2
  refine ⟨agrees.getDocument_eq, agrees.documentCount_eq, fun d existed acknowledged => ?_⟩
  refine (deleteDocument_exact_iff acknowledged).mpr fun j held => ?_
  rw [agrees.known_eq]
  rw [ExtTreeMap.mem_iff_isSome_getElem?, agrees.rows] at held
  cases stored : s.docs[d]? with
  | none =>
    rw [stored] at held
    contradiction
  | some doc =>
    rw [stored] at held
    simpa [DocumentIn.row] using held

/-- The document of `withDocument` and one of a single token. -/
def oneToken : DocumentIn := ⟨"e", [[0]], [1]⟩

def rewritten : Database := (withDocument.upsertDocument .plain "c" threeTokens).1

/-- The document is written twice, and the collection is then rebuilt off the lock. -/
theorem documents_agree_rebuilt : ∃ rebuilt db : _, capture .plain rewritten "c" = some rebuilt ∧
    db = (rewritten.commitRebuild rebuilt).1 ∧
    db.getDocument "c" "d" = .ok (some ⟨some [1], [[0], [0], [0]]⟩) ∧ db.documentCount "c" = .ok 1 := by
  have created : createCollection .plain {} "c" tokenDescriptor =
      ((createCollection .plain {} "c" tokenDescriptor).1, .ok ()) := Prod.ext rfl (by decide +kernel)
  have answer : ((createCollection .plain {} "c" tokenDescriptor).1.upsertDocument .plain "c" threeTokens).2 = .ok () := by
    decide +kernel
  have quiet {db : Database} {docs : DocMap} : Quiet .plain "c" ⟨db, docs, []⟩ (.upsert threeTokens) :=
    ⟨rfl, by decide, by decide, fun _ _ => ⟨fun _ _ => Nat.zero_le _, fun _ _ => Nat.zero_le _⟩⟩
  have again : (withDocument.upsertDocument .plain "c" threeTokens).2 = .ok () := by decide +kernel
  obtain ⟨rebuilt, captured⟩ := Option.isSome_iff_exists.mp
    (show (capture .plain rewritten "c").isSome = true by decide +kernel)
  have write {db : Database} (docs : DocMap) (acknowledged : (db.upsertDocument .plain "c" threeTokens).2 = .ok ()) :
      DocsStep .plain "c" ⟨db, docs, []⟩ (.upsert threeTokens)
        ⟨(db.upsertDocument .plain "c" threeTokens).1, docs.insert threeTokens.id threeTokens, []⟩ := by
    have step := @DocsStep.upsert .plain "c" ⟨db, docs, []⟩ threeTokens
    rw [acknowledged] at step
    exact step
  have start : Run.Reaches (Run.Guarded (Quiet .plain "c") (DocsStep .plain "c"))
      ⟨(createCollection .plain {} "c" tokenDescriptor).1, ∅, []⟩ [] _ := .refl
  have run := (((start.next ⟨quiet, write ∅ answer⟩).next ⟨quiet, write _ again⟩).next
    ⟨show Quiet .plain "c" _ .capture from trivial, .capture captured⟩).next
    ⟨show Quiet .plain "c" _ .commit from trivial, @DocsStep.commit .plain "c" _ rebuilt [] [] rfl⟩
  obtain ⟨got, counted, _⟩ := documents_agree rfl created run
  refine ⟨rebuilt, _, captured, rfl, (got "d").trans ?_, counted.trans ?_⟩
  · simp [threeTokens]
  · exact congrArg Except.ok
      (show (((∅ : DocMap).insert "d" threeTokens).insert "d" threeTokens).size = 1 by decide +kernel)

/-- A document is written while a rebuild is under way. The rebuild brings the counts it was
captured with, and the document can no longer be read, though its row is in the store. -/
theorem rebuild_hides_document :
    (do
      let rebuilt ← capture .plain rewritten "c"
      let written := rewritten.upsertDocument .plain "c" oneToken
      let after := (written.1.commitRebuild rebuilt).1
      return (written.2.toOption, (written.1.getDocument "c" "e").toOption.join.isSome,
        (after.getDocument "c" "e").toOption.join.isSome, survivors (after.rows "c") "e")) =
    some (some (), true, false, [0]) := by
  decide +kernel

end Database

end Quiver.Embed
