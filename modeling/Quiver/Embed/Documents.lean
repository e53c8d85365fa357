import Quiver.Base.Run
import Quiver.Embed.Tokens

/-!
Documents are written and deleted row by row, up to the tokens that the handle knows. A crash
between two rows leaves some, and the next open counts what is there: if a row in front is missing,
those at the end are out of reach of later operations.
-/

namespace Quiver.Embed

open Quiver.Core
open Std (ExtTreeMap)

variable {cfg : Setting} {k : CollectionId}

/-- The payload is kept in the first row. -/
def DocumentIn.payloadAt (doc : DocumentIn) (j : Nat) : Bytes := if j = 0 then doc.payload else []

def DocumentIn.row (doc : DocumentIn) (j : Nat) : Option Record :=
  (doc.vectors[j]?).map fun v => ⟨v, doc.payloadAt j⟩

namespace Database

def Rows.points (s : Rows) : ExtTreeMap String Record := rowsOf s.1 s.2.id

variable {doc : DocumentIn} {s s' : Rows} {d : String} {existed : Bool}

theorem deleteToken_points {j : Nat} (done : deleteToken cfg d s j = .ok s') :
    s'.points = s.points.erase (tokenId d j) ∧ s'.2.docs = s.2.docs := by
  unfold deleteToken at done
  split at done
  · contradiction
  case h_2 deleted =>
    cases done
    have written := s.2.written_indexDeletePoint (tokenId d j)
    refine ⟨?_, written.docs⟩
    simp only [Rows.points, written.id]
    exact (storeDelete_spec deleted).2

theorem upsertToken_points {token : List F32 × Nat}
    (done : upsertToken cfg doc s token = .ok s') :
    s'.points = s.points.insert (tokenId doc.id token.2) ⟨token.1, doc.payloadAt token.2⟩ ∧
      s'.2.docs = s.2.docs := by
  unfold upsertToken at done
  dsimp only at done
  split at done
  · contradiction
  case h_2 stored =>
    cases done
    have written := s.2.written_indexUpsertPoint (tokenId doc.id token.2) token.1
    refine ⟨?_, written.docs⟩
    simp only [Rows.points, written.id]
    exact (storeUpsert_spec stored).2

theorem forEach_invariant {σ α ε : Type} {f : σ → α → Except ε σ} (P : σ → Prop) {items : List α}
    (each : ∀ a ∈ items, ∀ s s', P s → f s a = .ok s' → P s') {s : σ} (start : P s) : P (forEach f s items).1 := by
  induction items generalizing s with
  | nil => exact start
  | cons a items ih =>
    rw [forEach]
    split
    · exact start
    case h_2 s' done =>
      exact ih (fun b inside => each b (List.mem_cons_of_mem _ inside)) (each a (List.mem_cons_self ..) s s' start done)

theorem deleteTokens_points {js : List Nat}
    (done : forEach (deleteToken cfg d) s js = (s', .ok ())) :
    s'.2.docs = s.2.docs ∧ (∀ x, (∀ j, x ≠ tokenId d j) → s'.points[x]? = s.points[x]?) ∧
      ∀ j, s'.points[tokenId d j]? = if j ∈ js then none else s.points[tokenId d j]? := by
  induction js generalizing s with
  | nil =>
    cases done
    exact ⟨rfl, fun _ _ => rfl, fun _ => rfl⟩
  | cons i js ih =>
    rw [forEach] at done
    split at done
    · cases done
    case h_2 middle first =>
      obtain ⟨points, docs⟩ := deleteToken_points first
      obtain ⟨docs', elsewhere, tokens⟩ := ih done
      refine ⟨docs'.trans docs, fun x other => ?_, fun j => ?_⟩
      · rw [elsewhere x other, points, Maps.get_erase, if_neg]
        exact fun same => other i same.symm
      · rw [tokens j, points, Maps.get_erase]
        simp only [tokenId_inj, true_and, List.mem_cons]
        by_cases same : i = j
        · simp [same]
        · simp [same, Ne.symm same]

theorem upsertTokens_points {vectors : List (List F32)} {from' : Nat}
    (done : forEach (upsertToken cfg doc) s (vectors.zipIdx from') = (s', .ok ())) :
    s'.2.docs = s.2.docs ∧ (∀ x, (∀ j, x ≠ tokenId doc.id j) → s'.points[x]? = s.points[x]?) ∧
      ∀ j, s'.points[tokenId doc.id j]? =
        if from' ≤ j ∧ j < from' + vectors.length
        then (vectors[j - from']?).map fun v => ⟨v, doc.payloadAt j⟩
        else s.points[tokenId doc.id j]? := by
  induction vectors generalizing s from' with
  | nil =>
    cases done
    refine ⟨rfl, fun _ _ => rfl, fun j => ?_⟩
    rw [if_neg (by simp only [List.length_nil]; omega)]
  | cons v vectors ih =>
    rw [List.zipIdx_cons, forEach] at done
    split at done
    · cases done
    case h_2 middle first =>
      obtain ⟨points, docs⟩ := upsertToken_points first
      obtain ⟨docs', elsewhere, tokens⟩ := ih done
      refine ⟨docs'.trans docs, fun x other => ?_, fun j => ?_⟩
      · rw [elsewhere x other, points, Maps.get_insert, if_neg]
        exact fun same => other from' same.symm
      · rw [tokens j, points, Maps.get_insert]
        simp only [tokenId_inj, true_and, List.length_cons]
        by_cases later : from' + 1 ≤ j ∧ j < from' + 1 + vectors.length
        · rw [if_pos later, if_pos (by omega), show j - from' = j - (from' + 1) + 1 by omega, List.getElem?_cons_succ]
        · rw [if_neg later]
          by_cases here : from' = j
          · subst here
            rw [if_pos rfl, if_pos (by omega), Nat.sub_self]
            rfl
          · rw [if_neg here, if_neg (by omega)]

theorem writeDocument_points (done : writeDocument cfg doc s = (s', .ok ())) :
    s'.2.docs = s.2.docs.map (·.insert doc.id (doc.vectors.length % 2 ^ 32)) ∧
      (∀ x, (∀ j, x ≠ tokenId doc.id j) → s'.points[x]? = s.points[x]?) ∧
      ∀ j, s'.points[tokenId doc.id j]? =
        if j < doc.vectors.length then doc.row j
        else if j < (knownTokens s.2 doc.id).getD 0 then none else s.points[tokenId doc.id j]? := by
  unfold writeDocument at done
  dsimp only at done
  split at done
  · cases done
  case h_2 middle deleted =>
    obtain ⟨docs, elsewhere, tokens⟩ := deleteTokens_points deleted
    split at done
    · cases done
    case h_2 last upserted =>
      obtain ⟨docs', elsewhere', tokens'⟩ := upsertTokens_points upserted
      cases done
      refine ⟨by simp only [docs', docs], fun x other => (elsewhere' x other).trans (elsewhere x other), fun j => ?_⟩
      refine (tokens' j).trans ?_
      rw [tokens j]
      simp only [Nat.zero_le, Nat.zero_add, true_and, Nat.sub_zero, DocumentIn.row]
      split
      · rfl
      case isFalse beyond =>
        have dropped : j ∈ (List.range ((knownTokens s.2 doc.id).getD 0)).drop doc.vectors.length ↔
            j < (knownTokens s.2 doc.id).getD 0 := by
          rw [List.mem_drop_iff_getElem]
          simp only [List.getElem_range, List.length_range]
          constructor
          · rintro ⟨i, bound, rfl⟩
            omega
          · intro known
            exact ⟨j - doc.vectors.length, by omega, by omega⟩
        simp only [dropped]

def rows (db : Database) (name : String) : ExtTreeMap String Record :=
  match db.handles[name]? with
  | some h => rowsOf db.logical h.id
  | none => ∅

/-- The number of tokens that a collection's handle knows of a document. -/
def known (db : Database) (name : String) (d : String) : Nat :=
  ((db.handles[name]?).bind fun h => knownTokens h d).getD 0

variable {db db' : Database} {name : String} {h : CollectionHandle}

theorem rows_of_found (found : db.handles[name]? = some h) : db.rows name = rowsOf db.logical h.id := by
  simp only [rows, found]

theorem rows_withLogical (found : db.handles[name]? = some h) (l : Logical) :
    ({ db with logical := l } : Database).rows name = rowsOf l h.id := by
  simp only [rows, found]

theorem known_of_found (found : db.handles[name]? = some h) (d : String) :
    db.known name d = (knownTokens h d).getD 0 := by
  simp only [known, found, Option.bind_some]

theorem handles_put (db : Database) (name : String) (l : Logical) (h : CollectionHandle) :
    (db.put name l h).handles[name]? = some h := ExtTreeMap.getElem?_insert_self

theorem createCollection_new {descriptor : Descriptor}
    (created : db.createCollection cfg name descriptor = (db', .ok ())) :
    db'.rows name = ∅ ∧ db'.handles[name]? = some (db.newHandle db.nextCollectionId descriptor
      (if usesSparseIndex descriptor then some ∅ else none) false) := by
  obtain ⟨error, refused⟩ | ⟨_, done⟩ := createCollection_cases cfg db name descriptor
  · cases refused.symm.trans created
  · obtain ⟨rfl, -⟩ := Prod.mk.inj (done.symm.trans created)
    have found := handles_put db name db.logical (db.newHandle db.nextCollectionId descriptor
      (if usesSparseIndex descriptor then some ∅ else none) false)
    refine ⟨(rows_of_found (by exact found)).trans ?_, found⟩
    simp [rowsOf, put, newHandle]

theorem deleteDocument_cases (cfg : Setting) (db : Database) (name : String) (d : String) :
    ((∃ answer, db.deleteDocument cfg name d = (db, answer)) ∧ db.known name d = 0) ∨
    (∃ error, db.deleteDocument cfg name d = (db, .error error)) ∨
    ∃ h count, db.handles[name]? = some h ∧ h.descriptor.multivector = true ∧ knownTokens h d = some count ∧
      ((∃ s error, forEach (deleteToken cfg d) (db.logical, h) (List.range count) = (s, .error error) ∧
          db.deleteDocument cfg name d = (db.put name s.1 s.2, .error error)) ∨
        ∃ s, forEach (deleteToken cfg d) (db.logical, h) (List.range count) = (s, .ok ()) ∧
          db.deleteDocument cfg name d =
            (db.put name s.1 { s.2 with docs := s.2.docs.map (·.erase d) }, .ok true)) := by
  unfold deleteDocument
  split
  · exact .inr (.inl ⟨_, rfl⟩)
  case h_2 h found =>
    split
    · exact .inr (.inl ⟨_, rfl⟩)
    case isFalse multi =>
      split
      case h_1 unknown =>
        refine .inl ⟨⟨_, rfl⟩, ?_⟩
        rw [known_of_found found, unknown]
        rfl
      case h_2 count isKnown =>
        refine .inr (.inr ⟨h, count, found, by simpa using multi, isKnown, ?_⟩)
        split
        case h_1 s error stopped => exact .inl ⟨s, error, stopped, rfl⟩
        case h_2 s done => exact .inr ⟨s, done, rfl⟩

theorem deleteDocument_acknowledged (acknowledged : (db.deleteDocument cfg name d).2 = .ok existed) :
    ((db.deleteDocument cfg name d).1 = db ∧ db.known name d = 0) ∨
    ∃ h count s, db.handles[name]? = some h ∧ knownTokens h d = some count ∧
      forEach (deleteToken cfg d) (db.logical, h) (List.range count) = (s, .ok ()) ∧
      db.deleteDocument cfg name d = (db.put name s.1 { s.2 with docs := s.2.docs.map (·.erase d) }, .ok true) := by
  obtain ⟨⟨answer, same⟩, unknown⟩ | ⟨error, refused⟩ | ⟨h, count, found, multi, isKnown, done⟩ :=
    deleteDocument_cases cfg db name d
  · exact .inl ⟨congrArg Prod.fst same, unknown⟩
  · rw [refused] at acknowledged
    cases acknowledged
  · obtain ⟨s, error, _, refused⟩ | ⟨s, deleted, done⟩ := done
    · rw [refused] at acknowledged
      cases acknowledged
    · exact .inr ⟨h, count, s, found, isKnown, deleted, done⟩

theorem upsertDocument_rows (acknowledged : (db.upsertDocument cfg name doc).2 = .ok ()) (j : Nat) :
    ((db.upsertDocument cfg name doc).1.rows name)[tokenId doc.id j]? =
      if j < doc.vectors.length then doc.row j
      else if j < db.known name doc.id then none else (db.rows name)[tokenId doc.id j]? := by
  obtain ⟨error, refused⟩ | ⟨h, found, multi, _, done⟩ := upsertDocument_cases cfg db name doc
  · rw [refused] at acknowledged
    cases acknowledged
  · rw [done] at acknowledged ⊢
    rw [rows_of_found (handles_put ..), known_of_found found, rows_of_found found]
    exact (writeDocument_points (Prod.ext rfl acknowledged)).2.2 j

theorem upsertDocument_elsewhere (acknowledged : (db.upsertDocument cfg name doc).2 = .ok ()) :
    doc.vectors ≠ [] ∧
    (∀ x, (∀ j, x ≠ tokenId doc.id j) → ((db.upsertDocument cfg name doc).1.rows name)[x]? = (db.rows name)[x]?) ∧
    ∃ h h', db.handles[name]? = some h ∧ (db.upsertDocument cfg name doc).1.handles[name]? = some h' ∧
      h'.docs = h.docs.map (·.insert doc.id (doc.vectors.length % 2 ^ 32)) := by
  obtain ⟨error, refused⟩ | ⟨h, found, multi, filled, done⟩ := upsertDocument_cases cfg db name doc
  · rw [refused] at acknowledged
    cases acknowledged
  · rw [done] at acknowledged ⊢
    obtain ⟨docs, elsewhere, _⟩ := writeDocument_points (Prod.ext rfl acknowledged)
    refine ⟨filled, fun x other => ?_, h, _, found, handles_put .., docs⟩
    rw [rows_of_found (handles_put ..), rows_of_found found]
    exact elsewhere x other

theorem deleteDocument_rows
    (acknowledged : (db.deleteDocument cfg name d).2 = .ok existed) (j : Nat) :
    ((db.deleteDocument cfg name d).1.rows name)[tokenId d j]? =
      if j < db.known name d then none else (db.rows name)[tokenId d j]? := by
  obtain ⟨same, unknown⟩ | ⟨h, count, s, found, isKnown, deleted, done⟩ := deleteDocument_acknowledged acknowledged
  · rw [same, unknown]
    rfl
  · rw [done, rows_of_found (handles_put ..), known_of_found found, rows_of_found found, isKnown]
    refine ((deleteTokens_points deleted).2.2 j).trans ?_
    simp only [List.mem_range, Option.getD_some]
    rfl

theorem deleteDocument_elsewhere
    (acknowledged : (db.deleteDocument cfg name d).2 = .ok existed) :
    ((db.deleteDocument cfg name d).1 = db ∧ db.known name d = 0) ∨
    (∀ x, (∀ j, x ≠ tokenId d j) → ((db.deleteDocument cfg name d).1.rows name)[x]? = (db.rows name)[x]?) ∧
    ∃ h h', db.handles[name]? = some h ∧ (db.deleteDocument cfg name d).1.handles[name]? = some h' ∧
      h'.docs = h.docs.map (·.erase d) := by
  obtain unchanged | ⟨h, count, s, found, isKnown, deleted, done⟩ := deleteDocument_acknowledged acknowledged
  · exact .inl unchanged
  · rw [done]
    obtain ⟨docs, elsewhere, _⟩ := deleteTokens_points deleted
    refine .inr ⟨fun x other => ?_, h, _, found, handles_put .., ?_⟩
    · rw [rows_of_found (handles_put ..), rows_of_found found]
      exact elsewhere x other
    · exact congrArg (Option.map (·.erase d)) docs

/-- An acknowledged write leaves the document's rows and no others, exactly if no row lies
beyond both its tokens and those the handle knew. -/
theorem upsertDocument_exact_iff (acknowledged : (db.upsertDocument cfg name doc).2 = .ok ()) :
    (∀ j, ((db.upsertDocument cfg name doc).1.rows name)[tokenId doc.id j]? = doc.row j) ↔
      ∀ j, tokenId doc.id j ∈ db.rows name → j < max doc.vectors.length (db.known name doc.id) := by
  constructor
  · intro exact' j held
    have left := (upsertDocument_rows acknowledged j).symm.trans (exact' j)
    by_contra beyond
    have absent : doc.row j = none := by
      simp only [DocumentIn.row, Option.map_eq_none_iff, List.getElem?_eq_none_iff]
      omega
    rw [if_neg (by omega), if_neg (by omega), absent] at left
    exact (getElem?_eq_none_iff ..).mp left held
  · intro within j
    rw [upsertDocument_rows acknowledged j]
    split
    · rfl
    case isFalse long =>
      have absent : doc.row j = none := by
        simp only [DocumentIn.row, Option.map_eq_none_iff, List.getElem?_eq_none_iff]
        omega
      rw [absent]
      split
      · rfl
      case isFalse unknown =>
        by_contra held
        have := within j (not_not.mp fun absent => held ((getElem?_eq_none_iff ..).mpr absent))
        omega

/-- An acknowledged delete leaves no row of the document, exactly if no row lies beyond those
the handle knew. -/
theorem deleteDocument_exact_iff
    (acknowledged : (db.deleteDocument cfg name d).2 = .ok existed) :
    (∀ j, tokenId d j ∉ (db.deleteDocument cfg name d).1.rows name) ↔
      ∀ j, tokenId d j ∈ db.rows name → j < db.known name d := by
  simp only [← getElem?_eq_none_iff, deleteDocument_rows acknowledged]
  constructor
  · intro gone j held
    by_contra beyond
    have absent := gone j
    rw [if_neg beyond] at absent
    exact (getElem?_eq_none_iff ..).mp absent held
  · intro within j
    split
    · rfl
    case isFalse beyond =>
      by_contra held
      exact beyond (within j (not_not.mp fun absent => held ((getElem?_eq_none_iff ..).mpr absent)))

def documentWrites (h : CollectionHandle) (doc : DocumentIn) : List WalOp :=
  ((List.range ((knownTokens h doc.id).getD 0)).drop doc.vectors.length).map
      (fun j => .delete h.id (tokenId doc.id j)) ++
    doc.vectors.zipIdx.map fun token =>
      .upsert h.id (tokenId doc.id token.2) (f32ToLeBytes token.1) (doc.payloadAt token.2)

def deleteWrites (h : CollectionHandle) (d : String) : List WalOp :=
  (List.range ((knownTokens h d).getD 0)).map fun j => .delete h.id (tokenId d j)

/-- What happens to the documents of a collection. A crash leaves the first row writes of an
operation, and the database is opened again. -/
inductive DocEvent where
  | upsert (doc : DocumentIn)
  | delete (d : String)
  | crashUpsert (doc : DocumentIn) (written : Nat)
  | crashDelete (d : String) (written : Nat)
  | reopen

/-- The database of which only the log is left. -/
def crashed (cfg : Setting) (db : Database) (writes : List WalOp) : Except BuildError Database :=
  { db with logical := db.logical.applyAll cfg.encoding writes }.reopen cfg

inductive DocStep (cfg : Setting) (name : String) : Database → DocEvent → Database → Prop
  | upsert {db : Database} {doc : DocumentIn} : doc.vectors.length < 2 ^ 32 →
      DocStep cfg name db (.upsert doc) (db.upsertDocument cfg name doc).1
  | delete {db : Database} {d : String} : DocStep cfg name db (.delete d) (db.deleteDocument cfg name d).1
  | crashUpsert {db db' : Database} {h : CollectionHandle} {doc : DocumentIn} {written : Nat} :
      doc.vectors.length < 2 ^ 32 → db.handles[name]? = some h → (db.upsertDocument cfg name doc).2 = .ok () →
      db.crashed cfg ((documentWrites h doc).take written) = .ok db' →
      DocStep cfg name db (.crashUpsert doc written) db'
  | crashDelete {db db' : Database} {h : CollectionHandle} {d : String} {written : Nat} :
      db.handles[name]? = some h → (db.deleteDocument cfg name d).2 = .ok true →
      db.crashed cfg ((deleteWrites h d).take written) = .ok db' →
      DocStep cfg name db (.crashDelete d written) db'
  | reopen {db db' : Database} : db.reopen cfg = .ok db' → DocStep cfg name db .reopen db'

/-- A loaded collection whose rows are tokens of documents. -/
structure Documents (db : Database) (name : String) : Prop where
  ok : db.Ok
  loaded : ∃ h, db.handles[name]? = some h ∧ h.descriptor.multivector = true
  tokens : TokenRows (db.rows name)

theorem Ok.onlyRows (ok : db.Ok) {k : CollectionId} {l : Logical} (rows : db.logical.OnlyRows k l) :
    Ok { db with logical := l } := by
  refine ok.rows (R := Eq) rows rfl rfl (fun same => ?_) fun other => ?_
  · exact same ▸ ⟨rfl, rfl, rfl⟩
  · cases db.handles[other]? with
    | none => exact .none
    | some h => exact .some (Eq.refl h)

theorem reopen_handle (ok : db.Ok) (opened : db.reopen cfg = .ok db') (found : db.handles[name]? = some h) :
    ∃ h' c, db'.handles[name]? = some h' ∧ h'.id = h.id ∧ h'.descriptor = h.descriptor ∧ db'.logical = db.logical ∧
      db.logical.collections[h.id]? = some c ∧
      h'.docs = if h.descriptor.multivector then some (c.points.keys.foldl countToken ∅) else none := by
  obtain ⟨c, h', held, done, there, same, _⟩ := reopen_found ok opened found
  obtain ⟨isId, descriptor, _, _, _, docs⟩ := openedHandle_spec done
  rw [← ok.descriptor found held] at descriptor docs
  exact ⟨h', c, there, isId, descriptor, same, held, docs⟩

namespace Documents

theorem reopen (documents : db.Documents name) (opened : db.reopen cfg = .ok db') : db'.Documents name := by
  obtain ⟨h, found, multi⟩ := documents.loaded
  obtain ⟨h', c, found', isId, descriptor, same, _⟩ := reopen_handle documents.ok opened found
  refine ⟨(documents.ok.reopen opened).ok, ⟨h', found', by rw [descriptor, multi]⟩, ?_⟩
  rw [rows_of_found found', isId, same, ← rows_of_found found]
  exact documents.tokens

theorem known_reopen (documents : db.Documents name) (opened : db.reopen cfg = .ok db') (d : String) :
    db'.known name d = (survivors (db'.rows name) d).length := by
  obtain ⟨h, found, multi⟩ := documents.loaded
  obtain ⟨h', c, found', isId, _, same, held, docs⟩ := reopen_handle documents.ok opened found
  have isRows : db'.rows name = c.points := by
    rw [rows_of_found found', isId, same, rowsOf, held]
    rfl
  have few := (documents.reopen opened).tokens.length_survivors (d := d)
  rw [isRows] at few ⊢
  rw [known_of_found found', knownTokens, docs, if_pos multi, Option.bind_some, countTokens]
  rw [survivors] at few ⊢
  split
  case isTrue none => simp [none]
  case isFalse =>
    rw [ExtTreeMap.getElem?_empty]
    simp only [Option.getD_none, Option.getD_some, Nat.zero_add]
    exact Nat.mod_eq_of_lt few

theorem writeDocument_tokens {doc : DocumentIn} (short : doc.vectors.length < 2 ^ 32) {s : Rows}
    (tokens : TokenRows s.points) : TokenRows (writeDocument cfg doc s).1.points := by
  have deletes : ∀ js : List Nat, TokenRows (forEach (deleteToken cfg doc.id) s js).1.points := by
    intro js
    refine forEach_invariant (fun s => TokenRows (Rows.points s)) (fun j _ s s' held done => ?_) tokens
    rw [(deleteToken_points done).1]
    exact held.erase _
  have upserts : ∀ {middle : Rows}, TokenRows middle.points →
      TokenRows (forEach (upsertToken cfg doc) middle doc.vectors.zipIdx).1.points := by
    intro middle start
    refine forEach_invariant (fun s => TokenRows (Rows.points s)) (fun token inside s s' held done => ?_) start
    have bound := (List.mem_zipIdx inside).2.1
    rw [(upsertToken_points done).1]
    exact held.insert (by omega) _
  unfold writeDocument
  dsimp only
  have first := deletes ((List.range ((knownTokens s.2 doc.id).getD 0)).drop doc.vectors.length)
  split
  case h_1 stopped =>
    rw [stopped] at first
    exact first
  case h_2 middle done =>
    rw [done] at first
    have second := upserts first
    split
    case h_1 stopped =>
      rw [stopped] at second
      exact second
    case h_2 last done' =>
      rw [done'] at second
      exact second

section

variable (documents : db.Documents name)
include documents

theorem upsert {doc : DocumentIn} (short : doc.vectors.length < 2 ^ 32) :
    (db.upsertDocument cfg name doc).1.Documents name := by
  have ok : (db.upsertDocument cfg name doc).1.Ok := (documents.ok.upsertDocument name doc).ok
  obtain ⟨error, refused⟩ | ⟨h, found, multi, _, done⟩ := upsertDocument_cases cfg db name doc
  · rw [refused]
    exact documents
  · rw [done] at ok ⊢
    have kept := writeDocument_kept cfg doc (db.logical, h)
    refine ⟨ok, ⟨_, handles_put .., by rw [kept.2.descriptor, multi]⟩, ?_⟩
    rw [rows_of_found (handles_put ..)]
    refine writeDocument_tokens short ?_
    have tokens := documents.tokens
    rw [rows_of_found found] at tokens
    exact tokens

theorem delete (d : String) :
    (db.deleteDocument cfg name d).1.Documents name := by
  have ok : (db.deleteDocument cfg name d).1.Ok := (documents.ok.deleteDocument name d).ok
  have start : ∀ {h : CollectionHandle}, db.handles[name]? = some h → TokenRows (Rows.points (db.logical, h)) := by
    intro h found
    have tokens := documents.tokens
    rw [rows_of_found found] at tokens
    exact tokens
  have deletes : ∀ {h : CollectionHandle} (js : List Nat), db.handles[name]? = some h →
      TokenRows (forEach (deleteToken cfg d) (db.logical, h) js).1.points := by
    intro h js found
    refine forEach_invariant (fun s => TokenRows (Rows.points s)) (fun j _ s s' held done => ?_) (start found)
    rw [(deleteToken_points done).1]
    exact held.erase _
  obtain ⟨⟨answer, same⟩, _⟩ | ⟨error, refused⟩ | ⟨h, count, found, multi, _, done⟩ :=
    deleteDocument_cases cfg db name d
  · rw [same]
    exact documents
  · rw [refused]
    exact documents
  · have tokens := deletes (List.range count) found
    have kept := forEach_kept (deleteToken_kept cfg d) (db.logical, h) (List.range count)
    obtain ⟨s, error, stopped, refused⟩ | ⟨s, deleted, done⟩ := done
    · rw [stopped] at tokens kept
      rw [refused] at ok ⊢
      refine ⟨ok, ⟨_, handles_put .., by rw [kept.2.descriptor, multi]⟩, ?_⟩
      rw [rows_of_found (handles_put ..)]
      exact tokens
    · rw [deleted] at tokens kept
      rw [done] at ok ⊢
      refine ⟨ok, ⟨_, handles_put .., (congrArg Descriptor.multivector kept.2.descriptor).trans multi⟩, ?_⟩
      rw [rows_of_found (handles_put ..)]
      exact tokens

theorem writes (found : db.handles[name]? = some h) {ops : List WalOp}
    (each : ∀ op ∈ ops, (∃ id, op = .delete h.id id) ∨
      ∃ d j vector payload, j + 1 < 2 ^ 32 ∧ op = .upsert h.id (tokenId d j) vector payload) :
    Documents { db with logical := db.logical.applyAll cfg.encoding ops } name := by
  induction ops generalizing db with
  | nil => exact documents
  | cons op ops ih =>
    obtain ⟨c, held, _⟩ := documents.ok.collection found
    have tokens := documents.tokens
    rw [rows_of_found found] at tokens
    have first : Documents { db with logical := db.logical.apply cfg.encoding op } name := by
      obtain ⟨id, rfl⟩ | ⟨d, j, vector, payload, bound, rfl⟩ := each op (List.mem_cons_self ..)
      · refine ⟨documents.ok.onlyRows (.delete cfg.encoding h.id db.logical id), documents.loaded, ?_⟩
        rw [rows_withLogical found, Logical.apply, rowsOf_onPoints held]
        exact tokens.erase id
      · refine ⟨documents.ok.onlyRows (.upsert cfg.encoding h.id db.logical _ vector payload), documents.loaded, ?_⟩
        rw [rows_withLogical found, Logical.apply, rowsOf_onPoints held]
        exact tokens.insert bound _
    exact ih first found fun op' inside => each op' (List.mem_cons_of_mem _ inside)

theorem step {event : DocEvent} (stepped : DocStep cfg name db event db') :
    db'.Documents name := by
  cases stepped with
  | upsert short => exact documents.upsert short
  | delete => exact documents.delete _
  | crashUpsert short found _ opened =>
    refine (documents.writes found fun op inside => ?_).reopen opened
    obtain deleted | upserted := List.mem_append.mp (List.mem_of_mem_take inside)
    · obtain ⟨j, _, rfl⟩ := List.mem_map.mp deleted
      exact .inl ⟨_, rfl⟩
    · obtain ⟨token, member, rfl⟩ := List.mem_map.mp upserted
      have bound := (List.mem_zipIdx member).2.1
      exact .inr ⟨_, _, _, _, by omega, rfl⟩
  | crashDelete found _ opened =>
    refine (documents.writes found fun op inside => ?_).reopen opened
    obtain ⟨j, _, rfl⟩ := List.mem_map.mp (List.mem_of_mem_take inside)
    exact .inl ⟨_, rfl⟩
  | reopen opened => exact documents.reopen opened

end

theorem create {mvcc : Bool} {descriptor : Descriptor} (multi : descriptor.multivector = true)
    (created : ({ mvcc := mvcc } : Database).createCollection cfg name descriptor = (db, .ok ())) :
    db.Documents name := by
  have follows : ({ mvcc := mvcc } : Database).Follows (Database.createCollection cfg { mvcc := mvcc } name descriptor).1 :=
    (ok_empty mvcc).create name descriptor
  rw [created] at follows
  obtain ⟨none, found⟩ := createCollection_new created
  refine ⟨follows.ok, ⟨_, found, multi⟩, ?_⟩
  intro id inside
  rw [none] at inside
  exact absurd inside ExtTreeMap.not_mem_empty

theorem run (documents : db.Documents name) {events : List DocEvent}
    (reached : Run.Reaches (DocStep cfg name) db events db') : db'.Documents name :=
  reached.invariant (fun _ db => db.Documents name) documents fun held stepped => held.step stepped

end Documents

/-- In every state of a run with crashes, an acknowledged write of a document leaves exactly its
rows, and an acknowledged delete none, exactly if no row lies beyond the tokens written and those
the handle knows, which each open counts: as many as rows are there, wherever they are. -/
theorem torn_document_repair_iff {mvcc : Bool} {descriptor : Descriptor} (multi : descriptor.multivector = true)
    {start : Database} (created : ({ mvcc := mvcc } : Database).createCollection cfg name descriptor = (start, .ok ()))
    {events : List DocEvent} (reached : Run.Reaches (DocStep cfg name) start events db) :
    (∀ db', db.reopen cfg = .ok db' → ∀ d, db'.known name d = (survivors (db'.rows name) d).length) ∧
    (∀ doc, (db.upsertDocument cfg name doc).2 = .ok () →
      ((∀ j, ((db.upsertDocument cfg name doc).1.rows name)[tokenId doc.id j]? = doc.row j) ↔
        ∀ j ∈ survivors (db.rows name) doc.id, j < max doc.vectors.length (db.known name doc.id))) ∧
    ∀ d existed, (db.deleteDocument cfg name d).2 = .ok existed →
      ((∀ j, tokenId d j ∉ (db.deleteDocument cfg name d).1.rows name) ↔
        ∀ j ∈ survivors (db.rows name) d, j < db.known name d) := by
  have documents := (Documents.create multi created).run reached
  refine ⟨fun db' opened d => documents.known_reopen opened d, fun doc acknowledged => ?_, fun d existed acknowledged => ?_⟩
  · simp only [documents.tokens.mem_survivors]
    exact upsertDocument_exact_iff acknowledged
  · simp only [documents.tokens.mem_survivors]
    exact deleteDocument_exact_iff acknowledged

def tokenDescriptor : Descriptor := { dim := 1, metric := .dot, multivector := true }

def threeTokens : DocumentIn := ⟨"d", [[0], [0], [0]], [1]⟩

def withDocument : Database :=
  ((createCollection .plain {} "c" tokenDescriptor).1.upsertDocument .plain "c" threeTokens).1

theorem torn_document_repair_iff_crashed : ∃ h db, withDocument.handles["c"]? = some h ∧
    withDocument.crashed .plain ((deleteWrites h "d").take 1) = .ok db ∧
    ∀ d existed, (db.deleteDocument .plain "c" d).2 = .ok existed →
      ((∀ j, tokenId d j ∉ (db.deleteDocument .plain "c" d).1.rows "c") ↔
        ∀ j ∈ survivors (db.rows "c") d, j < db.known "c" d) := by
  have created : createCollection .plain {} "c" tokenDescriptor =
      ((createCollection .plain {} "c" tokenDescriptor).1, .ok ()) := Prod.ext rfl (by decide +kernel)
  have stepped : DocStep .plain "c" (createCollection .plain {} "c" tokenDescriptor).1 (.upsert threeTokens)
      withDocument := .upsert (by decide)
  obtain ⟨h, found, opens⟩ := (Option.any_eq_true ..).mp (show (withDocument.handles["c"]?).any (fun h =>
    (withDocument.crashed .plain ((deleteWrites h "d").take 1)).toOption.isSome) = true by decide +kernel)
  obtain ⟨db, isDb⟩ := Option.isSome_iff_exists.mp opens
  have crashed := Results.toOption_eq_some.mp isDb
  exact ⟨h, db, found, crashed, (torn_document_repair_iff rfl created
    (.next (.next .refl stepped) (.crashDelete found (by decide +kernel) crashed))).2.2⟩

/-- A document of three tokens is being deleted, and the process dies after the first row. The
next open counts two tokens, so that a delete takes the ordinals 0 and 1 and leaves the last
row behind. -/
theorem torn_delete_leaves_row :
    (do
      let h ← withDocument.handles["c"]?
      let db ← (withDocument.crashed .plain ((deleteWrites h "d").take 1)).toOption
      let after := db.deleteDocument .plain "c" "d"
      return (survivors (db.rows "c") "d", db.known "c" "d", after.2.toOption, survivors (after.1.rows "c") "d")) =
    some ([1, 2], 2, some true, [2]) := by
  decide +kernel

end Database

end Quiver.Embed
