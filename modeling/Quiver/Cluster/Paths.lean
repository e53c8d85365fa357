import Quiver.Base.UrlPath

/-!
Requests for one point. The router's read and the coordinator's checks put the id of the point
into the path as it is, and the shard reads it back from the path it receives.
-/

namespace Quiver.Cluster

open UrlPath

/-! ## Paths and routes -/

/-- The path of a point, without the address of the shard. -/
def pointPath (collection id : String) : String := "/v1/collections/" ++ collection ++ "/points/" ++ id

inductive Piece where
  | text (literal : String)
  | param

/-- The parameters of a path that follows a template; a parameter is not empty. -/
def capture : List Piece → List (List Char) → Option (List String)
  | [], [] => some []
  | .text literal :: pieces, segment :: rest => if segment = literal.toList then capture pieces rest else none
  | .param :: pieces, segment :: rest =>
    if segment = [] then none else (capture pieces rest).map (String.ofList segment :: ·)
  | _, _ => none

def belowCollection (pieces : List Piece) : List Piece :=
  .text "v1" :: .text "collections" :: .param :: pieces

/-- The routes below a collection that have no `GET`. -/
def writeRoutes : List (List Piece) :=
  [[.text "points"], [.text "points:bulk"], [.text "points:text"], [.text "query"], [.text "query", .text "hybrid"],
    [.text "query", .text "text"], [.text "fetch"], [.text "documents"], [.text "documents", .text "query"]]

/-- What a `GET` is for. -/
inductive Route where
  | point (collection id : String)
  | collection (name : String)
  | refused (status : Nat)
  | notFound
  deriving DecidableEq, Repr

def route (target : String) : Route :=
  let path := segments target.toList
  match capture (belowCollection [.text "points", .param]) path with
  | some [collection, id] =>
    match decodeSegment collection, decodeSegment id with
    | some collection, some id => .point collection id
    | _, _ => .refused 400
  | _ =>
    match capture (belowCollection []) path with
    | some [name] =>
      match decodeSegment name with
      | some name => .collection name
      | none => .refused 400
    | _ => if writeRoutes.any fun pieces => (capture (belowCollection pieces) path).isSome then .refused 405 else .notFound

/-! ## What a path addresses -/

/-- A text that a path carries unchanged. -/
def Carried (text : String) : Prop := text ≠ "" ∧ Ordinary text.toList ∧ decodeSegment text = some text

/-- Names of a collection and a point that a path carries; the end of the path is no blank. -/
def Plain (collection id : String) : Prop :=
  Carried collection ∧ Carried id ∧ ∀ c ∈ id.toList.getLast?, ¬ c ≤ ' '

section Capture

variable {pieces : List Piece} {path : List (List Char)} {params : List String}

theorem capture_nil : capture [] path = some params ↔ path = [] ∧ params = [] := by
  cases path <;> simp [capture, eq_comm]

theorem capture_text {literal : String} : capture (.text literal :: pieces) path = some params ↔
    ∃ rest, path = literal.toList :: rest ∧ capture pieces rest = some params := by
  cases path with
  | nil => simp [capture]
  | cons segment rest => simp [capture, and_assoc]

theorem capture_param : capture (.param :: pieces) path = some params ↔
    ∃ segment rest others, path = segment :: rest ∧ segment ≠ [] ∧ params = String.ofList segment :: others ∧
      capture pieces rest = some others := by
  cases path with
  | nil => simp [capture]
  | cons segment rest =>
    simp only [capture, List.cons.injEq]
    by_cases empty : segment = []
    · simp [empty]
    · simp only [if_neg empty, Option.map_eq_some_iff]
      constructor
      · rintro ⟨others, captured, rfl⟩
        exact ⟨segment, rest, others, ⟨rfl, rfl⟩, empty, rfl, captured⟩
      · rintro ⟨_, _, others, ⟨rfl, rfl⟩, _, rfl, captured⟩
        exact ⟨others, captured, rfl⟩

end Capture

/-- The segments of a path below a collection. -/
def below (rest : List (List Char)) : List (List Char) := "v1".toList :: "collections".toList :: rest

theorem capture_point {path : List (List Char)} {params : List String} :
    capture (belowCollection [.text "points", .param]) path = some params ↔
      ∃ c i, path = below [c, "points".toList, i] ∧ c ≠ [] ∧ i ≠ [] ∧ params = [String.ofList c, String.ofList i] := by
  simp only [belowCollection, capture_text, capture_param, capture_nil]
  constructor
  · rintro ⟨_, rfl, _, rfl, c, _, _, rfl, someC, rfl, _, rfl, i, _, _, rfl, someI, rfl, rfl, rfl⟩
    exact ⟨c, i, rfl, someC, someI, rfl⟩
  · rintro ⟨c, i, rfl, someC, someI, rfl⟩
    exact ⟨_, rfl, _, rfl, c, _, _, rfl, someC, rfl, _, rfl, i, _, _, rfl, someI, rfl, rfl, rfl⟩

theorem route_eq_point {target collection id : String} : route target = .point collection id ↔
    ∃ c i, segments target.toList = below [c, "points".toList, i] ∧ c ≠ [] ∧ i ≠ [] ∧
      decodeSegment (String.ofList c) = some collection ∧ decodeSegment (String.ofList i) = some id := by
  unfold route
  dsimp only
  constructor
  · intro routed
    split at routed
    case h_1 c i captured =>
      obtain ⟨c, i, isPath, someC, someI, params⟩ := capture_point.mp captured
      cases params
      refine ⟨c, i, isPath, someC, someI, ?_⟩
      split at routed
      case h_1 c i decodedC decodedI =>
        cases routed
        exact ⟨decodedC, decodedI⟩
      case h_2 => cases routed
    case h_2 =>
      split at routed
      · split at routed <;> cases routed
      · split at routed <;> cases routed
  · rintro ⟨c, i, isPath, someC, someI, decodedC, decodedI⟩
    rw [capture_point.mpr ⟨c, i, isPath, someC, someI, rfl⟩]
    simp only [decodedC, decodedI]

theorem toList_pointPath (collection id : String) :
    (pointPath collection id).toList = path (below [collection.toList, "points".toList, id.toList]) := by
  have start : "/v1/collections/".toList = '/' :: ("v1".toList ++ '/' :: ("collections".toList ++ ['/'])) := by decide
  have middle : "/points/".toList = '/' :: ("points".toList ++ ['/']) := by decide
  change ("/v1/collections/" ++ collection ++ "/points/" ++ id).toList = _
  rw [String.toList_append, String.toList_append, String.toList_append, start, middle]
  simp only [path, below, List.intercalate_cons_cons, List.intercalate_singleton, List.cons_append, List.nil_append,
    List.append_assoc]

/-- The path of a point is read as this point exactly if it carries both names. -/
theorem route_pointPath_iff (collection id : String) :
    route (pointPath collection id) = .point collection id ↔ Plain collection id := by
  have fixed : Ordinary "v1".toList ∧ Ordinary "collections".toList ∧ Ordinary "points".toList := by
    simp [Ordinary, isIgnored, startsSuffix, isSingleDot, isDoubleDot]
  have last (some : id ≠ "") :
      (path (below [collection.toList, "points".toList, id.toList])).getLast? = id.toList.getLast? := by
    rw [path, below]
    simp only [List.intercalate_cons_cons, List.intercalate_singleton, ← List.cons_append, ← List.append_assoc]
    exact List.getLast?_append_of_ne_nil _ (by simpa using some)
  rw [route_eq_point, toList_pointPath]
  constructor
  · rintro ⟨c, i, isPath, someC, someI, decodedC, decodedI⟩
    have fits {text segment} (decoded : decodeSegment (String.ofList segment) = some text) :
        String.utf8Len text.toList ≤ String.utf8Len segment := by
      have le := utf8ByteSize_decodeSegment_le decoded
      rwa [String.utf8ByteSize_ofList, ← String.utf8Len_toList] at le
    obtain ⟨same, ordinary, ends⟩ := (segments_path_iff (List.cons_ne_nil _ _)
      (.cons le_rfl (.cons le_rfl (.cons (fits decodedC) (.cons le_rfl (.cons (fits decodedI) .nil)))))).mp isPath
    cases same
    simp only [List.forall_mem_cons, String.ofList_toList] at ordinary decodedC decodedI
    have someId : id ≠ "" := by simpa using someI
    exact ⟨⟨by simpa using someC, ordinary.2.2.1, decodedC⟩, ⟨someId, ordinary.2.2.2.2.1, decodedI⟩, last someId ▸ ends⟩
  · rintro ⟨⟨someC, ordinaryC, decodedC⟩, ⟨someI, ordinaryI, decodedI⟩, ends⟩
    refine ⟨collection.toList, id.toList, ?_, by simpa using someC, by simpa using someI, ?_, ?_⟩
    · refine segments_ordinary (List.cons_ne_nil _ _) ?_ (last someI ▸ ends)
      simp only [below, List.forall_mem_cons]
      exact ⟨fixed.1, fixed.2.1, ordinaryC, fixed.2.2, ordinaryI, by simp⟩
    · rw [String.ofList_toList, decodedC]
    · rw [String.ofList_toList, decodedI]

end Quiver.Cluster
