import Quiver.Core.Descriptor
import Quiver.Core.Json

/-!
Descriptors as JSON: the body a router sends to its shards, the body a shard reads, the entry it
lists, and the body the coordinator makes of such an entry. A field that one side does not write
is read as its default by the other.
-/

namespace Quiver.Cluster

open Quiver.Core Json
open List (lookup_append lookup_cons)

/-! ## What a shard reads and lists -/

def metricDto : DistanceMetric → String
  | .l2 => "l2"
  | .cosine => "cosine"
  | .dot => "dot"

def indexKindDto : IndexKind → String
  | .hnsw => "hnsw"
  | .vamana => "vamana"
  | .diskVamana => "disk_vamana"
  | .ivf => "ivf"
  | .colbert => "colbert"

def fieldTypeDto : FieldType → String
  | .keyword => "keyword"
  | .numeric => "numeric"

def encryptionDto : VectorEncryption → String
  | .none => "none"
  | .dcpe => "dcpe"
  | .clientSide => "client_side"

def uint (n : Nat) : Value := .number (.posInt (UInt64.ofNat n))

def asString : Value → Option String
  | .string s => some s
  | _ => none

def asBool : Value → Option Bool
  | .bool b => some b
  | _ => none

def asU32 : Value → Option Nat
  | .number (.posInt n) => if n.toNat < 2 ^ 32 then some n.toNat else none
  | _ => none

def asArray : Value → Option (List Value)
  | .array items => some items
  | _ => none

def asOption {α : Type} (parse : Value → Option α) : Value → Option (Option α)
  | .null => some none
  | v => (parse v).map some

def asVariant {α : Type} (dto : α → String) (variants : List α) (v : Value) : Option α :=
  (asString v).bind fun name => variants.find? (dto · == name)

def asMetric : Value → Option DistanceMetric := asVariant metricDto [.l2, .cosine, .dot]

def asIndexKind : Value → Option IndexKind :=
  asVariant indexKindDto [.hnsw, .vamana, .diskVamana, .ivf, .colbert]

def asFieldType : Value → Option FieldType := asVariant fieldTypeDto [.keyword, .numeric]

def asEncryption : Value → Option VectorEncryption := asVariant encryptionDto [.none, .dcpe, .clientSide]

def required {α : Type} (body : Value) (key : String) (parse : Value → Option α) : Option α :=
  (body.get key).bind parse

def defaulted {α : Type} (body : Value) (key : String) (default : α) (parse : Value → Option α) : Option α :=
  match body.get key with
  | none => some default
  | some v => parse v

def asFilterableField (v : Value) : Option FilterableField := do
  let path ← required v "path" asString
  let fieldType ← required v "field_type" asFieldType
  return ⟨path, fieldType⟩

def asFilterable (v : Value) : Option (List FilterableField) := (asArray v).bind (·.mapM asFilterableField)

/-- The name and descriptor of a create request, `none` if the body is rejected. -/
def parseCreate (body : Value) : Option (String × Descriptor) := do
  let name ← required body "name" asString
  let dim ← required body "dim" asU32
  let metric ← defaulted body "metric" .l2 asMetric
  let kind ← defaulted body "index" .hnsw asIndexKind
  let pqSubspaces ← defaulted body "pq_subspaces" none (asOption asU32)
  let binary ← defaulted body "binary" false asBool
  let filterable ← defaulted body "filterable" [] asFilterable
  let multivector ← defaulted body "multivector" false asBool
  let vectorEncryption ← defaulted body "vector_encryption" .none asEncryption
  return (name, { dim, metric, index := { kind, pqSubspaces, binary }, filterable, multivector, vectorEncryption })

def filterableFieldDto (f : FilterableField) : Value :=
  .object [("path", .string f.path), ("field_type", .string (fieldTypeDto f.fieldType))]

def optional (key : String) (v : Option Value) : List (String × Value) := (v.map (key, ·)).toList

/-- An entry of a shard's listing; fields at their default are left out. -/
def collectionDto (name : String) (d : Descriptor) (count : Nat) (indexReady : Bool) : Value :=
  .object ([("name", .string name), ("dim", uint d.dim), ("metric", .string (metricDto d.metric)), ("count", uint count),
      ("index", .string (indexKindDto d.index.kind))] ++
    optional "pq_subspaces" (d.index.pqSubspaces.map uint) ++
    optional "filterable" (if d.filterable.isEmpty then none else some (.array (d.filterable.map filterableFieldDto))) ++
    optional "multivector" (if d.multivector then some (.bool true) else none) ++
    optional "vector_encryption"
      (if d.vectorEncryption = .none then none else some (.string (encryptionDto d.vectorEncryption))) ++
    [("index_ready", .bool indexReady)])

/-! ## What the router and the coordinator write -/

def metricWire : DistanceMetric → String
  | .l2 => "l2"
  | .cosine => "cosine"
  | .dot => "dot"

def indexWire : IndexKind → String
  | .hnsw => "hnsw"
  | .vamana => "vamana"
  | .diskVamana => "disk_vamana"
  | .ivf => "ivf"
  | .colbert => "colbert"

def encryptionWire : VectorEncryption → String
  | .none => "none"
  | .dcpe => "dcpe"
  | .clientSide => "client_side"

def fieldTypeWire : FieldType → String
  | .keyword => "keyword"
  | .numeric => "numeric"

/-- The body of a create that a router sends to every shard. The type of a field stands under
`type`, which no shard reads. -/
def routerBody (name : String) (d : Descriptor) : Value :=
  .object ([("name", .string name), ("dim", uint d.dim), ("metric", .string (metricWire d.metric)),
      ("index", .string (indexWire d.index.kind)), ("multivector", .bool d.multivector),
      ("vector_encryption", .string (encryptionWire d.vectorEncryption))] ++
    optional "pq_subspaces" (d.index.pqSubspaces.map uint) ++
    optional "filterable" (if d.filterable.isEmpty then none else some (.array (d.filterable.map fun f =>
      .object [("path", .string f.path), ("type", .string (fieldTypeWire f.fieldType))]))))

def ensureBody (dto : Value) : Value :=
  .object ((["name", "dim", "metric", "index"].map fun key => (key, (dto.get key).getD .null)) ++
    ["pq_subspaces", "filterable", "vector_encryption"].flatMap fun key => optional key (dto.get key))

/-- A descriptor whose numbers are those of the API. -/
structure Requestable (d : Descriptor) : Prop where
  dim : d.dim < 2 ^ 32
  pqSubspaces : ∀ pq ∈ d.index.pqSubspaces, pq < 2 ^ 32

/-- A descriptor without the parts that no body carries. -/
def withoutBinary (d : Descriptor) : Descriptor := { d with index := { d.index with binary := false } }

variable {name : String} {d : Descriptor}

theorem asU32_uint {n : Nat} (small : n < 2 ^ 32) : asU32 (uint n) = some n := by
  have value : (UInt64.ofNat n).toNat = n := UInt64.toNat_ofNat_of_lt (by unfold UInt64.size; omega)
  simp only [asU32, uint, value, if_pos small]

theorem asOption_uint {n : Nat} (small : n < 2 ^ 32) : asOption asU32 (uint n) = some (some n) := by
  simp only [asOption, uint]
  rw [← uint, asU32_uint small]
  rfl

@[simp] theorem asMetric_dto (m : DistanceMetric) : asMetric (.string (metricDto m)) = some m := by
  cases m <;> rfl

@[simp] theorem asIndexKind_dto (k : IndexKind) : asIndexKind (.string (indexKindDto k)) = some k := by
  cases k <;> rfl

@[simp] theorem asFieldType_dto (t : FieldType) : asFieldType (.string (fieldTypeDto t)) = some t := by
  cases t <;> rfl

@[simp] theorem asEncryption_dto (e : VectorEncryption) : asEncryption (.string (encryptionDto e)) = some e := by
  cases e <;> rfl

@[simp] theorem metricWire_eq (m : DistanceMetric) : metricWire m = metricDto m := by cases m <;> rfl

@[simp] theorem indexWire_eq (k : IndexKind) : indexWire k = indexKindDto k := by cases k <;> rfl

@[simp] theorem encryptionWire_eq (e : VectorEncryption) : encryptionWire e = encryptionDto e := by cases e <;> rfl

@[simp] theorem asFilterableField_dto (f : FilterableField) : asFilterableField (filterableFieldDto f) = some f := by
  simp [asFilterableField, filterableFieldDto, required, Value.get, asString, lookup_cons]

theorem mapM_filterableFieldDto (fields : List FilterableField) :
    (fields.map filterableFieldDto).mapM asFilterableField = some fields := by
  induction fields with
  | nil => rfl
  | cons f fields ih => simp [ih]

@[simp] theorem lookup_optional (key k : String) (v : Option Value) :
    (optional k v).lookup key = if key = k then v else none := by
  cases v with
  | none => simp [optional]
  | some v =>
    by_cases same : key = k
    · simp [optional, same]
    · have differ : (key == k) = false := by simpa using same
      simp [optional, lookup_cons, same, differ]

theorem defaulted_pqSubspaces {pqSubspaces : Option Nat} {body : Value}
    (small : ∀ pq ∈ pqSubspaces, pq < 2 ^ 32) (written : body.get "pq_subspaces" = pqSubspaces.map uint) :
    defaulted body "pq_subspaces" none (asOption asU32) = some pqSubspaces := by
  cases pqSubspaces with
  | none => simp [defaulted, written]
  | some pq => simp [defaulted, written, asOption_uint (small pq rfl)]

theorem parseCreate_of_fields {body : Value} {dim : Nat} {metric : DistanceMetric} {index : IndexSpec}
    {multivector : Bool} {encryption : VectorEncryption}
    (isName : required body "name" asString = some name) (isDim : required body "dim" asU32 = some dim)
    (isMetric : defaulted body "metric" .l2 asMetric = some metric)
    (isKind : defaulted body "index" .hnsw asIndexKind = some index.kind)
    (isPq : defaulted body "pq_subspaces" none (asOption asU32) = some index.pqSubspaces)
    (isBinary : defaulted body "binary" false asBool = some index.binary)
    (isMultivector : defaulted body "multivector" false asBool = some multivector)
    (isEncryption : defaulted body "vector_encryption" .none asEncryption = some encryption) :
    parseCreate body = (defaulted body "filterable" [] asFilterable).map fun fields =>
      (name, { dim, metric, index, filterable := fields, multivector, vectorEncryption := encryption }) := by
  simp only [parseCreate, isName, isDim, isMetric, isKind, isPq, isBinary, isMultivector, isEncryption]
  cases defaulted body "filterable" [] asFilterable <;> rfl

/-- What a shard makes of a router's request: it takes no `binary`, and rejects the fields. -/
theorem parse_routerBody (requestable : Requestable d) :
    parseCreate (routerBody name d) = if d.filterable = [] then some (name, withoutBinary d) else none := by
  have parsed : parseCreate (routerBody name d) = (defaulted (routerBody name d) "filterable" [] asFilterable).map
      fun fields => (name, { withoutBinary d with filterable := fields }) := by
    refine parseCreate_of_fields ?_ ?_ ?_ ?_ (defaulted_pqSubspaces requestable.pqSubspaces ?_) ?_ ?_ ?_
    · simp [routerBody, required, Value.get, asString]
    · simp [routerBody, required, Value.get, lookup_cons, asU32_uint requestable.dim, withoutBinary]
    · simp [routerBody, defaulted, Value.get, lookup_cons, withoutBinary]
    · simp [routerBody, defaulted, Value.get, lookup_cons, withoutBinary]
    · simp [routerBody, Value.get, lookup_cons, lookup_append, withoutBinary]
    · simp [routerBody, defaulted, Value.get, lookup_cons, lookup_append, withoutBinary]
    · simp [routerBody, defaulted, Value.get, lookup_cons, asBool, withoutBinary]
    · simp [routerBody, defaulted, Value.get, lookup_cons, withoutBinary]
  rw [parsed]
  cases fields : d.filterable with
  | nil =>
    have none : defaulted (routerBody name d) "filterable" [] asFilterable = some [] := by
      simp [routerBody, defaulted, Value.get, lookup_cons, lookup_append, fields]
    simp [none, withoutBinary, fields]
  | cons f rest =>
    -- The first field has no `field_type`.
    have rejected : defaulted (routerBody name d) "filterable" [] asFilterable = none := by
      simp [routerBody, defaulted, Value.get, lookup_cons, lookup_append, fields, asFilterable, asArray,
        asFilterableField, required]
    simp [rejected]

theorem parse_ensureBody (requestable : Requestable d) (count : Nat) (indexReady : Bool) :
    parseCreate (ensureBody (collectionDto name d count indexReady)) =
      some (name, { withoutBinary d with multivector := false }) := by
  have parsed : parseCreate (ensureBody (collectionDto name d count indexReady)) =
      (defaulted (ensureBody (collectionDto name d count indexReady)) "filterable" [] asFilterable).map
        fun fields => (name, { withoutBinary d with filterable := fields, multivector := false }) := by
    refine parseCreate_of_fields ?_ ?_ ?_ ?_ (defaulted_pqSubspaces requestable.pqSubspaces ?_) ?_ ?_ ?_
    · simp [ensureBody, collectionDto, required, Value.get, lookup_cons, asString]
    · simp [ensureBody, collectionDto, required, Value.get, lookup_cons, asU32_uint requestable.dim, withoutBinary]
    · simp [ensureBody, collectionDto, defaulted, Value.get, lookup_cons, withoutBinary]
    · simp [ensureBody, collectionDto, defaulted, Value.get, lookup_cons, withoutBinary]
    · simp [ensureBody, collectionDto, Value.get, lookup_cons, lookup_append, withoutBinary]
    · simp [ensureBody, collectionDto, defaulted, Value.get, lookup_cons, lookup_append, withoutBinary]
    · simp [ensureBody, collectionDto, defaulted, Value.get, lookup_cons, lookup_append]
    · by_cases plain : d.vectorEncryption = .none <;>
        simp [ensureBody, collectionDto, defaulted, Value.get, lookup_cons, lookup_append, withoutBinary, plain]
  have fields : defaulted (ensureBody (collectionDto name d count indexReady)) "filterable" [] asFilterable =
      some d.filterable := by
    cases fields : d.filterable with
    | nil => simp [ensureBody, collectionDto, defaulted, Value.get, lookup_cons, lookup_append, fields]
    | cons f rest =>
      have written : (ensureBody (collectionDto name d count indexReady)).get "filterable" =
          some (.array ((f :: rest).map filterableFieldDto)) := by
        simp [ensureBody, collectionDto, Value.get, lookup_cons, lookup_append, fields]
      simp only [defaulted, written, asFilterable, asArray, Option.bind_some, mapM_filterableFieldDto]
  rw [parsed, fields]
  rfl

end Quiver.Cluster
