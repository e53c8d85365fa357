import Quiver.Embed.Database

/-!
Building a collection's index, as far as it can fail. A create checks the metric and kind; whether a
product quantizer divides the dimension, and a node fits a page, is found out only when the index is
built.
-/

namespace Quiver.Embed

open Quiver.Core Results

inductive IndexError where
  | invalidConfig (message : String)
  | dimensionMismatch (expected got : Nat)
  deriving DecidableEq, Repr

/-- A failure to build an index, other than of the file system. -/
inductive BuildError where
  | index (error : IndexError)
  | format (message : String)
  deriving DecidableEq, Repr

/-- A graph, without its edges. -/
structure Vamana where
  n : Nat
  dim : Nat
  r : Nat
  metric : DistanceMetric
  deriving DecidableEq, Repr

def vamanaDegree : Nat := 32

namespace Vamana

def unsupportedMetric : IndexError := .invalidConfig "Vamana supports L2 and Cosine; use HNSW or IVF for inner product"

def build (n : Nat) (flat : List F32) (dim : Nat) (metric : DistanceMetric) : Except IndexError Vamana :=
  if metric = .dot then .error unsupportedMetric
  else if flat.length ≠ n * dim then .error (.dimensionMismatch (n * dim) flat.length)
  else .ok ⟨n, dim, vamanaDegree, metric⟩

def new (dim : Nat) (metric : DistanceMetric) : Except IndexError Vamana :=
  if metric = .dot then .error unsupportedMetric else .ok ⟨0, dim, vamanaDegree, metric⟩

end Vamana

/-- A product quantizer, without its codebooks. -/
structure ProductQuantizer where
  dim : Nat
  m : Nat
  dsub : Nat
  metric : DistanceMetric
  deriving DecidableEq, Repr

def ProductQuantizer.train (dim m : Nat) (metric : DistanceMetric) : Except IndexError ProductQuantizer :=
  if m = 0 || dim = 0 || dim % m ≠ 0 then .error (.invalidConfig "PQ requires m > 0 and dim divisible by m")
  else .ok ⟨dim, m, dim / m, metric⟩

inductive ResidentQuant where
  | binary (dim : Nat) (metric : DistanceMetric)
  | pq (q : ProductQuantizer)
  deriving DecidableEq, Repr

def ResidentQuant.dim : ResidentQuant → Nat
  | binary dim _ => dim
  | pq q => q.dim

def ResidentQuant.metric : ResidentQuant → DistanceMetric
  | binary _ metric => metric
  | pq q => q.metric

/-- An index that was built, with its delta where it has one. -/
inductive CollectionIndex where
  | none
  | hnsw (n dim : Nat)
  | vamana (base delta : Vamana)
  | disk (base : Vamana) (quant : ResidentQuant) (delta : Vamana)
  | ivf (n dim : Nat) (quant : Option ProductQuantizer)
  | colbert (n dim : Nat) (quant : ProductQuantizer)
  deriving DecidableEq, Repr

/-- A subspace count that divides the dimension, about eight dimensions each. -/
def defaultPqM (dim : Nat) : Nat :=
  ((List.range' 1 (max (dim / 8) 1)).reverse.find? fun m => dim % m == 0).getD 1

def ivfMetric : IndexError := .invalidConfig "IVF supports L2 and Cosine; use HNSW for inner product"

def trainIvf (descriptor : Descriptor) (n : Nat) : Except IndexError CollectionIndex :=
  match descriptor.index.pqSubspaces with
  | some m => do return .ivf n descriptor.dim (some (← ProductQuantizer.train descriptor.dim m descriptor.metric))
  | none => .ok (.ivf n descriptor.dim none)

def buildIvf (descriptor : Descriptor) (n : Nat) (flat : List F32) : Except IndexError CollectionIndex :=
  if descriptor.metric = .dot then .error ivfMetric
  else if flat.length ≠ n * descriptor.dim then .error (.dimensionMismatch (n * descriptor.dim) flat.length)
  else trainIvf descriptor n

/-- The same, over the rows as they are read. -/
def buildIvfStreaming (descriptor : Descriptor) (n : Nat) (rows : List (List F32)) :
    Except IndexError CollectionIndex :=
  if descriptor.metric = .dot then .error ivfMetric
  else match rows.find? fun v => v.length != descriptor.dim with
    | some v => .error (.dimensionMismatch descriptor.dim v.length)
    | none => if rows.length ≠ n then .error (.dimensionMismatch n rows.length) else trainIvf descriptor n

def buildColbert (descriptor : Descriptor) (n : Nat) (flat : List F32) : Except IndexError CollectionIndex :=
  if flat.length ≠ n * descriptor.dim then .error (.dimensionMismatch (n * descriptor.dim) flat.length)
  else do
    let m := max (descriptor.index.pqSubspaces.getD (defaultPqM descriptor.dim)) 1
    return .colbert n descriptor.dim (← ProductQuantizer.train descriptor.dim m .l2)

def insertHnsw (dim : Nat) (vector : List F32) (n : Nat) : Except IndexError Nat :=
  if vector.length ≠ dim then .error (.dimensionMismatch dim vector.length) else .ok (n + 1)

def buildHnsw (dim n : Nat) (flat : List F32) : Except IndexError CollectionIndex := do
  let count ← (List.range n).foldlM (fun count i => insertHnsw dim ((flat.drop (i * dim)).take dim) count) 0
  return .hnsw count dim

def buildDiskGraphQuant (descriptor : Descriptor) (n : Nat) (flat : List F32) :
    Except IndexError (Vamana × ResidentQuant) := do
  let graph ← Vamana.build n flat descriptor.dim descriptor.metric
  if descriptor.index.binary then return (graph, .binary descriptor.dim descriptor.metric)
  else
    let m := descriptor.index.pqSubspaces.getD (defaultPqM descriptor.dim)
    return (graph, .pq (← ProductQuantizer.train descriptor.dim m descriptor.metric))

def pageBodyCap : Nat := 16 * 1024 - 32

/-- The checks before a disk index is written. -/
def writeDiskIndex (graph : Vamana) (quant : ResidentQuant) : Except BuildError Unit :=
  let nodeStride := graph.dim * 4 + 4 + graph.r * 4
  if quant.dim ≠ graph.dim || quant.metric ≠ graph.metric then
    .error (.index (.invalidConfig "quantizer dim/metric does not match the graph"))
  else if nodeStride > pageBodyCap then
    .error (.format s!"node block {nodeStride} B exceeds page capacity {pageBodyCap} B (dim too large)")
  else .ok ()

def buildDisk (descriptor : Descriptor) (n : Nat) (flat : List F32) : Except BuildError CollectionIndex := do
  let (graph, quant) ← (buildDiskGraphQuant descriptor n flat).mapError BuildError.index
  writeDiskIndex graph quant
  let delta ← (Vamana.new graph.dim graph.metric).mapError BuildError.index
  return .disk graph quant delta

def buildIndex (descriptor : Descriptor) (n : Nat) (flat : List F32) : Except BuildError CollectionIndex :=
  if descriptor.vectorEncryption = .clientSide then .ok .none
  else match descriptor.index.kind with
    | .vamana => (do
        let base ← Vamana.build n flat descriptor.dim descriptor.metric
        return CollectionIndex.vamana base (← Vamana.new base.dim base.metric) :
          Except IndexError CollectionIndex).mapError .index
    | .diskVamana => buildDisk descriptor n flat
    | .ivf => (buildIvf descriptor n flat).mapError .index
    | .colbert => (buildColbert descriptor n flat).mapError .index
    | .hnsw => (buildHnsw descriptor.dim n flat).mapError .index

def streamsRebuild (descriptor : Descriptor) : Bool :=
  descriptor.index.kind = .ivf && !descriptor.multivector && descriptor.vectorEncryption ≠ .clientSide

def rebuildIndex (descriptor : Descriptor) (rows : List (List F32)) : Except BuildError CollectionIndex :=
  if streamsRebuild descriptor then (buildIvfStreaming descriptor rows.length rows).mapError .index
  else buildIndex descriptor rows.length rows.flatten

/-- Open a database: every collection is rebuilt, and the first failure is returned. -/
def fromStore (collections : List (Descriptor × List (List F32))) : Except BuildError (List CollectionIndex) :=
  collections.mapM fun (descriptor, rows) => rebuildIndex descriptor rows

/-- A quantizer divides the dimension, and a node fits a page. -/
def Buildable (descriptor : Descriptor) : Prop :=
  descriptor.vectorEncryption = .clientSide ∨ match descriptor.index.kind with
    | .ivf => ∀ m, descriptor.index.pqSubspaces = some m → m ≠ 0 ∧ m ∣ descriptor.dim
    | .colbert => ∀ m, descriptor.index.pqSubspaces = some m → max m 1 ∣ descriptor.dim
    | .diskVamana => (descriptor.index.binary = false → ∀ m, descriptor.index.pqSubspaces = some m →
        m ≠ 0 ∧ m ∣ descriptor.dim) ∧ descriptor.dim * 4 + 4 + vamanaDegree * 4 ≤ pageBodyCap
    | .vamana | .hnsw => True

section Outcome

variable {ε δ α β : Type}

theorem ok_mapError {x : Except ε α} {f : ε → δ} : (∃ a, x.mapError f = .ok a) ↔ ∃ a, x = .ok a := by
  cases x <;> simp [Except.mapError]

theorem ok_bind_iff {x : Except ε α} {f : α → Except ε β} :
    (∃ b, (x >>= f) = .ok b) ↔ ∃ a, x = .ok a ∧ ∃ b, f a = .ok b := by
  cases x <;> simp [bind, Except.bind]

theorem ok_ite {p : Prop} [Decidable p] {e : ε} {x : Except ε α} :
    (∃ a, (if p then .error e else x) = .ok a) ↔ ¬ p ∧ ∃ a, x = .ok a := by
  by_cases holds : p <;> simp [holds]

end Outcome

variable {descriptor : Descriptor} {dim m n : Nat} {metric : DistanceMetric} {flat : List F32}

theorem ProductQuantizer.train_eq (positive : dim ≠ 0) {q : ProductQuantizer} :
    ProductQuantizer.train dim m metric = .ok q ↔ (m ≠ 0 ∧ m ∣ dim) ∧ q = ⟨dim, m, dim / m, metric⟩ := by
  rw [ProductQuantizer.train, Nat.dvd_iff_mod_eq_zero]
  by_cases zero : m = 0
  · simp [zero]
  · by_cases divides : dim % m = 0
    · simp [zero, positive, divides, eq_comm]
    · simp [zero, positive, divides]

theorem ProductQuantizer.train_ok (positive : dim ≠ 0) :
    (∃ q, ProductQuantizer.train dim m metric = .ok q) ↔ m ≠ 0 ∧ m ∣ dim := by
  simp [ProductQuantizer.train_eq positive]

theorem defaultPqM_spec (dim : Nat) : defaultPqM dim ≠ 0 ∧ defaultPqM dim ∣ dim := by
  rw [defaultPqM]
  cases found : (List.range' 1 (max (dim / 8) 1)).reverse.find? fun m => dim % m == 0 with
  | none => simp
  | some m =>
    have divides : dim % m = 0 := by simpa using List.find?_some found
    have member := List.mem_of_find?_eq_some found
    rw [List.mem_reverse, List.mem_range'_1] at member
    exact ⟨by simp only [Option.getD_some]; omega, Nat.dvd_of_mod_eq_zero divides⟩

/-- A given subspace count divides the dimension, and the default one always does. -/
theorem getD_spec {given : Option Nat} : (given.getD (defaultPqM dim) ≠ 0 ∧ given.getD (defaultPqM dim) ∣ dim) ↔
    ∀ m, given = some m → m ≠ 0 ∧ m ∣ dim := by
  cases given with
  | none => simpa using defaultPqM_spec dim
  | some m => simp

theorem Vamana.build_eq (supported : metric ≠ .dot) (fits : flat.length = n * dim) :
    Vamana.build n flat dim metric = .ok ⟨n, dim, vamanaDegree, metric⟩ := by
  rw [Vamana.build, if_neg supported, if_neg (not_not.mpr fits)]

theorem buildHnsw_ok (fits : flat.length = n * dim) : ∃ index, buildHnsw dim n flat = .ok index := by
  have inserts : ∀ k count, k ≤ n → (List.range k).foldlM
      (fun count i => insertHnsw dim ((flat.drop (i * dim)).take dim) count) count = .ok (count + k) := by
    intro k count bound
    induction k with
    | zero => rfl
    | succ k ih =>
      have inside : (k + 1) * dim ≤ n * dim := Nat.mul_le_mul_right dim bound
      have length : ((flat.drop (k * dim)).take dim).length = dim := by
        rw [List.length_take, List.length_drop, fits]
        rw [Nat.succ_mul] at inside
        omega
      rw [List.range_succ, List.foldlM_append, ih (by omega)]
      rw [ok_bind, List.foldlM_cons, insertHnsw, if_neg (not_not.mpr length)]
      rfl
  exact ⟨.hnsw (0 + n) dim, by rw [buildHnsw, inserts n 0 (Nat.le_refl n)]; rfl⟩

theorem trainIvf_ok (positive : descriptor.dim ≠ 0) : (∃ index, trainIvf descriptor n = .ok index) ↔
    ∀ m, descriptor.index.pqSubspaces = some m → m ≠ 0 ∧ m ∣ descriptor.dim := by
  rw [trainIvf]
  cases descriptor.index.pqSubspaces with
  | none => simp
  | some m =>
    simp only [ok_bind_iff, pure_eq_ok, Except.ok.injEq, exists_eq', and_true,
      ProductQuantizer.train_ok positive, Option.some.injEq, forall_eq']

theorem buildDisk_ok (positive : descriptor.dim ≠ 0) (supported : descriptor.metric ≠ .dot)
    (fits : flat.length = n * descriptor.dim) : (∃ index, buildDisk descriptor n flat = .ok index) ↔
      (descriptor.index.binary = false → ∀ m, descriptor.index.pqSubspaces = some m → m ≠ 0 ∧ m ∣ descriptor.dim) ∧
        descriptor.dim * 4 + 4 + vamanaDegree * 4 ≤ pageBodyCap := by
  have writes : ∀ quant : ResidentQuant, quant.dim = descriptor.dim → quant.metric = descriptor.metric →
      ((∃ u, writeDiskIndex ⟨n, descriptor.dim, vamanaDegree, descriptor.metric⟩ quant = .ok u) ↔
        descriptor.dim * 4 + 4 + vamanaDegree * 4 ≤ pageBodyCap) := by
    intro quant sameDim sameMetric
    rw [writeDiskIndex, sameDim, sameMetric]
    simp only [ne_eq, not_true_eq_false, decide_false, Bool.or_self, Bool.false_eq_true, if_false, gt_iff_lt]
    rw [ok_ite, Nat.not_lt]
    simp
  have newOk : ∀ dim, Vamana.new dim descriptor.metric = .ok ⟨0, dim, vamanaDegree, descriptor.metric⟩ :=
    fun dim => if_neg supported
  rw [buildDisk, buildDiskGraphQuant, Vamana.build_eq supported fits, ok_bind]
  cases descriptor.index.binary with
  | true =>
    simp only [if_true, pure_eq_ok, Except.mapError, ok_bind, ok_bind_iff, newOk, Except.ok.injEq,
      exists_eq', and_true, Bool.true_eq_false, false_implies, true_and]
    exact writes (.binary descriptor.dim descriptor.metric) rfl rfl
  | false =>
    simp only [Bool.false_eq_true, if_false, forall_const, ← getD_spec]
    by_cases trains : descriptor.index.pqSubspaces.getD (defaultPqM descriptor.dim) ≠ 0 ∧
        descriptor.index.pqSubspaces.getD (defaultPqM descriptor.dim) ∣ descriptor.dim
    · have trained : ProductQuantizer.train descriptor.dim _ descriptor.metric = .ok _ :=
        (ProductQuantizer.train_eq positive).mpr ⟨trains, rfl⟩
      simp only [trained, pure_eq_ok, Except.mapError, ok_bind, ok_bind_iff, newOk, Except.ok.injEq,
        exists_eq', and_true]
      rw [and_iff_right trains]
      exact writes (.pq ⟨_, _, _, _⟩) rfl rfl
    · simp only [trains, false_and, iff_false]
      cases trained : ProductQuantizer.train descriptor.dim
          (descriptor.index.pqSubspaces.getD (defaultPqM descriptor.dim)) descriptor.metric with
      | ok q => exact absurd ((ProductQuantizer.train_eq positive).mp trained).1 trains
      | error e =>
        rw [error_bind]
        rintro ⟨_, impossible⟩
        contradiction

theorem buildColbert_ok (positive : descriptor.dim ≠ 0) (fits : flat.length = n * descriptor.dim) :
    (∃ index, buildColbert descriptor n flat = .ok index) ↔
      ∀ m, descriptor.index.pqSubspaces = some m → max m 1 ∣ descriptor.dim := by
  rw [buildColbert, if_neg (not_not.mpr fits)]
  simp only [ok_bind_iff, pure_eq_ok, Except.ok.injEq, exists_eq', and_true,
    ProductQuantizer.train_ok positive]
  obtain ⟨nonzero, divides⟩ := defaultPqM_spec descriptor.dim
  cases descriptor.index.pqSubspaces with
  | none =>
    have same : max (defaultPqM descriptor.dim) 1 = defaultPqM descriptor.dim := by omega
    simp [same, nonzero, divides]
  | some m =>
    have some : max m 1 ≠ 0 := by omega
    simp [some]

theorem metric_of_accepted (accepted : validateIndex descriptor = .ok ())
    (indexed : descriptor.vectorEncryption ≠ .clientSide)
    (kind : descriptor.index.kind = .vamana ∨ descriptor.index.kind = .ivf ∨ descriptor.index.kind = .diskVamana) :
    descriptor.metric ≠ .dot := by
  intro isDot
  rw [validateIndex, isDot] at accepted
  obtain isKind | isKind | isKind := kind
  all_goals
    rw [isKind, if_neg indexed] at accepted
    by_cases encrypted : descriptor.vectorEncryption = .dcpe
    · simp [encrypted] at accepted
    · simp [encrypted] at accepted

variable {rows : List (List F32)}

theorem buildIvfStreaming_eq (supported : descriptor.metric ≠ .dot)
    (fits : ∀ v ∈ rows, v.length = descriptor.dim) :
    buildIvfStreaming descriptor rows.length rows = trainIvf descriptor rows.length := by
  have none : (rows.find? fun v => v.length != descriptor.dim) = none := by
    rw [List.find?_eq_none]
    intro v member
    simp [fits v member]
  simp [buildIvfStreaming, supported, none]

theorem flatten_length (fits : ∀ v ∈ rows, v.length = dim) :
    rows.flatten.length = rows.length * dim := by
  induction rows with
  | nil => simp
  | cons v rows ih =>
    rw [List.flatten_cons, List.length_append, fits v (List.mem_cons_self ..),
      ih fun w member => fits w (List.mem_cons_of_mem _ member), List.length_cons, Nat.succ_mul, Nat.add_comm]

/-- An accepted collection's index is built exactly if its quantizer divides the dimension and a
node fits a page. -/
theorem rebuildIndex_ok_iff (accepted : validateIndex descriptor = .ok ())
    (positive : descriptor.dim ≠ 0) (fits : ∀ v ∈ rows, v.length = descriptor.dim) :
    (∃ index, rebuildIndex descriptor rows = .ok index) ↔ Buildable descriptor := by
  have flat := flatten_length fits
  by_cases client : descriptor.vectorEncryption = .clientSide
  · simp [rebuildIndex, streamsRebuild, buildIndex, Buildable, client]
  rw [rebuildIndex, Buildable, or_iff_right client]
  cases kind : descriptor.index.kind with
  | ivf =>
    have supported := metric_of_accepted accepted client (.inr (.inl kind))
    by_cases streams : streamsRebuild descriptor = true
    · rw [if_pos streams, ok_mapError, buildIvfStreaming_eq supported fits]
      exact trainIvf_ok positive
    · rw [if_neg streams, buildIndex, if_neg client, kind]
      simp only [ok_mapError, buildIvf, if_neg supported, if_neg (not_not.mpr flat)]
      exact trainIvf_ok positive
  | colbert =>
    rw [if_neg (by simp [streamsRebuild, kind]), buildIndex, if_neg client, kind]
    simp only [ok_mapError]
    exact buildColbert_ok positive flat
  | diskVamana =>
    have supported := metric_of_accepted accepted client (.inr (.inr kind))
    rw [if_neg (by simp [streamsRebuild, kind]), buildIndex, if_neg client, kind]
    exact buildDisk_ok positive supported flat
  | vamana =>
    have supported := metric_of_accepted accepted client (.inl kind)
    rw [if_neg (by simp [streamsRebuild, kind]), buildIndex, if_neg client, kind]
    simp only [ok_mapError, Vamana.build_eq supported flat, ok_bind, Vamana.new, if_neg supported,
      pure_eq_ok, Except.ok.injEq, exists_eq']
  | hnsw =>
    rw [if_neg (by simp [streamsRebuild, kind]), buildIndex, if_neg client, kind]
    simp only [ok_mapError, iff_true]
    exact buildHnsw_ok flat

theorem mapM_ok_iff {ε α β : Type} {items : List α} {f : α → Except ε β} :
    (∃ results, items.mapM f = .ok results) ↔ ∀ a ∈ items, ∃ b, f a = .ok b := by
  constructor
  · rintro ⟨results, all⟩ a member
    obtain ⟨b, _, first⟩ := exists_of_mem (mapM_eq_ok.mp all).flip member
    exact ⟨b, first⟩
  · intro each
    obtain ⟨results, all⟩ := exists_forall₂ each
    exact ⟨results, mapM_eq_ok.mpr all⟩

/-- A collection that the database accepted, with the rows that it accepted for it. -/
structure Accepted (collection : Descriptor × List (List F32)) : Prop where
  valid : validateIndex collection.1 = .ok ()
  positive : collection.1.dim ≠ 0
  fits : ∀ v ∈ collection.2, v.length = collection.1.dim

/-- Every index of accepted collections is built, and the database opens, exactly if each
quantizer divides its dimension and each node fits a page. -/
theorem open_ok_iff_buildable {collections : List (Descriptor × List (List F32))}
    (accepted : ∀ c ∈ collections, Accepted c) :
    (∀ c ∈ collections, (∃ index, rebuildIndex c.1 c.2 = .ok index) ↔ Buildable c.1) ∧
      ((∃ indexes, fromStore collections = .ok indexes) ↔ ∀ c ∈ collections, Buildable c.1) := by
  have each : ∀ c ∈ collections, (∃ index, rebuildIndex c.1 c.2 = .ok index) ↔ Buildable c.1 := fun c member =>
    rebuildIndex_ok_iff (accepted c member).valid (accepted c member).positive (accepted c member).fits
  refine ⟨each, ?_⟩
  rw [fromStore, mapM_ok_iff]
  exact forall₂_congr each

theorem open_ok_divided : ∃ indexes,
    fromStore [({ dim := 8, metric := .l2, index := { kind := .ivf, pqSubspaces := some 4 } },
      [List.replicate 8 0])] = .ok indexes := by
  refine (open_ok_iff_buildable ?_).2.mpr ?_
  · intro c member
    rw [List.mem_singleton.mp member]
    exact ⟨rfl, by decide, by decide⟩
  · intro c member
    rw [List.mem_singleton.mp member]
    exact .inr (by simp)

/-- One accepted collection that cannot be built, without any row, fails the whole database. -/
theorem open_fails_undivided : ∃ descriptor : Descriptor, validateIndex descriptor = .ok () ∧ descriptor.dim ≠ 0 ∧
    rebuildIndex descriptor [] = .error (.index (.invalidConfig "PQ requires m > 0 and dim divisible by m")) ∧
    fromStore [({ dim := 1, metric := .l2 }, []), (descriptor, [])] =
      .error (.index (.invalidConfig "PQ requires m > 0 and dim divisible by m")) :=
  ⟨{ dim := 10, metric := .l2, index := { kind := .ivf, pqSubspaces := some 3 } }, rfl, by decide, rfl, rfl⟩

end Quiver.Embed
