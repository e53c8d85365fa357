import Quiver.Core.LogFiles

/-!
The invariant of an open store: its memory stands for a logical state, its files hold an
image with the same collections, and its log writer continues the last log file.
-/

namespace Quiver.Core

open FileSystem FramedLog
open Std (ExtTreeMap)

/-- The same collections, under the same names and with the same descriptors. -/
structure SameCatalog (l l' : Logical) : Prop where
  names : l.names = l'.names
  collections : ∀ k : CollectionId, Option.Rel (fun e e' : LogicalCollection =>
    e.name = e'.name ∧ e.descriptor = e'.descriptor) l.collections[k]? l'.collections[k]?

theorem SameCatalog.refl (l : Logical) : SameCatalog l l := by
  refine ⟨rfl, fun k => ?_⟩
  cases l.collections[k]? with
  | none => exact .none
  | some e => exact .some ⟨rfl, rfl⟩

namespace SameCatalog

variable {encoding : Encoding} {l l' : Logical} {next : CollectionId} {op : WalOp} {ops : List WalOp}

section

variable (same : SameCatalog l l')
include same

theorem symm : SameCatalog l' l := by
  refine ⟨same.names.symm, fun k => ?_⟩
  have related := same.collections k
  generalize l.collections[k]? = entry at related ⊢
  generalize l'.collections[k]? = entry' at related ⊢
  cases related with
  | none => exact .none
  | some both => exact .some ⟨both.1.symm, both.2.symm⟩

theorem some_left {k : CollectionId} {e : LogicalCollection}
    (found : l.collections[k]? = some e) : ∃ e' : LogicalCollection, l'.collections[k]? = some e' ∧
      e.name = e'.name ∧ e.descriptor = e'.descriptor :=
  Maps.rel_left (same.collections k) found

theorem legal (legal : l.Legal encoding next op) : l'.Legal encoding next op := by
  cases op with
  | createCollection k name bytes => exact ⟨legal.1, legal.2.1, same.names ▸ legal.2.2⟩
  | dropCollection k | delete k =>
    obtain ⟨e, found⟩ := legal
    obtain ⟨e', found', _⟩ := same.some_left found
    exact ⟨e', found'⟩
  | upsert k id vector payload =>
    obtain ⟨e, found, stride⟩ := legal
    obtain ⟨e', found', _, descriptor⟩ := same.some_left found
    exact ⟨e', found', descriptor ▸ stride⟩
  | checkpoint lsn version => exact legal

theorem onPoints (k : CollectionId)
    (f g : ExtTreeMap String Record → ExtTreeMap String Record) :
    SameCatalog (l.onPoints k f) (l'.onPoints k g) := by
  refine ⟨same.names, fun j => ?_⟩
  rw [Logical.collections_onPoints, Logical.collections_onPoints]
  have related := same.collections j
  split
  · generalize l.collections[j]? = entry at related ⊢
    generalize l'.collections[j]? = entry' at related ⊢
    cases related with
    | none => exact .none
    | some both => exact .some both
  · exact related

theorem apply (op : WalOp) :
    SameCatalog (l.apply encoding op) (l'.apply encoding op) := by
  cases op with
  | createCollection k name bytes =>
    simp only [Logical.apply]
    split
    · refine ⟨by rw [same.names], fun j => ?_⟩
      simp only [Maps.get_insert]
      split
      · exact .some ⟨rfl, rfl⟩
      · exact same.collections j
    · exact same
  | dropCollection k =>
    have related := same.collections k
    simp only [Logical.apply]
    generalize l.collections[k]? = entry at related ⊢
    generalize l'.collections[k]? = entry' at related ⊢
    cases related with
    | none => exact same
    | some both =>
      simp only [both.1]
      refine ⟨by rw [same.names], fun j => ?_⟩
      simp only [Maps.get_erase]
      split
      · exact .none
      · exact same.collections j
  | upsert k id vector payload | delete k id =>
    simp only [Logical.apply]
    exact same.onPoints k _ _
  | checkpoint lsn version => exact same

theorem applyAll (ops : List WalOp) :
    SameCatalog (l.applyAll encoding ops) (l'.applyAll encoding ops) := by
  induction ops generalizing l l' with
  | nil => exact same
  | cons op ops ih => exact ih (same.apply op)

theorem valid (valid : l.Valid encoding next ops) :
    l'.Valid encoding next ops := by
  induction ops generalizing l l' next with
  | nil => trivial
  | cons op ops ih => exact ⟨same.legal valid.1, ih (same.apply op) valid.2⟩

theorem indexed (indexed : l.Indexed) : l'.Indexed := by
  intro name k
  rw [← same.names, indexed name k]
  constructor
  · rintro ⟨e, found, rfl⟩
    obtain ⟨e', found', isName, _⟩ := same.some_left found
    exact ⟨e', found', isName.symm⟩
  · rintro ⟨e', found', rfl⟩
    obtain ⟨e, found, isName, _⟩ := same.symm.some_left found'
    exact ⟨e, found, isName.symm⟩

theorem below (below : l.Below next) : l'.Below next := by
  intro k e' found'
  obtain ⟨e, found, _⟩ := same.symm.some_left found'
  exact below k e found

end

end SameCatalog

/-- The operation writes points only. -/
def WalOp.Writes : WalOp → Prop
  | .upsert .. | .delete .. => True
  | _ => False

theorem SameCatalog.writes {encoding : Encoding} {l l' : Logical} (same : SameCatalog l l')
    {ops : List WalOp} (writes : ∀ op ∈ ops, op.Writes) :
    SameCatalog l (l'.applyAll encoding ops) := by
  induction ops generalizing l' with
  | nil => exact same
  | cons op ops ih =>
    refine ih ?_ fun op member => writes op (List.mem_cons_of_mem _ member)
    have unchanged : ∀ k g, SameCatalog l (l'.onPoints k g) := by
      intro k g
      have kept := same.onPoints k id g
      refine ⟨kept.names, fun j => ?_⟩
      have related := kept.collections j
      rw [Logical.collections_onPoints l k j] at related
      simpa using related
    cases op with
    | upsert k id vector payload | delete k id =>
      simp only [Logical.apply]
      exact unchanged k _
    | _ => exact (writes _ (List.mem_cons_self ..)).elim

variable (encoding : Encoding) (ring : KeyRing)

/-- The writer continues the last log file: the durable records and those appended since lie
in it one behind the other, up to the writer's offset. -/
structure Writer (img : Image) (d : DataDir) (w : WalWriter) (older : List LoggedFile)
    (file : LoggedFile) (baseLsn : Lsn) : Prop where
  files : img.files = older ++ [file]
  settled : ∀ other ∈ older, other.unsynced = []
  seq : w.seq = file.seq
  stored : d[Path.wal w.seq]? = some
    ⟨byteChunks (walLayout encoding baseLsn file.synced), byteChunks ((walFraming encoding true).layout
      (walLayout encoding baseLsn file.synced).length file.unsynced)⟩
  fit : (walFraming encoding true).AllFit walFileHeaderSize (file.synced ++ file.unsynced)
  offset : w.writeOffset = (walLayout encoding baseLsn (file.synced ++ file.unsynced)).length
  flag : w.unsynced = false → file.unsynced = []

/-- An open store over an image, with memory that stands for `mem`. -/
structure Running (s : Store) (d : DataDir) (img : Image) (mem : Logical) : Prop where
  on : img.On encoding ring d
  sound : img.Sound encoding
  keyring : s.keyring = ring
  represents : s.catalog.Represents mem
  backed : Catalog.Backed ring d img.base img.tail s.catalog
  ghosts : ∀ op ∈ img.pending, op.Writes
  sameCatalog : SameCatalog mem (img.start.applyAll encoding (img.tail ++ img.pending))
  version : s.manifestVersion = img.mfst.version
  floor : s.lastCheckpointedLsn = img.mfst.lastCheckpointedLsn
  nextLsn : s.lastCheckpointedLsn < s.nextLsn
  lsns : ∀ file ∈ img.files, ∀ e ∈ file.synced ++ file.unsynced, e.lsn < s.nextLsn
  nextCollection : (img.tail ++ img.pending).foldl WalOp.nextId img.next ≤ s.nextCollectionId
  nextSegment : img.mfst.nextSegmentId ≤ s.nextSegmentId
  fresh : ∀ {cid seg part}, s.nextSegmentId ≤ seg → d[Path.segment cid seg part]? = none
  writer : ∃ older file baseLsn, Writer encoding img d s.wal older file baseLsn

end Quiver.Core
