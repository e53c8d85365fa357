import Quiver.Core.Open

/-!
What a data directory durably holds: a manifest with the collections it loads to, and log files with
the records a crash cannot take away. A change elsewhere leaves it as it is, and a crash drops only
records not yet synced.
-/

namespace Quiver.Core

open FileSystem FramedLog
open Std (ExtTreeMap)

section Locality

variable {encoding : Encoding} {ring : KeyRing} {d d' : DataDir}

theorem mem_congr {p : Path} (same : d'[p]? = d[p]?) : p ∈ d' ↔ p ∈ d := by
  rw [← ExtTreeMap.isSome_getElem?_iff_mem, ← ExtTreeMap.isSome_getElem?_iff_mem, same]

theorem loadSegment_congr {cid : CollectionId} {seg : Nat} {codec : Key}
    (same : ∀ part, part ≠ .delTmp → d'[Path.segment cid seg part]? = d[Path.segment cid seg part]?) :
    loadSegment d' cid seg codec = loadSegment d cid seg codec := by
  have del := same .del (by decide)
  have sec := same .sec (by decide)
  simp only [loadSegment, readDir, readColumn, readDel, readSec, readPaged, mem_congr del, mem_congr sec,
    del, sec, same .dir (by decide), same .vec (by decide), same .pay (by decide), same .ids (by decide)]

theorem collectionCodec_congr {cid : CollectionId} (same : d'[Path.dek cid]? = d[Path.dek cid]?) :
    ring.collectionCodec d' cid = ring.collectionCodec d cid := by
  cases ring with
  | single key => rfl
  | envelope => simp only [KeyRing.collectionCodec, same]

theorem loadCollection_congr {entry : CollectionEntry}
    (key : d'[Path.dek entry.id]? = d[Path.dek entry.id]?)
    (segments : ∀ ref ∈ entry.segments, ∀ part, part ≠ .delTmp →
      d'[Path.segment entry.id ref.id part]? = d[Path.segment entry.id ref.id part]?) :
    loadCollection encoding ring d' entry = loadCollection encoding ring d entry := by
  have loads : ∀ codec, entry.segments.mapM (fun ref => loadSegment d' entry.id ref.id codec) =
      entry.segments.mapM fun ref => loadSegment d entry.id ref.id codec := by
    intro codec
    refine Results.mapM_congr fun ref member => ?_
    exact loadSegment_congr (segments ref member)
  simp only [loadCollection, collectionCodec_congr key, loads]

theorem loadCatalog_congr {m : Manifest} (keys : ∀ entry ∈ m.collections,
      d'[Path.dek entry.id]? = d[Path.dek entry.id]?)
    (segments : ∀ entry ∈ m.collections, ∀ ref ∈ entry.segments, ∀ part, part ≠ .delTmp →
      d'[Path.segment entry.id ref.id part]? = d[Path.segment entry.id ref.id part]?) :
    loadCatalog encoding ring d' m = loadCatalog encoding ring d m := by
  refine Results.foldlM_congr (fun cat entry member => ?_) _
  rw [loadCollection_congr (keys entry member) (segments entry member)]

end Locality

theorem readCurrent_stored {d : DataDir} {m : Manifest} (pointer : d[Path.current]? = some ⟨[.current m.version], []⟩)
    (stored : d[Path.manifest m.version]? = some ⟨[.manifest m], []⟩)
    (format : m.formatVersion = manifestFormatVersion) : readCurrent d = .ok (some m) := by
  simp only [readCurrent, pointer, File.content, List.append_nil, readPaged, stored, Results.ok_bind, format, if_true]
  rfl

/-- The manifest a reader finds, with nothing left to sync. -/
def CurrentIs (d : DataDir) (m : Manifest) : Prop :=
  d[Path.current]? = none ∧ m = .empty ∨
    d[Path.current]? = some ⟨[.current m.version], []⟩ ∧
    d[Path.manifest m.version]? = some ⟨[.manifest m], []⟩ ∧ m.formatVersion = manifestFormatVersion

theorem CurrentIs.readManifest {d : DataDir} {m : Manifest} (current : CurrentIs d m) :
    readManifest d = .ok m := by
  obtain ⟨missing, rfl⟩ | ⟨pointer, stored, version⟩ := current
  · simp only [Core.readManifest, readCurrent, missing]
    rfl
  · rw [Core.readManifest, readCurrent_stored pointer stored version]
    rfl

/-- Nothing of the file is left to sync. -/
def Settled (d : DataDir) (p : Path) : Prop := ∀ f, d[p]? = some f → f.pending = []

theorem Settled.crashed {d d' : DataDir} {p : Path} (settled : Settled d p) (crashed : Crashed d d') :
    d'[p]? = d[p]? := by
  cases found : d[p]? with
  | none => exact crashed.missing found
  | some f => exact crashed.synced found (settled f found)

/-- The records of a log file that are durable, and those appended since. -/
structure LoggedFile where
  seq : Nat
  synced : List WalEntry
  unsynced : List WalEntry

section Logs

variable (encoding : Encoding)

def ReadsAs (content : List Chunk) (entries : List WalEntry) : Prop :=
  ∃ replay, readAll encoding (walBytes content) = .ok replay ∧ replay.entries = entries

/-- Whatever part of its pending bytes a crash keeps, the file reads as the durable records
and some of the others. -/
def LoggedFile.On (file : LoggedFile) (d : DataDir) : Prop :=
  ∃ f, d[Path.wal file.seq]? = some f ∧ ∀ kept, kept <+: f.pending →
    ∃ part, part <+: file.unsynced ∧ ReadsAs encoding (f.synced ++ kept) (file.synced ++ part)

theorem LoggedFile.On.crashed {file : LoggedFile} {d d' : DataDir} (on : file.On encoding d)
    (crashed : Crashed d d') : ∃ part, part <+: file.unsynced ∧
      (LoggedFile.mk file.seq (file.synced ++ part) []).On encoding d' := by
  obtain ⟨f, found, reads⟩ := on
  obtain ⟨f', found', nothing, kept, isPrefix, same⟩ := crashed.found found
  obtain ⟨part, isPart, readsAs⟩ := reads kept isPrefix
  refine ⟨part, isPart, f', found', fun more isMore => ⟨[], List.prefix_refl _, ?_⟩⟩
  rw [nothing, List.prefix_nil] at isMore
  rw [isMore, List.append_nil, List.append_nil, same]
  exact readsAs

theorem LoggedFile.On.readWal {seq : Nat} {entries : List WalEntry} {d : DataDir}
    (on : (LoggedFile.mk seq entries []).On encoding d) :
    ∃ replay, readWal encoding d seq = .ok replay ∧ replay.entries = entries := by
  obtain ⟨f, found, reads⟩ := on
  obtain ⟨part, isPart, replay, read, same⟩ := reads f.pending (List.prefix_refl _)
  rw [List.prefix_nil] at isPart
  refine ⟨replay, ?_, by rw [same, isPart, List.append_nil]⟩
  simp only [Core.readWal, found]
  exact read

end Logs

end Quiver.Core
