import Quiver.Core.Durable

/-!
Segment files on disk: a segment just written opens as the rows it was written from, and
rewriting its tombstones changes nothing but the dead rows.
-/

namespace Quiver.Core

open FileSystem Results
open Std (ExtTreeMap)

variable {d : DataDir} {cid : CollectionId} {seg : Nat} {codec : Key}

theorem getElem?_writePaged (d : DataDir) (q : Path) (body : Chunk) (p : Path) :
    (applyAll d (writePaged q body))[p]? = if p = q then some ⟨[body], []⟩ else d[p]? := by
  split
  case isTrue same =>
    subst same
    simp [writePaged, File.empty]
  case isFalse differ =>
    refine applyAll_untouched (fun e member touches => ?_) d
    simp only [writePaged, List.mem_cons, List.not_mem_nil, or_false] at member
    obtain rfl | rfl | rfl := member <;> exact differ touches

theorem writePaged_touches {q : Path} {body : Chunk} {e : Effect Path Chunk} {p : Path}
    (member : e ∈ writePaged q body) (touches : e.Touches p) : p = q := by
  simp only [writePaged, List.mem_cons, List.not_mem_nil, or_false] at member
  obtain rfl | rfl | rfl := member <;> exact touches

theorem writeSegment_touches {files : SegmentFiles} {e : Effect Path Chunk} {p : Path}
    (member : e ∈ writeSegment cid seg codec files) (touches : e.Touches p) :
    ∃ part, p = .segment cid seg part ∧ part ≠ .del ∧ part ≠ .delTmp := by
  simp only [writeSegment, List.mem_append] at member
  obtain (((here | here) | here) | here) | here := member
  · exact ⟨.vec, writePaged_touches here touches, by simp, by simp⟩
  · exact ⟨.pay, writePaged_touches here touches, by simp, by simp⟩
  · exact ⟨.ids, writePaged_touches here touches, by simp, by simp⟩
  · exact ⟨.dir, writePaged_touches here touches, by simp, by simp⟩
  · split at here
    · exact ⟨.sec, writePaged_touches here touches, by simp, by simp⟩
    · simp at here

section Stored

variable (d) (cid) (seg) (codec) (files : SegmentFiles)

theorem writeSegment_columns :
    (applyAll d (writeSegment cid seg codec files))[Path.segment cid seg .vec]? =
        some ⟨[.column codec files.vec], []⟩ ∧
      (applyAll d (writeSegment cid seg codec files))[Path.segment cid seg .pay]? =
        some ⟨[.column codec files.pay], []⟩ ∧
      (applyAll d (writeSegment cid seg codec files))[Path.segment cid seg .ids]? =
        some ⟨[.column codec files.ids], []⟩ ∧
      (applyAll d (writeSegment cid seg codec files))[Path.segment cid seg .dir]? =
        some ⟨[.segmentDir codec files.dir], []⟩ := by
  cases sec : files.sec <;>
    simp [writeSegment, sec, applyAll_append, getElem?_writePaged]

theorem writeSegment_sec :
    (applyAll d (writeSegment cid seg codec files))[Path.segment cid seg .sec]? =
      (files.sec.map fun sec => ⟨[.sec codec sec], []⟩).or d[Path.segment cid seg .sec]? := by
  cases sec : files.sec <;>
    simp [writeSegment, sec, applyAll_append, getElem?_writePaged]

theorem writeSegment_del :
    (applyAll d (writeSegment cid seg codec files))[Path.segment cid seg .del]? =
      d[Path.segment cid seg .del]? := by
  refine applyAll_untouched (fun e member touches => ?_) d
  obtain ⟨part, same, notDel, _⟩ := writeSegment_touches member touches
  cases same
  exact notDel rfl

end Stored

theorem loadSegment_writeSegment (codec : Key) (rows : List SealRow) (filterable : List FilterableField)
    (fresh : ∀ part, d[Path.segment cid seg part]? = none) :
    loadSegment (applyAll d (writeSegment cid seg codec (segmentFiles seg rows filterable))) cid seg codec =
      .ok (sealedSegment seg rows filterable ∅) := by
  obtain ⟨vec, pay, ids, dir⟩ := writeSegment_columns d cid seg codec (segmentFiles seg rows filterable)
  have del := writeSegment_del d cid seg codec (segmentFiles seg rows filterable)
  have sec := writeSegment_sec d cid seg codec (segmentFiles seg rows filterable)
  rw [fresh] at del sec
  generalize applyAll d (writeSegment cid seg codec (segmentFiles seg rows filterable)) = d' at *
  have noDel : Path.segment cid seg .del ∉ d' := by
    rw [ExtTreeMap.mem_iff_isSome_getElem?, del]
    simp
  have hasSec : readSec d' cid seg codec = .ok (segmentFiles seg rows filterable).sec := by
    rw [Option.or_none] at sec
    cases written : (segmentFiles seg rows filterable).sec with
    | none =>
      rw [written] at sec
      have absent : Path.segment cid seg .sec ∉ d' := by
        rw [ExtTreeMap.mem_iff_isSome_getElem?, sec]
        simp
      simp [readSec, absent]
    | some index =>
      rw [written] at sec
      have present : Path.segment cid seg .sec ∈ d' := by
        rw [ExtTreeMap.mem_iff_isSome_getElem?, sec]
        simp
      rw [Option.map_some] at sec
      simp only [readSec, present, if_true, readPaged, sec, File.content, List.append_nil, ok_bind]
  simp only [loadSegment, readDir, readPaged, dir, readColumn, vec, pay, ids, File.content, List.append_nil,
    ok_bind, if_true, readDel, noDel, if_false, hasSec]
  exact openSegment_segmentFiles

theorem settled_writeSegment (codec : Key) (files : SegmentFiles)
    (fresh : ∀ part, d[Path.segment cid seg part]? = none)
    (part : SegmentPart) : Settled (applyAll d (writeSegment cid seg codec files)) (.segment cid seg part) := by
  obtain ⟨vec, pay, ids, dir⟩ := writeSegment_columns d cid seg codec files
  have sec := writeSegment_sec d cid seg codec files
  have del := writeSegment_del d cid seg codec files
  have delTmp : (applyAll d (writeSegment cid seg codec files))[Path.segment cid seg .delTmp]? =
      d[Path.segment cid seg .delTmp]? := by
    refine applyAll_untouched (fun e member touches => ?_) d
    obtain ⟨part, same, _, notTmp⟩ := writeSegment_touches member touches
    cases same
    exact notTmp rfl
  rw [fresh] at sec del delTmp
  intro f found
  cases part with
  | vec => rw [vec] at found; cases found; rfl
  | pay => rw [pay] at found; cases found; rfl
  | ids => rw [ids] at found; cases found; rfl
  | dir => rw [dir] at found; cases found; rfl
  | sec =>
    rw [sec, Option.or_none, Option.map_eq_some_iff] at found
    obtain ⟨_, _, rfl⟩ := found
    rfl
  | del => rw [del] at found; contradiction
  | delTmp => rw [delTmp] at found; contradiction

variable {s : SealedSegment}

/-- A segment keeps the id it is opened under, and its bitmap is the one it is opened with. -/
theorem openSegment_spec {files : SegmentFiles} {dead : Bitmap} (opened : openSegment seg files dead = .ok s) :
    s.segId = seg ∧ ∀ other, openSegment seg files other = .ok { s with dead := other } := by
  simp only [openSegment] at opened ⊢
  split at opened
  · contradiction
  · rename_i version
    simp only [if_neg version]
    split at opened
    · obtain ⟨min, isMin, rest⟩ := bind_eq_ok.mp opened
      obtain ⟨max, isMax, last⟩ := bind_eq_ok.mp rest
      cases last
      exact ⟨rfl, fun _ => bind_eq_ok.mpr ⟨min, isMin, bind_eq_ok.mpr ⟨max, isMax, rfl⟩⟩⟩
    · cases opened
      exact ⟨rfl, fun _ => rfl⟩

theorem getElem?_writeDel (d : DataDir) (cid : CollectionId) (seg : Nat) (codec : Key) (dead : Bitmap) (p : Path) :
    (applyAll d (writeDel cid seg codec dead))[p]? =
      if p = .segment cid seg .del then some ⟨[.bitmap codec dead], []⟩
      else if p = .segment cid seg .delTmp then none else d[p]? := by
  have written := getElem?_writePaged d (.segment cid seg .delTmp) (.bitmap codec dead)
  rw [writeDel, applyAll_append, applyAll_cons, applyAll_nil]
  by_cases target : p = .segment cid seg .del
  · subst target
    rw [if_pos rfl]
    exact rename_target ((written _).trans (if_pos rfl))
  · rw [if_neg target]
    by_cases source : p = .segment cid seg .delTmp
    · subst source
      have found := (written (.segment cid seg .delTmp)).trans (if_pos rfl)
      simp [apply, found]
    · rw [if_neg source, apply_untouched (by rintro (same | same); exacts [source same, target same]),
        written, if_neg source]

theorem loadSegment_writeDel (loaded : loadSegment d cid seg codec = .ok s)
    (dead : Bitmap) :
    loadSegment (applyAll d (writeDel cid seg codec dead)) cid seg codec = .ok { s with dead } := by
  have stored := getElem?_writeDel d cid seg codec dead
  generalize applyAll d (writeDel cid seg codec dead) = d' at stored
  have same : ∀ part, part ≠ .del → part ≠ .delTmp →
      d'[Path.segment cid seg part]? = d[Path.segment cid seg part]? := by
    intro part notDel notTmp
    rw [stored, if_neg (by simpa using notDel), if_neg (by simpa using notTmp)]
  have isDel : d'[Path.segment cid seg .del]? = some ⟨[.bitmap codec dead], []⟩ := by
    rw [stored, if_pos rfl]
  have present : Path.segment cid seg .del ∈ d' :=
    Maps.mem_of_get isDel
  simp only [loadSegment, bind_eq_ok] at loaded
  obtain ⟨dir, isDir, vec, isVec, pay, isPay, ids, isIds, before, _, sec, isSec, opened⟩ := loaded
  have dirSame : readDir d' cid seg codec = readDir d cid seg codec := by
    simp only [readDir, readPaged, same .dir (by decide) (by decide)]
  have columnSame : ∀ part, part ≠ .del → part ≠ .delTmp →
      readColumn d' codec (.segment cid seg part) = readColumn d codec (.segment cid seg part) := by
    intro part notDel notTmp
    simp only [readColumn, same part notDel notTmp]
  have secSame : readSec d' cid seg codec = readSec d cid seg codec := by
    have sec := same .sec (by decide) (by decide)
    simp only [readSec, readPaged, mem_congr sec, sec]
  have isDead : readDel d' cid seg codec = .ok dead := by
    simp only [readDel, present, if_true, readPaged, isDel, File.content, List.append_nil, ok_bind]
  simp only [loadSegment, dirSame, isDir, columnSame _ (by decide : SegmentPart.vec ≠ _) (by decide), isVec,
    columnSame _ (by decide : SegmentPart.pay ≠ _) (by decide), isPay,
    columnSame _ (by decide : SegmentPart.ids ≠ _) (by decide), isIds, isDead, secSame, isSec,
    ok_bind]
  exact (openSegment_spec opened).2 dead

theorem loadSegment_segId (loaded : loadSegment d cid seg codec = .ok s) :
    s.segId = seg := by
  simp only [loadSegment, bind_eq_ok] at loaded
  obtain ⟨_, _, _, _, _, _, _, _, _, _, _, _, opened⟩ := loaded
  exact (openSegment_spec opened).1

end Quiver.Core
