import Quiver.Core.Reclaim

/-!
The log files of an image: a new file with its header holds no record at any point of its
creation, and a file without live records can go.
-/

namespace Quiver.Core

open FileSystem FramedLog
open Std (ExtTreeMap)
open List (append_nil flatMap_cons mem_filter mem_singleton nil_append prefix_refl)

variable {encoding : Encoding} {ring : KeyRing} {img : Image} {d d' : DataDir}

theorem readsAs_header {baseLsn : Lsn} {content : List Chunk}
    (isPrefix : content <+: byteChunks (walHeader baseLsn)) : ReadsAs encoding content [] := by
  obtain ⟨rest, whole⟩ := isPrefix
  by_cases complete : rest = []
  · subst complete
    rw [append_nil] at whole
    have fit : (walFraming encoding true).AllFit walFileHeaderSize [] := trivial
    have untorn : (walFraming encoding true).Torn (walLayout encoding baseLsn []).length [] := .inl rfl
    obtain ⟨replay, read, entries, _⟩ := readAll_walLayout encoding fit untorn
    refine ⟨replay, ?_, entries⟩
    rw [whole, walBytes_byteChunks]
    simpa [walLayout, Framing.layout] using read
  · refine readAll_short encoding ?_
    have lengths := congrArg List.length whole
    have missing := List.length_pos_iff.mpr complete
    have bytes : (walBytes content).length ≤ content.length := List.length_filterMap_le _ _
    simp only [List.length_append, byteChunks, List.length_map, length_walHeader] at lengths
    rw [walFileHeaderSize]
    omega

def LoggedFile.new (seq : Nat) : LoggedFile := ⟨seq, [], []⟩

theorem LoggedFile.on_created {seq : Nat} {baseLsn : Lsn} {f : File Chunk}
    (found : d[Path.wal seq]? = some f) (isPrefix : f.content <+: byteChunks (walHeader baseLsn)) :
    (LoggedFile.new seq).On encoding d := by
  refine ⟨f, found, fun kept isKept => ⟨[], prefix_refl _, ?_⟩⟩
  have within : f.synced ++ kept <+: f.content := by
    obtain ⟨rest, whole⟩ := isKept
    exact ⟨rest, by rw [List.append_assoc, whole, File.content]⟩
  exact readsAs_header (within.trans isPrefix)

namespace Image

def addFile (img : Image) (seq : Nat) : Image := { img with files := img.files ++ [.new seq] }

def without (img : Image) (seqs : List Nat) : Image :=
  { img with files := img.files.filter fun file => file.seq ∉ seqs }

/-- These files hold no live record. -/
def Spent (img : Image) (seqs : List Nat) : Prop :=
  ∀ file ∈ img.files, file.seq ∈ seqs → img.live file.synced = [] ∧ img.live file.unsynced = []

theorem tail_addFile (img : Image) (seq : Nat) : (img.addFile seq).tail = img.tail := by
  change img.live ((img.files ++ [LoggedFile.new seq]).flatMap (·.synced)) = _
  simp [Image.tail, LoggedFile.new]

theorem pending_addFile (img : Image) (seq : Nat) : (img.addFile seq).pending = img.pending := by
  change img.live ((img.files ++ [LoggedFile.new seq]).flatMap (·.unsynced)) = _
  simp [Image.pending, LoggedFile.new]

variable {seqs : List Nat} {seq : Nat}

theorem live_without {part : LoggedFile → List WalEntry} {files : List LoggedFile}
    (spent : ∀ file ∈ files, file.seq ∈ seqs → img.live (part file) = []) :
    img.live ((files.filter fun file => file.seq ∉ seqs).flatMap part) = img.live (files.flatMap part) := by
  induction files with
  | nil => rfl
  | cons file files ih =>
    have rest := ih fun other member => spent other (List.mem_cons_of_mem _ member)
    by_cases gone : file.seq ∈ seqs
    · rw [List.filter_cons_of_neg (by simpa using gone), rest, flatMap_cons, live_append,
        spent file (List.mem_cons_self ..) gone, nil_append]
    · rw [List.filter_cons_of_pos (by simpa using gone), flatMap_cons, flatMap_cons,
        live_append, live_append, rest]

theorem tail_without (spent : img.Spent seqs) : (img.without seqs).tail = img.tail :=
  live_without fun file member gone => (spent file member gone).1

theorem pending_without (spent : img.Spent seqs) :
    (img.without seqs).pending = img.pending :=
  live_without fun file member gone => (spent file member gone).2

theorem CurrentIs_congr {m : Manifest} (current : CurrentIs d m)
    (pointer : d'[Path.current]? = d[Path.current]?)
    (stored : d'[Path.manifest m.version]? = d[Path.manifest m.version]?) : CurrentIs d' m := by
  simpa only [CurrentIs, pointer, stored] using current

theorem On.addFile (on : img.On encoding ring d)
    (same : ∀ p : Path, p ≠ .wal seq → d'[p]? = d[p]?) (new : (LoggedFile.new seq).On encoding d')
    (absent : Path.wal seq ∉ d) : (img.addFile seq).On encoding ring d' := by
  refine on.withFiles (CurrentIs_congr on.current (same _ (by simp)) (same _ (by simp)))
    (fun _ => same _ (by simp)) (fun _ => same _ (by simp)) ?_ ?_ ?_
  · intro k created
    have created : Created ((img.addFile seq).tail ++ (img.addFile seq).pending) k := created
    rw [tail_addFile, pending_addFile] at created
    exact .inl created
  · intro other
    by_cases here : other = seq
    · subst here
      obtain ⟨f, found, _⟩ := new
      refine ⟨fun _ => ⟨_, List.mem_append_right _ (List.mem_singleton_self _), rfl⟩, fun _ => ?_⟩
      exact Maps.mem_of_get found
    · rw [mem_congr (same (.wal other) (by simpa using here)), on.listed other]
      constructor
      · rintro ⟨file, member, isSeq⟩
        exact ⟨file, List.mem_append_left _ member, isSeq⟩
      · rintro ⟨file, member, isSeq⟩
        obtain old | added := List.mem_append.mp member
        · exact ⟨file, old, isSeq⟩
        · rw [mem_singleton.mp added] at isSeq
          exact absurd isSeq.symm here
  · intro file member
    obtain old | added := List.mem_append.mp member
    · obtain ⟨f, found, reads⟩ := on.logs file old
      refine ⟨f, ?_, reads⟩
      rw [same, found]
      rintro equal
      cases equal
      exact absent (Maps.mem_of_get found)
    · rw [mem_singleton.mp added]
      exact new

theorem Sound.addFile (sound : img.Sound encoding)
    (above : ∀ file ∈ img.files, file.seq < seq) (nothing : img.pending = []) :
    (img.addFile seq).Sound encoding := by
  have tail := tail_addFile img seq
  have pending := pending_addFile img seq
  refine sound.withFiles [] ?_ ?_ (by rw [append_nil]; exact tail) ?_
  · refine List.pairwise_append.mpr ⟨sound.ordered, List.pairwise_singleton .., fun a member b new => ?_⟩
    rw [mem_singleton.mp new]
    exact above a member
  · refine List.pairwise_append.mpr ⟨sound.lastOnly, List.pairwise_singleton .., fun a member b _ => ?_⟩
    obtain ⟨before, after, split⟩ := List.append_of_mem member
    rw [Image.pending, split, List.flatMap_append, flatMap_cons, live_append, live_append] at nothing
    exact (List.append_eq_nil_iff.mp (List.append_eq_nil_iff.mp nothing).2).1
  · rw [nil_append]
    exact pending ▸ prefix_refl _

theorem Sound.without (sound : img.Sound encoding) (spent : img.Spent seqs) :
    (img.without seqs).Sound encoding := by
  have tail := tail_without spent
  have pending := pending_without spent
  refine sound.withFiles [] (sound.ordered.filter _) (sound.lastOnly.filter _)
    (by rw [append_nil]; exact tail) ?_
  rw [nil_append]
  exact pending ▸ prefix_refl _

theorem getElem?_removeWals (d : DataDir) {p : Path} (kept : ∀ seq ∈ seqs, p ≠ .wal seq) :
    (applyAll d (seqs.map fun seq => .remove (.wal seq)))[p]? = d[p]? := by
  refine applyAll_untouched (fun e member touches => ?_) d
  obtain ⟨seq, inside, rfl⟩ := List.mem_map.mp member
  exact kept seq inside touches

theorem On.without (on : img.On encoding ring d) (spent : img.Spent seqs) :
    (img.without seqs).On encoding ring
      (applyAll d (seqs.map fun seq => .remove (.wal seq))) := by
  have removed : ∀ p : Path, (applyAll d (seqs.map fun seq => .remove (.wal seq)))[p]? =
      if p ∈ seqs.map Path.wal then none else d[p]? := by
    intro p
    rw [← getElem?_removeAll, List.map_map]
    rfl
  have other : ∀ p : Path, (∀ seq, p ≠ .wal seq) →
      (applyAll d (seqs.map fun seq => .remove (.wal seq)))[p]? = d[p]? :=
    fun p notWal => getElem?_removeWals d fun seq _ => notWal seq
  have gone : ∀ seq, Path.wal seq ∈ seqs.map Path.wal ↔ seq ∈ seqs := by simp
  refine on.withFiles (CurrentIs_congr on.current (other _ (by simp)) (other _ (by simp)))
    (fun _ => other _ (by simp)) (fun _ => other _ (by simp)) ?_ ?_ ?_
  · intro k created
    have created : Created ((img.without seqs).tail ++ (img.without seqs).pending) k := created
    rw [tail_without spent, pending_without spent] at created
    exact .inl created
  · intro seq
    rw [ExtTreeMap.mem_iff_isSome_getElem?, removed]
    simp only [gone]
    by_cases here : seq ∈ seqs
    · simp only [here, if_true, Option.isSome_none, Bool.false_eq_true, false_iff, not_exists, not_and]
      intro file member isSeq
      have kept := (mem_filter.mp member).2
      rw [isSeq] at kept
      simp [here] at kept
    · simp only [here, if_false]
      rw [← ExtTreeMap.mem_iff_isSome_getElem?, on.listed seq]
      constructor
      · rintro ⟨file, member, isSeq⟩
        exact ⟨file, mem_filter.mpr ⟨member, by simpa [isSeq] using here⟩, isSeq⟩
      · rintro ⟨file, member, isSeq⟩
        exact ⟨file, (mem_filter.mp member).1, isSeq⟩
  · intro file member
    obtain ⟨inside, kept⟩ := mem_filter.mp member
    obtain ⟨f, found, reads⟩ := on.logs file inside
    refine ⟨f, ?_, reads⟩
    rw [removed, if_neg (by simpa using kept), found]

variable (encoding ring) in
/-- The directory holds the image, in some set of log files. -/
def Kept (img : Image) (d : DataDir) : Prop :=
  ∃ files, On encoding ring { img with files } d ∧ Sound encoding { img with files } ∧
    Image.tail { img with files } = img.tail ∧ Image.pending { img with files } = img.pending

theorem On.kept (on : img.On encoding ring d) (sound : img.Sound encoding) : img.Kept encoding ring d :=
  ⟨img.files, on, sound, rfl, rfl⟩

theorem On.absent (on : img.On encoding ring d) (above : ∀ file ∈ img.files, file.seq < seq) :
    Path.wal seq ∉ d := by
  rw [on.listed seq]
  rintro ⟨file, member, rfl⟩
  exact Nat.lt_irrefl _ (above file member)

theorem create_take (seq : Nat) (baseLsn : Lsn) (count : Nat) (d : DataDir) :
    applyAll d ((WalWriter.create seq baseLsn).1.take count) = d ∨
      (∀ p : Path, p ≠ .wal seq →
        (applyAll d ((WalWriter.create seq baseLsn).1.take count))[p]? = d[p]?) ∧
      ∃ f, (applyAll d ((WalWriter.create seq baseLsn).1.take count))[Path.wal seq]? = some f ∧
        f.content <+: byteChunks (walHeader baseLsn) := by
  have elsewhere : ∀ p : Path, p ≠ .wal seq →
      (applyAll d ((WalWriter.create seq baseLsn).1.take count))[p]? = d[p]? := by
    intro p differ
    refine applyAll_untouched (fun e member => ?_) d
    have member := List.mem_of_mem_take member
    simp only [WalWriter.create, List.mem_cons, List.not_mem_nil, or_false] at member
    obtain rfl | rfl | rfl := member <;> exact differ
  match count with
  | 0 => exact .inl rfl
  | 1 => exact .inr ⟨elsewhere, .empty, by simp [WalWriter.create], List.nil_prefix⟩
  | 2 =>
    exact .inr ⟨elsewhere, ⟨[], byteChunks (walHeader baseLsn)⟩, by simp [WalWriter.create, File.empty],
      by simp [File.content]⟩
  | count + 3 =>
    exact .inr ⟨elsewhere, ⟨byteChunks (walHeader baseLsn), []⟩, by simp [WalWriter.create, File.empty],
      by simp [File.content]⟩

theorem createWal_spec (on : img.On encoding ring d) (sound : img.Sound encoding)
    (above : ∀ file ∈ img.files, file.seq < seq) (nothing : img.pending = []) (baseLsn : Lsn) :
    (createWal seq baseLsn).Spec d (img.Kept encoding ring) fun w d' =>
      w = ⟨seq, false, walFileHeaderSize⟩ ∧ (img.addFile seq).On encoding ring d' ∧
      d'[Path.wal seq]? = some ⟨byteChunks (walHeader baseLsn), []⟩ ∧
      ∀ p : Path, p ≠ .wal seq → d'[p]? = d[p]? := by
  have absent := on.absent above
  have added : ∀ count, applyAll d ((WalWriter.create seq baseLsn).1.take count) = d ∨
      (img.addFile seq).On encoding ring
        (applyAll d ((WalWriter.create seq baseLsn).1.take count)) := by
    intro count
    obtain unchanged | ⟨same, f, found, isPrefix⟩ := create_take seq baseLsn count d
    · exact .inl unchanged
    · exact .inr (on.addFile same (LoggedFile.on_created found isPrefix) absent)
  refine Prog.spec_read_bind (by rw [if_neg absent]) ?_
  refine Prog.spec_performAll_bind (fun count => ?_) ?_
  · change img.Kept encoding ring (applyAll d ((WalWriter.create seq baseLsn).1.take count))
    obtain unchanged | new := added count
    · rw [unchanged]
      exact on.kept sound
    · exact ⟨_, new, sound.addFile above nothing, tail_addFile img seq, pending_addFile img seq⟩
  · have final : (applyAll d (WalWriter.create seq baseLsn).1)[Path.wal seq]? =
        some ⟨byteChunks (walHeader baseLsn), []⟩ := by
      simp [WalWriter.create, File.empty]
    have whole := added 3
    have same := create_take seq baseLsn 3 d
    have all : (WalWriter.create seq baseLsn).1.take 3 = (WalWriter.create seq baseLsn).1 := rfl
    rw [all] at whole same
    have changed : applyAll d (WalWriter.create seq baseLsn).1 ≠ d := by
      intro unchanged
      rw [unchanged, ExtTreeMap.getElem?_eq_none absent] at final
      contradiction
    have new := whole.resolve_left changed
    refine Prog.spec_pure ?_ ⟨rfl, new, final, (same.resolve_left changed).1⟩
    exact ⟨_, new, sound.addFile above nothing, tail_addFile img seq, pending_addFile img seq⟩

end Image

end Quiver.Core
