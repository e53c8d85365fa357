import Quiver.Core.Recovery

/-!
Appending to the log and syncing it. The writer stops at the first record that is too large or fails
to be written; what is on the disk in between reads as the records before, and some of the new ones.
-/

namespace Quiver.Core

open FileSystem FramedLog
open List (append_assoc append_nil length_append map_append mem_append mem_singleton pairwise_append)

variable {encoding : Encoding}

namespace WalWriter

variable (encoding) in
/-- The appends that write these records, the first at `offset`. -/
def frames (seq : Nat) : Nat → List WalEntry → List (Effect Path Chunk)
  | _, [] => []
  | offset, entry :: rest =>
    .append (.wal seq) (byteChunks (walFrame encoding true offset entry)) ::
      frames seq (offset + (walFrame encoding true offset entry).length) rest

variable (encoding) in
def past (w : WalWriter) (entries : List WalEntry) : WalWriter where
  seq := w.seq
  unsynced := w.unsynced || !entries.isEmpty
  writeOffset := w.writeOffset + ((walFraming encoding true).layout w.writeOffset entries).length

theorem past_nil (w : WalWriter) : w.past encoding [] = w := by
  simp [past, Framing.layout]

theorem past_cons (w : WalWriter) (entry : WalEntry) (rest : List WalEntry) :
    w.past encoding (entry :: rest) = WalWriter.past encoding
      ⟨w.seq, true, w.writeOffset + (walFrame encoding true w.writeOffset entry).length⟩ rest := by
  simp [past, Framing.layout, walFraming, Nat.add_assoc]

variable (encoding) in
/-- What appending `entries` leads to: `done` are laid out, and the rest was not reached. -/
inductive Appended (w : WalWriter) (fails : Nat → Option Nat) (write : Nat) (entries : List WalEntry)
    (out : WalOutcome) : Prop where
  | all (effects : out.effects = frames encoding w.seq w.writeOffset entries)
    (writer : out.writer = w.past encoding entries) (result : out.result = .ok ())
    (fit : (walFraming encoding true).AllFit w.writeOffset entries)
  | tooLarge (done : List WalEntry) (bad : WalEntry) (rest : List WalEntry) (message : String)
    (split : entries = done ++ bad :: rest)
    (effects : out.effects = frames encoding w.seq w.writeOffset done)
    (writer : out.writer = w.past encoding done) (result : out.result = .error (.tooLarge message))
    (fit : (walFraming encoding true).AllFit w.writeOffset done)
    (overCap : ¬ FitsCap encoding true (w.past encoding done).writeOffset bad)
  | failed (done : List WalEntry) (cut : WalEntry) (rest : List WalEntry) (kept : Nat)
    (split : entries = done ++ cut :: rest)
    (effects : out.effects = frames encoding w.seq w.writeOffset done ++ [.append (.wal w.seq)
      (byteChunks ((walFrame encoding true (w.past encoding done).writeOffset cut).take kept))])
    (writer : out.writer = w.past encoding done) (result : out.result = .error .io)
    (fit : (walFraming encoding true).AllFit w.writeOffset (done ++ [cut]))
    (fails : fails (write + done.length) = some kept)

variable (encoding) in
theorem append_spec (w : WalWriter) (entry : WalEntry) (fails : Option Nat) :
    FitsCap encoding true w.writeOffset entry ∧ fails = none ∧
        w.append encoding entry fails =
          ⟨frames encoding w.seq w.writeOffset [entry], w.past encoding [entry], .ok ()⟩ ∨
      (¬ FitsCap encoding true w.writeOffset entry ∧
        ∃ message, w.append encoding entry fails = ⟨[], w, .error (.tooLarge message)⟩) ∨
      FitsCap encoding true w.writeOffset entry ∧ ∃ kept, fails = some kept ∧
        w.append encoding entry fails = ⟨[.append (.wal w.seq)
          (byteChunks ((walFrame encoding true w.writeOffset entry).take kept))], w, .error .io⟩ := by
  simp only [append]
  split
  case isTrue huge =>
    refine .inr (.inl ⟨fun fits => ?_, _, rfl⟩)
    have cap : maxRecordBytes < 2 ^ 32 := by decide
    exact absurd (Nat.lt_of_le_of_lt fits cap) (Nat.not_lt.mpr huge)
  case isFalse =>
    split
    case isTrue large => exact .inr (.inl ⟨Nat.not_le.mpr large, _, rfl⟩)
    case isFalse small =>
      have fits : FitsCap encoding true w.writeOffset entry := Nat.not_lt.mp small
      cases fails with
      | none => exact .inl ⟨fits, rfl, by simp [frames, past, Framing.layout, walFraming]⟩
      | some kept => exact .inr (.inr ⟨fits, kept, rfl, rfl⟩)

variable (encoding) in
theorem appendAll_spec (w : WalWriter) (fails : Nat → Option Nat) (write : Nat) (entries : List WalEntry) :
    Appended encoding w fails write entries (w.appendAll encoding fails write entries) := by
  induction entries generalizing w write with
  | nil => exact .all rfl (past_nil w).symm rfl trivial
  | cons entry rest ih =>
    simp only [appendAll, andThen]
    obtain ⟨fits, succeeds, wrote⟩ | ⟨overCap, message, refused⟩ | ⟨fits, kept, fail, cut⟩ :=
      append_spec encoding w entry (fails write)
    · rw [wrote, past_cons, past_nil]
      generalize next : (⟨w.seq, true, w.writeOffset + _⟩ : WalWriter) = w'
      have rest' := ih w' (write + 1)
      subst next
      cases rest' with
      | all effects writer result fit =>
        refine .all ?_ ?_ result ⟨fits, fit⟩
        · rw [effects]; rfl
        · rw [writer, past_cons]
      | tooLarge done bad rest message split effects writer result fit overCap =>
        refine .tooLarge (entry :: done) bad rest message (by rw [split]; rfl) ?_ ?_ result ⟨fits, fit⟩ ?_
        · rw [effects]; rfl
        · rw [writer, past_cons]
        · rw [past_cons]; exact overCap
      | failed done cut rest kept split effects writer result fit fail =>
        refine .failed (entry :: done) cut rest kept (by rw [split]; rfl) ?_ ?_ result ⟨fits, fit⟩ ?_
        · rw [effects, past_cons]; rfl
        · rw [writer, past_cons]
        · rw [List.length_cons, Nat.add_comm done.length, ← Nat.add_assoc]; exact fail
    · rw [refused]
      refine .tooLarge [] entry rest message rfl rfl (past_nil w).symm rfl trivial ?_
      rwa [past_nil]
    · rw [cut]
      refine .failed [] entry rest kept rfl ?_ (past_nil w).symm rfl ⟨fits, trivial⟩ fail
      rw [past_nil]; rfl

variable (encoding) in
/-- What committing `entries` leads to. -/
inductive Committed (w : WalWriter) (io : WalIo) (entries : List WalEntry) (out : WalOutcome) : Prop where
  | synced
    (effects : out.effects = frames encoding w.seq w.writeOffset entries ++ [.sync (.wal w.seq)])
    (writer : out.writer = { w.past encoding entries with unsynced := false })
    (result : out.result = .ok ()) (fit : (walFraming encoding true).AllFit w.writeOffset entries)
  | unsynced (effects : out.effects = frames encoding w.seq w.writeOffset entries)
    (writer : out.writer = w.past encoding entries) (result : out.result = .error .io)
    (fit : (walFraming encoding true).AllFit w.writeOffset entries) (fails : io.syncFails = true)
  | tooLarge (done : List WalEntry) (bad : WalEntry) (rest : List WalEntry) (message : String)
    (split : entries = done ++ bad :: rest)
    (effects : out.effects = frames encoding w.seq w.writeOffset done)
    (writer : out.writer = w.past encoding done) (result : out.result = .error (.tooLarge message))
    (fit : (walFraming encoding true).AllFit w.writeOffset done)
    (overCap : ¬ FitsCap encoding true (w.past encoding done).writeOffset bad)
  | failed (done : List WalEntry) (cut : WalEntry) (rest : List WalEntry) (kept : Nat)
    (split : entries = done ++ cut :: rest)
    (effects : out.effects = frames encoding w.seq w.writeOffset done ++ [.append (.wal w.seq)
      (byteChunks ((walFrame encoding true (w.past encoding done).writeOffset cut).take kept))])
    (writer : out.writer = w.past encoding done) (result : out.result = .error .io)
    (fit : (walFraming encoding true).AllFit w.writeOffset (done ++ [cut]))
    (fails : io.writeFails done.length = some kept)

variable (encoding) in
theorem commit_spec (w : WalWriter) (io : WalIo) {entries : List WalEntry} (some : entries ≠ []) :
    Committed encoding w io entries (w.commit encoding entries io) := by
  have flagged : (w.past encoding entries).unsynced = true := by
    cases entries with
    | nil => contradiction
    | cons entry rest => simp [past]
  simp only [commit, andThen]
  cases appendAll_spec encoding w io.writeFails 0 entries with
  | all effects writer result fit =>
    simp only [result, writer, effects, sync, flagged, if_true]
    split
    case isTrue fails => exact .unsynced (append_nil _) rfl rfl fit fails
    case isFalse => exact .synced rfl rfl rfl fit
  | tooLarge done bad rest message split effects writer result fit overCap =>
    simp only [result]
    exact .tooLarge done bad rest message split effects writer rfl fit overCap
  | failed done cut rest kept split effects writer result fit fails =>
    simp only [result]
    exact .failed done cut rest kept split effects writer rfl fit (by simpa using fails)

theorem frames_touch {seq offset : Nat} {entries : List WalEntry} {e : Effect Path Chunk} {p : Path}
    (member : e ∈ frames encoding seq offset entries) (touches : e.Touches p) : p = .wal seq := by
  induction entries generalizing offset with
  | nil => simp [frames] at member
  | cons entry entries ih =>
    obtain rfl | later := List.mem_cons.mp member
    · exact touches
    · exact ih later

theorem commit_touches {w : WalWriter} {io : WalIo} {entries : List WalEntry} {e : Effect Path Chunk}
    {p : Path} (some : entries ≠ []) (member : e ∈ (w.commit encoding entries io).effects)
    (touches : e.Touches p) : p = .wal w.seq := by
  cases commit_spec encoding w io some with
  | synced effects | failed _ _ _ _ _ effects =>
    rw [effects] at member
    obtain frame | last := mem_append.mp member
    · exact frames_touch frame touches
    · rw [mem_singleton.mp last] at touches
      exact touches
  | unsynced effects | tooLarge _ _ _ _ _ effects =>
    rw [effects] at member
    exact frames_touch member touches

end WalWriter

theorem applyAll_frames {d : DataDir} {f : File Chunk} {seq : Nat} (entries : List WalEntry) (offset : Nat)
    (found : d[Path.wal seq]? = some f) :
    (applyAll d (WalWriter.frames encoding seq offset entries))[Path.wal seq]? =
        some { f with pending := f.pending ++ byteChunks ((walFraming encoding true).layout offset entries) } ∧
      ∀ p : Path, p ≠ .wal seq →
        (applyAll d (WalWriter.frames encoding seq offset entries))[p]? = d[p]? := by
  induction entries generalizing d f offset with
  | nil => exact ⟨by simpa [WalWriter.frames, Framing.layout, byteChunks] using found, fun _ _ => rfl⟩
  | cons entry entries ih =>
    have wrote := append_self d (.wal seq) (byteChunks (walFrame encoding true offset entry))
    rw [found, Option.map_some] at wrote
    obtain ⟨rest, others⟩ := ih (offset + (walFrame encoding true offset entry).length) wrote
    refine ⟨?_, fun p differ => ?_⟩
    · refine rest.trans ?_
      simp only [Framing.layout, walFraming, byteChunks_append, append_assoc]
    · exact (others p differ).trans (apply_untouched differ)

theorem frames_take (seq : Nat) (entries : List WalEntry) (offset count : Nat) :
    (WalWriter.frames encoding seq offset entries).take count =
      WalWriter.frames encoding seq offset (entries.take count) := by
  induction entries generalizing offset count with
  | nil => simp [WalWriter.frames]
  | cons entry entries ih =>
    cases count with
    | zero => rfl
    | succ count => simp only [WalWriter.frames, List.take_succ_cons, ih]

/-- Records appended to a log file, and not synced. -/
def LoggedFile.append (file : LoggedFile) (entries : List WalEntry) : LoggedFile :=
  { file with unsynced := file.unsynced ++ entries }

def LoggedFile.sync (file : LoggedFile) : LoggedFile := ⟨file.seq, file.synced ++ file.unsynced, []⟩

variable {ring : KeyRing} {img : Image} {d d' : DataDir} {w : WalWriter} {older : List LoggedFile}
  {file file' : LoggedFile} {baseLsn : Lsn} {entries : List WalEntry}

def Image.withLast (img : Image) (older : List LoggedFile) (file : LoggedFile) : Image :=
  { img with files := older ++ [file] }

namespace Writer

section

variable (writer : Writer encoding img d w older file baseLsn)
include writer

theorem on : file.On encoding d := by
  refine ⟨_, writer.seq ▸ writer.stored, fun kept isKept => ?_⟩
  obtain ⟨part, isPart, rfl⟩ : ∃ part, part <+: (walFraming encoding true).layout
      (walLayout encoding baseLsn file.synced).length file.unsynced ∧ byteChunks part = kept := by
    refine ⟨_, List.take_prefix kept.length _, ?_⟩
    rw [byteChunks, List.map_take]
    exact (List.prefix_iff_eq_take.mp isKept).symm
  have fit := ((allFit_append _ _ _).mp writer.fit).2
  rw [← length_walLayout encoding baseLsn] at fit
  obtain ⟨whole, rest, torn, split, rfl, isTorn⟩ := prefix_layout fit isPart
  have fits : (walFraming encoding true).AllFit walFileHeaderSize (file.synced ++ whole) := by
    have all := writer.fit
    rw [split, ← append_assoc, allFit_append] at all
    exact all.1
  refine ⟨whole, ⟨rest, split.symm⟩, ?_⟩
  rw [ReadsAs, ← byteChunks_append, walBytes_byteChunks, ← append_assoc, ← walLayout_append]
  obtain ⟨replay, read, entries, _⟩ := readAll_walLayout encoding fits (by rwa [walLayout_append, length_append])
  exact ⟨replay, read, entries⟩

theorem append
    (fit : (walFraming encoding true).AllFit w.writeOffset entries) :
    Writer encoding (img.withLast older (file.append entries))
      (applyAll d (WalWriter.frames encoding w.seq w.writeOffset entries)) (w.past encoding entries) older
      (file.append entries) baseLsn where
  files := rfl
  settled := writer.settled
  seq := writer.seq
  stored := by
    refine (applyAll_frames entries _ writer.stored).1.trans ?_
    simp only [LoggedFile.append]
    rw [← byteChunks_append, layout_append, writer.offset, walLayout_append, length_append]
  fit := by
    simp only [LoggedFile.append]
    rw [← append_assoc, allFit_append, ← length_walLayout, ← writer.offset]
    exact ⟨writer.fit, fit⟩
  offset := by
    simp only [LoggedFile.append, WalWriter.past]
    rw [← append_assoc, walLayout_append, length_append, ← writer.offset]
  flag unflagged := by
    simp only [WalWriter.past, Bool.or_eq_false_iff, Bool.not_eq_false'] at unflagged
    simp [LoggedFile.append, writer.flag unflagged.1, List.isEmpty_iff.mp unflagged.2]

theorem sync :
    Writer encoding (img.withLast older file.sync) (apply d (.sync (.wal w.seq)))
      { w with unsynced := false } older file.sync baseLsn where
  files := rfl
  settled := writer.settled
  seq := writer.seq
  stored := by
    refine (sync_self d (.wal w.seq)).trans ?_
    rw [writer.stored, Option.map_some]
    simp [LoggedFile.sync, walLayout_append, Framing.layout, byteChunks]
  fit := by
    simpa [LoggedFile.sync] using writer.fit
  offset := by
    simpa [LoggedFile.sync] using writer.offset
  flag _ := rfl

end

end Writer

namespace Image

theorem On.withLast (on : img.On encoding ring d) (files : img.files = older ++ [file])
    (writer : Writer encoding (img.withLast older file') d' w older file' baseLsn)
    (ordered : img.files.Pairwise fun a b => a.seq < b.seq) (sameSeq : file'.seq = file.seq)
    (same : ∀ p : Path, p ≠ .wal w.seq → d'[p]? = d[p]?)
    (keys : ∀ k, Created ((img.withLast older file').tail ++ (img.withLast older file').pending) k →
      Created (img.tail ++ img.pending) k ∨ HasKey ring d k) :
    (img.withLast older file').On encoding ring d' := by
  refine on.withFiles (CurrentIs_congr on.current (same _ (by simp)) (same _ (by simp)))
    (fun _ => same _ (by simp)) (fun _ => same _ (by simp)) ?_ ?_ ?_
  · intro k created
    refine (keys k created).imp_right fun ⟨⟨key, found⟩, settled⟩ => ⟨⟨key, ?_⟩, ?_⟩
    · rw [collectionCodec_congr (same (.dek k) (by simp)), found]
    · intro f stored
      exact settled f ((same (.dek k) (by simp)).symm.trans stored)
  · intro seq
    by_cases here : seq = w.seq
    · refine ⟨fun _ => ⟨file', by simp, ?_⟩, fun _ => ?_⟩
      · rw [here, writer.seq]
      · rw [here]
        exact Maps.mem_of_get writer.stored
    · rw [mem_congr (same (.wal seq) (by simpa using here)), on.listed seq, files]
      simp only [mem_append, mem_singleton, or_and_right, exists_or, exists_eq_left, sameSeq]
  · intro other member
    obtain old | last := mem_append.mp member
    · have before : other ∈ img.files := by rw [files]; exact List.mem_append_left _ old
      obtain ⟨f, found, reads⟩ := on.logs other before
      refine ⟨f, ?_, reads⟩
      rw [same, found]
      simp only [ne_eq, Path.wal.injEq, writer.seq, sameSeq]
      have order := ordered
      rw [files] at order
      exact Nat.ne_of_lt ((pairwise_append.mp order).2.2 other old file (List.mem_singleton_self _))
    · rw [mem_singleton.mp last]
      exact writer.on

theorem live_fresh (fresh : ∀ e ∈ entries, img.mfst.lastCheckpointedLsn < e.lsn) :
    img.live entries = entries.map (·.op) := by
  have all : entries.filter (img.mfst.lastCheckpointedLsn < ·.lsn) = entries :=
    List.filter_eq_self.mpr fun e member => by simpa using fresh e member
  rw [live, all]

theorem pending_sync (img : Image) (file : LoggedFile) (settled : ∀ other ∈ older, other.unsynced = []) :
    (img.withLast older file.sync).pending = [] := by
  have nothing : older.flatMap (·.unsynced) = [] := List.flatMap_eq_nil_iff.mpr settled
  simp [pending, withLast, live, LoggedFile.sync, nothing]

theorem lastOnly_withLast (settled : ∀ other ∈ older, other.unsynced = []) :
    (older ++ [file']).Pairwise fun a _ => img.live a.unsynced = [] := by
  have each : ∀ a ∈ older, img.live a.unsynced = [] := fun a member => by rw [settled a member]; rfl
  refine pairwise_append.mpr ⟨?_, List.pairwise_singleton .., fun a member _ _ => each a member⟩
  exact List.pairwise_of_forall_mem_list fun a member _ _ => each a member

section

variable (files : img.files = older ++ [file])
include files

theorem tail_append (entries : List WalEntry) : (img.withLast older (file.append entries)).tail = img.tail := by
  change img.live ((older ++ [file.append entries]).flatMap (·.synced)) = img.live (img.files.flatMap _)
  rw [files, List.flatMap_append, List.flatMap_append]
  rfl

theorem pending_append (entries : List WalEntry) :
    (img.withLast older (file.append entries)).pending = img.pending ++ img.live entries := by
  change img.live ((older ++ [file.append entries]).flatMap (·.unsynced)) = img.live (img.files.flatMap _) ++ _
  rw [files, ← live_append]
  simp [LoggedFile.append]

theorem ordered_withLast (sound : img.Sound encoding) (sameSeq : file'.seq = file.seq) :
    (older ++ [file']).Pairwise fun a b => a.seq < b.seq := by
  have ordered := sound.ordered
  rw [files, pairwise_append] at ordered
  refine pairwise_append.mpr ⟨ordered.1, List.pairwise_singleton .., fun a member b last => ?_⟩
  rw [mem_singleton.mp last, sameSeq]
  exact ordered.2.2 a member file (List.mem_singleton_self _)

variable (settled : ∀ other ∈ older, other.unsynced = [])
include settled

theorem tail_sync : (img.withLast older file.sync).tail = img.tail ++ img.pending := by
  have nothing : older.flatMap (·.unsynced) = [] := List.flatMap_eq_nil_iff.mpr settled
  change img.live ((older ++ [file.sync]).flatMap (·.synced)) =
    img.live (img.files.flatMap _) ++ img.live (img.files.flatMap _)
  rw [files, ← live_append]
  simp [LoggedFile.sync, nothing]

theorem Sound.append (sound : img.Sound encoding)
    (valid : (img.start.applyAll encoding (img.tail ++ img.pending)).Valid encoding
      ((img.tail ++ img.pending).foldl WalOp.nextId img.next) (img.live entries)) :
    (img.withLast older (file.append entries)).Sound encoding := by
  have tail := tail_append files entries
  have pending := pending_append files entries
  refine { sound with
    ordered := ordered_withLast files sound rfl
    lastOnly := lastOnly_withLast settled
    valid := ?_
    absorbs := ?_
    bare := ?_ }
  · rw [tail, pending, ← append_assoc]
    exact Logical.Valid.append_iff.mpr ⟨sound.valid, valid⟩
  · rw [tail]
    exact sound.absorbs
  · rw [tail]
    exact sound.bare

theorem Sound.sync (sound : img.Sound encoding) : (img.withLast older file.sync).Sound encoding := by
  refine sound.withFiles img.pending (ordered_withLast files sound rfl) (lastOnly_withLast settled)
    (tail_sync files settled) ?_
  have pending := pending_sync img file settled
  exact pending ▸ (append_nil img.pending).symm ▸ List.prefix_refl _

end

end Image

variable (encoding ring) in
/-- A directory that holds an image, with a writer that continues its last log file. -/
structure Tracked (img : Image) (d : DataDir) (w : WalWriter) (older : List LoggedFile) (file : LoggedFile)
    (baseLsn : Lsn) : Prop where
  on : img.On encoding ring d
  sound : img.Sound encoding
  writer : Writer encoding img d w older file baseLsn

variable (encoding ring) in
/-- These records can be logged: they are numbered above the checkpoint, legal where the log
stands, and the collections they create have keys. -/
structure Loggable (img : Image) (d : DataDir) (entries : List WalEntry) : Prop where
  fresh : ∀ e ∈ entries, img.mfst.lastCheckpointedLsn < e.lsn
  valid : (img.start.applyAll encoding (img.tail ++ img.pending)).Valid encoding
    ((img.tail ++ img.pending).foldl WalOp.nextId img.next) (entries.map (·.op))
  keys : ∀ k, Created (entries.map (·.op)) k → Image.HasKey ring d k

theorem Loggable.before {done rest : List WalEntry} (loggable : Loggable encoding ring img d (done ++ rest)) :
    Loggable encoding ring img d done where
  fresh e member := loggable.fresh e (List.mem_append_left _ member)
  valid := by
    have valid := loggable.valid
    rw [map_append, Logical.Valid.append_iff] at valid
    exact valid.1
  keys k created := loggable.keys k (by rw [map_append, created_append]; exact .inl created)

variable (encoding ring) in
/-- The directory holds the image with some of these operations logged: appended behind the
pending ones, or synced together with them. -/
def Image.Logged (img : Image) (ops : List WalOp) (d : DataDir) : Prop :=
  ∃ files part, part <+: ops ∧ On encoding ring { img with files } d ∧ Sound encoding { img with files } ∧
    (Image.tail { img with files } = img.tail ∧ Image.pending { img with files } = img.pending ++ part ∨
      Image.tail { img with files } = img.tail ++ img.pending ++ part ∧ Image.pending { img with files } = [])

namespace Tracked

variable (tracked : Tracked encoding ring img d w older file baseLsn)
include tracked

theorem sync : Tracked encoding ring (img.withLast older file.sync) (apply d (.sync (.wal w.seq)))
      { w with unsynced := false } older file.sync baseLsn := by
  obtain ⟨on, sound, writer⟩ := tracked
  refine ⟨?_, sound.sync writer.files writer.settled, writer.sync⟩
  refine on.withLast writer.files writer.sync sound.ordered rfl (fun p differ => apply_untouched differ) ?_
  intro k created
  rw [Image.tail_sync writer.files writer.settled, Image.pending_sync _ _ writer.settled,
    append_nil] at created
  exact .inl created

variable (loggable : Loggable encoding ring img d entries)
include loggable

theorem append (fit : (walFraming encoding true).AllFit w.writeOffset entries) :
    Tracked encoding ring (img.withLast older (file.append entries))
      (applyAll d (WalWriter.frames encoding w.seq w.writeOffset entries)) (w.past encoding entries) older
      (file.append entries) baseLsn := by
  obtain ⟨on, sound, writer⟩ := tracked
  have writer' := writer.append fit
  have live := Image.live_fresh loggable.fresh
  refine ⟨?_, ?_, writer'⟩
  · refine on.withLast writer.files writer' sound.ordered rfl (applyAll_frames entries _ writer.stored).2 ?_
    intro k created
    rw [Image.tail_append writer.files, Image.pending_append writer.files, live, ← append_assoc,
      created_append] at created
    exact created.imp_right (loggable.keys k)
  · refine sound.append writer.files writer.settled ?_
    rw [live]
    exact loggable.valid

theorem logged_append (fit : (walFraming encoding true).AllFit w.writeOffset entries) (count : Nat) :
    img.Logged encoding ring (entries.map (·.op))
      (applyAll d ((WalWriter.frames encoding w.seq w.writeOffset entries).take count)) := by
  have split := (List.take_append_drop count entries).symm
  have before : Loggable encoding ring img d (entries.take count) := (split ▸ loggable).before
  have fits : (walFraming encoding true).AllFit w.writeOffset (entries.take count) := by
    rw [split, allFit_append] at fit
    exact fit.1
  have part := tracked.append before fits
  rw [frames_take]
  refine ⟨_, (entries.take count).map (·.op), (List.take_prefix ..).map _, part.on, part.sound, .inl ⟨?_, ?_⟩⟩
  · exact Image.tail_append tracked.writer.files _
  · rw [← Image.live_fresh before.fresh]
    exact Image.pending_append tracked.writer.files _

theorem logged_commit (some : entries ≠ []) (count : Nat) : img.Logged encoding ring (entries.map (·.op))
    (applyAll d ((w.commit encoding entries .ok).effects.take count)) := by
  cases WalWriter.commit_spec encoding w .ok some with
  | synced effects writer result fit =>
    have appended := tracked.append loggable fit
    have synced := appended.sync
    rw [effects, List.take_append, applyAll_append]
    cases more : count - (WalWriter.frames encoding w.seq w.writeOffset entries).length with
    | zero =>
      exact tracked.logged_append loggable fit count
    | succ more =>
      rw [List.take_of_length_le (by omega), List.take_succ_cons, List.take_nil]
      refine ⟨_, entries.map (·.op), List.prefix_refl _, synced.on, synced.sound, .inr ⟨?_, ?_⟩⟩
      · refine (Image.tail_sync appended.writer.files appended.writer.settled).trans ?_
        rw [Image.tail_append tracked.writer.files, Image.pending_append tracked.writer.files,
          Image.live_fresh loggable.fresh, append_assoc]
      · exact Image.pending_sync _ _ appended.writer.settled
  | unsynced effects writer result fit fails => contradiction
  | tooLarge done bad rest message split effects writer result fit overCap =>
    rw [effects]
    obtain ⟨files, part, isPrefix, rest⟩ := tracked.logged_append (split ▸ loggable).before fit count
    refine ⟨files, part, isPrefix.trans ?_, rest⟩
    rw [split, map_append]
    exact List.prefix_append ..
  | failed done cut rest kept split effects writer result fit fails => contradiction

end Tracked

end Quiver.Core
