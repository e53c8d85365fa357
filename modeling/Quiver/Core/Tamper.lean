import Quiver.Core.Faults

/-!
Log files that someone else has put together from the frames of a store. A record opens only at the
offset it was sealed for, so that records stay in their places; but nothing ties a file, or its
first record, to what was logged before it.
-/

namespace Quiver.Core

open FileSystem FramedLog Results Prog
open Std (ExtTreeMap)

/-- A record opens only at the offset it was sealed for. -/
def PageCodec.Bound (codec : PageCodec) : Prop :=
  ∀ position offset plain plain', codec.openRecord position (codec.sealRecord (some offset) plain) = .ok plain' →
    position = some offset

section Files

variable (encoding : Encoding) (written : Nat → WalEntry → Prop)

/-- The bytes of a file with these frames, each as it was sealed for its own offset. -/
def pieces (frames : List (Nat × WalEntry)) : Bytes := frames.flatMap fun p => walFrame encoding true p.1 p.2

/-- A log file of frames that were written, in any order, behind a header. -/
def Pieced (content : Bytes) : Prop :=
  ∃ header frames, header.length = walFileHeaderSize ∧ content = header ++ pieces encoding frames ∧
    ∀ p ∈ frames, written p.1 p.2 ∧ FitsCap encoding true p.1 p.2

/-- A directory whose log files were replaced. -/
structure Tampered (d d' : DataDir) : Prop where
  elsewhere : ∀ p, (∀ seq, p ≠ Path.wal seq) → d'[p]? = d[p]?
  pieced : ∀ seq file, d'[Path.wal seq]? = some file → Pieced encoding written (walBytes file.content)

/-- The records above `floor` in the log files of a directory, in the order of the files. -/
def Reads (d : DataDir) (floor : Lsn) (records : List WalEntry) : Prop :=
  ∃ replays, List.Forall₂ (fun seq replay => readWal encoding d seq = .ok replay) (walFiles d) replays ∧
    records = (replays.flatMap WalReplay.entries).filter (floor < ·.lsn)

end Files

def Image.records (img : Image) : List WalEntry :=
  (img.files.flatMap (·.synced)).filter (img.mfst.lastCheckpointedLsn < ·.lsn)

/-- What was written above the checkpoint is the log, and the log has every number once. -/
structure Image.Numbered (img : Image) (written : Nat → WalEntry → Prop) : Prop where
  logged : ∀ offset entry, written offset entry → img.mfst.lastCheckpointedLsn < entry.lsn → entry ∈ img.records
  numbers : img.records.map (·.lsn) = List.range' (img.mfst.lastCheckpointedLsn + 1) img.records.length

variable {encoding : Encoding} {written : Nat → WalEntry → Prop} {ring : KeyRing} {img : Image} {d d' d'' : DataDir}

/-! ## Reading the files -/

section

variable (bound : encoding.catalogCodec.Bound)
include bound

theorem next_moved {offset : Nat} {entry : WalEntry}
    (fits : FitsCap encoding true offset entry) (readBound : Bool) (place : Nat) (rest : Bytes) :
    (∃ error, (walFraming encoding readBound).next place (walFrame encoding true offset entry ++ rest) = .refused error) ∨
      (walFraming encoding readBound).next place (walFrame encoding true offset entry ++ rest) = .record entry rest := by
  obtain ⟨refused, read⟩ := readFrame_sealed encoding fits readBound place rest
  have isNext : (walFraming encoding readBound).next = readFrame encoding readBound := rfl
  rw [isNext]
  cases opened : encoding.catalogCodec.openRecord (boundPosition readBound place) (sealedRecord encoding true offset entry) with
  | error error => exact .inl ⟨error, refused error opened⟩
  | ok plain =>
    have isPlace : boundPosition readBound place = some offset := bound _ _ _ _ opened
    have isEntry : plain = encoding.walEntry.encode entry := by
      rw [isPlace] at opened
      exact Except.ok.inj (opened.symm.trans (encoding.catalogCodec.open_seal (some offset) _))
    exact .inr (read entry (isEntry ▸ opened))

theorem scan_pieces {readBound : Bool} {frames : List (Nat × WalEntry)}
    (fit : ∀ p ∈ frames, FitsCap encoding true p.1 p.2) {fuel place : Nat} (enough : (pieces encoding frames).length ≤ fuel)
    {records : List WalEntry} {unread : Bytes}
    (scanned : (walFraming encoding readBound).scan fuel place (pieces encoding frames) = .ok (records, unread)) :
    records = frames.map Prod.snd := by
  induction frames generalizing fuel place records unread with
  | nil =>
    cases fuel with
    | zero => cases scanned; rfl
    | succ fuel =>
      simp only [Framing.scan, pieces, List.flatMap_nil, (walFraming encoding readBound).next_nil] at scanned
      cases scanned
      rfl
  | cons p frames ih =>
    have isFirst : pieces encoding (p :: frames) = walFrame encoding true p.1 p.2 ++ pieces encoding frames := rfl
    have long := length_walFrame encoding true p.1 p.2
    rw [isFirst, List.length_append] at enough
    cases fuel with
    | zero => omega
    | succ fuel =>
      rw [isFirst, Framing.scan] at scanned
      obtain ⟨error, refused⟩ | read := next_moved bound (fit p List.mem_cons_self) readBound place (pieces encoding frames)
      · rw [refused] at scanned
        contradiction
      · rw [read] at scanned
        dsimp only at scanned
        split at scanned
        next others unread' later =>
          cases scanned
          rw [List.map_cons, ih (fun p member => fit p (List.mem_cons_of_mem _ member)) (by omega) later]
        next => contradiction

theorem readAll_pieced {content : Bytes} (pieced : Pieced encoding written content)
    {replay : WalReplay} (read : readAll encoding content = .ok replay) :
    ∀ e ∈ replay.entries, ∃ offset, written offset e := by
  obtain ⟨header, frames, isHeader, rfl, all⟩ := pieced
  have body : (header ++ pieces encoding frames).drop walFileHeaderSize = pieces encoding frames :=
    List.drop_left' isHeader
  unfold readAll at read
  rw [body] at read
  split at read
  · cases read
    simp
  split at read
  · contradiction
  dsimp only at read
  split at read
  · contradiction
  obtain ⟨⟨entries, unread⟩, scanned, isReplay⟩ := bind_eq_ok.mp read
  cases isReplay
  have isRecords := scan_pieces bound (fun p member => (all p member).2) (Nat.le_refl _) scanned
  intro e member
  change e ∈ entries at member
  rw [isRecords] at member
  obtain ⟨p, inside, rfl⟩ := List.mem_map.mp member
  exact ⟨p.1, (all p inside).1⟩

theorem Reads.genuine {floor : Lsn} {records : List WalEntry}
    (tampered : Tampered encoding written d d') (reads : Reads encoding d' floor records) :
    ∀ e ∈ records, (∃ offset, written offset e) ∧ floor < e.lsn := by
  obtain ⟨replays, all, rfl⟩ := reads
  intro e member
  obtain ⟨inside, above⟩ := List.mem_filter.mp member
  refine ⟨?_, by simpa using above⟩
  obtain ⟨replay, isReplay, here⟩ := List.mem_flatMap.mp inside
  obtain ⟨n, short, rfl⟩ := List.mem_iff_getElem.mp isReplay
  have read := all.get (all.length_eq ▸ short) short
  unfold readWal at read
  split at read
  · contradiction
  next file found => exact readAll_pieced bound (tampered.pieced _ file found) read e here

end

/-! ## Recovery -/

theorem foldlM_reads {floor : Lsn} {seqs : List Nat} {r r' : Recovery}
    (replayed : seqs.foldlM (fun r seq => do
      replayFile encoding ring d floor r seq (← readWal encoding d seq).entries) r = .ok r') :
    ∃ replays, List.Forall₂ (fun seq replay => readWal encoding d seq = .ok replay) seqs replays ∧
      r.catalog.replay encoding ring d (((replays.flatMap WalReplay.entries).filter (floor < ·.lsn)).map (·.op)) =
        .ok r'.catalog := by
  induction seqs generalizing r with
  | nil =>
    cases replayed
    exact ⟨[], .nil, rfl⟩
  | cons seq seqs ih =>
    rw [List.foldlM_cons] at replayed
    obtain ⟨mid, first, rest⟩ := bind_eq_ok.mp replayed
    obtain ⟨replay, read, first⟩ := bind_eq_ok.mp first
    obtain ⟨catalog, isCatalog, isMid⟩ := bind_eq_ok.mp first
    cases isMid
    obtain ⟨replays, all, others⟩ := ih rest
    refine ⟨replay :: replays, .cons read all, ?_⟩
    rw [List.flatMap_cons, List.filter_append, List.map_append, Catalog.replay, List.foldlM_append]
    exact bind_eq_ok.mpr ⟨catalog, isCatalog, others⟩

theorem openWithKeyring_replays {s : Store} {m : Manifest} {base : Catalog} (manifest : readManifest d = .ok m)
    (loads : loadCatalog encoding ring d m = .ok base) (opened : (openWithKeyring encoding ring).run d = (d', .ok s)) :
    ∃ records, Reads encoding d m.lastCheckpointedLsn records ∧
      base.replay encoding ring d (records.map (·.op)) = .ok s.catalog := by
  have isOk : (openWithKeyring encoding ring d).2 = .ok s := congrArg Prod.snd opened
  obtain ⟨m', isManifest, isOk⟩ := bind_ok isOk
  obtain rfl : m' = m := Except.ok.inj (isManifest.symm.trans manifest)
  obtain ⟨files, _, isOk⟩ := bind_ok isOk
  obtain ⟨r, recovered, isOk⟩ := bind_ok isOk
  obtain ⟨_, _, isOk⟩ := bind_ok isOk
  obtain ⟨_, _, isOk⟩ := bind_ok isOk
  obtain ⟨_, _, isOk⟩ := bind_ok isOk
  obtain ⟨_, _, isOk⟩ := bind_ok isOk
  cases isOk
  obtain ⟨base', isBase, replayed⟩ := bind_eq_ok.mp recovered
  obtain rfl : base' = base := Except.ok.inj (isBase.symm.trans loads)
  obtain ⟨replays, all, isCatalog⟩ := foldlM_reads replayed
  exact ⟨_, ⟨replays, all, rfl⟩, isCatalog⟩

/-- Records of a log that has every number once, in the order of their numbers from the first one on. -/
theorem prefix_iff_numbers {log records : List WalEntry} {first : Lsn}
    (numbers : log.map (·.lsn) = List.range' first log.length) (inside : ∀ e ∈ records, e ∈ log) :
    records <+: log ↔ records.map (·.lsn) = List.range' first records.length := by
  have lsnAt : ∀ (i : Nat) (short : i < log.length), log[i].lsn = first + i := by
    intro i short
    have same := congrArg (fun l => l[i]?) numbers
    simpa [short] using same
  constructor
  · rintro ⟨rest, rfl⟩
    refine List.ext_getElem (by simp) fun i short _ => ?_
    rw [List.length_map] at short
    have here := lsnAt i (by rw [List.length_append]; omega)
    rw [List.getElem_append_left short] at here
    simpa using here
  · intro ordered
    have recordAt : ∀ (i : Nat) (short : i < records.length), records[i].lsn = first + i := by
      intro i short
      have same := congrArg (fun l => l[i]?) ordered
      simpa [short] using same
    -- The number of a record tells its place in the log.
    refine List.prefix_iff_getElem?.mpr fun i short => ?_
    obtain ⟨j, shortLog, isRecord⟩ := List.mem_iff_getElem.mp (inside _ (List.getElem_mem short))
    have isPlace : j = i := by
      have here := lsnAt j shortLog
      rw [isRecord, recordAt i short] at here
      exact (Nat.add_left_cancel here).symm
    subst isPlace
    rw [List.getElem?_eq_getElem shortLog, isRecord]

/-- Whatever someone makes of the frames in a store's log files: if the directory opens, records of
the log are replayed. They are its first ones exactly if their numbers follow the checkpoint's
without a gap, and then the store stands for the state they led to. -/
theorem tampered_log_replayed (bound : encoding.catalogCodec.Bound) (on : img.On encoding ring d)
    (sound : img.Sound encoding) (numbered : img.Numbered written)
    (tampered : Tampered encoding written d d') {s : Store}
    (opened : (openWithKeyring encoding ring).run d' = (d'', .ok s)) :
    ∃ records, Reads encoding d' img.mfst.lastCheckpointedLsn records ∧ (∀ e ∈ records, e ∈ img.records) ∧
      (records <+: img.records ↔
        records.map (·.lsn) = List.range' (img.mfst.lastCheckpointedLsn + 1) records.length) ∧
      (records <+: img.records → img.loaded = img.start ∨ records = img.records →
        s.catalog.Represents (img.start.applyAll encoding (records.map (·.op)))) := by
  have same : ∀ {p : Path}, (∀ seq, p ≠ .wal seq) → d'[p]? = d[p]? := fun {p} other => tampered.elsewhere p other
  have current : CurrentIs d' img.mfst := by
    obtain ⟨missing, empty⟩ | ⟨pointer, stored, version⟩ := on.current
    · exact .inl ⟨(same (by simp)).trans missing, empty⟩
    · exact .inr ⟨(same (by simp)).trans pointer, (same (by simp)).trans stored, version⟩
  have loads : loadCatalog encoding ring d' img.mfst = .ok img.base := by
    rw [← on.loads]
    exact loadCatalog_congr (fun entry _ => same (by simp)) fun entry _ ref _ part _ => same (by simp)
  obtain ⟨records, reads, replayed⟩ := openWithKeyring_replays current.readManifest loads opened
  have inside : ∀ e ∈ records, e ∈ img.records := by
    intro e member
    obtain ⟨⟨offset, isWritten⟩, above⟩ := reads.genuine bound tampered e member
    exact numbered.logged offset e isWritten above
  refine ⟨records, reads, inside, prefix_iff_numbers numbered.numbers inside, fun first whole => ?_⟩
  obtain ⟨rest, isLog⟩ := first
  have isTail : img.tail = records.map (·.op) ++ rest.map (·.op) := by
    rw [← List.map_append, isLog]
    rfl
  have valid : img.start.Valid encoding img.next (records.map (·.op)) := by
    have tail := (Logical.Valid.append_iff.mp sound.valid).1
    rw [isTail] at tail
    exact (Logical.Valid.append_iff.mp tail).1
  -- an interrupted checkpoint has done some of the operations of the log, so that all have to follow
  have absorbs : Absorbs (records.map (·.op)) img.start img.loaded := by
    obtain whole | all := whole
    · rw [whole]
      exact .refl sound.indexed sound.below valid
    · rw [all]
      exact sound.absorbs
  have keys : ∀ k, Created (records.map (·.op)) k → ∃ key, ring.collectionCodec d' k = .ok key := by
    intro k created
    rw [collectionCodec_congr (same (by simp))]
    refine on.keys k (created_append.mpr (.inl ?_))
    rw [isTail]
    exact created_append.mpr (.inl created)
  have backed : Catalog.Backed ring d' img.base [] img.base := by
    have before := on.backed_base sound
    exact ⟨fun found => (collectionCodec_congr (same (by simp))).trans (before.codec found), before.sealed, before.window⟩
  obtain ⟨catalog, isCatalog, final, _⟩ := sound.represents.replay sound.indexed sound.below valid absorbs backed keys
  rw [replayed] at isCatalog
  cases isCatalog
  exact final

/-! ## A store with a bound codec -/

def notSealedHere : CoreError := .malformedPage "record is not sealed for this position"

theorem takeWhile_zeros (count : Nat) (rest : Bytes) :
    (List.replicate count (0 : UInt8) ++ 1 :: rest).takeWhile (· == 0) = List.replicate count 0 := by
  rw [List.takeWhile_append_of_pos (by simp), List.takeWhile_cons_of_neg (by decide), List.append_nil]

/-- Records that carry their position. -/
def PageCodec.positioned : PageCodec where
  sealRecord
    | none, plain => 0 :: plain
    | some offset, plain => 1 :: (List.replicate offset 0 ++ 1 :: plain)
  openRecord
    | none, 0 :: plain => .ok plain
    | some offset, 1 :: rest =>
      if (rest.takeWhile (· == 0)).length = offset then .ok (rest.drop (offset + 1)) else .error notSealedHere
    | _, _ => .error notSealedHere
  open_seal
    | none, _ => rfl
    | some offset, plain => by
      have split : List.replicate offset 0 ++ 1 :: plain = (List.replicate offset 0 ++ [1]) ++ plain := by simp
      have long : (List.replicate offset (0 : UInt8) ++ [1]).length = offset + 1 := by simp
      simp only [takeWhile_zeros, List.length_replicate, if_true]
      rw [split, List.drop_left' long]
  seal_ne_nil
    | none, _, _ => List.cons_ne_nil _ _
    | some _, _, _ => List.cons_ne_nil _ _

theorem PageCodec.positioned_bound : PageCodec.positioned.Bound := by
  intro position offset plain plain' opened
  cases position with
  | none => cases opened
  | some place =>
    simp only [PageCodec.positioned, takeWhile_zeros, List.length_replicate] at opened
    split at opened
    next same => rw [same]
    next => cases opened

def boundEncoding : Encoding := { Encoding.plain with catalogCodec := .positioned }

/-- Open a directory, serve a request, and close the store. -/
def session (d : DataDir) (asked : Request) : DataDir :=
  match (openWithKeyring boundEncoding (.single default)).run d with
  | (d₀, .ok s) => closed (applyAll d₀ (s.serve boundEncoding d₀ .ok asked).effects)
  | (d₀, .error _) => d₀

/-- Whether the points are there when the directory is opened. -/
def holds (d : DataDir) : Option (Bool × Bool) :=
  ((openWithKeyring boundEncoding (.single default)).run d).2.toOption.bind fun s =>
    s.catalog.collections[0]?.map fun c =>
      ((c.get "p").toOption.join.isSome, (c.get "q").toOption.join.isSome)

def createdOne : DataDir := session ∅ (.createCollection "c" { dim := 1, metric := .l2 } default)

def withFirst : DataDir := session createdOne (.upsert 0 "p" [0] [])

def withBoth : DataDir := session withFirst (.upsert 0 "q" [0] [])

section OneRecord

/-- A log file with one record, in a directory without a manifest. -/
def firstRecord : WalEntry := ⟨1, .createCollection 0 "c" (boundEncoding.descriptor.encode { dim := 1, metric := .l2 })⟩

def oneRecord : DataDir :=
  (∅ : DataDir).insert (.wal 1) ⟨byteChunks (walLayout boundEncoding 1 [firstRecord]), []⟩

def oneRecordImage : Image := { Image.initial with files := [⟨1, [firstRecord], []⟩] }

theorem fits_firstRecord : FitsCap boundEncoding true walFileHeaderSize firstRecord := by decide +kernel

theorem oneRecord_on : oneRecordImage.On boundEncoding (.single default) oneRecord where
  current := .inl ⟨by simp [oneRecord], rfl⟩
  loads := rfl
  listed seq := by simp [oneRecord, oneRecordImage]
  logs file member := by
    obtain rfl := List.mem_singleton.mp member
    refine ⟨⟨byteChunks (walLayout boundEncoding 1 [firstRecord]), []⟩, by simp [oneRecord], fun kept isKept => ?_⟩
    have fit : (walFraming boundEncoding true).AllFit walFileHeaderSize [firstRecord] := ⟨fits_firstRecord, trivial⟩
    have untorn : (walFraming boundEncoding true).Torn (walLayout boundEncoding 1 [firstRecord]).length [] := .inl rfl
    obtain ⟨replay, read, entries, _⟩ := readAll_walLayout boundEncoding fit untorn
    refine ⟨[], List.prefix_refl _, replay, ?_, entries⟩
    have whole : walLayout boundEncoding 1 [firstRecord] ++ [] = walLayout boundEncoding 1 [firstRecord] := List.append_nil _
    rw [whole] at read
    rw [List.prefix_nil.mp isKept, List.append_nil (byteChunks _), walBytes_byteChunks]
    exact read
  keys k created := ⟨default, rfl⟩
  segments needed f found := by simp [oneRecord] at found
  deks needed f found := by simp [oneRecord] at found

theorem oneRecord_sound : oneRecordImage.Sound boundEncoding := by
  have valid : Logical.empty.Valid boundEncoding 0 [firstRecord.op] :=
    ⟨⟨Nat.le_refl _, ⟨_, boundEncoding.decodeDescriptor_encode _⟩, by simp [Logical.empty]⟩, trivial⟩
  have indexed := (Image.initial_sound boundEncoding).indexed
  have below := (Image.initial_sound boundEncoding).below
  exact { Image.initial_sound boundEncoding with
    ordered := List.pairwise_singleton _ _
    lastOnly := List.pairwise_singleton _ _
    valid := valid
    absorbs := .refl indexed below valid
    bare := fun found => by simp [oneRecordImage, Image.initial] at found }

/-- The file under another number. -/
def movedRecord : DataDir :=
  (∅ : DataDir).insert (.wal 5) ⟨byteChunks (walLayout boundEncoding 1 [firstRecord]), []⟩

/-- The file of the store is moved to another place in the order, where it is still the first. -/
theorem tampered_log_replayed_moved : ∃ s d'',
    (openWithKeyring boundEncoding (.single default)).run movedRecord = (d'', .ok s) ∧
      s.catalog.Represents (Logical.empty.applyAll boundEncoding [firstRecord.op]) := by
  have isOpen : ((openWithKeyring boundEncoding (.single default)).run movedRecord).2.toOption.isSome = true := by
    decide +kernel
  obtain ⟨s, isStore⟩ := Option.isSome_iff_exists.mp isOpen
  have opened := run_of_toOption isStore
  have tampered : Tampered boundEncoding (fun offset entry => offset = walFileHeaderSize ∧ entry = firstRecord)
      oneRecord movedRecord := by
    refine ⟨fun p other => ?_, fun seq file found => ?_⟩
    · simp [oneRecord, movedRecord, (other _).symm]
    have isFile : file = ⟨byteChunks (walLayout boundEncoding 1 [firstRecord]), []⟩ := by
      simp only [movedRecord, ExtTreeMap.getElem?_insert] at found
      split at found
      · cases found
        rfl
      · simp at found
    refine ⟨walHeader 1, [(walFileHeaderSize, firstRecord)], length_walHeader 1, ?_, ?_⟩
    · rw [isFile, File.content, List.append_nil, walBytes_byteChunks]
      rfl
    · intro p member
      obtain rfl := List.mem_singleton.mp member
      exact ⟨⟨rfl, rfl⟩, fits_firstRecord⟩
  have numbered : oneRecordImage.Numbered (fun offset entry => offset = walFileHeaderSize ∧ entry = firstRecord) :=
    ⟨fun _ _ isWritten _ => List.mem_singleton.mpr isWritten.2, rfl⟩
  obtain ⟨records, ⟨replays, files, isRead⟩, _, _, final⟩ := tampered_log_replayed PageCodec.positioned_bound
    oneRecord_on oneRecord_sound numbered tampered opened
  have listed : walFiles movedRecord = [5] := by decide +kernel
  have isReplay : (readWal boundEncoding movedRecord 5).toOption.map WalReplay.entries = some [firstRecord] := by
    decide +kernel
  rw [listed, List.forall₂_cons_left_iff] at files
  obtain ⟨replay, _, read, rest, rfl⟩ := files
  rw [List.forall₂_nil_left_iff] at rest
  rw [read] at isReplay
  have isRecord : records = [firstRecord] := by
    rw [isRead, rest, List.flatMap_singleton, Option.some.inj isReplay]
    rfl
  rw [isRecord] at final
  exact ⟨s, _, opened, final (List.prefix_refl _) (.inl rfl)⟩

end OneRecord

/-- Three sessions, each with its own log file. Without the second file the point of the first write is
gone and that of the second is there, as after no prefix of the operations. -/
theorem middle_file_removed : holds ∅ = none ∧ holds createdOne = some (false, false) ∧
    holds withFirst = some (true, false) ∧ holds withBoth = some (true, true) ∧
    holds (withBoth.erase (.wal 2)) = some (false, true) := by
  refine ⟨?_, ?_, ?_, ?_, ?_⟩ <;> decide +kernel

end Quiver.Core
