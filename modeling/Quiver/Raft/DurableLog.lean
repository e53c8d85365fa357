import Quiver.Base.FramedLog
import Quiver.Base.Run
import Quiver.Core.Types
import Std.Data.ExtTreeMap.Lemmas

/-!
The durable Raft log: an append-only file of length-prefixed records, mirrored in memory and
replayed on open. Replay stops at the first record it cannot read, but the unread bytes stay in
front of whatever is written next.
-/

namespace Quiver.Raft

open Quiver.Core FramedLog Codec

abbrev NodeId := Nat

structure LeaderId where
  term : Nat
  nodeId : NodeId
  deriving DecidableEq

structure LogId where
  leaderId : LeaderId
  index : Nat
  deriving DecidableEq

structure Vote where
  leaderId : LeaderId
  committed : Bool
  deriving DecidableEq

inductive EntryPayload where
  | blank
  | normal (op : WalOp)
  | membership (configs : List (List NodeId)) (nodes : List (NodeId × String))
  deriving DecidableEq

structure Entry where
  logId : LogId
  payload : EntryPayload
  deriving DecidableEq

/-- One durable, replayable mutation. -/
inductive Record where
  | vote (vote : Vote)
  | append (entries : List Entry)
  | truncate (index : Nat)
  | purge (logId : LogId)
  deriving DecidableEq

namespace Postcard

open Quiver.Core.Postcard

def logId : Codec LogId :=
  ((Codec.varint.pair Codec.varint).pair Codec.varint).via
    (fun id => ((id.leaderId.term, id.leaderId.nodeId), id.index))
    (fun ((term, nodeId), index) => some ⟨⟨term, nodeId⟩, index⟩) (fun _ => rfl)

def vote : Codec Vote :=
  ((Codec.varint.pair Codec.varint).pair Codec.bool).via
    (fun v => ((v.leaderId.term, v.leaderId.nodeId), v.committed))
    (fun ((term, nodeId), committed) => some ⟨⟨term, nodeId⟩, committed⟩) (fun _ => rfl)

abbrev membershipFields : Codec (List (List NodeId) × List (NodeId × String)) :=
  Codec.varint.seq.seq.pair (Codec.varint.pair string).seq

def entryPayload : Codec EntryPayload :=
  Codec.tagged (fun | .blank => 0 | .normal _ => 1 | .membership _ _ => 2)
    (fun
      | .blank => []
      | .normal op => walOp.encode op
      | .membership configs nodes => membershipFields.encode (configs, nodes))
    (fun
      | 0, bytes => some (.blank, bytes)
      | 1, bytes => walOp.parseAs .normal bytes
      | 2, bytes => membershipFields.parseAs (fun (configs, nodes) => .membership configs nodes) bytes
      | _, _ => none)
    (by intro payload rest; cases payload <;> simp)

def entry : Codec Entry :=
  (logId.pair entryPayload).via (fun e => (e.logId, e.payload)) (fun p => some ⟨p.1, p.2⟩)
    (fun _ => rfl)

/-- The derived encoding of a record: its variant index, then its fields. -/
def record : Codec Record :=
  Codec.tagged (fun | .vote _ => 0 | .append _ => 1 | .truncate _ => 2 | .purge _ => 3)
    (fun
      | .vote v => vote.encode v
      | .append entries => entry.seq.encode entries
      | .truncate index => Codec.varint.encode index
      | .purge id => logId.encode id)
    (fun
      | 0, bytes => vote.parseAs .vote bytes
      | 1, bytes => entry.seq.parseAs .append bytes
      | 2, bytes => Codec.varint.parseAs .truncate bytes
      | 3, bytes => logId.parseAs .purge bytes
      | _, _ => none)
    (by intro record rest; cases record <;> simp)

end Postcard

/-- The in-memory mirror, reconstructed from the durable log on open. -/
structure Mem where
  lastPurgedLogId : Option LogId
  log : Std.ExtTreeMap Nat Entry
  committed : Option LogId
  vote : Option Vote

namespace Mem

def default : Mem := ⟨none, ∅, none, none⟩

def insertAll (mem : Mem) (entries : List Entry) : Mem :=
  { mem with log := entries.foldl (fun log e => log.insert e.logId.index e) mem.log }

def removeRange (mem : Mem) (range : Nat → Bool) : Mem :=
  { mem with log := mem.log.filter fun index _ => !range index }

def apply (mem : Mem) : Record → Mem
  | .vote v => { mem with vote := some v }
  | .append entries => mem.insertAll entries
  | .truncate index => mem.removeRange (index ≤ ·)
  | .purge logId => { mem.removeRange (· ≤ logId.index) with lastPurgedLogId := some logId }

/-- The vote, the last purged id and the log: what the records determine. The committed
index is kept in memory only. -/
def durablePart (mem : Mem) : Option Vote × Option LogId × Std.ExtTreeMap Nat Entry :=
  (mem.vote, mem.lastPurgedLogId, mem.log)

theorem durablePart_apply {first second : Mem} (same : first.durablePart = second.durablePart)
    (record : Record) : (first.apply record).durablePart = (second.apply record).durablePart := by
  simp only [durablePart, Prod.mk.injEq] at same
  obtain ⟨vote, purged, log⟩ := same
  cases record <;> simp [apply, insertAll, removeRange, durablePart, vote, purged, log]

end Mem

/-- The state the acknowledged mutations produce, in order. -/
def replay (records : List Record) : Mem := records.foldl Mem.apply Mem.default

section File

variable (postcard : Codec Record)

def frame (record : Record) : Bytes :=
  Codec.le32 (postcard.encode record).length ++ postcard.encode record

/-- One turn of the loop in `open`: a short length prefix, a short body and an undecodable
body all end the replay. -/
def readRecord (bytes : Bytes) : Next Record UInt8 PEmpty.{1} :=
  if bytes = [] then .done
  else if bytes.length < 4 then .torn
  else
    let len := Codec.ofLe32 (bytes.take 4)
    let body := bytes.drop 4
    if body.length < len then .torn
    else match postcard.fromBytes (body.take len) with
      | some record => .record record (body.drop len)
      | none => .torn

def FitsU32 (record : Record) : Prop := (postcard.encode record).length < 2 ^ 32

theorem readRecord_frame {record : Record} (fits : FitsU32 postcard record) (rest : Bytes) :
    readRecord postcard (frame postcard record ++ rest) = .record record rest := by
  have len : ofLe32 (le32 (postcard.encode record).length) =
      (postcard.encode record).length := ofLe32_le32 fits
  have split : (frame postcard record ++ rest).take 4 =
      le32 (postcard.encode record).length ∧
      (frame postcard record ++ rest).drop 4 = postcard.encode record ++ rest := by
    rw [frame, List.append_assoc]
    exact ⟨List.take_left' (length_le32 _), List.drop_left' (length_le32 _)⟩
  have long : ¬ (frame postcard record ++ rest).length < 4 := by
    simp [frame]
  have nonempty : frame postcard record ++ rest ≠ [] := by
    intro empty
    simp [empty] at long
  simp only [readRecord, nonempty, long, split, len, if_false]
  simp

theorem readRecord_torn {record : Record} {part : Bytes} (fits : FitsU32 postcard record)
    (nonempty : part ≠ []) (isPrefix : part <+: frame postcard record)
    (strict : part ≠ frame postcard record) : readRecord postcard part = .torn := by
  obtain ⟨missing, whole⟩ := isPrefix
  have some_missing : missing ≠ [] := by
    rintro rfl
    exact strict (by simpa using whole)
  have shorter := congrArg List.length whole
  have := List.length_pos_iff.mpr some_missing
  simp only [readRecord, nonempty, if_false]
  split
  case isTrue => rfl
  case isFalse long =>
    have prefixBytes : part.take 4 = le32 (postcard.encode record).length := by
      have taken := congrArg (List.take 4) whole
      rwa [List.take_append_of_le_length (by omega), frame,
        List.take_left' (length_le32 _)] at taken
    rw [prefixBytes, ofLe32_le32 fits, if_pos]
    simp only [frame, List.length_append, length_le32] at shorter
    simp only [List.length_drop]
    omega

def framing : Framing Record UInt8 PEmpty.{1} where
  frame _ := frame postcard
  next _ := readRecord postcard
  Fits _ := FitsU32 postcard
  next_nil _ := rfl
  next_frame _ _ rest fits := readRecord_frame postcard fits rest
  next_torn _ _ _ fits := readRecord_torn postcard fits
  next_shorter _ bytes record rest read := by
    simp only [readRecord] at read
    split at read <;> try contradiction
    split at read <;> try contradiction
    split at read <;> try contradiction
    split at read <;> try contradiction
    injection read with _ restEq
    subst restEq
    simp only [List.length_drop]
    omega

/-- The records `open` reads, and the bytes it leaves unread at the end of the file. -/
def scanFile (file : Bytes) : List Record × Bytes :=
  match (framing postcard).readAll 0 file with
  | .ok read => read

def openFile (file : Bytes) : Mem := replay (scanFile postcard file).1

end File

/-- A call of the storage interface that must be durable before it returns. -/
inductive Mutation where
  | saveVote (vote : Vote)
  | append (entries : List Entry)
  | truncate (logId : LogId)
  | purge (logId : LogId)

def Mutation.record : Mutation → Record
  | .saveVote v => .vote v
  | .append entries => .append entries
  | .truncate logId => .truncate logId.index
  | .purge logId => .purge logId

/-- How each call updates the mirror once its record is durable. -/
def Mutation.mirror (mem : Mem) : Mutation → Mem
  | .saveVote v => { mem with vote := some v }
  | .append entries => mem.insertAll entries
  | .truncate logId => mem.removeRange (logId.index ≤ ·)
  | .purge logId => { mem.removeRange (· ≤ logId.index) with lastPurgedLogId := some logId }

theorem Mutation.mirror_eq_apply (mem : Mem) (mutation : Mutation) :
    mutation.mirror mem = mem.apply mutation.record := by
  cases mutation <;> rfl

/-- A voter's log: the bytes on disk, and the mirror while the process runs. -/
structure Voter where
  file : Bytes
  mem : Option Mem

def Voter.fresh : Voter := ⟨[], none⟩

inductive Event where
  | reopen
  | mutate (mutation : Mutation)
  | saveCommitted (committed : Option LogId)
  /-- The process stops after `kept` bytes of the record of `mutation` reached the file. -/
  | crash (mutation : Mutation) (kept : Nat)

variable (postcard : Codec Record)

inductive Step : Voter → Event → Voter → Prop
  | reopen {file} : Step ⟨file, none⟩ .reopen ⟨file, some (openFile postcard file)⟩
  | mutate {file mem mutation} : FitsU32 postcard mutation.record →
      Step ⟨file, some mem⟩ (.mutate mutation)
        ⟨file ++ frame postcard mutation.record, some (mutation.mirror mem)⟩
  | saveCommitted {file mem committed} :
      Step ⟨file, some mem⟩ (.saveCommitted committed)
        ⟨file, some { mem with committed := committed }⟩
  | crash {file mem mutation kept} : kept < (frame postcard mutation.record).length →
      Step ⟨file, some mem⟩ (.crash mutation kept)
        ⟨file ++ (frame postcard mutation.record).take kept, none⟩

def Event.acknowledged : Event → List Record
  | .mutate mutation => [mutation.record]
  | _ => []

def acknowledged (events : List Event) : List Record := events.flatMap Event.acknowledged

/-- No byte is written behind a torn record: whenever a write starts, every byte of the file
was read by the last `open` or written since, and an interrupted write is one whose length
fits its prefix. -/
def WritesOnReadableFile (voter : Voter) : Event → Prop
  | .mutate _ => (scanFile postcard voter.file).2 = []
  | .crash mutation kept => kept = 0 ∨
      (scanFile postcard voter.file).2 = [] ∧ FitsU32 postcard mutation.record
  | _ => True

/-- The file holds the acknowledged records and at most a strict prefix of one more, and a
running process mirrors exactly the acknowledged records. -/
def Invariant (events : List Event) (voter : Voter) : Prop :=
  ∃ torn, voter.file = (framing postcard).layout 0 (acknowledged events) ++ torn ∧
    (framing postcard).AllFit 0 (acknowledged events) ∧
    (framing postcard).Torn ((framing postcard).layout 0 (acknowledged events)).length torn ∧
    ∀ mem, voter.mem = some mem → mem.durablePart = (replay (acknowledged events)).durablePart

variable {postcard}

theorem scanFile_layout {records : List Record} {torn : Bytes}
    (fit : (framing postcard).AllFit 0 records)
    (isTorn : (framing postcard).Torn ((framing postcard).layout 0 records).length torn) :
    scanFile postcard ((framing postcard).layout 0 records ++ torn) = (records, torn) := by
  have isTorn : (framing postcard).Torn (0 + ((framing postcard).layout 0 records).length) torn := by
    simpa using isTorn
  simp only [scanFile, readAll_layout fit isTorn]

theorem acknowledged_snoc (events : List Event) (event : Event) :
    acknowledged (events ++ [event]) = acknowledged events ++ event.acknowledged := by
  simp [acknowledged]

theorem replay_snoc (records : List Record) (record : Record) :
    replay (records ++ [record]) = (replay records).apply record := by
  simp [replay]

theorem Invariant.step {events : List Event} {before after : Voter} {event : Event}
    (invariant : Invariant postcard events before)
    (stepped : Run.Guarded (WritesOnReadableFile postcard) (Step postcard) before event after) :
    Invariant postcard (events ++ [event]) after := by
  obtain ⟨torn, file, fit, isTorn, mirrored⟩ := invariant
  have scanned := scanFile_layout fit isTorn
  obtain ⟨guard, stepped⟩ := stepped
  rw [Invariant, acknowledged_snoc]
  cases stepped with
  | reopen =>
    simp only [Event.acknowledged, List.append_nil]
    simp only at file
    refine ⟨torn, file, fit, isTorn, ?_⟩
    rintro mem ⟨⟩
    rw [file, openFile, scanned]
  | @mutate bytes mem mutation fits =>
    simp only [WritesOnReadableFile] at guard file
    obtain rfl : torn = [] := by simpa [file, scanned] using guard
    refine ⟨[], ?_, ?_, .inl rfl, ?_⟩
    · rw [file, layout_append]
      simp [Event.acknowledged, Framing.layout, framing]
    · rw [allFit_append]
      exact ⟨fit, fits, trivial⟩
    · rintro _ ⟨⟩
      rw [Mutation.mirror_eq_apply, Event.acknowledged, replay_snoc]
      exact Mem.durablePart_apply (mirrored mem rfl) _
  | @saveCommitted bytes mem committed =>
    simp only [Event.acknowledged, List.append_nil]
    refine ⟨torn, file, fit, isTorn, ?_⟩
    rintro _ ⟨⟩
    exact mirrored mem rfl
  | @crash bytes mem mutation kept short =>
    simp only [Event.acknowledged, List.append_nil]
    simp only [WritesOnReadableFile] at guard file
    obtain rfl | ⟨clean, fits⟩ := guard
    · exact ⟨torn, by simpa using file, fit, isTorn, by simp⟩
    · obtain rfl : torn = [] := by simpa [file, scanned] using clean
      refine ⟨(frame postcard mutation.record).take kept, by simp [file], fit, ?_, by simp⟩
      refine .inr ⟨mutation.record, fits, List.take_prefix .., ?_⟩
      intro whole
      have length := congrArg List.length whole
      simp only [framing, List.length_take] at length
      omega

/-- Every reopen, and every state a running voter is in, holds exactly what the acknowledged
mutations produce, as long as nothing is written behind a torn record. -/
theorem reopened_log_exact {events : List Event} {voter : Voter} {mem : Mem}
    (run : Run.Reaches (Run.Guarded (WritesOnReadableFile postcard) (Step postcard)) Voter.fresh
      events voter)
    (running : voter.mem = some mem) :
    mem.durablePart = (replay (acknowledged events)).durablePart := by
  have invariant := run.invariant (Invariant postcard)
    ⟨[], rfl, trivial, .inl rfl, by simp [Voter.fresh]⟩ Invariant.step
  obtain ⟨_, _, _, _, mirrored⟩ := invariant
  exact mirrored mem running

/-- A vote saved after a clean crash is there on the next reopen. -/
theorem reopened_log_exact_saved_vote :
    ∃ voter mem, Run.Reaches (Run.Guarded (WritesOnReadableFile Postcard.record)
        (Step Postcard.record)) Voter.fresh
        [.reopen, .mutate (.saveVote ⟨⟨3, 2⟩, false⟩), .crash (.truncate ⟨⟨3, 2⟩, 1⟩) 5, .reopen] voter ∧
      voter.mem = some mem ∧ mem.vote = some ⟨⟨3, 2⟩, false⟩ := by
  have run : Run.Reaches (Run.Guarded (WritesOnReadableFile Postcard.record)
      (Step Postcard.record)) Voter.fresh
      [.reopen, .mutate (.saveVote ⟨⟨3, 2⟩, false⟩), .crash (.truncate ⟨⟨3, 2⟩, 1⟩) 5, .reopen] _ :=
    .next (.next (.next (.next .refl ⟨trivial, .reopen⟩)
      ⟨by unfold WritesOnReadableFile; decide +kernel, .mutate (by unfold FitsU32; decide +kernel)⟩)
      ⟨.inr ⟨by decide +kernel, by unfold FitsU32; decide +kernel⟩, .crash (by decide +kernel)⟩)
      ⟨trivial, .reopen⟩
  have exact := reopened_log_exact run rfl
  refine ⟨_, _, run, rfl, ?_⟩
  have vote := congrArg Prod.fst exact
  exact vote

/-- A crash leaves the length prefix of an append. The vote saved after the next reopen is
acknowledged, but its bytes are taken for the body of the torn append, and the next reopen has no
vote. -/
theorem vote_lost_behind_torn_append :
    ∃ events voter mem, Run.Reaches (Step Postcard.record) Voter.fresh events voter ∧
      voter.mem = some mem ∧ mem.vote = none ∧
      (replay (acknowledged events)).vote = some ⟨⟨3, 2⟩, false⟩ := by
  refine ⟨[.reopen, .crash (.append [⟨⟨⟨2, 1⟩, 1⟩, .normal (.delete 1 "e1")⟩]) 4, .reopen,
    .mutate (.saveVote ⟨⟨3, 2⟩, false⟩), .crash (.saveVote ⟨⟨4, 2⟩, false⟩) 0, .reopen], _, _,
    .next (.next (.next (.next (.next (.next .refl .reopen) (.crash (by decide +kernel))) .reopen)
      (.mutate (by unfold FitsU32; decide +kernel))) (.crash (by decide +kernel))) .reopen,
    rfl, ?_, rfl⟩
  decide +kernel

end Quiver.Raft
