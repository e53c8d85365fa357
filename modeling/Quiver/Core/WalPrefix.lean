import Mathlib.Data.List.ReduceOption
import Quiver.Base.Run
import Quiver.Core.Commit
import Quiver.Core.Encodings

/-!
What is read of a log file that was cut at any byte, or overwritten from there on. However often the
file was reopened, the writer's offset is its length, so that each record is read at the offset it
was sealed for.
-/

namespace Quiver.Core

open FileSystem FramedLog

/-- Open an existing log file for appending. Records go behind its end. -/
def WalWriter.openAppend (seq : Nat) (bytes : Bytes) : Except CoreError WalWriter :=
  if bytes.length < walFileHeaderSize then .error .io
  else if bytes.take 4 ≠ walMagic then
    .error (.badMagic (Codec.ofLe32 walMagic) (Codec.ofLe32 (bytes.take 4)))
  else
    let version := Codec.ofLe32 ((bytes.drop 4).take 2)
    if version ≠ walFormatVersion then .error (.unsupportedVersion version walFormatVersion)
    else .ok ⟨seq, false, max bytes.length walFileHeaderSize⟩

/-- A writer and the bytes of its file. -/
structure WalSession where
  writer : WalWriter
  bytes : Bytes

namespace WalSession

/-- The bytes that effects append. -/
def appended (effects : List (Effect Path Chunk)) : Bytes :=
  effects.flatMap fun | .append _ data => walBytes data | _ => []

def create (seq : Nat) (baseLsn : Lsn) : WalSession :=
  ⟨(WalWriter.create seq baseLsn).2, appended (WalWriter.create seq baseLsn).1⟩

def after (t : WalSession) (out : WalOutcome) : WalSession := ⟨out.writer, t.bytes ++ appended out.effects⟩

/-- One call on the log, with the record it writes. An append may be rejected for its size. -/
inductive Step (encoding : Encoding) (t : WalSession) : Option WalEntry → WalSession → Prop
  | append (entry : WalEntry) (written : (t.writer.append encoding entry none).result = .ok ()) :
      Step encoding t (some entry) (t.after (t.writer.append encoding entry none))
  | rejected {entry : WalEntry} {error : CoreError}
      (failed : (t.writer.append encoding entry none).result = .error error) :
      Step encoding t none (t.after (t.writer.append encoding entry none))
  | sync : Step encoding t none (t.after (t.writer.sync false))
  | reopen {w : WalWriter} (opened : WalWriter.openAppend t.writer.seq t.bytes = .ok w) :
      Step encoding t none ⟨w, t.bytes⟩

/-- The file holds these records, and the writer is at its end. -/
structure Holds (encoding : Encoding) (baseLsn : Lsn) (t : WalSession) (records : List WalEntry) : Prop where
  bytes : t.bytes = walLayout encoding baseLsn records
  offset : t.writer.writeOffset = (walLayout encoding baseLsn records).length
  fit : (walFraming encoding true).AllFit walFileHeaderSize records

variable {encoding : Encoding} {baseLsn : Lsn} {t t' : WalSession} {records : List WalEntry}

theorem Holds.openAppend (holds : Holds encoding baseLsn t records) :
    WalWriter.openAppend t.writer.seq t.bytes = .ok { t.writer with unsynced := false } := by
  have magic : (walLayout encoding baseLsn records).take 4 = walMagic := rfl
  have version : Codec.ofLe32 (((walLayout encoding baseLsn records).drop 4).take 2) = walFormatVersion := rfl
  have long : walFileHeaderSize ≤ (walLayout encoding baseLsn records).length :=
    length_walLayout encoding baseLsn records ▸ Nat.le_add_right ..
  simp only [WalWriter.openAppend, holds.bytes, if_neg (Nat.not_lt.mpr long), magic, version, ne_eq,
    not_true_eq_false, if_false, Nat.max_eq_left long, holds.offset]

theorem Holds.step (holds : Holds encoding baseLsn t records) {written : Option WalEntry}
    (stepped : Step encoding t written t') : Holds encoding baseLsn t' (records ++ written.toList) := by
  have same : records ++ (none : Option WalEntry).toList = records := List.append_nil _
  cases stepped with
  | append entry written =>
    obtain ⟨fits, _, is⟩ | ⟨_, message, is⟩ | ⟨_, kept, failed, _⟩ :=
      WalWriter.append_spec encoding t.writer entry none
    · have frame : appended (WalWriter.frames encoding t.writer.seq t.writer.writeOffset [entry]) =
          (walFraming encoding true).layout t.writer.writeOffset [entry] := by
        simp [appended, WalWriter.frames, Framing.layout, walFraming]
      simp only [after, is, Option.toList_some]
      refine ⟨?_, ?_, ?_⟩
      · rw [walLayout_append, ← holds.bytes, ← holds.offset.trans (congrArg _ holds.bytes.symm), frame]
      · rw [walLayout_append, List.length_append, ← holds.offset]
        rfl
      · rw [allFit_append, ← length_walLayout encoding baseLsn, ← holds.offset]
        exact ⟨holds.fit, fits, trivial⟩
    · rw [is] at written
      contradiction
    · contradiction
  | @rejected entry _ failed =>
    obtain ⟨_, _, is⟩ | ⟨_, message, is⟩ | ⟨_, kept, failed, _⟩ :=
      WalWriter.append_spec encoding t.writer entry none
    · rw [is] at failed
      contradiction
    · simp only [same, after, is]
      exact ⟨(List.append_nil _).trans holds.bytes, holds.offset, holds.fit⟩
    · contradiction
  | sync =>
    rw [same, WalWriter.sync]
    split <;> exact ⟨(List.append_nil _).trans holds.bytes, holds.offset, holds.fit⟩
  | reopen opened =>
    rw [holds.openAppend] at opened
    cases opened
    rw [same]
    exact ⟨holds.bytes, holds.offset, holds.fit⟩

theorem holds_run {seq : Nat} {events : List (Option WalEntry)}
    (run : Run.Reaches (Step encoding) (create seq baseLsn) events t) :
    Holds encoding baseLsn t events.reduceOption := by
  have start : Holds encoding baseLsn (create seq baseLsn) [] :=
    ⟨by simp [create, WalWriter.create, appended, walLayout, Framing.layout], rfl, trivial⟩
  refine run.invariant (fun events t => Holds encoding baseLsn t events.reduceOption) start
    fun {events t event t'} holds stepped => ?_
  have grown : (events ++ [event]).reduceOption = events.reduceOption ++ event.toList := by
    rw [List.reduceOption_append, List.reduceOption_singleton]
  exact grown ▸ holds.step stepped

end WalSession

open WalSession

variable {encoding : Encoding} {t : WalSession} {seq : Nat} {baseLsn : Lsn} {events : List (Option WalEntry)}

theorem take_walLayout (baseLsn : Lsn) {records : List WalEntry}
    (fit : (walFraming encoding true).AllFit walFileHeaderSize records)
    {p : Nat} (behind : walFileHeaderSize ≤ p) :
    ∃ torn, (walLayout encoding baseLsn records).take p = walLayout encoding baseLsn
        ((walFraming encoding true).whole p walFileHeaderSize records) ++ torn ∧
      (walFraming encoding true).AllFit walFileHeaderSize
        ((walFraming encoding true).whole p walFileHeaderSize records) ∧
      (walFraming encoding true).Torn (walLayout encoding baseLsn
        ((walFraming encoding true).whole p walFileHeaderSize records)).length torn := by
  obtain ⟨keptFit, torn, taken, isTorn⟩ := take_layout fit behind
  refine ⟨torn, ?_, keptFit, by rwa [length_walLayout]⟩
  rw [walLayout, List.take_append, List.take_of_length_le (by rwa [length_walHeader]), length_walHeader]
  exact (congrArg (walHeader baseLsn ++ ·) taken).trans (List.append_assoc ..).symm

/-- However often a log was reopened: cut at any byte, it reads as the records that end before the
cut, which is told from the end of a record; with other bytes behind the cut, those are still read
first. Reading ends on every file. -/
theorem log_prefix_recovered
    (run : Run.Reaches (WalSession.Step encoding) (WalSession.create seq baseLsn) events t) :
    (∀ p ≤ t.bytes.length,
      let kept := (walFraming encoding true).whole p walFileHeaderSize events.reduceOption
      let stop := walFileHeaderSize + ((walFraming encoding true).layout walFileHeaderSize kept).length
      ∃ replay, readAll encoding (t.bytes.take p) = .ok replay ∧ replay.entries = kept ∧
        replay.tornAt = if p < walFileHeaderSize then some 0 else if p = stop then none else some stop) ∧
    (∀ p rest replay, readAll encoding (t.bytes.take p ++ rest) = .ok replay →
      (walFraming encoding true).whole p walFileHeaderSize events.reduceOption <+: replay.entries) ∧
    ∀ bound offset bytes fuel, bytes.length ≤ fuel →
      (walFraming encoding bound).scan fuel offset bytes = (walFraming encoding bound).readAll offset bytes := by
  have holds := holds_run run
  have noneWhole : ∀ {p}, p < walFileHeaderSize →
      (walFraming encoding true).whole p walFileHeaderSize events.reduceOption = [] := by
    intro p short
    cases events.reduceOption with
    | nil => rfl
    | cons e rest => exact if_neg (by omega)
  refine ⟨fun p inside => ?_, fun p rest replay read => ?_, fun _ _ _ _ => scan_fuel⟩
  · dsimp only
    by_cases short : p < walFileHeaderSize
    · rw [noneWhole short, if_pos short]
      refine ⟨⟨[], some 0, 0⟩, ?_, rfl, rfl⟩
      rw [readAll, if_pos (Nat.lt_of_le_of_lt (List.length_take_le ..) short)]
    · obtain ⟨torn, taken, fit, isTorn⟩ := take_walLayout baseLsn holds.fit (Nat.le_of_not_lt short)
      obtain ⟨replay, read, entries, tornAt⟩ := readAll_walLayout encoding fit isTorn
      have lengths := congrArg List.length taken
      rw [List.length_take, ← holds.bytes, Nat.min_eq_left inside, List.length_append] at lengths
      rw [holds.bytes, taken, if_neg short, ← length_walLayout encoding baseLsn]
      refine ⟨replay, read, entries, tornAt.trans ?_⟩
      congr 1
      rw [← List.length_eq_zero_iff]
      exact propext ⟨fun none => by omega, fun same => by omega⟩
  · by_cases short : p < walFileHeaderSize
    · rw [noneWhole short]
      exact List.nil_prefix
    · obtain ⟨torn, taken, fit, _⟩ := take_walLayout baseLsn holds.fit (Nat.le_of_not_lt short)
      rw [holds.bytes, taken, walLayout, List.append_assoc, List.append_assoc, readAll_walHeader] at read
      generalize scanned : (walFraming encoding true).readAll walFileHeaderSize _ = outcome at read
      cases outcome with
      | error => contradiction
      | ok result =>
        cases read
        exact scan_append fit (Nat.le_refl _) scanned

/-- A log of one record that was reopened. -/
theorem log_prefix_recovered_reopened : ∃ t,
    Run.Reaches (WalSession.Step .plain) (WalSession.create 0 0) [some ⟨1, .delete 0 "a"⟩, none] t ∧
      ∃ replay, readAll .plain (t.bytes.take (t.bytes.length - 1)) = .ok replay ∧
        replay.entries = [] ∧ replay.tornAt = some walFileHeaderSize := by
  have first : Step .plain (create 0 0) _ _ := .append ⟨1, .delete 0 "a"⟩ (by decide +kernel)
  have run := (Run.Reaches.refl.next first).next (.reopen (w := ⟨0, false, 29⟩) (by decide +kernel))
  obtain ⟨replay, read, entries, torn⟩ := (log_prefix_recovered run).1 _ (Nat.sub_le _ 1)
  exact ⟨_, run, replay, read, entries.trans (by decide +kernel), torn.trans (by decide +kernel)⟩

end Quiver.Core
