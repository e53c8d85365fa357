import Quiver.Core.Wal

/-!
The log as a framed log: reading a file back returns the records that were written, with or
without a torn record behind them.
-/

namespace Quiver.Core

open FileSystem FramedLog Codec
open List (length_append)

theorem Codec.encode_ne_nil {c : Codec α} {a b : α} (differ : a ≠ b) : c.encode a ≠ [] := by
  intro empty
  have first := c.decode_encode a (c.encode b ++ [])
  have second := c.decode_encode b []
  rw [empty, List.nil_append, second] at first
  exact differ (congrArg Prod.fst (Option.some.inj first)).symm

variable (encoding : Encoding)

theorem sealedRecord_ne_nil (positionBound : Bool) (offset : Nat) (entry : WalEntry) :
    sealedRecord encoding positionBound offset entry ≠ [] := by
  refine encoding.catalogCodec.seal_ne_nil _ _ ?_
  have differ : entry ≠ ⟨entry.lsn + 1, entry.op⟩ := by
    intro same
    have := congrArg WalEntry.lsn same
    simp at this
  exact Codec.encode_ne_nil differ

theorem length_walFrame (positionBound : Bool) (offset : Nat) (entry : WalEntry) :
    (walFrame encoding positionBound offset entry).length =
      8 + (sealedRecord encoding positionBound offset entry).length := by
  simp only [walFrame, length_append, length_le32]

theorem walFrame_parts (positionBound : Bool) (offset : Nat) (entry : WalEntry) (rest : Bytes) :
    (walFrame encoding positionBound offset entry ++ rest).take 4 =
      le32 (sealedRecord encoding positionBound offset entry).length ∧
    ((walFrame encoding positionBound offset entry ++ rest).drop 4).take 4 =
      le32 (encoding.crc32c (sealedRecord encoding positionBound offset entry)).toNat ∧
    (walFrame encoding positionBound offset entry ++ rest).drop framePrefixSize =
      sealedRecord encoding positionBound offset entry ++ rest :=
  ⟨rfl, rfl, rfl⟩

variable {positionBound : Bool} {entry : WalEntry} {offset : Nat}

section

variable (fits : FitsCap encoding positionBound offset entry)
include fits

theorem readFrame_sealed
    (readBound : Bool) (place : Nat) (rest : Bytes) :
    (∀ error, encoding.catalogCodec.openRecord (boundPosition readBound place)
        (sealedRecord encoding positionBound offset entry) = .error error →
      readFrame encoding readBound place (walFrame encoding positionBound offset entry ++ rest) = .refused error) ∧
    ∀ found, encoding.catalogCodec.openRecord (boundPosition readBound place)
        (sealedRecord encoding positionBound offset entry) = .ok (encoding.walEntry.encode found) →
      readFrame encoding readBound place (walFrame encoding positionBound offset entry ++ rest) = .record found rest := by
  obtain ⟨len, crc, body⟩ := walFrame_parts encoding positionBound offset entry rest
  have total := length_walFrame encoding positionBound offset entry
  have nonempty := List.length_pos_iff.mpr (sealedRecord_ne_nil encoding positionBound offset entry)
  have cap : (sealedRecord encoding positionBound offset entry).length < 2 ^ 32 :=
    Nat.lt_of_le_of_lt fits (by decide)
  have some_bytes : walFrame encoding positionBound offset entry ++ rest ≠ [] := by
    intro empty
    have := congrArg List.length empty
    simp only [length_append, total, List.length_nil] at this
    omega
  have whole : ¬ (walFrame encoding positionBound offset entry ++ rest).length < framePrefixSize := by
    simp only [length_append, total, framePrefixSize]
    omega
  have sized : ¬ ((sealedRecord encoding positionBound offset entry).length = 0 ∨
      maxRecordBytes < (sealedRecord encoding positionBound offset entry).length ∨
      (sealedRecord encoding positionBound offset entry ++ rest).length <
        (sealedRecord encoding positionBound offset entry).length) := by
    simp only [length_append]
    unfold FitsCap at fits
    omega
  simp only [readFrame, some_bytes, whole, if_false, len, crc, body, ofLe32_le32 cap,
    ofLe32_le32 (UInt32.toNat_lt _), if_neg sized, List.take_left, List.drop_left, ne_eq,
    not_true_eq_false]
  exact ⟨fun error failed => by rw [failed], fun found opened => by simp only [opened, fromBytes_encode]⟩

theorem readFrame_walFrame
    (rest : Bytes) :
    readFrame encoding positionBound offset (walFrame encoding positionBound offset entry ++ rest) =
      .record entry rest :=
  (readFrame_sealed encoding fits positionBound offset rest).2 entry (encoding.catalogCodec.open_seal _ _)

theorem readFrame_torn {part : Bytes}
    (some_bytes : part ≠ [])
    (isPrefix : part <+: walFrame encoding positionBound offset entry)
    (strict : part ≠ walFrame encoding positionBound offset entry) :
    readFrame encoding positionBound offset part = .torn := by
  obtain ⟨missing, whole⟩ := isPrefix
  have missing_pos : 0 < missing.length := by
    refine List.length_pos_iff.mpr ?_
    rintro rfl
    exact strict (by simpa using whole)
  have lengths := congrArg List.length whole
  rw [length_append, length_walFrame] at lengths
  have cap : (sealedRecord encoding positionBound offset entry).length < 2 ^ 32 :=
    Nat.lt_of_le_of_lt fits (by decide)
  simp only [readFrame, some_bytes, if_false]
  split
  case isTrue => rfl
  case isFalse long =>
    simp only [framePrefixSize, Nat.not_lt] at long
    have len : part.take 4 = le32 (sealedRecord encoding positionBound offset entry).length := by
      have taken := congrArg (List.take 4) whole
      rwa [List.take_append_of_le_length (by omega)] at taken
    rw [len, ofLe32_le32 cap, if_pos]
    right; right
    simp only [List.length_drop, framePrefixSize]
    omega

end

def walFraming (positionBound : Bool) : Framing WalEntry UInt8 CoreError where
  frame := walFrame encoding positionBound
  next := readFrame encoding positionBound
  Fits := FitsCap encoding positionBound
  next_nil _ := rfl
  next_frame _ _ rest fits := readFrame_walFrame encoding fits rest
  next_torn _ _ _ fits := readFrame_torn encoding fits
  next_shorter offset bytes entry rest read := by
    simp only [readFrame] at read
    split at read <;> try contradiction
    split at read <;> try contradiction
    split at read <;> try contradiction
    split at read <;> try contradiction
    split at read <;> try contradiction
    split at read <;> try contradiction
    injection read with _ restEq
    subst restEq
    simp only [framePrefixSize, Nat.not_lt, List.length_drop] at *
    omega

/-- Read every intact record of a log file. A file shorter than its header holds none. -/
def readAll (bytes : Bytes) : Except CoreError WalReplay :=
  if bytes.length < walFileHeaderSize then .ok ⟨[], some 0, 0⟩
  else if bytes.take 4 ≠ walMagic then
    .error (.badMagic (Codec.ofLe32 walMagic) (Codec.ofLe32 (bytes.take 4)))
  else
    let version := Codec.ofLe32 ((bytes.drop 4).take 2)
    if version ≠ walFormatVersion ∧ version ≠ walFormatVersionLegacy then
      .error (.unsupportedVersion version walFormatVersion)
    else do
      let (entries, unread) ←
        (walFraming encoding (version == walFormatVersion)).readAll walFileHeaderSize
          (bytes.drop walFileHeaderSize)
      return ⟨entries, if unread = [] then none else some (bytes.length - unread.length),
        Codec.ofLe32 ((bytes.drop 8).take 8)⟩

/-- A file's content: the header, whole records, and a strict prefix of one more. -/
def walLayout (baseLsn : Lsn) (entries : List WalEntry) : Bytes :=
  walHeader baseLsn ++ (walFraming encoding true).layout walFileHeaderSize entries

theorem readAll_walHeader (baseLsn : Lsn) (body : Bytes) :
    readAll encoding (walHeader baseLsn ++ body) =
      ((walFraming encoding true).readAll walFileHeaderSize body).map fun read =>
        ⟨read.1, if read.2 = [] then none else some (walFileHeaderSize + body.length - read.2.length),
          ofLe32 (le64 baseLsn)⟩ := by
  have total : (walHeader baseLsn ++ body).length = walFileHeaderSize + body.length := by
    rw [length_append, length_walHeader, walFileHeaderSize]
  have magic : (walHeader baseLsn ++ body).take 4 = walMagic := rfl
  have version : ofLe32 (((walHeader baseLsn ++ body).drop 4).take 2) = 2 := rfl
  have rest : (walHeader baseLsn ++ body).drop walFileHeaderSize = body := rfl
  simp only [readAll, total, Nat.not_lt.mpr (Nat.le_add_right ..), magic, version, rest, if_false, ne_eq,
    not_true_eq_false, walFormatVersion, false_and, beq_self_eq_true]
  cases (walFraming encoding true).readAll walFileHeaderSize body <;> rfl

theorem length_walLayout (baseLsn : Lsn) (entries : List WalEntry) :
    (walLayout encoding baseLsn entries).length =
      walFileHeaderSize + ((walFraming encoding true).layout walFileHeaderSize entries).length := by
  rw [walLayout, length_append, length_walHeader, walFileHeaderSize]

theorem walLayout_append (baseLsn : Lsn) (first second : List WalEntry) : walLayout encoding baseLsn (first ++ second) =
    walLayout encoding baseLsn first ++
      (walFraming encoding true).layout (walLayout encoding baseLsn first).length second := by
  rw [length_walLayout, walLayout, walLayout, layout_append, List.append_assoc]

theorem readAll_walLayout {baseLsn : Lsn} {entries : List WalEntry} {torn : Bytes}
    (fit : (walFraming encoding true).AllFit walFileHeaderSize entries)
    (isTorn : (walFraming encoding true).Torn (walLayout encoding baseLsn entries).length torn) :
    ∃ replay, readAll encoding (walLayout encoding baseLsn entries ++ torn) = .ok replay ∧
      replay.entries = entries ∧
      replay.tornAt = if torn = [] then none else some (walLayout encoding baseLsn entries).length := by
  rw [length_walLayout] at isTorn
  rw [length_walLayout, walLayout, List.append_assoc, readAll_walHeader, readAll_layout fit isTorn]
  refine ⟨_, rfl, rfl, ?_⟩
  simp only [length_append, ← Nat.add_assoc, Nat.add_sub_cancel]

theorem readAll_short {bytes : Bytes} (short : bytes.length < walFileHeaderSize) :
    ∃ replay, readAll encoding bytes = .ok replay ∧ replay.entries = [] :=
  ⟨⟨[], some 0, 0⟩, by simp only [readAll, if_pos short], rfl⟩

end Quiver.Core
