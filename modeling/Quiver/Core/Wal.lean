import Quiver.Base.FramedLog
import Quiver.Core.Disk

/-!
The write-ahead log: a file header, then length-prefixed and checksummed records, each sealed
for the offset it is written at. A reader stops at a torn or unreadable frame; a frame that
is intact but does not open is an error.
-/

namespace Quiver.Core

open FileSystem FramedLog

/-- The magic number of a log file, `QVWL`. -/
def walMagic : Bytes := [0x51, 0x56, 0x57, 0x4C]

def walFormatVersion : Nat := 2

def walFormatVersionLegacy : Nat := 1

def walFileHeaderSize : Nat := 16

def framePrefixSize : Nat := 8

def maxRecordBytes : Nat := 64 * 1024 * 1024

def le64 (value : Nat) : Bytes := Codec.le32 value ++ Codec.le32 (value / 2 ^ 32)

def walHeader (baseLsn : Lsn) : Bytes :=
  walMagic ++ [UInt8.ofNat walFormatVersion, 0, 0, 0] ++ le64 baseLsn

@[simp] theorem length_walHeader (baseLsn : Lsn) : (walHeader baseLsn).length = 16 := rfl

variable (encoding : Encoding)

/-- The position a record is sealed for, in the format that binds it. -/
def boundPosition (positionBound : Bool) (offset : Nat) : Option Nat :=
  if positionBound then some offset else none

def sealedRecord (positionBound : Bool) (offset : Nat) (entry : WalEntry) : Bytes :=
  encoding.catalogCodec.sealRecord (boundPosition positionBound offset)
    (encoding.walEntry.encode entry)

def walFrame (positionBound : Bool) (offset : Nat) (entry : WalEntry) : Bytes :=
  let record := sealedRecord encoding positionBound offset entry
  Codec.le32 record.length ++ Codec.le32 (encoding.crc32c record).toNat ++ record

/-- One turn of the loop in `read_all`. -/
def readFrame (positionBound : Bool) (offset : Nat) (bytes : Bytes) : Next WalEntry UInt8 CoreError :=
  if bytes = [] then .done
  else if bytes.length < framePrefixSize then .torn
  else
    let len := Codec.ofLe32 (bytes.take 4)
    let crc := Codec.ofLe32 ((bytes.drop 4).take 4)
    let body := bytes.drop framePrefixSize
    if len = 0 ∨ maxRecordBytes < len ∨ body.length < len then .torn
    else if (encoding.crc32c (body.take len)).toNat ≠ crc then .torn
    else
      match encoding.catalogCodec.openRecord (boundPosition positionBound offset) (body.take len) with
      | .error error => .refused error
      | .ok plain =>
        match encoding.walEntry.fromBytes plain with
        | some entry => .record entry (body.drop len)
        | none => .torn

/-- The size check of `append`. -/
def FitsCap (positionBound : Bool) (offset : Nat) (entry : WalEntry) : Prop :=
  (sealedRecord encoding positionBound offset entry).length ≤ maxRecordBytes

instance (positionBound : Bool) (offset : Nat) (entry : WalEntry) :
    Decidable (FitsCap encoding positionBound offset entry) :=
  inferInstanceAs (Decidable (_ ≤ _))

structure WalReplay where
  entries : List WalEntry
  tornAt : Option Nat
  baseLsn : Lsn
  deriving DecidableEq

/-- Appends to the log file `seq`; the next frame is sealed for `writeOffset`. -/
structure WalWriter where
  seq : Nat
  unsynced : Bool
  writeOffset : Nat
  deriving DecidableEq

def walBytes (content : List Chunk) : Bytes :=
  content.filterMap fun | .byte b => some b | _ => none

def byteChunks (bytes : Bytes) : List Chunk := bytes.map Chunk.byte

@[simp] theorem walBytes_byteChunks (bytes : Bytes) : walBytes (byteChunks bytes) = bytes := by
  simp [walBytes, byteChunks, List.filterMap_map]

theorem byteChunks_append (first second : Bytes) :
    byteChunks (first ++ second) = byteChunks first ++ byteChunks second := List.map_append

/-- How the system calls of one operation on the log fare: each write may fail after some
bytes, and the sync may fail. -/
structure WalIo where
  /-- The bytes the write of the given number leaves before it fails. -/
  writeFails : Nat → Option Nat
  syncFails : Bool

def WalIo.ok : WalIo := ⟨fun _ => none, false⟩

/-- What a system call sequence did: its effects, the writer after it, and its result. -/
structure WalOutcome where
  effects : List (Effect Path Chunk)
  writer : WalWriter
  result : Except CoreError Unit

namespace WalWriter

def create (seq : Nat) (baseLsn : Lsn) : List (Effect Path Chunk) × WalWriter :=
  ([.create (.wal seq), .append (.wal seq) (byteChunks (walHeader baseLsn)), .sync (.wal seq)],
    ⟨seq, false, walFileHeaderSize⟩)

/-- Frame and append a record, without syncing. A failed write leaves a part of the frame and
the offset where it was. -/
def append (w : WalWriter) (entry : WalEntry) (fails : Option Nat) : WalOutcome :=
  let len := (sealedRecord encoding true w.writeOffset entry).length
  if len ≥ 2 ^ 32 then ⟨[], w, .error (.tooLarge s!"wal record {len} bytes")⟩
  else if maxRecordBytes < len then
    ⟨[], w, .error (.tooLarge s!"wal record {len} bytes exceeds cap {maxRecordBytes}")⟩
  else
    let frame := walFrame encoding true w.writeOffset entry
    match fails with
    | some kept => ⟨[.append (.wal w.seq) (byteChunks (frame.take kept))], w, .error .io⟩
    | none => ⟨[.append (.wal w.seq) (byteChunks frame)],
        { w with unsynced := true, writeOffset := w.writeOffset + frame.length }, .ok ()⟩

def sync (w : WalWriter) (fails : Bool) : WalOutcome :=
  if w.unsynced then
    if fails then ⟨[], w, .error .io⟩
    else ⟨[.sync (.wal w.seq)], { w with unsynced := false }, .ok ()⟩
  else ⟨[], w, .ok ()⟩

/-- Run a second step after a first that succeeded. -/
def andThen (first : WalOutcome) (second : WalWriter → WalOutcome) : WalOutcome :=
  match first.result with
  | .error error => ⟨first.effects, first.writer, .error error⟩
  | .ok () =>
    let next := second first.writer
    ⟨first.effects ++ next.effects, next.writer, next.result⟩

/-- Append records one after the other, stopping at the first that fails. -/
def appendAll (w : WalWriter) (fails : Nat → Option Nat) : (write : Nat) → List WalEntry → WalOutcome
  | _, [] => ⟨[], w, .ok ()⟩
  | write, entry :: rest =>
    andThen (w.append encoding entry (fails write)) fun w => w.appendAll fails (write + 1) rest

def commit (w : WalWriter) (entries : List WalEntry) (io : WalIo) : WalOutcome :=
  andThen (w.appendAll encoding io.writeFails 0 entries) fun w => w.sync io.syncFails

end WalWriter

end Quiver.Core
