import Mathlib.Data.List.Basic

/-!
Append-only logs of framed records. A record is laid out at the offset it is written at; a reader
takes frames until the bytes end, a frame is incomplete, or a complete one is refused. A crash
leaves whole frames and a strict prefix of one more, and reading returns the frames and leaves the
prefix.
-/

namespace FramedLog

open List (append_assoc length_append)

variable {α β ε : Type}

/-- What a reader makes of the bytes at one offset. -/
inductive Next (α β ε : Type) where
  | done
  | torn
  | refused (error : ε)
  | record (value : α) (rest : List β)

/-- A record format. `Fits` is what a writer checks before it lays a record out. -/
structure Framing (α β ε : Type) where
  frame : Nat → α → List β
  next : Nat → List β → Next α β ε
  Fits : Nat → α → Prop
  next_nil : ∀ offset, next offset [] = .done
  next_frame : ∀ offset a rest, Fits offset a →
    next offset (frame offset a ++ rest) = .record a rest
  next_torn : ∀ offset a part, Fits offset a → part ≠ [] → part <+: frame offset a →
    part ≠ frame offset a → next offset part = .torn
  next_shorter : ∀ offset bytes a rest, next offset bytes = .record a rest →
    rest.length < bytes.length

variable (F : Framing α β ε)

/-- The bytes of consecutive records, the first at `offset`. -/
def Framing.layout : Nat → List α → List β
  | _, [] => []
  | offset, a :: records =>
    F.frame offset a ++ Framing.layout (offset + (F.frame offset a).length) records

def Framing.AllFit : Nat → List α → Prop
  | _, [] => True
  | offset, a :: records =>
    F.Fits offset a ∧ Framing.AllFit (offset + (F.frame offset a).length) records

/-- A strict prefix of one further record. -/
def Framing.Torn (offset : Nat) (part : List β) : Prop :=
  part = [] ∨ ∃ a, F.Fits offset a ∧ part <+: F.frame offset a ∧ part ≠ F.frame offset a

/-- The records read and the bytes left unread. -/
def Framing.scan : Nat → Nat → List β → Except ε (List α × List β)
  | 0, _, bytes => .ok ([], bytes)
  | fuel + 1, offset, bytes =>
    match F.next offset bytes with
    | .done | .torn => .ok ([], bytes)
    | .refused error => .error error
    | .record a rest =>
      match Framing.scan fuel (offset + (bytes.length - rest.length)) rest with
      | .ok (records, unread) => .ok (a :: records, unread)
      | .error error => .error error

def Framing.readAll (offset : Nat) (bytes : List β) : Except ε (List α × List β) :=
  F.scan bytes.length offset bytes

variable {F}

variable {offset : Nat}

theorem next_of_torn {part : List β} (torn : F.Torn offset part) :
    F.next offset part = .done ∨ F.next offset part = .torn := by
  obtain rfl | ⟨a, fits, isPrefix, strict⟩ := torn
  · exact .inl (F.next_nil offset)
  · by_cases empty : part = []
    · subst empty
      exact .inl (F.next_nil offset)
    · exact .inr (F.next_torn offset a part fits empty isPrefix strict)

theorem scan_torn (fuel : Nat) {part : List β} (torn : F.Torn offset part) :
    F.scan fuel offset part = .ok ([], part) := by
  cases fuel with
  | zero => rfl
  | succ fuel =>
    obtain atEnd | cut := next_of_torn torn
    · simp only [Framing.scan, atEnd]
    · simp only [Framing.scan, cut]

theorem frame_ne_nil {a : α} (fits : F.Fits offset a) : F.frame offset a ≠ [] := by
  intro empty
  have read := F.next_frame offset a [] fits
  rw [empty, List.nil_append] at read
  have shorter := F.next_shorter offset [] a [] read
  simp at shorter

theorem scan_layout (records : List α) {fuel offset : Nat} {part : List β}
    (enough : (F.layout offset records ++ part).length ≤ fuel) (fit : F.AllFit offset records)
    (torn : F.Torn (offset + (F.layout offset records).length) part) :
    F.scan fuel offset (F.layout offset records ++ part) = .ok (records, part) := by
  induction records generalizing fuel offset with
  | nil => exact scan_torn fuel (by simpa [Framing.layout] using torn)
  | cons a records ih =>
    obtain ⟨fits, fit⟩ := fit
    have nonempty := List.length_pos_iff.mpr (frame_ne_nil fits)
    simp only [Framing.layout, append_assoc, length_append] at enough torn ⊢
    cases fuel with
    | zero => omega
    | succ fuel =>
      simp only [Framing.scan, F.next_frame offset a _ fits]
      rw [length_append, Nat.add_sub_cancel,
        ih (by simp only [length_append]; omega) fit (by rwa [Nat.add_assoc])]

/-- Reading back what a writer laid out, with or without a torn record behind it. -/
theorem readAll_layout {records : List α} {part : List β}
    (fit : F.AllFit offset records)
    (torn : F.Torn (offset + (F.layout offset records).length) part) :
    F.readAll offset (F.layout offset records ++ part) = .ok (records, part) :=
  scan_layout records (Nat.le_refl _) fit torn

theorem layout_append (offset : Nat) (first second : List α) :
    F.layout offset (first ++ second) =
      F.layout offset first ++ F.layout (offset + (F.layout offset first).length) second := by
  induction first generalizing offset with
  | nil => rfl
  | cons a first ih =>
    simp only [List.cons_append, Framing.layout, ih, length_append, append_assoc,
      Nat.add_assoc]

theorem allFit_append (offset : Nat) (first second : List α) :
    F.AllFit offset (first ++ second) ↔
      F.AllFit offset first ∧ F.AllFit (offset + (F.layout offset first).length) second := by
  induction first generalizing offset with
  | nil => simp [Framing.AllFit, Framing.layout]
  | cons a first ih =>
    simp only [List.cons_append, Framing.AllFit, ih, Framing.layout, length_append,
      Nat.add_assoc, and_assoc]

/-- A crash while consecutive records are being written keeps some of them whole and a
strict prefix of the next. -/
theorem prefix_layout {records : List α} {part : List β}
    (fit : F.AllFit offset records) (isPrefix : part <+: F.layout offset records) :
    ∃ kept rest torn, records = kept ++ rest ∧ part = F.layout offset kept ++ torn ∧
      F.Torn (offset + (F.layout offset kept).length) torn := by
  induction records generalizing offset part with
  | nil => exact ⟨[], [], [], rfl, by simpa [Framing.layout] using isPrefix, .inl rfl⟩
  | cons a records ih =>
    obtain ⟨fits, fit⟩ := fit
    by_cases whole : F.frame offset a <+: part
    · obtain ⟨part, rfl⟩ := whole
      simp only [Framing.layout, List.prefix_append_right_inj] at isPrefix
      obtain ⟨kept, rest, torn, rfl, rfl, isTorn⟩ := ih fit isPrefix
      refine ⟨a :: kept, rest, torn, rfl, ?_, ?_⟩
      · simp only [Framing.layout, append_assoc]
      · simpa only [Framing.layout, length_append, Nat.add_assoc] using isTorn
    · refine ⟨[], a :: records, part, rfl, rfl, .inr ⟨a, fits, ?_, ?_⟩⟩
      · exact (List.prefix_or_prefix_of_prefix isPrefix (List.prefix_append ..)).resolve_right whole
      · rintro rfl
        exact whole (List.prefix_refl _)

/-- The records that end within the first `limit` bytes. -/
def Framing.whole (F : Framing α β ε) (limit : Nat) : Nat → List α → List α
  | _, [] => []
  | offset, a :: records =>
    if offset + (F.frame offset a).length ≤ limit then
      a :: Framing.whole F limit (offset + (F.frame offset a).length) records
    else []

/-- What is in front of a cut: the records that end there, and a strict prefix of the next. -/
theorem take_layout {offset limit : Nat} {records : List α} (fit : F.AllFit offset records)
    (inside : offset ≤ limit) :
    F.AllFit offset (F.whole limit offset records) ∧
    ∃ torn, (F.layout offset records).take (limit - offset) =
        F.layout offset (F.whole limit offset records) ++ torn ∧
      F.Torn (offset + (F.layout offset (F.whole limit offset records)).length) torn := by
  induction records generalizing offset with
  | nil => exact ⟨trivial, [], by simp [Framing.layout, Framing.whole], .inl rfl⟩
  | cons a records ih =>
    obtain ⟨fits, fit⟩ := fit
    by_cases ends : offset + (F.frame offset a).length ≤ limit
    · obtain ⟨keptFit, torn, taken, isTorn⟩ := ih fit ends
      simp only [Framing.whole, if_pos ends, Framing.layout, append_assoc, length_append]
      refine ⟨⟨fits, keptFit⟩, torn, ?_, by rwa [← Nat.add_assoc]⟩
      rw [List.take_append, List.take_of_length_le (by omega), ← taken, Nat.sub_sub]
    · simp only [Framing.whole, if_neg ends, Framing.layout, List.nil_append, List.length_nil, Nat.add_zero]
      refine ⟨trivial, _, rfl, .inr ⟨a, fits, ?_, fun whole => ?_⟩⟩
      · rw [List.take_append_of_le_length (by omega)]
        exact List.take_prefix ..
      · have := congrArg List.length whole
        simp only [List.length_take, length_append] at this
        omega

/-- Whatever is behind them, the records in front are read first. -/
theorem scan_append {fuel offset : Nat} {records found : List α} {bytes unread : List β}
    (fit : F.AllFit offset records) (enough : (F.layout offset records ++ bytes).length ≤ fuel)
    (read : F.scan fuel offset (F.layout offset records ++ bytes) = .ok (found, unread)) : records <+: found := by
  induction records generalizing fuel offset found with
  | nil => exact List.nil_prefix
  | cons a records ih =>
    obtain ⟨fits, fit⟩ := fit
    have nonempty := List.length_pos_iff.mpr (frame_ne_nil fits)
    simp only [Framing.layout, append_assoc, length_append] at enough read
    cases fuel with
    | zero => omega
    | succ fuel =>
      simp only [Framing.scan, F.next_frame offset a _ fits, length_append, Nat.add_sub_cancel] at read
      split at read
      · rename_i scanned
        cases read
        exact List.prefix_cons_inj a |>.mpr (ih fit (by simp only [length_append]; omega) scanned)
      · contradiction

/-- Reading ends: more turns than there are bytes change nothing. -/
theorem scan_fuel {fuel offset : Nat} {bytes : List β} (enough : bytes.length ≤ fuel) :
    F.scan fuel offset bytes = F.readAll offset bytes := by
  suffices ∀ more, bytes.length ≤ more → F.scan fuel offset bytes = F.scan more offset bytes from
    this _ (Nat.le_refl _)
  induction fuel generalizing offset bytes with
  | zero =>
    intro more _
    obtain rfl := List.length_eq_zero_iff.mp (Nat.le_zero.mp enough)
    exact (scan_torn more (.inl rfl)).symm
  | succ fuel ih =>
    intro more enough'
    cases more with
    | zero =>
      obtain rfl := List.length_eq_zero_iff.mp (Nat.le_zero.mp enough')
      exact scan_torn _ (.inl rfl)
    | succ more =>
      cases is : F.next offset bytes with
      | record a rest =>
        have shorter := F.next_shorter offset bytes a rest is
        simp only [Framing.scan, is]
        rw [ih (by omega) more (by omega)]
      | _ => simp only [Framing.scan, is]

end FramedLog
