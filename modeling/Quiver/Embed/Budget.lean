import Quiver.Embed.Rebuild

/-!
The budget of data that is not yet checkpointed. Batches count what they write and checkpoint once it reaches the
budget; single points, documents and replicated rows are not counted.
-/

namespace Quiver.Embed

open Quiver.Core

def PointIn.size (p : PointIn) : Nat := p.vector.length * 4 + p.payload.length

/-- The size of the vectors and payloads that an event writes; nothing if it is refused. -/
def Database.wrote (cfg : Setting) (db : Database) : Event → Option Nat
  | .upsert collection point => (db.upsert cfg collection point).2.toOption.map fun _ => point.size
  | .upsertBatch collection points =>
    (db.upsertBatch cfg collection points).2.toOption.map fun _ => (points.map PointIn.size).sum
  | .upsertBulk collection points =>
    (db.upsertBulk cfg collection points).2.toOption.map fun _ => (points.map PointIn.size).sum
  | .upsertDocument collection doc =>
    (db.upsertDocument cfg collection doc).2.toOption.map fun _ =>
      (doc.vectors.map fun v => v.length * 4).sum + doc.payload.length
  | .replicate (.upsert k id vector payload) =>
    (db.applyReplicated cfg (.upsert k id vector payload)).2.toOption.map fun _ => vector.length + payload.length
  | _ => some 0

/-- A database with its budget. What was written since the last checkpoint is not known to it. -/
structure Budgeted where
  db : Database
  checkpointAfterBytes : Nat
  activeBytes : Nat := 0
  unsaved : Nat := 0

namespace Budgeted

def checkpoint (s : Budgeted) : Budgeted := { s with activeBytes := 0, unsaved := 0 }

def noteWritten (s : Budgeted) (added : Nat) : Budgeted :=
  let s := { s with activeBytes := min (s.activeBytes + added) (2 ^ 64 - 1) }
  if 0 < s.checkpointAfterBytes ∧ s.checkpointAfterBytes ≤ s.activeBytes then s.checkpoint else s

/-- One event. Only batches that were written are noted, and a database that is opened starts counting anew. -/
def act (cfg : Setting) (s : Budgeted) (event : Database.Event) : Budgeted :=
  match s.db.wrote cfg event with
  | none => { s with db := s.db.step cfg event }
  | some added =>
    let after := { s with db := s.db.step cfg event, unsaved := s.unsaved + added }
    match event with
    | .upsertBatch .. | .upsertBulk .. => after.noteWritten added
    | .reopen => { after with activeBytes := 0 }
    | _ => after

/-- The counter is what was written, and below the budget. -/
def Within (s : Budgeted) : Prop := s.activeBytes = s.unsaved ∧ s.unsaved < s.checkpointAfterBytes

end Budgeted

/-- A batch, or an event that writes neither vectors nor payloads and does not open the database. -/
def Database.Event.Counted : Event → Prop
  | .upsert .. | .upsertDocument .. | .replicate (.upsert ..) | .reopen => False
  | _ => True

namespace Budgeted

variable {cfg : Setting} {s : Budgeted}

theorem within_noteWritten {added : Nat} (counter : s.activeBytes + added = s.unsaved) (positive : 0 < s.checkpointAfterBytes)
    (usize : s.checkpointAfterBytes < 2 ^ 64) : (s.noteWritten added).Within := by
  unfold noteWritten
  dsimp only
  split
  case isTrue => exact ⟨rfl, positive⟩
  case isFalse below =>
    have small : min (s.activeBytes + added) (2 ^ 64 - 1) < s.checkpointAfterBytes := by
      by_contra large
      exact below ⟨positive, Nat.le_of_not_lt large⟩
    exact ⟨by dsimp only; omega, by dsimp only; omega⟩

theorem budget_noteWritten (added : Nat) : (s.noteWritten added).checkpointAfterBytes = s.checkpointAfterBytes := by
  unfold noteWritten
  dsimp only
  split <;> rfl

theorem Within.act (within : s.Within) (usize : s.checkpointAfterBytes < 2 ^ 64) {event : Database.Event}
    (counted : event.Counted) :
    (s.act cfg event).Within ∧ (s.act cfg event).checkpointAfterBytes = s.checkpointAfterBytes := by
  obtain ⟨counter, below⟩ := within
  unfold Budgeted.act
  split
  case h_1 => exact ⟨⟨counter, below⟩, rfl⟩
  case h_2 added wrote =>
    have same : s.activeBytes + added = s.unsaved + added := by rw [counter]
    dsimp only
    split
    case h_1 | h_2 => exact ⟨within_noteWritten same (Nat.zero_lt_of_lt below) usize, budget_noteWritten added⟩
    case h_3 => exact counted.elim
    case h_4 noBatch noBulk notReopened =>
      have nothing : added = 0 := by
        unfold Database.wrote at wrote
        split at wrote
        case h_1 | h_4 | h_5 => exact counted.elim
        case h_2 => exact absurd rfl (noBatch _ _)
        case h_3 => exact absurd rfl (noBulk _ _)
        case h_6 => exact (Option.some.inj wrote).symm
      rw [nothing]
      exact ⟨⟨counter, below⟩, rfl⟩

/-- For every budget and every run of counted events, less than the budget is not yet checkpointed. -/
theorem unsaved_below_budget (db : Database) {budget : Nat} (positive : 0 < budget) (usize : budget < 2 ^ 64)
    (events : List Database.Event) (counted : ∀ event ∈ events, event.Counted) :
    (events.foldl (act cfg) ⟨db, budget, 0, 0⟩).unsaved < budget := by
  suffices kept : ∀ s : Budgeted, s.Within → s.checkpointAfterBytes = budget →
      (events.foldl (act cfg) s).unsaved < budget from kept _ ⟨rfl, positive⟩ rfl
  induction events with
  | nil => exact fun s within isBudget => isBudget ▸ within.2
  | cons event events ih =>
    intro s within isBudget
    obtain ⟨within, same⟩ : (act cfg s event).Within ∧ _ :=
      within.act (isBudget ▸ usize) (counted event List.mem_cons_self)
    exact ih (fun e later => counted e (List.mem_cons_of_mem _ later)) _ within (same.trans isBudget)

theorem unsaved_below_budget_batch : ([.upsertBatch "c" [Database.linePoint "a"]].foldl (act .plain)
    ⟨Database.loadedWith "a", 4, 0, 0⟩).unsaved < 4 :=
  unsaved_below_budget _ (by decide) (by decide) _ (by simp [Database.Event.Counted])

/-- One point of four bytes, which is acknowledged and reaches the budget. -/
theorem single_point_not_counted :
    ((Database.loadedWith "a").upsert .plain "c" (Database.linePoint "b")).2 = .ok () ∧
      (act .plain ⟨Database.loadedWith "a", 4, 0, 0⟩ (.upsert "c" (Database.linePoint "b"))).unsaved = 4 := by
  decide +kernel

end Budgeted

end Quiver.Embed
