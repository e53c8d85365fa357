import Quiver.Embed.Overlay

/-!
The id map of a handle and the overlay of its snapshot grow together. An overlay entry is searched
under the number of slots before it; the id map gives it the number of ids before it. As long as
these agree, a batch is the sequence of its points.
-/

namespace Quiver.Embed

open Quiver.Core

theorem IdMap.internal_of_last {m : IdMap} {ext : String} {i : Nat} (here : m.ids[i]? = some ext)
    (last : ∀ j, i < j → m.ids[j]? ≠ some ext) : m.internal ext = some i := by
  obtain ⟨j, found⟩ := IdMap.internal_isSome (List.mem_of_getElem? here)
  have notLater : ¬i < j := fun later => last j later (IdMap.getElem?_of_internal found)
  obtain ⟨k, isFirst, rfl⟩ := Option.map_eq_some_iff.mp found
  obtain ⟨inside, _, first⟩ := List.idxOf?_eq_some_iff.mp isFirst
  obtain ⟨bound, isExt⟩ := List.getElem?_eq_some_iff.mp here
  rw [List.length_reverse] at inside
  have notEarlier : ¬m.ids.length - 1 - k < i := fun earlier => by
    refine first (m.ids.length - 1 - i) (by omega) ?_
    rw [List.getElem_reverse]
    simp only [show m.ids.length - 1 - (m.ids.length - 1 - i) = i by omega, isExt]
  rw [found]
  exact congrArg some (by omega)

namespace CollectionHandle

/-- The slots of the snapshot are the ids of the map. -/
def Lockstep (h : CollectionHandle) : Prop := h.idmap.ids = h.snapshot.exts

/-- The assertion made at each push: the id that the map gives out is the one the entry is searched
under, counted from the length of the base at the start. -/
def pushesAgree (baseLen : Nat) (s : Snapshot) (m : IdMap) : List (String × List F32) → Bool
  | [] => true
  | (ext, vector) :: points =>
    m.nextInternal == baseLen + s.upserts.length &&
      (let (s, m) := overlayPush s m [(ext, vector)]
      pushesAgree baseLen s m points)

/-- Whether a batch passes the assertions. -/
def overlayAgrees (h : CollectionHandle) (points : List (String × List F32)) : Bool :=
  pushesAgree h.snapshot.ids.length h.snapshot h.idmap points

def overlayUpsert (h : CollectionHandle) (ext : String) (vector : List F32) : CollectionHandle :=
  h.overlayUpsertBatch [(ext, vector)]

def overlayUpserts (h : CollectionHandle) (points : List (String × List F32)) : CollectionHandle :=
  points.foldl (fun h p => h.overlayUpsert p.1 p.2) h

/-- The overlay has reached the size that defers a rebuild. -/
def overlayCrowded (h : CollectionHandle) : Bool :=
  decide (overlayRebuildThreshold h.snapshot.ids.length ≤ h.snapshot.upserts.length)

variable {h : CollectionHandle}

theorem Lockstep.length (lockstep : h.Lockstep) :
    h.idmap.ids.length = h.snapshot.ids.length + h.snapshot.upserts.length := by
  rw [show h.idmap.ids = h.snapshot.exts from lockstep]
  simp [Snapshot.exts]

theorem Lockstep.internal (lockstep : h.Lockstep) {j : Nat} {ext : String} {v : List F32}
    (here : h.snapshot.upserts[j]? = some (ext, v)) (last : ∀ k w, j < k → h.snapshot.upserts[k]? ≠ some (ext, w)) :
    h.idmap.internal ext = some (h.snapshot.ids.length + j) := by
  have slot : ∀ k, h.idmap.ids[h.snapshot.ids.length + k]? = (h.snapshot.upserts[k]?).map Prod.fst := by
    intro k
    rw [show h.idmap.ids = h.snapshot.exts from lockstep, Snapshot.exts, List.getElem?_append_right (Nat.le_add_right ..),
      Nat.add_sub_cancel_left, List.getElem?_map]
  have isExt : h.idmap.ids[h.snapshot.ids.length + j]? = some ext := by rw [slot, here]; rfl
  refine IdMap.internal_of_last isExt fun i later isExt' => ?_
  obtain ⟨k, rfl⟩ : ∃ k, i = h.snapshot.ids.length + k := ⟨i - h.snapshot.ids.length, by omega⟩
  rw [slot, Option.map_eq_some_iff] at isExt'
  obtain ⟨⟨_, w⟩, there, rfl⟩ := isExt'
  exact last k w (by omega) there

theorem overlayPush_cons (s : Snapshot) (m : IdMap) (p : String × List F32) (points : List (String × List F32)) :
    overlayPush s m (p :: points) = overlayPush (overlayPush s m [p]).1 (overlayPush s m [p]).2 points := rfl

theorem overlayPush_one (s : Snapshot) (m : IdMap) (p : String × List F32) :
    (overlayPush s m [p]).1.ids = s.ids ∧ (overlayPush s m [p]).1.upserts = s.upserts ++ [p] ∧
      (overlayPush s m [p]).2.ids = m.ids ++ [p.1] :=
  ⟨rfl, rfl, rfl⟩

theorem overlayPush_spec (s : Snapshot) (m : IdMap) (points : List (String × List F32)) :
    (overlayPush s m points).1.ids = s.ids ∧ (overlayPush s m points).1.upserts = s.upserts ++ points ∧
      (overlayPush s m points).2.ids = m.ids ++ points.map Prod.fst := by
  induction points generalizing s m with
  | nil => simp [overlayPush]
  | cons p points ih =>
    obtain ⟨base, upserts, ids⟩ := ih (overlayPush s m [p]).1 (overlayPush s m [p]).2
    obtain ⟨base', upserts', ids'⟩ := overlayPush_one s m p
    rw [overlayPush_cons, base, upserts, ids, base', upserts', ids']
    simp

theorem pushesAgree_of_lockstep {s : Snapshot} {m : IdMap} (lockstep : m.ids = s.exts) (points : List (String × List F32)) :
    pushesAgree s.ids.length s m points = true := by
  induction points generalizing s m with
  | nil => rfl
  | cons p points ih =>
    obtain ⟨base, upserts, ids⟩ := overlayPush_one s m p
    have after : (overlayPush s m [p]).2.ids = (overlayPush s m [p]).1.exts := by
      rw [Snapshot.exts, base, upserts, ids, lockstep, Snapshot.exts]
      simp
    have held := ih after
    rw [base] at held
    have next : m.nextInternal = s.ids.length + s.upserts.length := by
      rw [IdMap.nextInternal, lockstep]
      simp [Snapshot.exts]
    simp only [pushesAgree, next, beq_self_eq_true, Bool.true_and]
    exact held

theorem lockstep_overlayUpsertBatch (lockstep : h.Lockstep) (points : List (String × List F32)) :
    (h.overlayUpsertBatch points).Lockstep := by
  obtain ⟨base, upserts, ids⟩ := overlayPush_spec h.snapshot h.idmap points
  change (overlayPush h.snapshot h.idmap points).2.ids = (overlayPush h.snapshot h.idmap points).1.exts
  rw [Snapshot.exts, base, upserts, ids, show h.idmap.ids = h.snapshot.exts from lockstep, Snapshot.exts]
  simp

theorem lockstep_overlayDelete (lockstep : h.Lockstep) (ext : String) : (h.overlayDelete ext).Lockstep := by
  unfold overlayDelete
  split <;> exact lockstep

section

variable (h) (points : List (String × List F32))

theorem overlayUpsertBatch_cons (p : String × List F32) (points : List (String × List F32)) :
    (h.overlayUpsertBatch (p :: points)).idmap = ((h.overlayUpsert p.1 p.2).overlayUpsertBatch points).idmap ∧
      (h.overlayUpsertBatch (p :: points)).snapshot = ((h.overlayUpsert p.1 p.2).overlayUpsertBatch points).snapshot :=
  ⟨rfl, rfl⟩

theorem stale_overlayUpsertBatch :
    (h.overlayUpsertBatch points).stale = (h.stale || (h.overlayUpsertBatch points).overlayCrowded) := rfl

theorem overlayCrowded_mono (crowded : h.overlayCrowded = true) :
    (h.overlayUpsertBatch points).overlayCrowded = true := by
  obtain ⟨base, upserts, _⟩ := overlayPush_spec h.snapshot h.idmap points
  have before := of_decide_eq_true crowded
  refine decide_eq_true ?_
  change overlayRebuildThreshold (overlayPush h.snapshot h.idmap points).1.ids.length ≤
    (overlayPush h.snapshot h.idmap points).1.upserts.length
  rw [base, upserts, List.length_append]
  exact Nat.le_trans before (Nat.le_add_right _ _)

theorem overlayUpserts_eq :
    (h.overlayUpserts points).idmap = (h.overlayUpsertBatch points).idmap ∧
      (h.overlayUpserts points).snapshot = (h.overlayUpsertBatch points).snapshot := by
  induction points generalizing h with
  | nil => exact ⟨rfl, rfl⟩
  | cons p points ih =>
    obtain ⟨idmap, snapshot⟩ := ih (h.overlayUpsert p.1 p.2)
    obtain ⟨idmap', snapshot'⟩ := h.overlayUpsertBatch_cons p points
    exact ⟨idmap.trans idmap'.symm, snapshot.trans snapshot'.symm⟩

variable {points} in
theorem stale_overlayUpserts (some : points ≠ []) :
    (h.overlayUpserts points).stale = (h.stale || (h.overlayUpsertBatch points).overlayCrowded) := by
  induction points generalizing h with
  | nil => contradiction
  | cons p points ih =>
    cases points with
    | nil => rfl
    | cons q points =>
      have later : (h.overlayUpserts (p :: q :: points)).stale = ((h.overlayUpsert p.1 p.2).stale ||
          ((h.overlayUpsert p.1 p.2).overlayUpsertBatch (q :: points)).overlayCrowded) := ih _ (List.cons_ne_nil q points)
      rw [later, overlayUpsert, stale_overlayUpsertBatch, Bool.or_assoc]
      -- The first point crowds the overlay only if the whole batch does.
      have absorbed := (h.overlayUpsert p.1 p.2).overlayCrowded_mono (q :: points)
      change (h.stale || ((h.overlayUpsert p.1 p.2).overlayCrowded ||
        ((h.overlayUpsert p.1 p.2).overlayUpsertBatch (q :: points)).overlayCrowded)) =
        (h.stale || ((h.overlayUpsert p.1 p.2).overlayUpsertBatch (q :: points)).overlayCrowded)
      cases crowded : (h.overlayUpsert p.1 p.2).overlayCrowded with
      | false => rw [Bool.false_or]
      | true => rw [absorbed crowded, Bool.true_or]

theorem stale_overlayUpserts_mono (stale : h.stale = true) :
    (h.overlayUpserts points).stale = true := by
  induction points generalizing h with
  | nil => exact stale
  | cons p points ih =>
    refine ih (h.overlayUpsertBatch [p]) ?_
    rw [stale_overlayUpsertBatch, stale, Bool.true_or]

theorem stale_overlayUpserts_take :
    (h.overlayUpserts points).stale = true ↔ ∃ n ≤ points.length, (h.overlayUpserts (points.take n)).stale = true := by
  constructor
  · intro stale
    exact ⟨points.length, Nat.le_refl _, by rw [List.take_length]; exact stale⟩
  · rintro ⟨n, _, stale⟩
    have whole : h.overlayUpserts points = (h.overlayUpserts (points.take n)).overlayUpserts (points.drop n) := by
      rw [overlayUpserts, overlayUpserts, overlayUpserts, ← List.foldl_append, List.take_append_drop]
    rw [whole]
    exact stale_overlayUpserts_mono _ _ stale

end

/-- An overlay that has reached the threshold has raised the flag. -/
def Flagged (h : CollectionHandle) : Prop := h.overlayCrowded = true → h.stale = true

theorem flagged_of_no_overlay (none : h.snapshot.upserts = []) : h.Flagged := by
  intro crowded
  simp [overlayCrowded, overlayRebuildThreshold, none] at crowded

theorem flagged_publishIfServed (served : h.mvccServed = true) : h.publishIfServed.Flagged := by
  rw [publishIfServed, if_pos served]
  exact flagged_of_no_overlay rfl

theorem flagged_overlayUpsertBatch (h : CollectionHandle) (points : List (String × List F32)) :
    (h.overlayUpsertBatch points).Flagged := by
  intro crowded
  rw [stale_overlayUpsertBatch, crowded, Bool.or_true]

theorem flagged_overlayDelete (flagged : h.Flagged) (ext : String) : (h.overlayDelete ext).Flagged := by
  unfold overlayDelete
  split <;> exact flagged

end CollectionHandle

end Quiver.Embed
