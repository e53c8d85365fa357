import Quiver.Embed.Loaded
import Quiver.Replication.Convergence

/-!
Replay over a newer state. A database that has applied a log up to some operation applies it
again from an earlier one, and ends where applying the log once ends.
-/

namespace Quiver.Replication

open Quiver.Core Embed
open Std (ExtTreeMap)

/-- The operation is about this collection. -/
def Mentions (k : CollectionId) : WalOp → Prop
  | .createCollection j _ _ | .dropCollection j | .upsert j _ _ _ | .delete j _ => j = k
  | .checkpoint .. => False

section Replay

variable (cfg : Setting)

/-- Apply the operations of a log; what is refused is left out. -/
def replay (db : Embed.Database) (ops : List WalOp) : Embed.Database :=
  ops.foldl (fun db op => (db.applyReplicated cfg op).1) db

/-- Every create has an id that the log has not used before and a name that is not live. -/
def WellFormedLog (log : List WalOp) : Prop :=
  ∀ before k name bytes after, log = before ++ .createCollection k name bytes :: after →
    (∀ op ∈ before, ¬ Mentions k op) ∧ (replay cfg {} before).logical.names[name]? = none

def accepted (op : WalOp) : Bool :=
  decide (cfg.recordLen op ≤ maxRecordBytes) &&
    match op with
    | .createCollection _ _ bytes => (cfg.encoding.decodeDescriptor bytes).isSome
    | _ => true

end Replay

variable {cfg : Setting} {db : Embed.Database} {e : Engine} {op : WalOp} {ops log : List WalOp}

/-- The engine that a database stands for: its content, and the collections its handles are of. -/
structure StandsFor (db : Embed.Database) (e : Engine) : Prop where
  logical : db.logical = e.logical
  handles : ∀ name : String, db.handles[name]?.map CollectionHandle.id = e.handles[name]?

theorem StandsFor.loaded (stands : StandsFor db e) (name : String) : name ∈ db.handles ↔ name ∈ e.handles := by
  have same := stands.handles name
  rw [ExtTreeMap.mem_iff_isSome_getElem?, ExtTreeMap.mem_iff_isSome_getElem?, ← same, Option.isSome_map]

theorem storeLog_of_fits (l : Logical) (fits : cfg.recordLen op ≤ maxRecordBytes) :
    storeLog cfg l [op] = .ok (l.apply cfg.encoding op) := by
  have checked : checkRecord cfg op = .ok () := by
    rw [checkRecord, if_neg (Nat.not_lt.mpr fits)]
  simp [storeLog, checked, bind, Except.bind, pure, Except.pure]

theorem storeLog_of_large (l : Logical) (large : ¬ cfg.recordLen op ≤ maxRecordBytes) :
    ∃ error, storeLog cfg l [op] = .error error := by
  have checked : ∃ error, checkRecord cfg op = .error error := by
    rw [checkRecord, if_pos (Nat.not_le.mp large)]
    exact ⟨_, rfl⟩
  obtain ⟨error, checked⟩ := checked
  exact ⟨error, by simp [storeLog, checked, bind, Except.bind]⟩

theorem accepted_iff : accepted cfg op = true ↔ cfg.recordLen op ≤ maxRecordBytes ∧
    ∀ k name bytes, op = .createCollection k name bytes → ∃ descriptor, cfg.encoding.decodeDescriptor bytes = some descriptor := by
  unfold accepted
  rw [Bool.and_eq_true, decide_eq_true_eq]
  refine and_congr_right fun _ => ?_
  cases op with
  | createCollection k name bytes =>
    constructor
    · rintro decodes _ _ _ ⟨⟩
      exact Option.isSome_iff_exists.mp decodes
    · exact fun decodes => Option.isSome_iff_exists.mpr (decodes k name bytes rfl)
  | _ => simp

theorem StandsFor.marked (stands : StandsFor db e) (k : CollectionId) (l : Logical) :
    StandsFor { db with
        logical := l
        handles := db.handles.map fun _ h => if h.id = k then h.markStale else h }
      { e with logical := l } := by
  refine ⟨rfl, fun name => ?_⟩
  rw [ExtTreeMap.getElem?_map, ← stands.handles]
  cases db.handles[name]? with
  | none => rfl
  | some h => by_cases same : h.id = k <;> simp [same, CollectionHandle.markStale, CollectionHandle.bumpWriteGen]

theorem StandsFor.apply (stands : StandsFor db e) (accepts : accepted cfg op = true) :
    StandsFor (db.applyReplicated cfg op).1 (e.applyReplicated cfg.encoding op) := by
  obtain ⟨fits, decodes⟩ := accepted_iff.mp accepts
  have stored := storeLog_of_fits db.logical fits
  cases op with
  | checkpoint lsn version => exact stands
  | createCollection k name bytes =>
    by_cases loaded : name ∈ db.handles
    · have loaded' := (stands.loaded name).mp loaded
      simp only [Embed.Database.applyReplicated, Engine.applyReplicated, if_pos loaded, if_pos loaded']
      exact stands
    · have loaded' := mt (stands.loaded name).mpr loaded
      obtain ⟨descriptor, decoded⟩ := decodes k name bytes rfl
      simp only [Embed.Database.applyReplicated, Engine.applyReplicated, if_neg loaded, if_neg loaded', stored, decoded]
      refine ⟨by rw [← stands.logical]; rfl, fun other => ?_⟩
      change ((db.handles.insert name _)[other]?).map _ = _
      rw [ExtTreeMap.getElem?_insert, ExtTreeMap.getElem?_insert, ← stands.handles]
      split <;> rfl
  | dropCollection k =>
    simp only [Embed.Database.applyReplicated, Engine.applyReplicated, stored]
    refine ⟨by rw [stands.logical], fun name => ?_⟩
    rw [ExtTreeMap.getElem?_filter', ExtTreeMap.getElem?_filter', ← stands.handles]
    cases db.handles[name]? with
    | none => rfl
    | some h => by_cases same : h.id = k <;> simp [Option.filter, same]
  | upsert k id vector payload | delete k id =>
    simp only [Embed.Database.applyReplicated, Engine.applyReplicated, stored, ← stands.logical]
    exact stands.marked k _

theorem StandsFor.refuse (stands : StandsFor db e) (refuses : accepted cfg op = false) :
    StandsFor (db.applyReplicated cfg op).1 e := by
  have missing : ¬ (cfg.recordLen op ≤ maxRecordBytes ∧ ∀ k name bytes, op = .createCollection k name bytes →
      ∃ descriptor, cfg.encoding.decodeDescriptor bytes = some descriptor) := by
    rw [← accepted_iff, refuses]
    exact Bool.false_ne_true
  cases op with
  | checkpoint lsn version => exact stands
  | createCollection k name bytes =>
    by_cases loaded : name ∈ db.handles
    · simp only [Embed.Database.applyReplicated, if_pos loaded]
      exact stands
    · simp only [Embed.Database.applyReplicated, if_neg loaded]
      by_cases fits : cfg.recordLen (.createCollection k name bytes) ≤ maxRecordBytes
      · cases decoded : cfg.encoding.decodeDescriptor bytes with
        | none =>
          simp only [storeLog_of_fits _ fits]
          exact ⟨stands.logical, stands.handles⟩
        | some descriptor =>
          refine absurd ⟨fits, ?_⟩ missing
          rintro _ _ _ ⟨⟩
          exact ⟨descriptor, decoded⟩
      · obtain ⟨error, failed⟩ := storeLog_of_large db.logical fits
        simp only [failed]
        exact ⟨stands.logical, stands.handles⟩
  | dropCollection k | upsert k id vector payload | delete k id =>
    obtain ⟨error, failed⟩ := storeLog_of_large db.logical fun fits => missing ⟨fits, fun _ _ _ isCreate => by cases isCreate⟩
    simp only [Embed.Database.applyReplicated, failed]
    exact stands

theorem StandsFor.replay (cfg : Setting) (stands : StandsFor db e) (ops : List WalOp) :
    StandsFor (Replication.replay cfg db ops) (e.applyAll cfg.encoding (ops.filter (accepted cfg))) := by
  induction ops generalizing db e with
  | nil => exact stands
  | cons op ops ih =>
    cases accepts : accepted cfg op with
    | true =>
      rw [List.filter_cons_of_pos accepts]
      exact ih (stands.apply accepts)
    | false =>
      rw [List.filter_cons_of_neg (by simp [accepts])]
      exact ih (stands.refuse accepts)

theorem standsFor_empty : StandsFor {} Engine.empty := ⟨rfl, fun name => by simp [Engine.empty]⟩

theorem mentions_of_creates {k : CollectionId} (creates : op.Creates k) : Mentions k op := by
  cases op with
  | createCollection j name bytes => exact creates
  | _ => exact creates.elim

theorem WellFormedLog.created_before (wellFormed : WellFormedLog cfg log) {before after : List WalOp} {k : CollectionId}
    (isLog : log = before ++ op :: after) (mentions : Mentions k op) (isOld : ¬ op.Creates k)
    (created : Created (log.filter (accepted cfg)) k) : Created (before.filter (accepted cfg)) k := by
  obtain ⟨create, member, creates⟩ := created
  obtain ⟨member, accepts⟩ := List.mem_filter.mp member
  rw [isLog] at member
  obtain earlier | rfl | later := (List.mem_append.trans (or_congr_right List.mem_cons)).mp member
  · exact ⟨create, List.mem_filter.mpr ⟨earlier, accepts⟩, creates⟩
  · exact absurd creates isOld
  · obtain ⟨middle, rest, rfl⟩ := List.append_of_mem later
    cases create with
    | createCollection j name bytes =>
      cases creates
      have split : log = (before ++ op :: middle) ++ .createCollection k name bytes :: rest := by simp [isLog]
      exact absurd mentions ((wellFormed _ k name bytes _ split).1 op (by simp))
    | _ => exact creates.elim

/-- What the store accepts of a well-formed log. The ids that it never creates count as used. -/
theorem WellFormedLog.ordered (wellFormed : WellFormedLog cfg log) {before after : List WalOp} (isLog : log = before ++ after) :
    Logical.empty.Ordered cfg.encoding (fun k => ¬ Created (log.filter (accepted cfg)) k) (before.filter (accepted cfg)) := by
  induction before using List.reverseRecOn generalizing after with
  | nil => trivial
  | append_singleton before op ih =>
    have split : log = before ++ op :: after := by simp [isLog]
    have ordered := ih split
    rw [List.filter_append]
    cases accepts : accepted cfg op with
    | false => simpa [accepts] using ordered
    | true =>
      rw [List.filter_cons_of_pos accepts, List.filter_nil]
      refine Logical.Ordered.append_iff.mpr ⟨ordered, ?_, trivial⟩
      have used : ∀ k, Mentions k op → ¬ op.Creates k →
          ¬ Created (log.filter (accepted cfg)) k ∨ Created (before.filter (accepted cfg)) k := by
        intro k mentions isOld
        by_cases created : Created (log.filter (accepted cfg)) k
        · exact .inr (wellFormed.created_before split mentions isOld created)
        · exact .inl created
      cases op with
      | checkpoint lsn version => trivial
      | createCollection k name bytes =>
        obtain ⟨unmentioned, free⟩ := wellFormed before k name bytes after split
        refine ⟨?_, (accepted_iff.mp accepts).2 k name bytes rfl, ?_⟩
        · rintro (never | ⟨create, member, creates⟩)
          · refine never ⟨_, List.mem_filter.mpr ⟨?_, accepts⟩, rfl⟩
            simp [split]
          · exact unmentioned create (List.mem_filter.mp member).1 (mentions_of_creates creates)
        · have followed := (Engine.wellFormed_empty.follows Logical.known_empty ordered).1
          have stands := standsFor_empty.replay cfg before
          rw [stands.logical, followed] at free
          exact free
      | dropCollection k => exact used k rfl id
      | upsert k id vector payload | delete k id => exact used k rfl fun creates => creates

theorem twice_converges {encoding : Encoding} {used : CollectionId → Prop} {first twice rest : List WalOp}
    (ordered : Logical.empty.Ordered encoding used (first ++ (twice ++ rest))) :
    ((Engine.empty.applyAll encoding (first ++ twice)).applyAll encoding (twice ++ rest)).logical =
        (Engine.empty.applyAll encoding (first ++ (twice ++ rest))).logical ∧
      ((Engine.empty.applyAll encoding (first ++ twice)).applyAll encoding (twice ++ rest)).WellFormed ∧
      (Engine.empty.applyAll encoding (first ++ (twice ++ rest))).WellFormed := by
  obtain ⟨onceLogical, onceWf⟩ := Engine.wellFormed_empty.follows Logical.known_empty ordered
  have reached : Logical.empty.Ordered encoding used (first ++ twice) := by
    rw [← List.append_assoc] at ordered
    exact (Logical.Ordered.append_iff.mp ordered).1
  obtain ⟨reachedLogical, reachedWf⟩ := Engine.wellFormed_empty.follows Logical.known_empty reached
  obtain ⟨before, after⟩ := Logical.Ordered.append_iff.mp ordered
  obtain ⟨indexed, known⟩ := before.applyAll Logical.indexed_empty Logical.known_empty
  have ahead := Ahead.of_take indexed known after
  rw [← Logical.applyAll_append] at ahead
  change _ = Logical.empty.applyAll encoding (first ++ twice) at reachedLogical
  rw [← reachedLogical] at ahead
  obtain ⟨final, wf⟩ := ahead.converges reachedWf indexed known after
  refine ⟨?_, wf, onceWf⟩
  rw [final, onceLogical, ← Logical.applyAll_append]
  rfl

/-- Applying a log again, from any operation that the database has reached, ends where applying it once ends. -/
theorem replay_converges (wellFormed : WellFormedLog cfg log) {i j : Nat} (order : i ≤ j) :
    (replay cfg (replay cfg {} (log.take j)) (log.drop i)).logical = (replay cfg {} log).logical ∧
      ∀ name : String, (replay cfg (replay cfg {} (log.take j)) (log.drop i)).handles[name]?.map CollectionHandle.id =
        (replay cfg {} log).handles[name]?.map CollectionHandle.id := by
  -- The log in three parts: before the replay starts, what is applied twice, and the rest.
  obtain ⟨first, twice, rest, rfl, isReached, isLeft⟩ : ∃ first twice rest, log = first ++ (twice ++ rest) ∧
      log.take j = first ++ twice ∧ log.drop i = twice ++ rest := by
    refine ⟨log.take i, (log.drop i).take (j - i), log.drop j, ?_, ?_, ?_⟩
    · rw [← List.append_assoc, ← List.take_add, Nat.add_sub_cancel' order, List.take_append_drop]
    · rw [← List.take_add, Nat.add_sub_cancel' order]
    · rw [← Nat.add_sub_cancel' order, ← List.drop_drop, Nat.add_sub_cancel' order, List.take_append_drop]
  rw [isReached, isLeft]
  have once := standsFor_empty.replay cfg (first ++ (twice ++ rest))
  have again := (standsFor_empty.replay cfg (first ++ twice)).replay cfg (twice ++ rest)
  have ordered := wellFormed.ordered (List.append_nil _).symm
  simp only [List.filter_append] at once again ordered
  obtain ⟨same, wf, onceWf⟩ := twice_converges ordered
  refine ⟨by rw [again.logical, once.logical, same], fun name => ?_⟩
  rw [again.handles, once.handles, wf.handles, onceWf.handles, same]

def createFirst (k : CollectionId) : WalOp :=
  .createCollection k "a" (Encoding.plain.descriptor.encode { dim := 1, metric := .l2 })

/-- A collection is dropped, created again under its name, and written. -/
def recreated : List WalOp :=
  [createFirst 0, .upsert 0 "p" [0, 0, 0, 0] [1], .dropCollection 0, createFirst 1, .upsert 1 "q" [0, 0, 0, 0] [2]]

theorem wellFormed_recreated : WellFormedLog .plain recreated := by
  intro before k name bytes after isLog
  rcases before with _ | ⟨_, _ | ⟨_, _ | ⟨_, _ | ⟨_, _ | ⟨_, before⟩⟩⟩⟩⟩
  · cases isLog
    exact ⟨by simp, by decide +kernel⟩
  · cases isLog
  · cases isLog
  · cases isLog
    exact ⟨by simp [createFirst, Mentions], by decide +kernel⟩
  · cases isLog
  · simp [recreated] at isLog

theorem replay_converges_recreated : (replay .plain (replay .plain {} (recreated.take 4)) (recreated.drop 1)).logical =
    (replay .plain {} recreated).logical :=
  (replay_converges wellFormed_recreated (by decide : 1 ≤ 4)).1

end Quiver.Replication
