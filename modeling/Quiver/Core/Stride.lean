import Quiver.Core.History

/-!
The rows of a collection have its stride, as long as replicated rows do: what a client writes is checked, what
a leader sends is not, and one row of another length shifts those behind it in a sealed segment.
-/

namespace Quiver.Core

open FileSystem

variable (encoding : Encoding) (ring : KeyRing)

/-- A command with the operations it logs, or an operation of a leader. -/
inductive Mutation where
  | command (command : Command) (ops : List WalOp)
  | applyReplicated (op : WalOp) (entropy : Key)

def Mutation.ops : Mutation → List WalOp
  | .command _ ops => ops
  | .applyReplicated op _ => [op]

def Opened.applyReplicated (t : Opened) (op : WalOp) (entropy : Key) : Opened :=
  ⟨(t.store.applyReplicated encoding t.dir op entropy .ok).store,
    applyAll t.dir (t.store.applyReplicated encoding t.dir op entropy .ok).effects⟩

inductive Opened.Mutates : Opened → Mutation → Opened → Prop
  | command {t t' c} (stepped : Opened.Step encoding ring t c t') : Mutates t (.command c (c.ops encoding t.store)) t'
  | applyReplicated {t} (op : WalOp) (entropy : Key) :
      Mutates t (.applyReplicated op entropy) (t.applyReplicated encoding op entropy)

/-- A replicated operation is one that a leader with the same collections may log. -/
def Mutation.Admitted (t : Opened) : Mutation → Prop
  | .command .. => True
  | .applyReplicated op _ => op.Admitted encoding t.store

/-- An upsert among the operations of a run. -/
def Wrote (mutations : List Mutation) (k : CollectionId) (id : String) (vector : List F32) : Prop :=
  ∃ bytes payload, .upsert k id bytes payload ∈ mutations.flatMap Mutation.ops ∧ leBytesToF32 bytes = vector

variable {encoding ring} {start t : Opened} {mutations : List Mutation}

theorem Standing.mutated {t' : Opened} {mutation : Mutation} {img : Image} {mem : Logical}
    (standing : Standing encoding ring t.store t.dir img mem) (admitted : mutation.Admitted encoding t)
    (stepped : Opened.Mutates encoding ring t mutation t') :
    ∃ img' mem', Standing encoding ring t'.store t'.dir img' mem' ∧
      ∀ {W}, img.Only W mem → (∀ op ∈ mutation.ops, op.Only W) → img'.Only W mem' := by
  cases stepped with
  | command stepped => exact standing.step stepped
  | applyReplicated op entropy =>
    obtain ⟨img', mem', after, kept⟩ := standing.handled
      (standing.running.handles_replicated (n := t.store.nextLsn) standing.keyFiles admitted entropy)
      (LogsOnly.call encoding t.store t.dir .ok (.applyReplicated op entropy))
    refine ⟨img', mem', after, fun only among => kept only fun op' member => among op' ?_⟩
    cases op with
    | checkpoint => contradiction
    | _ => exact member

/-- Every row has the stride of its collection, so a sealed segment reads back the rows it was made of, and a
live one has a vector that was written under its id. -/
theorem rows_have_stride (opened : (openWithKeyring encoding ring).run ∅ = (start.dir, .ok start.store))
    (run : Run.Reaches (Run.Guarded (Mutation.Admitted encoding) (Opened.Mutates encoding ring)) start mutations t)
    {k : CollectionId} {c : CollectionState} (found : t.store.catalog.collections[k]? = some c) :
    (∀ a ∈ c.active, a.vector.length = c.stride) ∧ ∃ rows : List (List SealRow),
      List.Forall₂ (fun seg ids => seg.Holds c.stride ids) c.sealed rows ∧
      (∀ ids ∈ rows, ∀ r ∈ ids, r.vector.length = c.stride) ∧
      ∀ seg row r, c.LiveAt rows seg row r → Wrote mutations k r.externalId (leBytesToF32 r.vector) := by
  obtain ⟨img, mem, standing, only⟩ : ∃ img mem, Standing encoding ring t.store t.dir img mem ∧
      img.Only (Wrote mutations) mem := by
    refine run.invariant (fun done t => (∀ op ∈ done.flatMap Mutation.ops, op.Only (Wrote mutations)) →
      ∃ img mem, Standing encoding ring t.store t.dir img mem ∧ img.Only (Wrote mutations) mem) ?_ ?_ ?_
    · intro _
      obtain ⟨files, mem, standing, tail, pending⟩ := Standing.fresh opened
      refine ⟨_, mem, standing, standing.only_settled tail pending ⟨fun held => ?_⟩⟩
      rw [← standing.settled tail pending] at held
      simp [Image.initial, Logical.empty] at held
    · rintro done t mutation t' before ⟨admitted, stepped⟩ among
      rw [List.flatMap_append, List.forall_mem_append] at among
      obtain ⟨img, mem, standing, only⟩ := before among.1
      obtain ⟨img', mem', after, kept⟩ := standing.mutated admitted stepped
      exact ⟨img', mem', after, kept only (by simpa using among.2)⟩
    · intro op member
      cases op with
      | upsert k id bytes payload => exact ⟨bytes, payload, member, rfl⟩
      | _ => trivial
  obtain ⟨e, held, stands⟩ := standing.running.represents.some_left found
  obtain ⟨rows, inv, contains⟩ := stands.points
  refine ⟨inv.activeStride, rows, inv.held, inv.sealedStride, ?_⟩
  intro seg row r live
  exact only.memory.written held ((contains r.externalId r.record).mpr (.sealed live rfl))

def replicatedRow (id : String) (vector : List F32) : WalOp := .upsert 0 id (f32ToLeBytes vector) []

theorem rows_have_stride_replicated : ∃ (start t : Opened) (c : CollectionState),
    (openWithKeyring .plain .envelope).run ∅ = (start.dir, .ok start.store) ∧
      t = (start.serve .plain createOne).applyReplicated .plain (replicatedRow "a" [1]) default ∧
      t.store.catalog.collections[0]? = some c ∧ ∀ a ∈ c.active, a.vector.length = c.stride := by
  have evaluated : ((openWithKeyring .plain .envelope).run ∅).2.toOption.bind (fun s =>
      let t := (Opened.mk s ((openWithKeyring .plain .envelope).run ∅).1).serve .plain createOne
      t.store.catalog.collections[0]?.bind fun c =>
        ((t.applyReplicated .plain (replicatedRow "a" [1]) default).store.catalog.collections[0]?).map fun _ =>
          c.stride) = some 4 := by
    decide +kernel
  obtain ⟨s, isOk, evaluated⟩ := Option.bind_eq_some_iff.mp evaluated
  obtain ⟨c, held, evaluated⟩ := Option.bind_eq_some_iff.mp evaluated
  obtain ⟨c', found, stride⟩ := Option.map_eq_some_iff.mp evaluated
  have opened := Prog.run_of_toOption isOk
  have run : Run.Reaches (Run.Guarded (Mutation.Admitted .plain) (Opened.Mutates .plain .envelope)) ⟨s, _⟩
      [.command (.request createOne) _, .applyReplicated (replicatedRow "a" [1]) default] _ :=
    .next (.next .refl ⟨trivial, .command (.request createOne)⟩) ⟨⟨c, held, stride.symm⟩, .applyReplicated _ _⟩
  exact ⟨_, _, c', opened, rfl, found, (rows_have_stride opened run found).1⟩

/-- A row of two words is replicated into a collection of one: in the sealed segment the row behind it is read
as its second word. -/
theorem replicated_row_shifts : ((openWithKeyring .plain .envelope).run ∅).2.toOption.bind (fun s =>
    let t := ((Opened.mk s ((openWithKeyring .plain .envelope).run ∅).1).serve .plain createOne)
    let t := (t.applyReplicated .plain (replicatedRow "a" [1, 2]) default).applyReplicated .plain
      (replicatedRow "b" [3]) default
    ((t.store.checkpointWithIndexSnapshots .plain ∅).run t.dir).2.toOption.bind fun s' =>
      s'.catalog.collections[0]?.map fun c => (c.sealed.length, c.stride, (c.get "b").toOption.join.map (·.vector))) =
    some (1, 4, some [2]) := by
  decide +kernel

end Quiver.Core
