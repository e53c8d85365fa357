import Quiver.Embed.Steps

/-!
Rebuilds off the lock. The rows are captured under the read lock, the index is built without one and
installed by the collection's name. Whether it is current is decided by the handle's write
generation, which starts anew with each incarnation.
-/

namespace Quiver.Embed

open Quiver.Core Results
open Std (ExtTreeMap)

def RebuiltKind.index : RebuiltKind → LiveIndex
  | ready index | disk _ _ index => index

variable {cfg : Setting}

theorem RebuildInputs.build_spec {inputs : RebuildInputs} {rebuilt : RebuiltIndex}
    (built : inputs.build = .ok rebuilt) :
    rebuilt.collection = inputs.collection ∧
      rebuilt.kind.index = builtIndex inputs.descriptor inputs.scan.vectors ∧
      rebuilt.intToExt = inputs.scan.intToExt ∧ rebuilt.docs = inputs.scan.docs ∧
      rebuilt.sparse = inputs.scan.sparse ∧ rebuilt.writeGen = inputs.writeGen := by
  obtain ⟨kind, made, rest⟩ := bind_eq_ok.mp built
  cases rest
  refine ⟨rfl, ?_, rfl, rfl, rfl, rfl⟩
  unfold buildKind at made
  dsimp only at made
  split at made
  · obtain ⟨_, _, last⟩ := bind_eq_ok.mp made
    cases last
    rfl
  · obtain ⟨_, _, last⟩ := bind_eq_ok.mp made
    cases last
    rfl

/-- The rebuilt data is that of the given rows. -/
structure RebuiltIndex.Of (cfg : Setting) (rebuilt : RebuiltIndex) (descriptor : Descriptor)
    (points : ExtTreeMap String Record) : Prop where
  index : rebuilt.kind.index = builtIndex descriptor (scanCollection cfg descriptor points).vectors
  ids : rebuilt.intToExt = (scanCollection cfg descriptor points).intToExt
  docs : rebuilt.docs = (scanCollection cfg descriptor points).docs
  sparse : rebuilt.sparse = (scanCollection cfg descriptor points).sparse

theorem CollectionHandle.install_cleared {h : CollectionHandle} {r : RebuiltIndex}
    (cleared : (h.install r).1 = .ok false ∨ h.stale = true ∧ (h.install r).2.stale = false) :
    h.writeGen % 2 ^ 64 = r.writeGen % 2 ^ 64 := by
  unfold install at cleared
  dsimp only at cleared
  split at cleared
  · obtain answered | ⟨stale, fresh⟩ := cleared
    · contradiction
    · exact absurd (stale.symm.trans fresh) Bool.noConfusion
  · have published : ∀ g : CollectionHandle, g.publishIfServed.stale = g.stale := by
      intro g
      unfold publishIfServed
      split <;> rfl
    rw [published] at cleared
    obtain answered | ⟨_, fresh⟩ := cleared
    · simpa using Except.ok.inj answered
    · simpa using fresh

namespace Database

variable {db : Database} {name : String} {h : CollectionHandle}

theorem snapshotRebuildInputs_spec (ok : db.Ok) {inputs : RebuildInputs}
    (captured : db.snapshotRebuildInputs cfg name = .ok (some inputs)) :
    ∃ h c, db.handles[name]? = some h ∧ db.logical.collections[h.id]? = some c ∧
      inputs = ⟨name, h.descriptor, scanCollection cfg h.descriptor c.points, h.writeGen⟩ := by
  unfold snapshotRebuildInputs at captured
  split at captured
  · contradiction
  case h_2 h found =>
    obtain ⟨c, held, _⟩ := ok.collection found
    split at captured
    · rw [held] at captured
      cases captured
      exact ⟨h, c, found, held, rfl⟩
    · cases captured

theorem commitRebuild_eq {r : RebuiltIndex} (found : db.handles[r.collection]? = some h) :
    db.commitRebuild r = (db.put r.collection db.logical (h.install r).2, (h.install r).1) := by
  unfold commitRebuild
  rw [found]

/-- Installing a rebuild that was captured in `before` does right by the handle it is installed
in: it is made of rows of this incarnation, and where it says that the index is current, or
clears the flag that it is not, the rows are those captured. -/
structure Belongs (cfg : Setting) (before after : Database) (h : CollectionHandle) (rebuilt : RebuiltIndex) : Prop where
  rows : ∃ h₀ c, before.handles[rebuilt.collection]? = some h₀ ∧ h₀.cell = h.cell ∧
    before.logical.collections[h.id]? = some c ∧ rebuilt.Of cfg h.descriptor c.points
  current : (after.commitRebuild rebuilt).2 = .ok false ∨
      h.stale = true ∧ (∃ g, (after.commitRebuild rebuilt).1.handles[rebuilt.collection]? = some g ∧ g.stale = false) →
    (after.commitRebuild rebuilt).1.logical.collections[h.id]? = before.logical.collections[h.id]?

/-- In every run, a rebuild does right by the handle it was captured from, if its generation has
not come around and clients do not encrypt the vectors. -/
theorem commitRebuild_belongs {mvcc : Bool} {events later : List Event}
    (fresh : AllFresh cfg { mvcc := mvcc } (events ++ later)) {before after : Database}
    (isBefore : before = run cfg { mvcc := mvcc } events) (isAfter : after = run cfg before later)
    {name : String} {inputs : RebuildInputs} {rebuilt : RebuiltIndex}
    (captured : before.snapshotRebuildInputs cfg name = .ok (some inputs)) (built : inputs.build = .ok rebuilt)
    {h₀ h : CollectionHandle} (found₀ : before.handles[name]? = some h₀) (found : after.handles[name]? = some h)
    (sameIncarnation : h.cell = h₀.cell) (few : h.writeGen < h₀.writeGen + 2 ^ 64)
    (plain : h.descriptor.vectorEncryption ≠ .clientSide) :
    Belongs cfg before after h rebuilt := by
  obtain ⟨fresh₀, fresh⟩ := fresh.append
  have ok : before.Ok := isBefore ▸ ((ok_empty mvcc).run fresh₀).ok
  have follows : before.Follows after := by
    rw [isAfter]
    exact ok.run (isBefore ▸ fresh)
  obtain ⟨h₁, c, found₁, held, rfl⟩ := snapshotRebuildInputs_spec ok captured
  rw [found₀] at found₁
  cases found₁
  obtain ⟨isName, index, ids, docs, sparse, generation⟩ := RebuildInputs.build_spec built
  have advanced : Advanced before.logical h₀ after.logical h := by
    obtain new | ⟨h₁, found₁, advanced⟩ := follows.handles found
    · have old := ok.cells found₀
      omega
    · rw [found₀] at found₁
      cases found₁
      exact advanced
  have sameName : rebuilt.collection = name := isName
  rw [← sameName] at found found₀
  have committed := commitRebuild_eq found
  refine ⟨⟨h₀, c, found₀, sameIncarnation.symm, advanced.id ▸ held, ?_⟩, fun cleared => ?_⟩
  · rw [advanced.descriptor]
    exact ⟨index, ids, docs, sparse⟩
  · have still : h.writeGen = h₀.writeGen := by
      have same : h.writeGen % 2 ^ 64 = rebuilt.writeGen % 2 ^ 64 := by
        refine CollectionHandle.install_cleared ?_
        rw [committed] at cleared
        obtain answered | ⟨stale, g, found', clear⟩ := cleared
        · exact .inl answered
        · simp only [put, ExtTreeMap.getElem?_insert_self, Option.some.injEq] at found'
          exact .inr ⟨stale, found' ▸ clear⟩
      rw [generation] at same
      have low := advanced.generation
      dsimp only at same
      omega
    rw [committed]
    obtain client | kept := advanced.rows still
    · exact absurd (advanced.descriptor ▸ client) plain
    · rw [advanced.id]
      exact kept

def lineDescriptor : Descriptor := { dim := 1, metric := .l2 }

def linePoint (id : String) : PointIn := ⟨id, [0], []⟩

def loadedWith (id : String) : Database :=
  run .plain {} [.create "c" lineDescriptor, .upsertBulk "c" [linePoint id]]

def capture (cfg : Setting) (db : Database) (name : String) : Option RebuiltIndex := do
  let inputs ← (db.snapshotRebuildInputs cfg name).toOption.join
  inputs.build.toOption

theorem capture_eq_some {db : Database} {name : String} {rebuilt : RebuiltIndex} :
    capture cfg db name = some rebuilt ↔
      ∃ inputs, db.snapshotRebuildInputs cfg name = .ok (some inputs) ∧ inputs.build = .ok rebuilt := by
  simp only [capture, Option.bind_eq_bind, Option.bind_eq_some_iff, Option.join_eq_some_iff, toOption_eq_some]

/-- A handle of a run on given inputs: its generation and cell, and that its vectors are plain. -/
def holds (db : Database) (name : String) (writeGen cell : Nat) : Bool :=
  (db.handles[name]?).any fun h =>
    h.writeGen == writeGen && h.cell == cell && h.descriptor.vectorEncryption != .clientSide

theorem holds_spec {writeGen cell : Nat} (held : db.holds name writeGen cell = true) :
    ∃ h, db.handles[name]? = some h ∧ h.writeGen = writeGen ∧ h.cell = cell ∧
      h.descriptor.vectorEncryption ≠ .clientSide := by
  obtain ⟨h, found, facts⟩ := (Option.any_eq_true ..).mp held
  simp only [Bool.and_eq_true, beq_iff_eq, bne_iff_ne] at facts
  exact ⟨h, found, facts.1.1, facts.1.2, facts.2⟩

theorem commitRebuild_belongs_loaded : ∃ h rebuilt, (loadedWith "a").handles["c"]? = some h ∧
    capture .plain (loadedWith "a") "c" = some rebuilt ∧
    ∃ h', (run .plain (loadedWith "a") [.create "d" lineDescriptor]).handles["c"]? = some h' ∧
      Belongs .plain (loadedWith "a") (run .plain (loadedWith "a") [.create "d" lineDescriptor]) h'
        rebuilt := by
  obtain ⟨h₀, found₀, gen₀, cell₀, _⟩ :=
    holds_spec (show (loadedWith "a").holds "c" 1 0 = true by decide +kernel)
  obtain ⟨h, found, gen, cell, plain⟩ := holds_spec
    (show (run .plain (loadedWith "a") [.create "d" lineDescriptor]).holds "c" 1 0 = true by decide +kernel)
  obtain ⟨rebuilt, isRebuilt, _⟩ := (Option.any_eq_true ..).mp
    (show (capture .plain (loadedWith "a") "c").any (fun _ => true) = true by decide +kernel)
  obtain ⟨inputs, captured, built⟩ := capture_eq_some.mp isRebuilt
  have fresh : AllFresh .plain { mvcc := false }
      ([.create "c" lineDescriptor, .upsertBulk "c" [linePoint "a"]] ++ [.create "d" lineDescriptor]) :=
    ⟨trivial, trivial, trivial, trivial⟩
  exact ⟨h₀, rebuilt, found₀, isRebuilt, h, found,
    commitRebuild_belongs fresh rfl rfl captured built found₀ found
      (cell.trans cell₀.symm) (by omega) plain⟩

/-- A collection is dropped and created again while its rebuild is under way. The rebuild is
installed in the new collection, which is then taken for current with the rows of the old. -/
theorem recreated_takes_old_rebuild :
    (do
      let rebuilt ← capture .plain (loadedWith "a") "c"
      let db := run .plain (loadedWith "a")
        [.drop "c", .create "c" lineDescriptor, .upsertBulk "c" [linePoint "b"]]
      let h ← (db.commitRebuild rebuilt).1.handles["c"]?
      let c ← (db.commitRebuild rebuilt).1.logical.collections[h.id]?
      return (h.stale, h.idmap.ids, c.points.keys)) = some (false, ["a"], ["b"]) := by
  decide +kernel

end Database

end Quiver.Embed
