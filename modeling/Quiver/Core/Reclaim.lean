import Quiver.Core.Image

/-!
Garbage collection removes what the manifest does not need and nothing else: a key only if
its collection has a directory and is not in the manifest, a segment file only if no entry
references it.
-/

namespace Quiver.Core

open FileSystem Prog
open Std (ExtTreeMap)

section

variable {ring : KeyRing} {m : Manifest} {d d' : DataDir}

theorem mem_collectionDirs {cid : CollectionId} :
    cid ∈ collectionDirs d ↔ ∃ p ∈ d, p.collection? = some cid := by
  simp [collectionDirs, List.mem_filterMap, ExtTreeMap.mem_keys]

variable {p : Path}

theorem mem_pathsUnder {cid : CollectionId} :
    p ∈ pathsUnder d cid ↔ p ∈ d ∧ p.collection? = some cid := by
  simp [pathsUnder, ExtTreeMap.mem_keys]

/-- Paths that collecting the orphan segments of a manifest does not touch. -/
structure Manifest.Keeps (ring : KeyRing) (m : Manifest) (d : DataDir) (p : Path) : Prop where
  under : ∀ {cid}, p.collection? = some cid → m.isLive cid = true ∧ m.isOrphan cid p = false
  key : ∀ {cid}, p = .dek cid → m.isLive cid = true ∨ ring.shredCollection cid = [] ∨
    cid ∉ collectionDirs d

/-- Every path that is left is as it was, and those to keep are left. -/
structure Thins (kept : Path → Prop) (d d' : DataDir) : Prop where
  same : ∀ p, kept p → d'[p]? = d[p]?
  shrunk : ∀ p, p ∈ d' → d'[p]? = d[p]?

section

variable {kept : Path → Prop} {paths : List Path} (thins : Thins kept d d') (spared : ∀ p, kept p → p ∉ paths)
include thins spared

theorem Thins.removeAll : Thins kept d (applyAll d' (paths.map .remove)) where
  same p isKept := by rw [getElem?_removeAll, if_neg (spared p isKept), thins.same p isKept]
  shrunk p present := by
    obtain ⟨before, notRemoved⟩ := (mem_removeAll _ _ _).mp present
    rw [getElem?_removeAll, if_neg notRemoved, thins.shrunk p before]

theorem Thins.removing (count : Nat) :
    ∀ p, kept p → (applyAll d' ((paths.map .remove).take count))[p]? = d[p]? := by
  rw [← List.map_take]
  exact (thins.removeAll fun p isKept member => spared p isKept (List.mem_of_mem_take member)).same

end

theorem shredCollection_eq (ring : KeyRing) (cid : CollectionId) :
    ∃ keys : List Path, ring.shredCollection cid = keys.map .remove ∧ ∀ p ∈ keys, p = .dek cid := by
  cases ring with
  | single key => exact ⟨[], rfl, by simp⟩
  | envelope => exact ⟨[.dek cid], rfl, by simp⟩

theorem gcOrphanSegments_spec (ring : KeyRing) (m : Manifest) (d : DataDir) :
    (gcOrphanSegments ring m).Spec d
      (fun d' => ∀ p, m.Keeps ring d p → d'[p]? = d[p]?)
      (fun _ d' => (∀ p, m.Keeps ring d p → d'[p]? = d[p]?) ∧ (∀ p, p ∈ d' → d'[p]? = d[p]?) ∧
        ∀ p cid, p ∈ d' → p.collection? = some cid → m.isLive cid = true ∧ m.isOrphan cid p = false) := by
  refine spec_read_bind rfl ?_
  -- What is left under the directories visited so far is live and referenced.
  refine Prog.Spec.weaken (spec_forM (fun done d' => Thins (m.Keeps ring d) d d' ∧
    ∀ p, ∀ cid ∈ done, p ∈ d' → p.collection? = some cid → m.isLive cid = true ∧ m.isOrphan cid p = false)
    ⟨⟨fun _ _ => rfl, fun _ _ => rfl⟩, by simp⟩ (fun _ _ inv => inv.1.same) ?_) ?_
  · intro done cid rest d' split ⟨thins, clean⟩
    have listed : cid ∈ collectionDirs d := by simp [split]
    by_cases live : m.isLive cid = true
    · simp only [live, if_true]
      refine spec_read_bind rfl ?_
      have spared : ∀ p, m.Keeps ring d p → p ∉ d'.keys.filter (m.isOrphan cid) := by
        intro p keeps member
        have orphan := (List.mem_filter.mp member).2
        have under : p.collection? = some cid := by
          cases p with
          | segment owner seg part => exact congrArg some (of_decide_eq_true orphan).1
          | _ => cases orphan
        simp [(keeps.under under).2] at orphan
      refine spec_performAll (thins.removing spared) ⟨thins.removeAll spared, ?_⟩
      intro p other member present under
      obtain ⟨before, notOrphan⟩ := (mem_removeAll _ _ _).mp present
      obtain visited | here := List.mem_append.mp member
      · exact clean p other visited before under
      · obtain rfl := List.mem_singleton.mp here
        refine ⟨live, ?_⟩
        rw [List.mem_filter, ExtTreeMap.mem_keys, not_and, Bool.not_eq_true] at notOrphan
        exact notOrphan before
    · simp only [live, if_false, Bool.false_eq_true]
      obtain ⟨keys, isShred, onlyKey⟩ := shredCollection_eq ring cid
      have unshredded : ∀ p, m.Keeps ring d p → p ∉ keys := by
        intro p keeps member
        obtain isLive | none | missing := keeps.key (onlyKey p member)
        · exact live isLive
        · rw [isShred, List.map_eq_nil_iff] at none
          simp [none] at member
        · exact missing listed
      have shredded := thins.removeAll unshredded
      rw [isShred]
      refine spec_performAll_bind (thins.removing unshredded) (spec_read_bind rfl ?_)
      have spared : ∀ p, m.Keeps ring d p → p ∉ pathsUnder (applyAll d' (keys.map .remove)) cid :=
        fun p keeps member => live (keeps.under (mem_pathsUnder.mp member).2).1
      refine spec_performAll (shredded.removing spared) ⟨shredded.removeAll spared, ?_⟩
      intro p other member present under
      obtain ⟨before, notUnder⟩ := (mem_removeAll _ _ _).mp present
      obtain visited | here := List.mem_append.mp member
      · exact clean p other visited ((mem_removeAll _ _ _).mp before).1 under
      · obtain rfl := List.mem_singleton.mp here
        exact absurd (mem_pathsUnder.mpr ⟨before, under⟩) notUnder
  · rintro _ d' ⟨⟨same, shrunk⟩, clean⟩
    refine ⟨same, shrunk, fun p cid present under => clean p cid ?_ present under⟩
    exact mem_collectionDirs.mpr ⟨p, (mem_congr (shrunk p present)).mp present, under⟩

theorem gcOrphanIndexSnapshots_spec (m : Manifest) (d : DataDir) :
    (gcOrphanIndexSnapshots m).Spec d
      (fun d' => ∀ p, (∀ entry ∈ m.collections, entry.isStaleSnapshot p = false) → d'[p]? = d[p]?)
      (fun _ => Thins (fun p => ∀ entry ∈ m.collections, entry.isStaleSnapshot p = false) d) := by
  refine spec_forM (fun _ => Thins _ d) ⟨fun _ _ => rfl, fun _ _ => rfl⟩ (fun _ _ thins => thins.same) ?_
  intro done entry rest d' split thins
  have listed : entry ∈ m.collections := by simp [split]
  refine spec_read_bind rfl ?_
  have spared : ∀ p, (∀ entry ∈ m.collections, entry.isStaleSnapshot p = false) →
      p ∉ d'.keys.filter entry.isStaleSnapshot := by
    intro p keeps member
    have stale := (List.mem_filter.mp member).2
    simp [keeps entry listed] at stale
  exact spec_performAll (thins.removing spared) (thins.removeAll spared)

end

end Quiver.Core
