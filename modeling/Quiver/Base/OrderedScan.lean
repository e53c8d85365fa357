import Mathlib.Data.List.Perm.Subperm
import Std.Data.ExtTreeMap.Lemmas

/-!
Reading an ordered map in pages by offset. The rank of a key is its place in the key order: a
page holds the keys whose ranks it covers, an insertion moves ranks up, and an erasure moves
down by one the ranks of the keys behind it.
-/

namespace OrderedScan

open Std (ExtTreeMap TransCmp LawfulEqCmp ReflCmp OrientedCmp)
open Std.ExtTreeMap (mem_erase mem_keys nodup_keys)

variable {α β : Type} {cmp : α → α → Ordering} [TransCmp cmp] [LawfulEqCmp cmp]

def rank (m : ExtTreeMap α β cmp) (x : α) : Nat := m.keys.countP fun y => cmp y x == .lt

variable {m : ExtTreeMap α β cmp} {x y z : α}

theorem keys_perm {m' : ExtTreeMap α β cmp} {keys : List α} (nodup : keys.Nodup)
    (same : ∀ a, a ∈ m' ↔ a ∈ keys) : m'.keys.Perm keys :=
  (List.perm_ext_iff_of_nodup nodup_keys nodup).mpr fun a => by rw [mem_keys, same]

theorem rank_insert (m : ExtTreeMap α β cmp) (z : α) (v : β) (x : α) : rank m x ≤ rank (m.insert z v) x := by
  refine List.Subperm.countP_le _ (nodup_keys.subperm fun a member => ?_)
  rw [mem_keys] at member ⊢
  exact ExtTreeMap.mem_insert.mpr (.inr member)

theorem rank_erase_absent (absent : z ∉ m) : rank (m.erase z) x = rank m x := by
  refine List.Perm.countP_eq _ (keys_perm nodup_keys fun a => ?_)
  rw [mem_erase, mem_keys]
  refine ⟨And.right, fun member => ⟨fun same => absent ?_, member⟩⟩
  rw [LawfulEqCmp.eq_of_compare same]
  exact member

theorem rank_erase_present (present : z ∈ m) :
    rank m x = rank (m.erase z) x + if cmp z x = .lt then 1 else 0 := by
  have split : m.keys.Perm (z :: (m.erase z).keys) := by
    refine keys_perm ?_ fun a => ?_
    · refine List.nodup_cons.mpr ⟨?_, nodup_keys⟩
      rw [mem_keys, mem_erase]
      exact fun both => both.1 ReflCmp.compare_self
    · rw [List.mem_cons, mem_keys, mem_erase]
      constructor
      · intro member
        by_cases same : cmp z a = .eq
        · exact .inl (LawfulEqCmp.eq_of_compare same).symm
        · exact .inr ⟨same, member⟩
      · rintro (rfl | ⟨_, member⟩)
        · exact present
        · exact member
  rw [rank, rank, split.countP_eq, List.countP_cons]
  by_cases before : cmp z x = .lt <;> simp [before]

theorem rank_lt_of_lt (present : y ∈ m) (before : cmp y x = .lt) : rank m y < rank m x := by
  have grows : rank (m.erase y) y ≤ rank (m.erase y) x := by
    refine List.countP_mono_left fun a _ less => ?_
    rw [beq_iff_eq] at less ⊢
    exact TransCmp.lt_trans less before
  have self : cmp y y = .eq := ReflCmp.compare_self
  rw [rank_erase_present present (x := y), rank_erase_present present (x := x), self, before]
  simp only [reduceCtorEq, if_false, if_true]
  omega

theorem getElem?_countP {keys : List α} (sorted : keys.Pairwise fun a b => cmp a b = .lt) (member : x ∈ keys) :
    keys[keys.countP fun y => cmp y x == .lt]? = some x := by
  induction keys with
  | nil => contradiction
  | cons a keys ih =>
    obtain ⟨first, sorted⟩ := List.pairwise_cons.mp sorted
    obtain rfl | later := List.mem_cons.mp member
    · have self : cmp x x = .eq := ReflCmp.compare_self
      have none : keys.countP (fun y => cmp y x == .lt) = 0 := by
        refine List.countP_eq_zero.mpr fun b inside less => ?_
        rw [beq_iff_eq] at less
        have greater := OrientedCmp.gt_of_lt (first b inside)
        rw [less] at greater
        contradiction
      rw [List.countP_cons, none, self]
      rfl
    · rw [List.countP_cons, first x later]
      exact ih sorted later

theorem keys_rank (present : x ∈ m) : m.keys[rank m x]? = some x :=
  getElem?_countP ExtTreeMap.ordered_keys (mem_keys.mpr present)

theorem rank_lt_length (present : x ∈ m) : rank m x < m.keys.length :=
  (List.getElem?_eq_some_iff.mp (keys_rank present)).1

theorem le_rank_erase {offset : Nat} (present : y ∈ m) (ahead : offset ≤ rank m y)
    (kept : z ∈ m → rank m z < offset → m.keys[offset]? ≠ some y) : offset ≤ rank (m.erase z) y := by
  by_cases erased : z ∈ m
  · have moved := rank_erase_present erased (x := y)
    by_cases before : cmp z y = .lt
    · have less := rank_lt_of_lt erased before
      rw [if_pos before] at moved
      by_cases behind : rank m z < offset
      · have differ : offset ≠ rank m y := fun same => kept erased behind (same ▸ keys_rank present)
        omega
      · omega
    · rw [if_neg before] at moved
      omega
  · rw [rank_erase_absent erased]
    exact ahead

def page (m : ExtTreeMap α β cmp) (offset limit : Nat) : List α := (m.keys.drop offset).take limit

theorem mem_of_page {offset limit : Nat} (inside : x ∈ page m offset limit) : x ∈ m :=
  mem_keys.mp (List.mem_of_mem_drop (List.mem_of_mem_take inside))

theorem page_covers {offset : Nat} (limit : Nat) (present : x ∈ m) (ahead : offset ≤ rank m x) :
    x ∈ page m offset limit ∨
      offset + (page m offset limit).length ≤ rank m x ∧ ¬ (page m offset limit).length < limit := by
  have here := keys_rank present
  have bound := rank_lt_length present
  have length : (page m offset limit).length = min limit (m.keys.length - offset) := by
    rw [page, List.length_take, List.length_drop]
  by_cases covered : rank m x < offset + limit
  · left
    refine List.mem_iff_getElem?.mpr ⟨rank m x - offset, ?_⟩
    rw [page, List.getElem?_take_of_lt (by omega), List.getElem?_drop, Nat.add_sub_cancel' ahead, here]
  · right
    rw [length]
    omega

end OrderedScan
