import Mathlib.Order.Lattice
import Mathlib.Tactic.Common

/-!
Binary search over keys that are computed on demand and may fail to be read. When every key
of the window reads back and the keys ascend strictly, the search returns the one position
that holds the target.
-/

namespace Bisect

variable {ε α : Type} [LinearOrder α]

/-- Search the half-open window `[lo, hi)`. -/
def search (key : Nat → Except ε α) (target : α) : (fuel lo hi : Nat) → Except ε (Option Nat)
  | 0, _, _ => .ok none
  | fuel + 1, lo, hi =>
    if lo < hi then
      let mid := lo + (hi - lo) / 2
      match key mid with
      | .error error => .error error
      | .ok candidate =>
        if candidate < target then search key target fuel (mid + 1) hi
        else if target < candidate then search key target fuel lo mid
        else .ok (some mid)
    else .ok none

variable {key : Nat → Except ε α} {keys : Nat → α} {size : Nat} {target : α}

theorem search_hit (reads : ∀ i < size, key i = .ok (keys i))
    (ascending : ∀ i j, i < j → j < size → keys i < keys j) {fuel lo hi position : Nat}
    (enough : hi - lo ≤ fuel) (bound : hi ≤ size) (low : lo ≤ position) (high : position < hi)
    (found : keys position = target) : search key target fuel lo hi = .ok (some position) := by
  have ordered : ∀ i j, i ≤ j → j < size → keys i ≤ keys j := fun i j before inside =>
    before.eq_or_lt.elim (fun same => same ▸ le_rfl) fun less => (ascending i j less inside).le
  induction fuel generalizing lo hi with
  | zero => omega
  | succ fuel ih =>
    have inside : lo + (hi - lo) / 2 < hi := by omega
    simp only [search, if_pos (show lo < hi by omega), reads _ (Nat.lt_of_lt_of_le inside bound)]
    split
    case isTrue below =>
      have right : lo + (hi - lo) / 2 < position :=
        not_le.mp fun left => below.not_ge (found ▸ ordered _ _ left (by omega))
      exact ih (by omega) bound right high
    case isFalse notBelow =>
      split
      case isTrue above =>
        have left : position < lo + (hi - lo) / 2 :=
          not_le.mp fun right => above.not_ge (found ▸ ordered _ _ right (by omega))
        exact ih (by omega) (by omega) low left
      case isFalse notAbove =>
        have equal : keys (lo + (hi - lo) / 2) = keys position := by
          rw [found]
          exact le_antisymm (not_lt.mp notAbove) (not_lt.mp notBelow)
        congr 2
        by_contra apart
        obtain less | less := Nat.lt_or_gt_of_ne apart
        · exact absurd equal (ne_of_lt (ascending _ _ less (by omega)))
        · exact absurd equal (ne_of_gt (ascending _ _ less (by omega)))

theorem search_miss (reads : ∀ i < size, key i = .ok (keys i)) {fuel lo hi : Nat}
    (bound : hi ≤ size) (absent : ∀ i < size, keys i ≠ target) :
    search key target fuel lo hi = .ok none := by
  induction fuel generalizing lo hi with
  | zero => rfl
  | succ fuel ih =>
    simp only [search]
    split
    case isFalse => rfl
    case isTrue nonempty =>
      have inside : lo + (hi - lo) / 2 < hi := by omega
      simp only [reads _ (Nat.lt_of_lt_of_le inside bound)]
      split
      case isTrue => exact ih bound
      case isFalse notBelow =>
        split
        case isTrue => exact ih (by omega)
        case isFalse notAbove =>
          exact absurd (le_antisymm (not_lt.mp notAbove) (not_lt.mp notBelow))
            (absent _ (Nat.lt_of_lt_of_le inside bound))

/-- The number of leading elements that meet a condition. -/
def partitionPoint {β : Type} (p : β → Bool) (l : List β) : Nat := (l.takeWhile p).length

/-- In a list where the condition does not come back, the elements before the point meet it. -/
theorem lt_partitionPoint {β : Type} {p : β → Bool} {l : List β}
    (closed : l.Pairwise fun a b => p b = true → p a = true) {i : Nat} {x : β} (here : l[i]? = some x) :
    i < partitionPoint p l ↔ p x = true := by
  induction l generalizing i with
  | nil => contradiction
  | cons a l ih =>
    obtain ⟨first, closed⟩ := List.pairwise_cons.mp closed
    rw [partitionPoint, List.takeWhile_cons]
    cases i with
    | zero =>
      cases here
      cases p x <;> simp
    | succ i =>
      rw [List.getElem?_cons_succ] at here
      cases holds : p a with
      | true =>
        rw [if_pos rfl, List.length_cons, Nat.succ_lt_succ_iff]
        exact ih closed here
      | false =>
        have fails : p x = false := by
          by_contra meets
          exact absurd (first x (List.mem_of_getElem? here) (by simpa using meets)) (by simp [holds])
        simp [fails]

end Bisect
