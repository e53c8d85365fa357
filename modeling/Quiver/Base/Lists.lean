import Mathlib.Data.List.Induction
import Mathlib.Data.List.Nodup
import Mathlib.Data.List.Range

/-!
Lists that are changed at one place, and functions that are updated at a list of places.
-/

namespace Quiver.Lists

theorem getElem?_append_cases {α : Type} {items : List α} {i : Nat} {new a : α} (here : (items ++ [new])[i]? = some a) :
    items[i]? = some a ∨ i = items.length ∧ a = new := by
  obtain below | above := Nat.lt_or_ge i items.length
  · rw [List.getElem?_append_left below] at here
    exact .inl here
  · rw [List.getElem?_append_right above, List.getElem?_singleton] at here
    split at here
    · rename_i last
      exact .inr ⟨by omega, (Option.some.inj here).symm⟩
    · contradiction

theorem getElem?_set_cases {α : Type} {items : List α} {i j : Nat} {new a : α} (here : (items.set i new)[j]? = some a) :
    j = i ∧ a = new ∨ j ≠ i ∧ items[j]? = some a := by
  rw [List.getElem?_set] at here
  split at here
  · rename_i same
    split at here
    · exact .inl ⟨same.symm, (Option.some.inj here).symm⟩
    · contradiction
  · rename_i differ
    exact .inr ⟨Ne.symm differ, here⟩

theorem mem_set_cases {α : Type} {items : List α} {i : Nat} {new a : α} (member : a ∈ items.set i new) :
    a = new ∨ ∃ j, j ≠ i ∧ items[j]? = some a := by
  obtain ⟨j, here⟩ := List.mem_iff_getElem?.mp member
  obtain ⟨_, isNew⟩ | other := getElem?_set_cases here
  · exact .inl isNew
  · exact .inr ⟨j, other⟩

theorem mem_eraseIdx_of_ne {α : Type} {items : List α} {i : Nat} {a b : α} (member : a ∈ items)
    (here : items[i]? = some b) (differ : a ≠ b) : a ∈ items.eraseIdx i := by
  obtain ⟨j, isA⟩ := List.mem_iff_getElem?.mp member
  refine List.mem_eraseIdx_iff_getElem?.mpr ⟨j, ?_, isA⟩
  rintro rfl
  rw [here] at isA
  exact differ (Option.some.inj isA).symm

theorem filter_eraseIdx {α : Type} {l : List α} {p : α → Bool} {i : Nat} {a : α} (here : l[i]? = some a) :
    (p a = false → (l.eraseIdx i).filter p = l.filter p) ∧
      (p a = true → (∀ b ∈ l.take i, p b = false) → l.filter p = a :: (l.eraseIdx i).filter p) := by
  obtain ⟨bound, rfl⟩ := List.getElem?_eq_some_iff.mp here
  have split : l = l.take i ++ l[i] :: l.drop (i + 1) := by
    rw [List.getElem_cons_drop, List.take_append_drop]
  have erased : l.eraseIdx i = l.take i ++ l.drop (i + 1) := List.eraseIdx_eq_take_drop_succ ..
  refine ⟨fun fails => ?_, fun holds first => ?_⟩
  · rw [erased]
    conv_rhs => rw [split]
    rw [List.filter_append, List.filter_append, List.filter_cons_of_neg (by simp [fails])]
  · have none : (l.take i).filter p = [] := List.filter_eq_nil_iff.mpr fun b member => by simp [first b member]
    rw [erased]
    conv_lhs => rw [split]
    rw [List.filter_append, List.filter_append, none, List.filter_cons_of_pos holds]
    rfl

theorem filterMap_zipIdx {α β : Type} (l : List α) (f : α × Nat → Option β) :
    l.zipIdx.filterMap f = (List.range l.length).filterMap fun i => (l[i]?).bind fun a => f (a, i) := by
  induction l using List.reverseRecOn with
  | nil => rfl
  | append_singleton l a ih =>
    rw [List.zipIdx_append, List.filterMap_append, List.length_append, List.length_singleton, List.range_succ,
      List.filterMap_append, ih]
    congr 1
    · refine List.filterMap_congr fun i inside => ?_
      rw [List.getElem?_append_left (List.mem_range.mp inside)]
    · have last : (l ++ [a])[l.length]? = some a := List.getElem?_concat_length
      simp only [List.zipIdx_cons, List.zipIdx_nil, Nat.zero_add, List.filterMap_cons, List.filterMap_nil, last,
        Option.bind_some]

theorem length_of_mem_iff {items : List Nat} (nodup : items.Nodup) {n : Nat} (mem : ∀ j, j ∈ items ↔ j < n) :
    items.length = n := by
  have perm : items.Perm (List.range n) :=
    (List.perm_ext_iff_of_nodup nodup List.nodup_range).mpr fun j => by rw [mem, List.mem_range]
  rw [perm.length_eq, List.length_range]

theorem foldl_update {ι α : Type} [DecidableEq ι] (f : ι → ι) (v : ι → α) (places : List ι) (out : ι → α) (k : ι) :
    places.foldl (fun out i => Function.update out (f i) (v (f i))) out k =
      if ∃ i ∈ places, f i = k then v k else out k := by
  induction places generalizing out with
  | nil => simp
  | cons i places ih =>
    rw [List.foldl_cons, ih, Function.update_apply]
    by_cases here : f i = k
    · simp [here]
    · simp [here, Ne.symm here]

end Quiver.Lists
