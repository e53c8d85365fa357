import Mathlib.Algebra.BigOperators.Group.Multiset.Basic
import Quiver.Base.Maps

/-!
Sums over the entries of an ordered map, and sums that are gathered in a map.
-/

namespace Tally

open Maps
open Std (ExtTreeMap TransCmp LawfulEqCmp)
open Std.ExtTreeMap (ext_getElem? length_toList mem_toList_iff_getElem?_eq_some)

variable {α β W : Type} {cmp : α → α → Ordering} [TransCmp cmp] [LawfulEqCmp cmp]
variable {m : ExtTreeMap α β cmp} {a : α} {b : β}

omit [LawfulEqCmp cmp] in
theorem nodup_toList (m : ExtTreeMap α β cmp) : m.toList.Nodup := .of_map Prod.fst (nodup_fst m)

theorem erase_insert [DecidableEq α] (m : ExtTreeMap α β cmp) (a : α) (b : β) : (m.erase a).insert a b = m.insert a b := by
  refine ext_getElem? fun c => ?_
  rw [get_insert, get_insert, get_erase]
  split <;> rfl

theorem perm_insert [DecidableEq α] (absent : m[a]? = none) (b : β) : (m.insert a b).toList.Perm ((a, b) :: m.toList) := by
  have new : (a, b) ∉ m.toList := fun inside => by
    rw [mem_toList_iff_getElem?_eq_some, absent] at inside
    cases inside
  refine (List.perm_ext_iff_of_nodup (nodup_toList _) (List.nodup_cons.mpr ⟨new, nodup_toList m⟩)).mpr fun e => ?_
  obtain ⟨c, d⟩ := e
  rw [List.mem_cons, mem_toList_iff_getElem?_eq_some, mem_toList_iff_getElem?_eq_some,
    get_insert, Prod.mk.injEq]
  by_cases same : a = c
  · subst same
    rw [if_pos rfl, absent, Option.some.injEq]
    simp [eq_comm]
  · rw [if_neg same]
    simp [Ne.symm same]

theorem perm_erase [DecidableEq α] (held : m[a]? = some b) : m.toList.Perm ((a, b) :: (m.erase a).toList) := by
  have absent : (m.erase a)[a]? = none := by rw [get_erase, if_pos rfl]
  have perm := perm_insert absent b
  rw [erase_insert, insert_held held] at perm
  exact perm

theorem size_insert [DecidableEq α] (absent : m[a]? = none) (b : β) : (m.insert a b).size = m.size + 1 := by
  rw [← length_toList, (perm_insert absent b).length_eq, List.length_cons, length_toList]

theorem size_erase [DecidableEq α] (held : m[a]? = some b) : m.size = (m.erase a).size + 1 := by
  rw [← length_toList, (perm_erase held).length_eq, List.length_cons, length_toList]

def tally [AddCommMonoid W] (f : β → W) (m : ExtTreeMap α β cmp) : W := (m.toList.map fun e => f e.2).sum

section

variable [AddCommMonoid W] {f : β → W}

omit [LawfulEqCmp cmp] in
theorem tally_empty : tally f (∅ : ExtTreeMap α β cmp) = 0 := by
  have none : (∅ : ExtTreeMap α β cmp).toList = [] := List.eq_nil_of_length_eq_zero (by rw [length_toList]; simp)
  rw [tally, none]
  rfl

theorem tally_insert [DecidableEq α] (absent : m[a]? = none) (b : β) : tally f (m.insert a b) = f b + tally f m := by
  rw [tally, ((perm_insert absent b).map _).sum_eq]
  rfl

theorem tally_erase [DecidableEq α] (held : m[a]? = some b) : tally f m = f b + tally f (m.erase a) := by
  rw [tally, ((perm_erase held).map _).sum_eq]
  rfl

theorem sum_filter_key [DecidableEq α] (m : ExtTreeMap α β cmp) (a : α) (g : β → W) :
    ((m.toList.filter fun e => decide (e.1 = a)).map fun e => g e.2).sum = ((m[a]?).map g).getD 0 := by
  cases held : m[a]? with
  | none =>
    have none : (m.toList.filter fun e => decide (e.1 = a)) = [] := by
      refine List.filter_eq_nil_iff.mpr fun e inside => ?_
      rw [decide_eq_true_eq]
      rintro rfl
      rw [mem_toList_iff_getElem?_eq_some, held] at inside
      cases inside
    rw [none]
    rfl
  | some b =>
    have single : (m.toList.filter fun e => decide (e.1 = a)).Perm [(a, b)] := by
      refine (List.perm_ext_iff_of_nodup ((nodup_toList m).filter _) (List.nodup_singleton _)).mpr fun e => ?_
      obtain ⟨c, d⟩ := e
      rw [List.mem_filter, mem_toList_iff_getElem?_eq_some, List.mem_singleton, decide_eq_true_eq, Prod.mk.injEq]
      constructor
      · rintro ⟨here, rfl⟩
        exact ⟨rfl, Option.some.inj (here.symm.trans held)⟩
      · rintro ⟨rfl, rfl⟩
        exact ⟨held, rfl⟩
    rw [(single.map _).sum_eq]
    simp

end

section Build

/-- A map from a list of entries, of which the last one under a key counts. -/
def entered (m : ExtTreeMap α β cmp) (entries : List (α × β)) : ExtTreeMap α β cmp :=
  entries.foldl (fun m e => m.insert e.1 e.2) m

theorem getElem?_entered [DecidableEq α] {entries : List (α × β)}
    (once : entries.Pairwise fun e e' => e.1 ≠ e'.1) (a : α) (b : β) :
    (entered (∅ : ExtTreeMap α β cmp) entries)[a]? = some b ↔ (a, b) ∈ entries := by
  rw [entered, get_foldl_insert (List.pairwise_map.mpr once), or_iff_left (by simp)]
  simp

theorem entered_toList [DecidableEq α] {entries : List (α × β)} (perm : entries.Perm m.toList) : entered ∅ entries = m := by
  have once : entries.Pairwise fun e e' => e.1 ≠ e'.1 := by
    refine (perm.pairwise_iff fun differ => Ne.symm differ).mpr ?_
    exact List.pairwise_map.mp (nodup_fst m)
  refine ext_getElem? fun a => Option.ext fun b => ?_
  rw [getElem?_entered once]
  exact perm.mem_iff.trans mem_toList_iff_getElem?_eq_some

end Build

section Gather

variable [AddCommMonoid W]

/-- Add what each entry contributes to the sum under its key. -/
def gather (sums : ExtTreeMap α W cmp) (entries : List (α × W)) : ExtTreeMap α W cmp :=
  entries.foldl (fun sums e => sums.insert e.1 ((sums[e.1]?).getD 0 + e.2)) sums

theorem gather_getD [DecidableEq α] (sums : ExtTreeMap α W cmp) (entries : List (α × W)) (a : α) :
    ((gather sums entries)[a]?).getD 0 =
      (sums[a]?).getD 0 + ((entries.filter fun e => decide (e.1 = a)).map Prod.snd).sum := by
  induction entries generalizing sums with
  | nil => simp [gather]
  | cons e entries ih =>
    rw [gather, List.foldl_cons, ← gather, ih, get_insert, List.filter_cons]
    by_cases same : e.1 = a
    · subst same
      simp [add_assoc]
    · simp [same]

theorem mem_gather [DecidableEq α] (sums : ExtTreeMap α W cmp) (entries : List (α × W)) (a : α) :
    ((gather sums entries)[a]?).isSome = true ↔ (sums[a]?).isSome = true ∨ ∃ w, (a, w) ∈ entries := by
  induction entries generalizing sums with
  | nil => simp [gather]
  | cons e entries ih =>
    rw [gather, List.foldl_cons, ← gather, ih, get_insert]
    by_cases same : e.1 = a
    · subst same
      simp only [if_true, Option.isSome_some, true_or, true_iff]
      exact .inr ⟨e.2, List.mem_cons_self⟩
    · rw [if_neg same]
      refine or_congr Iff.rfl (exists_congr fun w => ?_)
      rw [List.mem_cons]
      exact ⟨.inr, fun inside => inside.resolve_left fun isE => same (congrArg Prod.fst isE).symm⟩

end Gather

end Tally
