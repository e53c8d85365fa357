import Mathlib.Data.List.Nodup
import Std.Data.ExtTreeMap.Lemmas

/-!
What an ordered map holds after an insertion or a removal, and lookups that are related.
-/

namespace Maps

open Std (ExtTreeMap TransCmp LawfulEqCmp OrientedCmp)
open Std.ExtTreeMap (length_keys map_fst_toList_eq_keys mem_iff_isSome_getElem? mem_keys mem_toList_iff_getElem?_eq_some nodup_keys)

section

variable {γ δ : Type} {R : γ → δ → Prop} {x : Option γ} {y : Option δ} (related : Option.Rel R x y)
include related

theorem rel_none (absent : x = none) : y = none := by
  subst absent
  cases related
  rfl

theorem rel_isSome : x.isSome = y.isSome := by
  cases related <;> rfl

theorem rel_left {c : γ} (found : x = some c) : ∃ d, y = some d ∧ R c d := by
  subst found
  cases related with
  | some holds => exact ⟨_, rfl, holds⟩

theorem rel_right {d : δ} (found : y = some d) : ∃ c, x = some c ∧ R c d := by
  subst found
  cases related with
  | some holds => exact ⟨_, rfl, holds⟩

end

variable {α β : Type} {cmp : α → α → Ordering} [TransCmp cmp] [LawfulEqCmp cmp] [DecidableEq α]
  {m : ExtTreeMap α β cmp} {a b : α} {v w : β}

omit [LawfulEqCmp cmp] [DecidableEq α] in
theorem nodup_fst (m : ExtTreeMap α β cmp) : (m.toList.map Prod.fst).Nodup := by
  rw [map_fst_toList_eq_keys]
  exact nodup_keys

omit [DecidableEq α] in
theorem nodup_map {γ : Type} {f : α × β → γ}
    (distinct : ∀ {a b : α} {v w : β}, m[a]? = some v → m[b]? = some w → f (a, v) = f (b, w) → a = b) : (m.toList.map f).Nodup := by
  refine (List.Nodup.of_map Prod.fst (nodup_fst m)).map_on fun p inside q inside' same => ?_
  obtain ⟨a, v⟩ := p
  obtain ⟨b, w⟩ := q
  rw [mem_toList_iff_getElem?_eq_some] at inside inside'
  obtain rfl := distinct inside inside' same
  rw [Option.some.inj (inside.symm.trans inside')]

section

variable {γ : Type} {m' : ExtTreeMap α γ cmp}

omit [DecidableEq α]

theorem keys_eq (same : ∀ a : α, m[a]?.isSome = m'[a]?.isSome) : m.keys = m'.keys := by
  refine List.Perm.eq_of_pairwise ?_ ExtTreeMap.ordered_keys ExtTreeMap.ordered_keys
    ((List.perm_ext_iff_of_nodup nodup_keys nodup_keys).mpr fun a => ?_)
  · exact fun a b _ _ less more => absurd more (OrientedCmp.not_lt_of_lt less)
  · rw [mem_keys, mem_keys, mem_iff_isSome_getElem?, mem_iff_isSome_getElem?, same]

theorem size_eq (same : ∀ a : α, m[a]?.isSome = m'[a]?.isSome) : m.size = m'.size := by
  rw [← length_keys, ← length_keys, keys_eq same]

/-- Maps with related values list them in the same order. -/
theorem forall₂_toList {R : α → β → γ → Prop} (related : ∀ a : α, Option.Rel (R a) m[a]? m'[a]?) :
    List.Forall₂ (fun p q => p.1 = q.1 ∧ R p.1 p.2 q.2) m.toList m'.toList := by
  have keys : m.toList.map Prod.fst = m'.toList.map Prod.fst := by
    rw [map_fst_toList_eq_keys, map_fst_toList_eq_keys]
    exact keys_eq fun a => rel_isSome (related a)
  rw [← List.forall₂_eq_eq_eq, List.forall₂_map_left_iff, List.forall₂_map_right_iff] at keys
  have left := (List.forall₂_and_left _ _).mpr ⟨fun _ => mem_toList_iff_getElem?_eq_some.mp, keys⟩
  have both := (List.forall₂_and_left _ _).mpr ⟨fun _ => mem_toList_iff_getElem?_eq_some.mp, left.flip⟩
  refine both.flip.imp fun p q ⟨held', held, same⟩ => ⟨same, ?_⟩
  obtain ⟨_, found, holds⟩ := rel_left (related p.1) held
  rw [same, held'] at found
  cases found
  exact holds

end

omit [LawfulEqCmp cmp] [DecidableEq α] in
theorem mem_of_get (found : m[a]? = some v) : a ∈ m := mem_iff_isSome_getElem?.mpr (Option.isSome_of_eq_some found)

theorem get_insert : (m.insert a v)[b]? = if a = b then some v else m[b]? := by
  simp only [ExtTreeMap.getElem?_insert, LawfulEqCmp.compare_eq_iff_eq]

theorem get_erase : (m.erase a)[b]? = if a = b then none else m[b]? := by
  simp only [ExtTreeMap.getElem?_erase, LawfulEqCmp.compare_eq_iff_eq]

/-- An entry behind an insertion is the one inserted, or an old one. -/
theorem of_insert (found : (m.insert a v)[b]? = some w) : a = b ∧ v = w ∨ a ≠ b ∧ m[b]? = some w := by
  rw [get_insert] at found
  split at found
  case isTrue same => exact .inl ⟨same, Option.some.inj found⟩
  case isFalse differ => exact .inr ⟨differ, found⟩

theorem of_erase (found : (m.erase a)[b]? = some w) : a ≠ b ∧ m[b]? = some w := by
  rw [get_erase] at found
  split at found
  · contradiction
  · exact ⟨‹_›, found⟩

theorem erase_absent (absent : m[a]? = none) : m.erase a = m := by
  refine ExtTreeMap.ext_getElem? fun c => ?_
  rw [get_erase]
  split
  case isTrue same => rw [← same, absent]
  case isFalse => rfl

theorem insert_held (held : m[a]? = some v) : m.insert a v = m := by
  refine ExtTreeMap.ext_getElem? fun c => ?_
  rw [get_insert]
  split
  case isTrue same => rw [← same, held]
  case isFalse => rfl

section Filled

variable {γ : Type} {k : γ → α} {f : γ → β} {items : List γ}

theorem of_foldl_insert (found : (items.foldl (fun m c => m.insert (k c) (f c)) m)[b]? = some w) :
    (∃ c ∈ items, k c = b ∧ f c = w) ∨ (∀ c ∈ items, k c ≠ b) ∧ m[b]? = some w := by
  induction items generalizing m with
  | nil => exact .inr ⟨by simp, found⟩
  | cons c items ih =>
    obtain ⟨other, member, isHere⟩ | ⟨others, before⟩ := ih found
    · exact .inl ⟨other, List.mem_cons_of_mem _ member, isHere⟩
    · obtain ⟨same, rfl⟩ | ⟨differ, before⟩ := of_insert before
      · exact .inl ⟨c, List.mem_cons_self .., same, rfl⟩
      · exact .inr ⟨List.forall_mem_cons.mpr ⟨differ, others⟩, before⟩

omit [DecidableEq α] in
theorem mem_foldl_insert : b ∈ items.foldl (fun m c => m.insert (k c) (f c)) m ↔
    (∃ c ∈ items, k c = b) ∨ b ∈ m := by
  induction items generalizing m with
  | nil => simp
  | cons c items ih =>
    simp only [List.foldl_cons, ih, ExtTreeMap.mem_insert, LawfulEqCmp.compare_eq_iff_eq, List.mem_cons,
      exists_eq_or_imp]
    rw [← or_assoc, or_comm (a := k c = b)]

/-- A map filled from items with keys of their own holds those items, and what it held elsewhere. -/
theorem get_foldl_insert (distinct : (items.map k).Nodup) :
    (items.foldl (fun m c => m.insert (k c) (f c)) m)[b]? = some w ↔
      (∃ c ∈ items, k c = b ∧ f c = w) ∨ (∀ c ∈ items, k c ≠ b) ∧ m[b]? = some w := by
  refine ⟨of_foldl_insert, fun held => ?_⟩
  have present : b ∈ items.foldl (fun m c => m.insert (k c) (f c)) m := by
    refine mem_foldl_insert.mpr (held.imp ?_ ?_)
    · rintro ⟨c, member, same, _⟩
      exact ⟨c, member, same⟩
    · rintro ⟨_, before⟩
      exact mem_iff_isSome_getElem?.mpr (by rw [before]; rfl)
  have found := ExtTreeMap.getElem?_eq_some_getElem present
  obtain ⟨c, member, rfl, rfl⟩ | ⟨others, before⟩ := held
  · obtain ⟨other, isItem, same, isValue⟩ | ⟨others, _⟩ := of_foldl_insert found
    · cases List.inj_on_of_nodup_map distinct isItem member same
      rw [found, isValue]
    · exact absurd rfl (others c member)
  · obtain ⟨c, member, same, _⟩ | ⟨_, held⟩ := of_foldl_insert found
    · exact absurd same (others c member)
    · rw [found, ← held, before]

end Filled

end Maps
