import Mathlib.Data.List.Sort

/-!
The items of a pool with the smallest keys, ties aside. A part of a pool may be searched for more than
is wanted, thinned and merged with the other part; the result is exact if it reaches deep enough.
-/

variable {α D : Type} [LinearOrder D]

/-- `found` are `k` items of the pool with the smallest keys, in ascending order. -/
structure Nearest (key : α → D) (k : Nat) (pool found : List α) : Prop where
  length : found.length = min k pool.length
  ascending : found.Pairwise fun a b => key a ≤ key b
  nearest : ∃ rest, (found ++ rest).Perm pool ∧ ∀ a ∈ found, ∀ b ∈ rest, key a ≤ key b

namespace Nearest

variable {key : α → D} {k : Nat} {pool found : List α}

/-- The items by key, smallest first; equal ones stay in order. -/
def sorted (key : α → D) (items : List α) : List α := items.insertionSort fun a b => key a ≤ key b

theorem sorted_perm (key : α → D) (items : List α) : (sorted key items).Perm items := List.perm_insertionSort _ _

theorem sorted_ascending (key : α → D) (items : List α) : (sorted key items).Pairwise fun a b => key a ≤ key b := by
  have total : Std.Total fun a b : α => key a ≤ key b := ⟨fun a b => le_total (key a) (key b)⟩
  have trans : IsTrans α fun a b => key a ≤ key b := ⟨fun _ _ _ => le_trans⟩
  exact List.pairwise_insertionSort _ _

section

variable (nearest : Nearest key k pool found)
include nearest

theorem subset : ∀ a ∈ found, a ∈ pool := by
  obtain ⟨rest, perm, _⟩ := nearest.nearest
  exact fun a inside => perm.subset (List.mem_append_left rest inside)

theorem nodup {β : Type} {f : α → β} (nodup : (pool.map f).Nodup) :
    (found.map f).Nodup := by
  obtain ⟨rest, perm, _⟩ := nearest.nearest
  have whole := ((perm.map f).nodup_iff).mpr nodup
  rw [List.map_append] at whole
  exact whole.sublist (List.sublist_append_left _ _)

/-- What is left out of a search is behind all that it found, and it found as many as it was asked for. -/
theorem missed {b : α} (inside : b ∈ pool) (out : b ∉ found) :
    found.length = k ∧ ∀ a ∈ found, key a ≤ key b := by
  obtain ⟨rest, perm, apart⟩ := nearest.nearest
  have left : b ∈ rest := (List.mem_append.mp (perm.symm.subset inside)).resolve_left out
  have some := List.length_pos_of_mem left
  have total := perm.length_eq
  have length := nearest.length
  rw [List.length_append] at total
  exact ⟨by omega, fun a isFound => apart a isFound b left⟩

theorem perm {other : List α} (same : pool.Perm other) : Nearest key k other found := by
  obtain ⟨rest, isPerm, apart⟩ := nearest.nearest
  exact ⟨by rw [nearest.length, same.length_eq], nearest.ascending, rest, isPerm.trans same, apart⟩

end

theorem take {items : List α} (ascending : items.Pairwise fun a b => key a ≤ key b) (k : Nat) :
    Nearest key k items (items.take k) := by
  refine ⟨List.length_take .., ascending.sublist (List.take_sublist ..), items.drop k,
    by rw [List.take_append_drop], ?_⟩
  rw [← List.take_append_drop k items, List.pairwise_append] at ascending
  exact ascending.2.2

theorem take_sorted (key : α → D) (k : Nat) (pool : List α) : Nearest key k pool ((sorted key pool).take k) :=
  (take (sorted_ascending key pool) k).perm (sorted_perm key pool)

/-- If `k` items of the pool are within a bound, those found are. -/
theorem within {x : D} (nearest : Nearest key k pool found) (many : k ≤ pool.countP fun a => decide (key a ≤ x)) :
    ∀ a ∈ found, key a ≤ x := by
  intro a inside
  by_contra far
  obtain ⟨rest, isPerm, before⟩ := nearest.nearest
  have none : rest.countP (fun c => decide (key c ≤ x)) = 0 := by
    refine List.countP_eq_zero.mpr fun c member close => far ?_
    exact (before a inside c member).trans (of_decide_eq_true close)
  have short : found.countP (fun c => decide (key c ≤ x)) < found.length := by
    refine lt_of_le_of_ne List.countP_le_length fun full => far ?_
    exact of_decide_eq_true (List.countP_eq_length.mp full a inside)
  have length := nearest.length
  rw [← isPerm.countP_eq, List.countP_append] at many
  omega

/-- The nearest of a part of a pool are the nearest of the pool, if what is left out has `k` nearer items. -/
theorem of_part {part rest : List α} (perm : (part ++ rest).Perm pool)
    (behind : ∀ b ∈ rest, k ≤ pool.countP fun a => decide (key a < key b))
    (nearest : Nearest key k part found) : Nearest key k pool found := by
  cases isSorted : sorted key rest with
  | nil =>
    have none : rest = [] := List.Perm.eq_nil (isSorted ▸ (sorted_perm key rest).symm)
    rw [none, List.append_nil] at perm
    exact nearest.perm perm
  | cons least others =>
    have ascending := sorted_ascending key rest
    rw [isSorted, List.pairwise_cons] at ascending
    have inside (b) : b ∈ least :: others ↔ b ∈ rest := by rw [← isSorted, (sorted_perm key rest).mem_iff]
    have first : ∀ b ∈ rest, key least ≤ key b := fun b left =>
      (List.mem_cons.mp ((inside b).mpr left)).elim (fun same => same ▸ le_rfl) (ascending.1 b)
    -- What is nearer than the nearest item left out is in the part.
    have many : k ≤ part.countP fun a => decide (key a < key least) := by
      have whole := behind least ((inside least).mp List.mem_cons_self)
      rwa [← perm.countP_eq, List.countP_append, List.countP_eq_zero (l := rest) |>.mpr fun b left close =>
        absurd (of_decide_eq_true close) (first b left).not_gt, Nat.add_zero] at whole
    have close := nearest.within (many.trans (List.countP_mono_left fun a _ less =>
      decide_eq_true (of_decide_eq_true less).le))
    obtain ⟨left, isPerm, before⟩ := nearest.nearest
    have length := nearest.length
    have long := many.trans List.countP_le_length
    have total := perm.length_eq
    rw [List.length_append] at total
    refine ⟨by omega, nearest.ascending, left ++ rest, ?_, fun a found b outside => ?_⟩
    · rw [← List.append_assoc]
      exact (isPerm.append_right _).trans perm
    · exact (List.mem_append.mp outside).elim (before a found b) fun missing => (close a found).trans (first b missing)

/-- An item that is left out has more within its key than are asked for. -/
theorem left_out (nearest : Nearest key k pool found) :
    ∃ rest, (found ++ rest).Perm pool ∧ ∀ b ∈ rest, k < pool.countP fun a => decide (key a ≤ key b) := by
  obtain ⟨rest, perm, before⟩ := nearest.nearest
  refine ⟨rest, perm, fun b left => ?_⟩
  have total := perm.length_eq
  have length := nearest.length
  have all : found.countP (fun a => decide (key a ≤ key b)) = found.length :=
    List.countP_eq_length.mpr fun a inside => decide_eq_true (before a inside b left)
  have some : 0 < rest.countP fun a => decide (key a ≤ key b) :=
    List.countP_pos_iff.mpr ⟨b, left, decide_eq_true le_rfl⟩
  have short := List.length_pos_of_mem left
  rw [← perm.countP_eq, List.countP_append]
  rw [List.length_append] at total
  omega

/-- The kept items of a pool that are among the `k` nearest live ones have at most `wide` items of the pool
within their keys. -/
def Deep (key : α → D) (p : α → Bool) (k wide : Nat) (pool live : List α) : Prop :=
  ∀ a ∈ pool, p a = true → (live.countP fun b => decide (key b < key a)) < k →
    (pool.countP fun b => decide (key b ≤ key a)) ≤ wide

section

variable {wide : Nat} {p : α → Bool} {live : List α} (base : Nearest key wide pool found)
include base

/-- What a search that reaches deep enough leaves out, once thinned, has `k` nearer live items. -/
theorem behind (deep : Deep key p k wide pool live) : ∃ rest, (found.filter p ++ rest).Perm (pool.filter p) ∧
    ∀ b ∈ rest, k ≤ live.countP fun a => decide (key a < key b) := by
  obtain ⟨rest, perm, beyond⟩ := base.left_out
  refine ⟨rest.filter p, by rw [← List.filter_append]; exact perm.filter p, fun b left => ?_⟩
  obtain ⟨left, kept⟩ := List.mem_filter.mp left
  by_contra few
  have within := deep b (perm.subset (List.mem_append_right _ left)) kept (Nat.lt_of_not_le few)
  exact absurd (beyond b left) (Nat.not_lt.mpr within)

/-- Conversely, without ties, a search that has found what is nearest reaches deep enough. -/
theorem deep {whole : List α} (once : (pool.map key).Nodup) (kept : ∀ a ∈ pool, p a = true → a ∈ live)
    (liveOnce : (live.map key).Nodup) (exact : Nearest key k live whole) (all : ∀ a ∈ whole, a ∈ pool → a ∈ found) :
    Deep key p k wide pool live := by
  intro a inside alive few
  have isFound : a ∈ found := by
    by_contra out
    obtain ⟨isFull, before⟩ := exact.missed (kept a inside alive) fun member => out (all a member inside)
    obtain ⟨rest, perm, _⟩ := exact.nearest
    have less : whole.countP (fun b => decide (key b < key a)) = whole.length := by
      refine List.countP_eq_length.mpr fun b member => decide_eq_true (lt_of_le_of_ne (before b member) fun same => ?_)
      have isA := List.inj_on_of_nodup_map liveOnce (exact.subset b member) (kept a inside alive) same
      exact out (all a (isA ▸ member) inside)
    rw [← perm.countP_eq, List.countP_append] at few
    omega
  obtain ⟨rest, perm, before⟩ := base.nearest
  have apart := ((perm.map key).nodup_iff).mpr once
  rw [List.map_append] at apart
  have none : rest.countP (fun b => decide (key b ≤ key a)) = 0 := by
    refine List.countP_eq_zero.mpr fun b left close => ?_
    have same := le_antisymm (before a isFound b left) (of_decide_eq_true close)
    exact (List.nodup_append.mp apart).2.2 _ (List.mem_map_of_mem isFound) _ (List.mem_map_of_mem left) same
  have length := base.length
  have most := List.countP_le_length (l := found) (p := fun b => decide (key b ≤ key a))
  rw [← perm.countP_eq, List.countP_append, none]
  omega

/-- A search of one part of a pool, thinned and merged with the other part. -/
theorem merge {others : List α} (reaches : Deep key p k wide pool (pool.filter p ++ others)) :
    Nearest key k (pool.filter p ++ others) ((sorted key (found.filter p ++ others)).take k) := by
  obtain ⟨rest, perm, beyond⟩ := base.behind reaches
  have whole : (found.filter p ++ others ++ rest).Perm (pool.filter p ++ others) := by
    rw [List.append_assoc]
    refine (List.perm_append_comm.append_left _).trans ?_
    rw [← List.append_assoc]
    exact perm.append_right _
  exact of_part whole beyond (take_sorted key k _)

end

end Nearest
