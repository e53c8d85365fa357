import Mathlib.Algebra.Ring.Nat
import Mathlib.Data.Fintype.Card
import Mathlib.Data.List.Lattice
import Mathlib.Data.Prod.Lex
import Quiver.Base.Nearest

/-!
# Pruning and search of the Vamana graph

Nodes are numbers, and the distance of two nodes is any function into a linear order with a product.
-/

namespace Quiver.Index

variable {D : Type} [LinearOrder D] [MulZeroClass D] (d : Nat → Nat → D) (alpha : D) (p : Nat)

/-- Candidates compare by their distance to `p`, then by node. -/
def candidateKey (c : Nat) : D ×ₗ Nat := toLex (d p c, c)

/-- The loop of `robust_prune` while `slots` of the `r` neighbours are free. -/
def pruneLoop : Nat → List Nat → List Nat
  | 0, _ => []
  | slots + 1, cand =>
    match Nearest.sorted (candidateKey d p) cand with
    | [] => []
    | star :: rest => star :: pruneLoop slots ((star :: rest).filter fun c => d p c < alpha * d star c)

def robustPrune (r : Nat) (candidates : List Nat) : List Nat :=
  pruneLoop d alpha p r (candidates.filter (· ≠ p)).eraseDups

/-- Few distinct candidates in ascending distance, the nearest among them, and all others covered if more would fit. -/
structure Pruned (slots : Nat) (cand : Nat → Prop) (out : List Nat) : Prop where
  length : out.length ≤ slots
  subset : ∀ c ∈ out, cand c
  nodup : out.Nodup
  ascending : out.Pairwise fun a b => d p a ≤ d p b
  covered : out.length < slots → ∀ c, cand c → c ∈ out ∨ ∃ s ∈ out, alpha * d s c ≤ d p c
  nearest : 0 < slots → ∀ c, cand c → ∃ s ∈ out, ∀ c, cand c → candidateKey d p s ≤ candidateKey d p c

variable {d}

theorem pruneLoop_pruned (zero : ∀ a, d a a = 0) (nonneg : ∀ a b, 0 ≤ d a b) (slots : Nat) (cand : List Nat) :
    Pruned d alpha p slots (· ∈ cand) (pruneLoop d alpha p slots cand) := by
  induction slots generalizing cand with
  | zero => exact ⟨le_rfl, by simp [pruneLoop], List.nodup_nil, .nil, by simp [pruneLoop], by simp⟩
  | succ slots ih =>
    have perm := Nearest.sorted_perm (candidateKey d p) cand
    have sorted := Nearest.sorted_ascending (candidateKey d p) cand
    rw [pruneLoop]
    split
    · rename_i none
      rw [none] at perm
      cases perm.symm.eq_nil
      exact ⟨by simp, by simp, List.nodup_nil, .nil, by simp, by simp⟩
    · rename_i star rest isSorted
      rw [isSorted] at perm sorted
      have least : ∀ c ∈ cand, candidateKey d p star ≤ candidateKey d p c := by
        intro c inside
        rcases List.mem_cons.mp (perm.symm.subset inside) with rfl | later
        · exact le_rfl
        · exact List.rel_of_pairwise_cons sorted later
      have next := ih ((star :: rest).filter fun c => d p c < alpha * d star c)
      simp only [List.mem_filter, perm.mem_iff, decide_eq_true_eq] at next
      refine ⟨Nat.succ_le_succ next.length, ?_, ?_, ?_, ?_, fun _ _ _ => ⟨star, List.mem_cons_self, least⟩⟩
      · exact List.forall_mem_cons.mpr ⟨perm.subset List.mem_cons_self, fun c later => (next.subset c later).1⟩
      · -- A selected candidate is at distance zero from itself, so it drops itself.
        refine List.nodup_cons.mpr ⟨fun again => ?_, next.nodup⟩
        have closer := (next.subset star again).2
        rw [zero, mul_zero] at closer
        exact closer.not_ge (nonneg p star)
      · exact List.pairwise_cons.mpr
          ⟨fun c later => Prod.Lex.monotone_fst _ _ (least c (next.subset c later).1), next.ascending⟩
      · intro room c inside
        by_cases close : d p c < alpha * d star c
        · rcases next.covered (Nat.lt_of_succ_lt_succ room) c ⟨inside, close⟩ with chosen | ⟨s, chosen, covers⟩
          · exact .inl (List.mem_cons_of_mem _ chosen)
          · exact .inr ⟨s, List.mem_cons_of_mem _ chosen, covers⟩
        · exact .inr ⟨star, List.mem_cons_self, not_lt.mp close⟩

theorem robustPrune_covers (zero : ∀ a, d a a = 0) (nonneg : ∀ a b, 0 ≤ d a b) (r : Nat) (candidates : List Nat) :
    Pruned d alpha p r (fun c => c ∈ candidates ∧ c ≠ p) (robustPrune d alpha p r candidates) := by
  have pruned := pruneLoop_pruned alpha p zero nonneg r (candidates.filter (· ≠ p)).eraseDups
  simp only [List.mem_eraseDups, List.mem_filter, decide_eq_true_eq] at pruned
  exact pruned

theorem robustPrune_covers_line :
    Pruned (fun a b => a - b + (b - a)) 2 5 3 (fun c => c ∈ [9, 6, 5] ∧ c ≠ 5)
      (robustPrune (fun a b => a - b + (b - a)) 2 5 3 [9, 6, 5]) :=
  robustPrune_covers 2 5 (by simp) (fun _ _ => Nat.zero_le _) 3 [9, 6, 5]

section Search

open Relation (ReflTransGen)

variable {n : Nat} {K : Type} [LinearOrder K] (neighbors : Fin n → List (Fin n)) (key : Fin n → K) (l : Nat)

/-- The loop of `greedy_search` over the candidates and the nodes it has expanded. A query gives each node its key:
its distance, then its number. -/
def greedyLoop : Nat → List (Fin n) → List (Fin n) → List (Fin n) × List (Fin n)
  | 0, working, visited => (working, visited)
  | rounds + 1, working, visited =>
    match Nearest.sorted key (working.filter (· ∉ visited)) with
    | [] => (working, visited)
    | p :: _ => greedyLoop rounds ((Nearest.sorted key (neighbors p ∪ working)).take l) (visited ++ [p])

/-- Every round expands another node. -/
def greedySearch (start : Fin n) : List (Fin n) × List (Fin n) := greedyLoop neighbors key l n [start] []

/-- Candidates are reached over expanded nodes, and what is seen from these is one, unless `l` of them are no farther. -/
structure Beam (start : Fin n) (working visited : List (Fin n)) : Prop where
  reached : ∀ c ∈ working ++ visited, ReflTransGen (fun a b => a ∈ visited ∧ b ∈ neighbors a) start c
  length : working.length ≤ max 1 l
  ascending : working.Pairwise fun a b => key a ≤ key b
  nodup : working.Nodup
  seen : ∀ c, (c = start ∨ ∃ v ∈ visited, c ∈ neighbors v) →
    c ∈ working ∨ working.length = l ∧ ∀ a ∈ working, key a ≤ key c

variable {neighbors key l} {start : Fin n} {working visited : List (Fin n)}

theorem Beam.expand (beam : Beam neighbors key l start working visited) {p : Fin n} (inside : p ∈ working) :
    Beam neighbors key l start ((Nearest.sorted key (neighbors p ∪ working)).take l) (visited ++ [p]) := by
  have near := Nearest.take_sorted key l (neighbors p ∪ working)
  have older : working.Sublist (neighbors p ∪ working) := (List.suffix_union_right ..).sublist
  have again {c : Fin n} (old : c ∈ working ++ visited) :
      ReflTransGen (fun a b => a ∈ visited ++ [p] ∧ b ∈ neighbors a) start c :=
    ReflTransGen.mono (fun _ _ edge => edge.imp_left (List.mem_append_left _)) _ _ (beam.reached c old)
  refine ⟨fun c member => ?_, (List.length_take_le ..).trans (le_max_right ..), near.ascending,
    by simpa using near.nodup (f := id) (by simpa using beam.nodup.union _), fun c seen => ?_⟩
  · simp only [List.mem_append, List.mem_singleton] at member again ⊢
    obtain kept | old | rfl := member
    · obtain edge | old := List.mem_union_iff.mp (near.subset c kept)
      · exact (again (.inl inside)).tail ⟨.inr rfl, edge⟩
      · exact again (.inl old)
    · exact again (.inr old)
    · exact again (.inl inside)
  by_cases candidate : c ∈ neighbors p ∪ working
  · exact or_iff_not_imp_left.mpr (near.missed candidate)
  · -- It was left out before, for `l` candidates that are no farther.
    rw [List.mem_union_iff, not_or] at candidate
    have before : c = start ∨ ∃ v ∈ visited, c ∈ neighbors v := by
      refine seen.imp_right fun ⟨v, expanded, edge⟩ => ⟨v, (List.mem_append.mp expanded).resolve_right ?_, edge⟩
      exact fun now => candidate.1 (List.mem_singleton.mp now ▸ edge)
    obtain ⟨full, nearer⟩ := (beam.seen c before).resolve_left candidate.2
    refine .inr ⟨near.length.trans (Nat.min_eq_left (full ▸ older.length_le)), near.within ?_⟩
    rw [← full, ← List.countP_eq_length.mpr fun a member => decide_eq_true (nearer a member)]
    exact older.countP_le

theorem greedyLoop_beam {rounds : Nat} (beam : Beam neighbors key l start working visited) (distinct : visited.Nodup)
    (enough : n ≤ visited.length + rounds) :
    let found := greedyLoop neighbors key l rounds working visited
    Beam neighbors key l start found.1 found.2 ∧ ∀ c ∈ found.1, c ∈ found.2 := by
  induction rounds generalizing working visited with
  | zero =>
    refine ⟨beam, fun c _ => ?_⟩
    by_contra (new : c ∉ visited)
    have few := (List.nodup_cons.mpr ⟨new, distinct⟩).length_le_card
    rw [List.length_cons, Fintype.card_fin] at few
    omega
  | succ rounds ih =>
    have perm := Nearest.sorted_perm key (working.filter (· ∉ visited))
    rw [greedyLoop]
    split
    case h_1 none =>
      rw [none] at perm
      exact ⟨beam, by simpa using perm.symm.eq_nil⟩
    case h_2 p rest isSorted =>
      rw [isSorted] at perm
      obtain ⟨inside, new⟩ := List.mem_filter.mp (perm.subset List.mem_cons_self)
      refine ih (beam.expand inside) ?_ (by simp only [List.length_append, List.length_singleton]; omega)
      exact List.concat_eq_append ▸ distinct.concat (of_decide_eq_true new)

variable (neighbors key l) in
/-- A search finds the nearest of all it has seen, and with room for more it finds all that can be reached. -/
theorem greedySearch_found (start : Fin n) :
    let found := greedySearch neighbors key l start
    Beam neighbors key l start found.1 found.2 ∧ (∀ c ∈ found.1, c ∈ found.2) ∧
      (found.1.length < l → ∀ c, c ∈ found.1 ↔ ReflTransGen (fun a b => b ∈ neighbors a) start c) := by
  have first : Beam neighbors key l start [start] [] :=
    ⟨by simpa using .refl, le_max_left .., List.pairwise_singleton .., List.nodup_singleton _, by simp⟩
  obtain ⟨beam, expanded⟩ := greedyLoop_beam first .nil (Nat.le_add_left ..)
  refine ⟨beam, expanded, fun room c => ⟨fun member => ?_, fun path => ?_⟩⟩
  · exact ReflTransGen.mono (fun _ _ edge => edge.2) _ _ (beam.reached c (List.mem_append_left _ member))
  have seen := fun c known => (beam.seen c known).resolve_right fun full => room.ne full.1
  induction path with
  | refl => exact seen _ (.inl rfl)
  | tail _ edge ih => exact seen _ (.inr ⟨_, expanded _ ih, edge⟩)

end Search

end Quiver.Index
