import Mathlib.Algebra.BigOperators.Fin
import Mathlib.Algebra.Order.BigOperators.Group.Finset
import Mathlib.Algebra.Order.Ring.Rat
import Mathlib.Tactic.Ring
import Quiver.Core.Descriptor

/-!
# The product quantizer

Over exact numbers. A flat buffer is a function of its index, and `finProdFinEquiv` is the index of a row and a column
in a buffer that holds its rows one after another.
-/

namespace Quiver.Index

open Quiver.Core (DistanceMetric)

def ksub : Nat := 256

instance : NeZero ksub := ⟨by decide⟩

attribute [irreducible] ksub

variable {d : Nat}

def l2Sq (a b : Fin d → ℚ) : ℚ := ∑ k, (a k - b k) ^ 2

def dot (a b : Fin d → ℚ) : ℚ := ∑ k, a k * b k

def usesInnerProduct (metric : DistanceMetric) : Bool := metric = .dot || metric = .cosine

/-- The index of the first of the nearest centroids. -/
def nearestCentroid {n : Nat} [NeZero n] (v : Fin d → ℚ) (centroids : Fin n → Fin d → ℚ) : Fin n :=
  ((List.finRange n).argmin fun c => l2Sq v (centroids c)).getD 0

theorem nearestCentroid_le {n : Nat} [NeZero n] (v : Fin d → ℚ) (centroids : Fin n → Fin d → ℚ) (c : Fin n) :
    l2Sq v (centroids (nearestCentroid v centroids)) ≤ l2Sq v (centroids c) := by
  rw [nearestCentroid]
  cases least : (List.finRange n).argmin fun c => l2Sq v (centroids c) with
  | none => exact absurd (List.argmin_eq_none.mp least ▸ List.mem_finRange c) List.not_mem_nil
  | some best => exact List.le_of_mem_argmin (f := fun c => l2Sq v (centroids c)) (List.mem_finRange c) least

/-- `m` subspaces of dimension `dsub`, with the codebooks in one buffer. -/
structure ProductQuantizer (m dsub : Nat) where
  metric : DistanceMetric
  centroids : Fin (m * ksub * dsub) → ℚ

/-- The part of a vector in a subspace. -/
def part {m dsub : Nat} (v : Fin (m * dsub) → ℚ) (j : Fin m) (k : Fin dsub) : ℚ := v (finProdFinEquiv (j, k))

namespace ProductQuantizer

variable {m dsub : Nat} (q : ProductQuantizer m dsub) (prepared : Fin (m * dsub) → ℚ) (code : Fin m → Fin ksub)

def subspaceCentroids (j : Fin m) (c : Fin ksub) : Fin dsub → ℚ := part q.centroids (finProdFinEquiv (j, c))

def reconstruct (i : Fin (m * dsub)) : ℚ := q.subspaceCentroids i.divNat (code i.divNat) i.modNat

def encode (j : Fin m) : Fin ksub := nearestCentroid (part prepared j) (q.subspaceCentroids j)

def lut (i : Fin (m * ksub)) : ℚ :=
  if usesInnerProduct q.metric then -dot (part prepared i.divNat) (q.subspaceCentroids i.divNat i.modNat)
  else l2Sq (part prepared i.divNat) (q.subspaceCentroids i.divNat i.modNat)

def distance : ℚ := ∑ j, q.lut prepared (finProdFinEquiv (j, code j))

theorem divNat_pair {n : Nat} (j : Fin m) (k : Fin n) : (finProdFinEquiv (j, k)).divNat = j :=
  congrArg Prod.fst (finProdFinEquiv.symm_apply_apply (j, k))

theorem modNat_pair {n : Nat} (j : Fin m) (k : Fin n) : (finProdFinEquiv (j, k)).modNat = k :=
  congrArg Prod.snd (finProdFinEquiv.symm_apply_apply (j, k))

theorem part_reconstruct (j : Fin m) : part (q.reconstruct code) j = q.subspaceCentroids j (code j) := by
  funext k
  rw [part, reconstruct, divNat_pair, modNat_pair]

theorem sum_parts (f : Fin (m * dsub) → ℚ) : ∑ i, f i = ∑ j, ∑ k, part f j k := by
  rw [← finProdFinEquiv.sum_comp, Fintype.sum_prod_type]
  rfl

theorem l2Sq_reconstruct :
    l2Sq prepared (q.reconstruct code) = ∑ j, l2Sq (part prepared j) (q.subspaceCentroids j (code j)) := by
  rw [l2Sq, sum_parts]
  refine Finset.sum_congr rfl fun j _ => ?_
  rw [← part_reconstruct]
  rfl

theorem dot_reconstruct :
    dot prepared (q.reconstruct code) = ∑ j, dot (part prepared j) (q.subspaceCentroids j (code j)) := by
  rw [dot, sum_parts]
  refine Finset.sum_congr rfl fun j _ => ?_
  rw [← part_reconstruct]
  rfl

/-- The tables give the distance to the reconstruction, and no code has a nearer one than the code of the vector. -/
theorem distance_reconstruct :
    q.distance prepared code = (if usesInnerProduct q.metric then -dot prepared (q.reconstruct code)
      else l2Sq prepared (q.reconstruct code)) ∧
    l2Sq prepared (q.reconstruct (q.encode prepared)) ≤ l2Sq prepared (q.reconstruct code) := by
  constructor
  · simp only [distance, lut, divNat_pair, modNat_pair]
    split
    · rw [dot_reconstruct, Finset.sum_neg_distrib]
    · rw [l2Sq_reconstruct]
  · rw [l2Sq_reconstruct, l2Sq_reconstruct]
    exact Finset.sum_le_sum fun j _ => nearestCentroid_le _ _ (code j)

end ProductQuantizer

end Quiver.Index
