import Quiver.Base.Lists
import Quiver.Crypto.Dcpe
import Quiver.Index.Product

/-!
The pipeline of an encrypted vector over exact numbers, with a vector as a function of its index.
-/

namespace Quiver.Crypto

open Index (l2Sq)
open Lists

structure ExactNormalization where
  dim : Nat
  shift : Fin dim → ℚ
  scale : ℚ

/-- A key stands for what it determines: the words that drive the shuffle, the perturbations and the tags. -/
structure ExactCipher (Tag : Type) where
  scale : ℚ
  word : Nat → UInt64
  perturbation : Iv → {d : Nat} → Fin d → ℚ
  computeTag : Iv → {d : Nat} → (Fin d → ℚ) → Tag
  normalization : Option ExactNormalization

namespace ExactCipher

variable {Tag : Type} (c : ExactCipher Tag) {d : Nat} (iv : Iv) (v w : Fin d → ℚ)

/-- Fisher–Yates from the top. -/
def permutation (d : Nat) : Fin d → Fin d :=
  (List.finRange d).tail.reverse.zipIdx.foldl (fun perm (i, drawn) => perm ∘
    Equiv.swap i ⟨(c.word drawn).toNat % (i + 1), (Nat.mod_lt _ i.val.succ_pos).trans_le i.isLt⟩) id

theorem permutation_bijective : (c.permutation d).Bijective :=
  List.foldlRecOn _ _ Function.bijective_id fun _ ih _ _ => ih.comp (Equiv.bijective _)

/-- What `normalize` and `denormalize` share: nothing without settings, and the check of the length. -/
def affine (step : ℚ → ℚ → ℚ → ℚ) : Except DcpeError (Fin d → ℚ) :=
  match c.normalization with
  | none => .ok v
  | some n =>
    if same : d = n.dim then .ok fun i => step n.scale (v i) (n.shift (i.cast same))
    else .error (.dimensionMismatch d n.dim)

def normalize : Except DcpeError (Fin d → ℚ) := c.affine v fun scale x mu => (x - mu) * scale

def denormalize : Except DcpeError (Fin d → ℚ) := c.affine v fun scale x mu => x / scale + mu

def pretransform : Except DcpeError (Fin d → ℚ) := (c.normalize v).map (· ∘ c.permutation d)

def scaleAndPerturb (i : Fin d) : ℚ := c.scale * v i + c.perturbation iv i

def encrypt : Except DcpeError ((Fin d → ℚ) × Iv × Tag) :=
  if d = 0 then .error .emptyVector
  else (c.pretransform v).map fun pre => (c.scaleAndPerturb iv pre, iv, c.computeTag iv (c.scaleAndPerturb iv pre))

/-- Writes each number to the place it was taken from. -/
def unshuffle : Fin d → ℚ :=
  (List.finRange d).foldl (fun out i => Function.update out (c.permutation d i) (v i)) 0

def decrypt [DecidableEq Tag] : (Fin d → ℚ) × Iv × Tag → Except DcpeError (Fin d → ℚ)
  | (ciphertext, iv, tag) =>
    if d = 0 then .error .emptyVector
    else if c.computeTag iv ciphertext ≠ tag then .error .integrity
    else c.denormalize (c.unshuffle fun i => (ciphertext i - c.perturbation iv i) / c.scale)

theorem unshuffle_gather : c.unshuffle (v ∘ c.permutation d) = v := by
  funext k
  obtain ⟨i, isK⟩ := c.permutation_bijective.surjective k
  exact (foldl_update _ v _ _ k).trans (if_pos ⟨i, List.mem_finRange i, isK⟩)

theorem l2Sq_gather : l2Sq (v ∘ c.permutation d) (w ∘ c.permutation d) = l2Sq v w :=
  c.permutation_bijective.sum_comp fun i => (v i - w i) ^ 2

variable {c v w}

theorem normalize_spec (fits : ∀ n ∈ c.normalization, n.dim = d) : ∃ x y : Fin d → ℚ,
    c.normalize v = .ok x ∧ c.normalize w = .ok y ∧
    l2Sq x y = l2Sq v w * (c.normalization.elim 1 (·.scale)) ^ 2 ∧
    ((∀ n ∈ c.normalization, n.scale ≠ 0) → c.denormalize x = .ok v) := by
  simp only [normalize, denormalize, affine]
  cases isNorm : c.normalization with
  | none => exact ⟨v, w, rfl, rfl, by simp, fun _ => rfl⟩
  | some n =>
    obtain rfl := fits n isNorm
    refine ⟨_, _, dif_pos rfl, dif_pos rfl, ?_, fun nonzero => (dif_pos rfl).trans (congrArg _ (funext fun i => ?_))⟩
    · rw [l2Sq, l2Sq, Finset.sum_mul]
      refine Finset.sum_congr rfl fun i _ => ?_
      rw [← sub_mul, sub_sub_sub_cancel_right, mul_pow]
      rfl
    · rw [mul_div_cancel_right₀ _ (nonzero n rfl), sub_add_cancel]

/-- The shuffle is a permutation that decryption undoes, and keeps distances up to the scale of the normalisation. -/
theorem decrypt_encrypt [DecidableEq Tag] :
    (c.permutation d).Bijective ∧ c.unshuffle (v ∘ c.permutation d) = v ∧
    ((∀ n ∈ c.normalization, n.dim = d) →
      (∃ a b, c.pretransform v = .ok a ∧ c.pretransform w = .ok b ∧
        l2Sq a b = l2Sq v w * (c.normalization.elim 1 (·.scale)) ^ 2) ∧
      (d ≠ 0 → c.scale ≠ 0 → (∀ n ∈ c.normalization, n.scale ≠ 0) → (c.encrypt iv v).bind c.decrypt = .ok v)) := by
  refine ⟨c.permutation_bijective, c.unshuffle_gather v, fun fits => ?_⟩
  obtain ⟨x, y, isX, isY, distance, back⟩ := normalize_spec (v := v) (w := w) fits
  refine ⟨⟨_, _, by rw [pretransform, isX]; rfl, by rw [pretransform, isY]; rfl, (c.l2Sq_gather x y).trans distance⟩, ?_⟩
  intro nonempty scaled nonzero
  rw [encrypt, if_neg nonempty, pretransform, isX]
  simp only [Except.map, Except.bind, decrypt, if_neg nonempty, scaleAndPerturb, add_sub_cancel_right,
    mul_div_cancel_left₀ _ scaled, ne_eq, not_true_eq_false, if_false]
  exact (congrArg c.denormalize (c.unshuffle_gather x)).trans (back nonzero)

theorem decrypt_encrypt_pair :
    let c : ExactCipher Unit := ⟨2, fun _ => 0, fun _ _ => 1, fun _ _ _ => (), some ⟨2, ![1, 2], 3⟩⟩
    (c.encrypt (.replicate _ 0) ![5, 7]).bind c.decrypt = .ok ![5, 7] :=
  ((decrypt_encrypt (w := ![0, 0]) _).2.2 (by simp)).2 (by decide) (by decide) (by simp)

end ExactCipher

end Quiver.Crypto
