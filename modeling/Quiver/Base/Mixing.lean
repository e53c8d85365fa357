import Mathlib.Logic.Function.Basic

/-!
The steps of a hash finalizer are injective on machine words: an exclusive or with the word
shifted right, and a multiplication by a unit.
-/

namespace Mixing

theorem xor_ushiftRight_injective {w k : Nat} (pos : 0 < k) :
    Function.Injective fun x : BitVec w => x ^^^ (x >>> k) := by
  intro x y same
  have bit : ∀ i, (x.getLsbD i ^^ x.getLsbD (k + i)) = (y.getLsbD i ^^ y.getLsbD (k + i)) := by
    intro i
    simpa using congrArg (BitVec.getLsbD · i) same
  have above : ∀ n i, w ≤ i + n → x.getLsbD i = y.getLsbD i := by
    intro n
    induction n with
    | zero =>
      intro i past
      rw [BitVec.getLsbD_of_ge x i past, BitVec.getLsbD_of_ge y i past]
    | succ n ih =>
      intro i past
      have higher := ih (k + i) (by omega)
      have here := bit i
      rw [higher] at here
      exact Bool.xor_left_inj.mp here
  exact BitVec.eq_of_getLsbD_eq fun i _ => above w i (Nat.le_add_left w i)

theorem uint64_xorShift_injective {k : UInt64} (pos : 0 < k.toNat % 64) :
    Function.Injective fun x : UInt64 => x ^^^ (x >>> k) := by
  intro x y same
  refine UInt64.toBitVec_inj.mp (xor_ushiftRight_injective pos ?_)
  have bits := congrArg UInt64.toBitVec same
  simpa [UInt64.toBitVec_shiftRight] using bits

theorem uint64_mul_injective {c d : UInt64} (inverse : c * d = 1) : Function.Injective fun x : UInt64 => x * c := by
  intro x y same
  have cancelled := congrArg (· * d) same
  simpa only [UInt64.mul_assoc, inverse, UInt64.mul_one] using cancelled

end Mixing
