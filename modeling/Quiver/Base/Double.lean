import Mathlib.Tactic.Ring

/-!
Binary64 words and byte keys. A word stands for an integer number of the smallest subnormal;
flipping the sign bit, or all bits of a negative word, orders the words as their values, and
big-endian bytes order as the numbers they write.
-/

namespace Double

/-- The absolute value of a word without its sign, in units of the smallest subnormal. -/
def magnitude (word : Nat) : Nat :=
  if word / 2 ^ 52 = 0 then word % 2 ^ 52 else (2 ^ 52 + word % 2 ^ 52) * 2 ^ (word / 2 ^ 52 - 1)

theorem magnitude_lt_succ (word : Nat) : magnitude word < magnitude (word + 1) := by
  have bound : word % 2 ^ 52 < 2 ^ 52 := Nat.mod_lt _ (by decide)
  by_cases carries : word % 2 ^ 52 + 1 = 2 ^ 52
  · have exponent : (word + 1) / 2 ^ 52 = word / 2 ^ 52 + 1 := by omega
    have fraction : (word + 1) % 2 ^ 52 = 0 := by omega
    rw [magnitude, magnitude, exponent, fraction, if_neg (Nat.succ_ne_zero _), Nat.add_sub_cancel, Nat.add_zero]
    by_cases subnormal : word / 2 ^ 52 = 0
    · rw [if_pos subnormal, subnormal]
      omega
    · rw [if_neg subnormal]
      obtain ⟨e, isExponent⟩ := Nat.exists_eq_succ_of_ne_zero subnormal
      rw [isExponent, Nat.succ_sub_one, Nat.pow_succ 2 e, ← Nat.mul_assoc, Nat.mul_right_comm]
      exact Nat.mul_lt_mul_of_pos_right (by omega) (Nat.two_pow_pos e)
  · have exponent : (word + 1) / 2 ^ 52 = word / 2 ^ 52 := by omega
    have fraction : (word + 1) % 2 ^ 52 = word % 2 ^ 52 + 1 := by omega
    rw [magnitude, magnitude, exponent, fraction]
    split
    · exact Nat.lt_succ_self _
    · exact Nat.mul_lt_mul_of_pos_right (by omega) (Nat.two_pow_pos _)

theorem magnitude_strictMono : StrictMono magnitude := strictMono_nat_of_lt_succ magnitude_lt_succ

/-- The value of a word, in units of the smallest subnormal. -/
def units (word : BitVec 64) : Int :=
  if word.toNat < 2 ^ 63 then magnitude word.toNat else - (magnitude (word.toNat - 2 ^ 63) : Int)

def isNan (word : BitVec 64) : Bool := word.toNat % 2 ^ 63 / 2 ^ 52 = 2047 && word.toNat % 2 ^ 52 ≠ 0

/-- The comparison of two doubles, `none` with a NaN. -/
def partialCmp (a b : BitVec 64) : Option Ordering :=
  if isNan a || isNan b then none else some (compare (units a) (units b))

/-- The word nearest to a natural number, ties to even. -/
def roundNat (n : Nat) : Nat :=
  if n = 0 then 0
  else if n.log2 ≤ 52 then (n.log2 + 1023) * 2 ^ 52 + (n * 2 ^ (52 - n.log2) - 2 ^ 52)
  else
    let shift := n.log2 - 52
    let quotient := n / 2 ^ shift
    let rest := n % 2 ^ shift
    let rounded := if 2 ^ shift < 2 * rest ∨ 2 * rest = 2 ^ shift ∧ quotient % 2 = 1 then quotient + 1 else quotient
    (n.log2 + 1023) * 2 ^ 52 + (rounded - 2 ^ 52)

def ofInt (i : Int) : BitVec 64 :=
  BitVec.ofNat 64 (if i < 0 then 2 ^ 63 + roundNat i.natAbs else roundNat i.natAbs)

/-- Adding zero turns a negative zero into the positive one. -/
def addZero (word : BitVec 64) : BitVec 64 := if word = 1#64 <<< 63 then 0#64 else word

theorem units_addZero (word : BitVec 64) : units (addZero word) = units word := by
  rw [addZero]
  split
  · rename_i negative
    rw [negative]
    decide
  · rfl

/-- The word with its order: the sign bit flipped, or all bits of a negative one. -/
def ordered (word : BitVec 64) : BitVec 64 := if word >>> 63 = 0#64 then word ||| (1#64 <<< 63) else ~~~ word

theorem toNat_ordered (word : BitVec 64) :
    (ordered word).toNat = if word.toNat < 2 ^ 63 then 2 ^ 63 + word.toNat else 2 ^ 64 - 1 - word.toNat := by
  have sign : word >>> 63 = 0#64 ↔ word.toNat < 2 ^ 63 := by
    rw [← BitVec.toNat_inj, BitVec.toNat_ushiftRight, Nat.shiftRight_eq_div_pow, BitVec.toNat_ofNat]
    omega
  rw [ordered]
  by_cases positive : word.toNat < 2 ^ 63
  · have flips := Nat.two_pow_add_eq_or_of_lt positive 1
    rw [if_pos (sign.mpr positive), if_pos positive, BitVec.toNat_or, Nat.or_comm]
    rw [Nat.mul_one] at flips
    exact flips.symm
  · rw [if_neg (sign.not.mpr positive), if_neg positive, BitVec.toNat_not]

theorem compare_congr {α β : Type} [LinearOrder α] [LinearOrder β] {a b : α} {c d : β}
    (less : a < b ↔ c < d) (more : b < a ↔ d < c) : compare a b = compare c d := by
  rcases lt_trichotomy a b with smaller | same | larger
  · rw [compare_lt_iff_lt.mpr smaller, compare_lt_iff_lt.mpr (less.mp smaller)]
  · have equal : c = d := le_antisymm (not_lt.mp fun h => (more.mpr h).ne same.symm)
      (not_lt.mp fun h => (less.mpr h).ne same)
    rw [compare_eq_iff_eq.mpr same, compare_eq_iff_eq.mpr equal]
  · rw [compare_gt_iff_gt.mpr larger, compare_gt_iff_gt.mpr (more.mp larger)]

theorem compare_ordered (a b : BitVec 64) :
    compare (ordered (addZero a)).toNat (ordered (addZero b)).toNat = compare (units a) (units b) := by
  rw [← units_addZero a, ← units_addZero b]
  have nonzero : ∀ word : BitVec 64, (addZero word).toNat ≠ 2 ^ 63 := by
    intro word same
    rw [addZero] at same
    split at same
    · contradiction
    · rename_i differ
      exact differ (BitVec.eq_of_toNat_eq same)
  have bound := (addZero a).isLt
  have bound' := (addZero b).isLt
  have positive := nonzero a
  have positive' := nonzero b
  have zero : magnitude 0 = 0 := rfl
  simp only [toNat_ordered, units]
  generalize (addZero a).toNat = m at *
  generalize (addZero b).toNat = n at *
  have mono : ∀ i j, magnitude i < magnitude j ↔ i < j := fun i j => magnitude_strictMono.lt_iff_lt
  by_cases left : m < 2 ^ 63
  · by_cases right : n < 2 ^ 63
    · have less := mono m n
      have more := mono n m
      simp only [if_pos left, if_pos right]
      refine compare_congr ?_ ?_ <;> omega
    · have below := mono 0 (n - 2 ^ 63)
      simp only [if_pos left, if_neg right]
      refine compare_congr ?_ ?_ <;> omega
  · by_cases right : n < 2 ^ 63
    · have below := mono 0 (m - 2 ^ 63)
      simp only [if_neg left, if_pos right]
      refine compare_congr ?_ ?_ <;> omega
    · have less := mono (m - 2 ^ 63) (n - 2 ^ 63)
      have more := mono (n - 2 ^ 63) (m - 2 ^ 63)
      simp only [if_neg left, if_neg right]
      refine compare_congr ?_ ?_ <;> omega

def bigEndian : Nat → Nat → List UInt8
  | 0, _ => []
  | k + 1, n => UInt8.ofNat (n / 256 ^ k) :: bigEndian k (n % 256 ^ k)

theorem compare_ofNat {i j : Nat} (left : i < 256) (right : j < 256) :
    compare (UInt8.ofNat i) (UInt8.ofNat j) = compare i j := by
  change compareOfLessAndEq _ _ = compareOfLessAndEq _ _
  simp only [compareOfLessAndEq, UInt8.lt_iff_toNat_lt, ← UInt8.toNat_inj, UInt8.toNat_ofNat_of_lt' left,
    UInt8.toNat_ofNat_of_lt' right]

theorem compare_divMod (b : Nat) (m n : Nat) :
    (compare (m / b) (n / b)).then (compare (m % b) (n % b)) = compare m n := by
  have left := Nat.div_add_mod m b
  have right := Nat.div_add_mod n b
  have ordered : ∀ {i j : Nat}, i / b < j / b → i < j := fun less =>
    Nat.lt_of_not_le fun le => absurd (Nat.div_le_div_right le) (Nat.not_le.mpr less)
  rcases lt_trichotomy (m / b) (n / b) with less | same | more
  · rw [compare_lt_iff_lt.mpr less, compare_lt_iff_lt.mpr (ordered less)]
    rfl
  · rw [compare_eq_iff_eq.mpr same, Ordering.eq_then]
    rw [same] at left
    refine compare_congr ?_ ?_ <;> omega
  · rw [compare_gt_iff_gt.mpr more, compare_gt_iff_gt.mpr (ordered more)]
    rfl

theorem compare_bigEndian (k : Nat) {m n : Nat} (left : m < 256 ^ k) (right : n < 256 ^ k) :
    compare (bigEndian k m) (bigEndian k n) = compare m n := by
  induction k generalizing m n with
  | zero =>
    rw [show m = n by omega]
    simp
  | succ k ih =>
    have digit : ∀ {i}, i < 256 ^ (k + 1) → i / 256 ^ k < 256 := fun bound =>
      Nat.div_lt_of_lt_mul (by rwa [Nat.pow_succ] at bound)
    have rest : ∀ i, i % 256 ^ k < 256 ^ k := fun i => Nat.mod_lt i (Nat.pow_pos (by decide))
    rw [bigEndian, bigEndian, List.compare_eq_compareLex, List.compareLex_cons_cons, ← List.compare_eq_compareLex,
      compare_ofNat (digit left) (digit right), ih (rest m) (rest n), compare_divMod]

theorem roundNat_bounds {n : Nat} (some : n ≠ 0) :
    (n.log2 + 1023) * 2 ^ 52 ≤ roundNat n ∧ roundNat n ≤ (n.log2 + 1024) * 2 ^ 52 := by
  have below : n < 2 ^ (n.log2 + 1) := Nat.lt_log2_self
  rw [roundNat, if_neg some]
  split
  · have scaled : n * 2 ^ (52 - n.log2) < 2 ^ (n.log2 + 1) * 2 ^ (52 - n.log2) :=
      Nat.mul_lt_mul_of_pos_right below (Nat.two_pow_pos _)
    rw [← pow_add, show n.log2 + 1 + (52 - n.log2) = 53 by omega] at scaled
    omega
  · have quotient : n / 2 ^ (n.log2 - 52) < 2 ^ 53 := by
      rw [Nat.div_lt_iff_lt_mul (Nat.two_pow_pos _), ← pow_add, show 53 + (n.log2 - 52) = n.log2 + 1 by omega]
      exact below
    dsimp only
    split <;> omega

theorem roundNat_mono {m n : Nat} (le : m ≤ n) : roundNat m ≤ roundNat n := by
  by_cases zero : m = 0
  · simp [roundNat, zero]
  have some : n ≠ 0 := by omega
  have upper := (roundNat_bounds zero).2
  have lower := (roundNat_bounds some).1
  have logs : m.log2 ≤ n.log2 := (Nat.le_log2 some).mpr ((Nat.log2_self_le zero).trans le)
  obtain less | same := logs.lt_or_eq
  · omega
  · rw [roundNat, roundNat, if_neg zero, if_neg some, same]
    split
    · exact Nat.add_le_add_left (Nat.sub_le_sub_right (Nat.mul_le_mul_right _ le) _) _
    · refine Nat.add_le_add_left (Nat.sub_le_sub_right ?_ _) _
      have quotients := Nat.div_le_div_right (c := 2 ^ (n.log2 - 52)) le
      have left := Nat.div_add_mod m (2 ^ (n.log2 - 52))
      have right := Nat.div_add_mod n (2 ^ (n.log2 - 52))
      -- With one quotient the rests decide, and otherwise the smaller one is at most rounded up to the other.
      obtain less | equal := quotients.lt_or_eq
      · split <;> split <;> omega
      · rw [equal] at left ⊢
        split <;> split <;> omega

theorem isNan_of_exponent {word : BitVec 64} (exponent : word.toNat % 2 ^ 63 / 2 ^ 52 ≠ 2047) : isNan word = false := by
  rw [isNan, decide_eq_false exponent, Bool.false_and]

theorem roundNat_lt {n : Nat} (small : n < 2 ^ 64) : roundNat n < 2047 * 2 ^ 52 := by
  by_cases zero : n = 0
  · simp [roundNat, zero]
  · have top : n.log2 < 64 := (Nat.log2_lt zero).mpr small
    have upper := (roundNat_bounds zero).2
    omega

theorem units_ofInt {i : Int} (small : i.natAbs < 2 ^ 64) :
    units (ofInt i) = if i < 0 then - (magnitude (roundNat i.natAbs) : Int) else magnitude (roundNat i.natAbs) := by
  have bound := roundNat_lt small
  rw [units, ofInt, BitVec.toNat_ofNat]
  split
  · rw [Nat.mod_eq_of_lt (by omega), if_neg (by omega), Nat.add_sub_cancel_left]
  · rw [Nat.mod_eq_of_lt (by omega), if_pos (by omega)]

/-- Rounding keeps the order. -/
theorem units_ofInt_mono {i j : Int} (small : i.natAbs < 2 ^ 64) (small' : j.natAbs < 2 ^ 64) (le : i ≤ j) :
    units (ofInt i) ≤ units (ofInt j) := by
  rw [units_ofInt small, units_ofInt small']
  have mono {m n : Nat} (le : m ≤ n) := magnitude_strictMono.monotone (roundNat_mono le)
  split
  · split
    · have := mono (show j.natAbs ≤ i.natAbs by omega)
      omega
    · omega
  · rw [if_neg (by omega)]
    exact Int.ofNat_le.mpr (mono (by omega))

theorem isNan_ofInt {i : Int} (small : i.natAbs < 2 ^ 64) : isNan (ofInt i) = false := by
  have bound := roundNat_lt small
  refine isNan_of_exponent ?_
  rw [ofInt, BitVec.toNat_ofNat]
  split
  · omega
  · omega

end Double
