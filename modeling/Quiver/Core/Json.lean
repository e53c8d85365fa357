import Quiver.Base.Double
import Quiver.Core.Types

/-!
JSON values, as payloads hold them and filters compare them. A number is an integer of the signed
or unsigned 64-bit range, or a double.
-/

namespace Quiver.Json

inductive Number where
  | posInt (n : UInt64)
  | negInt (i : Int64)
  | float (bits : BitVec 64)
  deriving DecidableEq, Repr

namespace Number

def asF64 : Number → BitVec 64
  | posInt n => Double.ofInt n.toNat
  | negInt i => Double.ofInt i.toInt
  | float bits => bits

/-- An integer, `none` for a float. -/
def asI128 : Number → Option Int
  | posInt n => some n.toNat
  | negInt i => some i.toInt
  | float _ => none

def beq : Number → Number → Bool
  | posInt m, posInt n => m == n
  | negInt i, negInt j => i == j
  | float a, float b => Double.partialCmp a b == some .eq
  | _, _ => false

/-- The order of two numbers as doubles. -/
def doubleCmp (x y : Number) : Option Ordering := Double.partialCmp x.asF64 y.asF64

/-- The order of two numbers, exact for integers. -/
def numberCmp (x y : Number) : Option Ordering :=
  match x.asI128, y.asI128 with
  | some i, some j => some (compare i j)
  | _, _ => doubleCmp x y

/-- The numbers a payload can hold. -/
def Finite : Number → Prop
  | float bits => bits.toNat % 2 ^ 63 / 2 ^ 52 ≠ 2047
  | _ => True

/-- The order of three numbers chains. -/
def Chains (x y z : Number) : Prop :=
  (numberCmp x y = some .eq → numberCmp x z = numberCmp y z) ∧
    (numberCmp x y = some .lt → numberCmp y z = some .lt → numberCmp x z = some .lt)

/-- Two integers that differ, and a float that both are rounded to. -/
def Clash (x y z : Number) : Prop :=
  ∃ i j, x.asI128 = some i ∧ y.asI128 = some j ∧ i ≠ j ∧ z.asI128 = none ∧
    Double.units x.asF64 = Double.units z.asF64 ∧ Double.units y.asF64 = Double.units z.asF64

theorem isNan_asF64 {x : Number} (finite : x.Finite) : Double.isNan x.asF64 = false := by
  cases x with
  | posInt n => exact Double.isNan_ofInt (by have := n.toNat_lt; omega)
  | negInt i => exact Double.isNan_ofInt (by have := i.toInt_lt; have := i.le_toInt; omega)
  | float bits => exact Double.isNan_of_exponent finite

theorem doubleCmp_eq {x y : Number} (finite : x.Finite) (finite' : y.Finite) :
    doubleCmp x y = some (compare (Double.units x.asF64) (Double.units y.asF64)) := by
  simp [doubleCmp, Double.partialCmp, isNan_asF64 finite, isNan_asF64 finite']

theorem asF64_of_asI128 {x : Number} {i : Int} (isInt : x.asI128 = some i) :
    x.asF64 = Double.ofInt i ∧ i.natAbs < 2 ^ 64 := by
  cases x with
  | posInt n =>
    cases isInt
    exact ⟨rfl, by have := n.toNat_lt; omega⟩
  | negInt n =>
    cases isInt
    exact ⟨rfl, by have := n.toInt_lt; have := n.le_toInt; omega⟩
  | float => cases isInt

theorem units_mono {x y : Number} {i j : Int} (isInt : x.asI128 = some i) (isInt' : y.asI128 = some j) (le : i ≤ j) :
    Double.units x.asF64 ≤ Double.units y.asF64 := by
  obtain ⟨isDouble, small⟩ := asF64_of_asI128 isInt
  obtain ⟨isDouble', small'⟩ := asF64_of_asI128 isInt'
  rw [isDouble, isDouble']
  exact Double.units_ofInt_mono small small' le

/-- Three numbers chain unless two of them are integers rounded to the third. -/
theorem chains_of_clear {x y z : Number} (isX : x.Finite) (isY : y.Finite) (isZ : z.Finite) (clear : ¬ Clash x z y)
    (clear' : ¬ Clash y z x) : Chains x y z := by
  have doubles : (doubleCmp x y = some .eq → doubleCmp x z = doubleCmp y z) ∧
      (doubleCmp x y = some .lt → doubleCmp y z = some .lt → doubleCmp x z = some .lt) := by
    simp only [doubleCmp_eq isX isY, doubleCmp_eq isY isZ, doubleCmp_eq isX isZ, Option.some.injEq]
    exact ⟨Std.TransCmp.congr_left, Std.TransCmp.lt_trans⟩
  simp only [Chains, numberCmp]
  cases isInt : x.asI128 with
  | none =>
    cases isInt' : y.asI128 with
    | none => exact doubles
    | some j =>
      cases isInt'' : z.asI128 with
      | none => exact doubles
      | some k =>
        have up := units_mono isInt' isInt''
        have down := units_mono isInt'' isInt'
        have apart : j ≠ k → ¬ (_ = _ ∧ _ = _) := fun differ both => clear' ⟨j, k, isInt', isInt'', differ, isInt, both⟩
        simp only [doubleCmp_eq isX isY, doubleCmp_eq isX isZ, Option.some.injEq, compare_eq_iff_eq, compare_lt_iff_lt]
        exact ⟨fun same => Double.compare_congr (by omega) (by omega), by omega⟩
  | some i =>
    cases isInt' : y.asI128 with
    | none =>
      cases isInt'' : z.asI128 with
      | none => exact doubles
      | some k =>
        have up := units_mono isInt isInt''
        have down := units_mono isInt'' isInt
        have apart : i ≠ k → ¬ (_ = _ ∧ _ = _) := fun differ both => clear ⟨i, k, isInt, isInt'', differ, isInt', both⟩
        simp only [doubleCmp_eq isX isY, doubleCmp_eq isY isZ, Option.some.injEq, compare_eq_iff_eq, compare_lt_iff_lt]
        exact ⟨fun same => Double.compare_congr (by omega) (by omega), by omega⟩
    | some j =>
      have up := units_mono isInt isInt'
      have down := units_mono isInt' isInt
      cases isInt'' : z.asI128 with
      | none =>
        simp only [doubleCmp_eq isX isZ, doubleCmp_eq isY isZ, Option.some.injEq, compare_eq_iff_eq, compare_lt_iff_lt]
        exact ⟨fun same => Double.compare_congr (by omega) (by omega), by omega⟩
      | some k =>
        simp only [Option.some.injEq]
        exact ⟨Std.TransCmp.congr_left, Std.TransCmp.lt_trans⟩

theorem exists_compare {x y : Number} (finite : x.Finite) (finite' : y.Finite) :
    ∃ a b : Int, numberCmp x y = some (compare a b) ∧ numberCmp y x = some (compare b a) := by
  have rounded := doubleCmp_eq finite finite'
  have rounded' := doubleCmp_eq finite' finite
  rw [numberCmp, numberCmp]
  cases x.asI128 with
  | none => exact ⟨_, _, rounded, by cases y.asI128 <;> exact rounded'⟩
  | some i =>
    cases y.asI128 with
    | none => exact ⟨_, _, rounded, rounded'⟩
    | some j => exact ⟨i, j, rfl, rfl⟩

/-- Numbers are always ordered, either way round alike, and this order chains among numbers exactly if no two
integers of them differ and are rounded to a float of them. -/
theorem numberCmp_preorder (numbers : List Number) (finite : ∀ v ∈ numbers, v.Finite) :
    (∀ x ∈ numbers, ∀ y ∈ numbers, ∃ o, numberCmp x y = some o ∧ numberCmp y x = some o.swap) ∧
    ((∀ x ∈ numbers, ∀ y ∈ numbers, ∀ z ∈ numbers, Chains x y z) ↔
      ∀ x ∈ numbers, ∀ y ∈ numbers, ∀ z ∈ numbers, ¬ Clash x y z) := by
  refine ⟨fun x isX y isY => ?_, fun chains x isX y isY z isZ clash => ?_, fun clear x isX y isY z isZ => ?_⟩
  · obtain ⟨a, b, forth, back⟩ := exists_compare (finite x isX) (finite y isY)
    exact ⟨_, forth, by rw [back, Std.OrientedOrd.eq_swap]⟩
  · obtain ⟨i, j, isInt, isInt', differ, isFloat, same, same'⟩ := clash
    have equal : numberCmp x z = some .eq := by
      simp only [numberCmp, isInt, isFloat, doubleCmp_eq (finite x isX) (finite z isZ), same, Option.some.injEq, compare_eq_iff_eq]
    have equal' : numberCmp z y = some .eq := by
      simp only [numberCmp, isInt', isFloat, doubleCmp_eq (finite z isZ) (finite y isY), same', Option.some.injEq, compare_eq_iff_eq]
    have exact := ((chains x isX z isZ y isY).1 equal).trans equal'
    simp only [numberCmp, isInt, isInt', Option.some.injEq, compare_eq_iff_eq] at exact
    exact differ exact
  · exact chains_of_clear (finite x isX) (finite y isY) (finite z isZ) (clear x isX z isZ y isY) (clear y isY z isZ x isX)

/-- Two large integers that are rounded to one double chain with a float that is another. -/
theorem numberCmp_preorder_large :
    Chains (.posInt 9007199254740992) (.posInt 9007199254740993) (.float 0x4340000000000001) := by
  let numbers : List Number := [.posInt 9007199254740992, .posInt 9007199254740993, .float 0x4340000000000001]
  have finite : ∀ v ∈ numbers, v.Finite := by simp [numbers, Finite]
  refine (numberCmp_preorder numbers finite).2.mpr ?_ _ (by simp [numbers]) _ (by simp [numbers]) _ (by simp [numbers])
  rintro x isX y isY z isZ ⟨i, j, isInt, isInt', _, isFloat, same, -⟩
  have isThird : z = .float 0x4340000000000001 := by
    simp only [numbers, List.mem_cons, List.not_mem_nil, or_false] at isZ
    obtain rfl | rfl | rfl := isZ
    · cases isFloat
    · cases isFloat
    · rfl
  subst isThird
  simp only [numbers, List.mem_cons, List.not_mem_nil, or_false] at isX
  obtain rfl | rfl | rfl := isX
  · exact absurd same (by decide +kernel)
  · exact absurd same (by decide +kernel)
  · cases isInt

theorem numberCmp_not_transitive :
    numberCmp (.posInt 9007199254740992) (.float 0x4340000000000000) = some .eq ∧
    numberCmp (.float 0x4340000000000000) (.posInt 9007199254740993) = some .eq ∧
    numberCmp (.posInt 9007199254740992) (.posInt 9007199254740993) = some .lt := by decide +kernel

end Number

inductive Value where
  | null
  | bool (b : Bool)
  | number (n : Number)
  | string (s : String)
  | array (items : List Value)
  | object (fields : List (String × Value))

namespace Value

mutual

def beq : Value → Value → Bool
  | null, null => true
  | bool a, bool b => a == b
  | number m, number n => m.beq n
  | string s, string t => s == t
  | array xs, array ys => beqItems xs ys
  | object xs, object ys => beqFields xs ys
  | _, _ => false

def beqItems : List Value → List Value → Bool
  | [], [] => true
  | x :: xs, y :: ys => beq x y && beqItems xs ys
  | _, _ => false

def beqFields : List (String × Value) → List (String × Value) → Bool
  | [], [] => true
  | (k, x) :: xs, (l, y) :: ys => k == l && beq x y && beqFields xs ys
  | _, _ => false

end

def get : Value → String → Option Value
  | object fields, part => fields.lookup part
  | _, _ => none

end Value

def pathParts (path : String) : List String := (path.toList.splitOn '.').map String.ofList

def fieldValue (payload : Value) (path : String) : Option Value :=
  (pathParts path).foldlM (fun current part => current.get part) payload

end Quiver.Json
