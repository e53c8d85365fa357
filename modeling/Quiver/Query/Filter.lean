import Quiver.Core.Json
import Quiver.Core.Segment

/-!
Filters over JSON payloads. The comparison of numbers is a parameter: a filter compares integers
exactly, the secondary index as doubles.
-/

namespace Quiver.Query

open Json (Value Number fieldValue)

/-- The predicates on one field. -/
inductive Leaf where
  | eq (field : String) (value : Value)
  | ne (field : String) (value : Value)
  | isIn (field : String) (values : List Value)
  | lt (field : String) (value : Value)
  | lte (field : String) (value : Value)
  | gt (field : String) (value : Value)
  | gte (field : String) (value : Value)
  | isPresent (field : String)

inductive Filter where
  | and (subs : List Filter)
  | or (subs : List Filter)
  | not (sub : Filter)
  | leaf (leaf : Leaf)

section Compare

variable (cmp : Number → Number → Option Ordering)

def valuesEq : Value → Value → Bool
  | .number x, .number y => cmp x y == some .eq
  | a, b => a.beq b

/-- The order of two numbers, or of two strings by their bytes. -/
def order : Value → Value → Option Ordering
  | .number x, .number y => cmp x y
  | .string s, .string t => some (compare (Core.idBytes s) (Core.idBytes t))
  | _, _ => none

def compares (payload : Value) (field : String) (value : Value) (pred : Ordering → Bool) : Bool :=
  ((fieldValue payload field).bind fun v => order cmp v value).any pred

def Leaf.matchesWith (payload : Value) : Leaf → Bool
  | eq field value => (fieldValue payload field).any fun v => valuesEq cmp v value
  | ne field value => !(fieldValue payload field).any fun v => valuesEq cmp v value
  | isIn field values => (fieldValue payload field).any fun v => values.any fun candidate => valuesEq cmp v candidate
  | lt field value => compares cmp payload field value fun o => o == .lt
  | lte field value => compares cmp payload field value fun o => o != .gt
  | gt field value => compares cmp payload field value fun o => o == .gt
  | gte field value => compares cmp payload field value fun o => o != .lt
  | isPresent field => (fieldValue payload field).isSome

end Compare

mutual

def Filter.matches (payload : Value) : Filter → Bool
  | .and subs => matchesAll payload subs
  | .or subs => matchesAny payload subs
  | .not sub => !sub.matches payload
  | .leaf leaf => leaf.matchesWith Number.numberCmp payload

def matchesAll (payload : Value) : List Filter → Bool
  | [] => true
  | sub :: subs => sub.matches payload && matchesAll payload subs

def matchesAny (payload : Value) : List Filter → Bool
  | [] => false
  | sub :: subs => sub.matches payload || matchesAny payload subs

end

end Quiver.Query
