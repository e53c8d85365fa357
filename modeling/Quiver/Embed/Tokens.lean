import Quiver.Embed.Steps

/-!
Documents as groups of rows. A token's row is named by its document and its ordinal; the
number of tokens of a document is counted from the names of the rows that are there, whatever
their ordinals.
-/

namespace Quiver.Embed

open Quiver.Core
open Std (ExtTreeMap)

theorem toList_tokenId (d : String) (j : Nat) :
    (tokenId d j).toList = d.toList ++ docTokenSep :: Nat.toDigits 10 j := by
  have digits : (toString j).toList = Nat.toDigits 10 j := by
    rw [Nat.toString_eq_repr, Nat.repr_eq_ofList_toDigits, String.toList_ofList]
  simp only [tokenId, String.toList_append, digits]
  rfl

variable {j : Nat}

theorem digit_ne_sep {c : Char} (inside : c ∈ Nat.toDigits 10 j) : c.isDigit = true ∧ c ≠ docTokenSep := by
  have digit := Nat.isDigit_of_mem_toDigits (by decide) (by decide) inside
  refine ⟨digit, ?_⟩
  rintro rfl
  revert digit
  decide

theorem takeWhile_tokenId (d : String) (j : Nat) :
    (tokenId d j).toList.reverse.takeWhile (· ≠ docTokenSep) = (Nat.toDigits 10 j).reverse ∧
      (tokenId d j).toList.reverse.dropWhile (· ≠ docTokenSep) = docTokenSep :: d.toList.reverse := by
  have split : (tokenId d j).toList.reverse = (Nat.toDigits 10 j).reverse ++ docTokenSep :: d.toList.reverse := by
    rw [toList_tokenId, List.reverse_append, List.reverse_cons, List.append_assoc]
    rfl
  have apart : ∀ c ∈ (Nat.toDigits 10 j).reverse, decide (c ≠ docTokenSep) = true := by
    intro c inside
    exact decide_eq_true (digit_ne_sep (List.mem_reverse.mp inside)).2
  rw [split, List.takeWhile_append_of_pos apart, List.dropWhile_append_of_pos apart]
  simp

theorem parseU32_toDigits (bound : j < 2 ^ 32) : parseU32 (Nat.toDigits 10 j) = some j := by
  have digits : ∀ c ∈ Nat.toDigits 10 j, c.isDigit = true := fun c inside => (digit_ne_sep inside).1
  have bare : unsigned (Nat.toDigits 10 j) = Nat.toDigits 10 j := by
    unfold unsigned
    split
    case h_1 rest isPlus =>
      have plus : ('+').isDigit = true := digits '+' (isPlus ▸ List.mem_cons_self ..)
      exact absurd plus (by decide)
    case h_2 => rfl
  have filled : (Nat.toDigits 10 j).isEmpty = false := by
    rw [List.isEmpty_eq_false_iff]
    exact Nat.toDigits_ne_nil
  have all : (Nat.toDigits 10 j).all Char.isDigit = true := List.all_eq_true.mpr digits
  unfold parseU32
  simp only [bare, filled, all, Nat.ofDigitChars_ten_toDigits, Bool.not_true, Bool.or_self, Bool.false_eq_true,
    if_false, if_pos bound]

theorem parseTokenId_tokenId (d : String) (bound : j < 2 ^ 32) :
    parseTokenId (tokenId d j) = some (d, j) := by
  obtain ⟨ordinal, doc⟩ := takeWhile_tokenId d j
  simp only [parseTokenId, ordinal, doc, List.reverse_reverse, parseU32_toDigits bound, Option.map_some,
    String.ofList_toList]

theorem tokenId_inj {d d' : String} {j j' : Nat} : tokenId d j = tokenId d' j' ↔ d = d' ∧ j = j' := by
  constructor
  · intro same
    have ordinal : (Nat.toDigits 10 j).reverse = (Nat.toDigits 10 j').reverse := by
      rw [← (takeWhile_tokenId d j).1, ← (takeWhile_tokenId d' j').1, same]
    have doc : docTokenSep :: d.toList.reverse = docTokenSep :: d'.toList.reverse := by
      rw [← (takeWhile_tokenId d j).2, ← (takeWhile_tokenId d' j').2, same]
    constructor
    · exact String.toList_injective (List.reverse_injective (List.cons.inj doc).2)
    · have digits := congrArg (Nat.ofDigitChars 10 · 0) (List.reverse_injective ordinal)
      simpa only [Nat.ofDigitChars_ten_toDigits] using digits
  · rintro ⟨rfl, rfl⟩
    rfl

/-- The ordinal of a row of the document. -/
def ordinalOf (d : String) (ext : String) : Option Nat :=
  match parseTokenId ext with
  | some (doc, j) => if doc = d then some j else none
  | none => none

/-- The ordinals of the rows of a document that are there. -/
def survivors (points : ExtTreeMap String Record) (d : String) : List Nat := points.keys.filterMap (ordinalOf d)

theorem countTokens (keys : List String) (docs : ExtTreeMap String Nat) (d : String) :
    (keys.foldl countToken docs)[d]? =
      if keys.filterMap (ordinalOf d) = [] then docs[d]?
      else some ((docs[d]?.getD 0 + (keys.filterMap (ordinalOf d)).length) % 2 ^ 32) := by
  induction keys generalizing docs with
  | nil => rfl
  | cons key keys ih =>
    rw [List.foldl_cons, ih]
    have entry : (countToken docs key)[d]? =
        (ordinalOf d key).elim docs[d]? fun _ => some ((docs[d]?.getD 0 + 1) % 2 ^ 32) := by
      unfold countToken ordinalOf
      cases parseTokenId key with
      | none => rfl
      | some row =>
        obtain ⟨doc, j⟩ := row
        simp only [Maps.get_insert]
        by_cases same : doc = d
        · simp only [same, if_true, Option.elim_some]
        · simp only [if_neg same, Option.elim_none]
    rw [entry, List.filterMap_cons]
    cases ordinalOf d key with
    | none => rfl
    | some j =>
      simp only [Option.elim_some, Option.getD_some, List.length_cons, reduceCtorEq, if_false]
      split
      case isTrue none => simp [none]
      case isFalse =>
        congr 1
        omega

/-- Every row is a token of a document, with an ordinal that a document of fewer than `2 ^ 32`
tokens has. -/
def TokenRows (points : ExtTreeMap String Record) : Prop :=
  ∀ id ∈ points, ∃ d j, j + 1 < 2 ^ 32 ∧ id = tokenId d j

namespace TokenRows

variable {points : ExtTreeMap String Record} {d : String}

section

variable (tokens : TokenRows points)
include tokens

theorem mem_survivors {j : Nat} : j ∈ survivors points d ↔ tokenId d j ∈ points := by
  simp only [survivors, List.mem_filterMap, ExtTreeMap.mem_keys]
  constructor
  · rintro ⟨id, held, isOrdinal⟩
    obtain ⟨d', j', bound, rfl⟩ := tokens id held
    rw [ordinalOf, parseTokenId_tokenId d' (by omega)] at isOrdinal
    dsimp only at isOrdinal
    split at isOrdinal
    case isTrue same =>
      cases isOrdinal
      exact same ▸ held
    case isFalse => contradiction
  · intro held
    obtain ⟨d', j', bound, same⟩ := tokens _ held
    obtain ⟨rfl, rfl⟩ := tokenId_inj.mp same
    exact ⟨_, held, by rw [ordinalOf, parseTokenId_tokenId d (by omega)]; exact if_pos rfl⟩

theorem nodup_survivors : (survivors points d).Nodup := by
  rw [survivors, List.Nodup, List.pairwise_filterMap]
  refine (ExtTreeMap.nodup_keys (t := points)).imp_of_mem fun {a b} inside inside' differ i isI j isJ same => ?_
  obtain ⟨da, ja, boundA, rfl⟩ := tokens a (ExtTreeMap.mem_keys.mp inside)
  obtain ⟨db, jb, boundB, rfl⟩ := tokens b (ExtTreeMap.mem_keys.mp inside')
  rw [ordinalOf, parseTokenId_tokenId da (by omega)] at isI
  rw [ordinalOf, parseTokenId_tokenId db (by omega)] at isJ
  dsimp only at isI isJ
  split at isI <;> split at isJ
  case isTrue.isTrue sameA sameB =>
    cases isI
    cases isJ
    exact differ (tokenId_inj.mpr ⟨sameA.trans sameB.symm, same⟩)
  all_goals contradiction

theorem length_survivors : (survivors points d).length < 2 ^ 32 := by
  have below : survivors points d ⊆ List.range (2 ^ 32 - 1) := by
    intro j inside
    obtain ⟨d', j', bound, same⟩ := tokens _ (tokens.mem_survivors.mp inside)
    obtain ⟨_, rfl⟩ := tokenId_inj.mp same
    exact List.mem_range.mpr (by omega)
  have few := (List.subperm_of_subset tokens.nodup_survivors below).length_le
  rw [List.length_range] at few
  omega

theorem insert {j : Nat} (bound : j + 1 < 2 ^ 32) (row : Record) :
    TokenRows (points.insert (tokenId d j) row) := by
  intro id inside
  rw [ExtTreeMap.mem_insert, compare_eq_iff_eq] at inside
  obtain rfl | held := inside
  · exact ⟨d, j, bound, rfl⟩
  · exact tokens id held

theorem erase (id : String) : TokenRows (points.erase id) := by
  intro other inside
  exact tokens other (ExtTreeMap.mem_of_mem_erase inside)

end

end TokenRows

end Quiver.Embed
