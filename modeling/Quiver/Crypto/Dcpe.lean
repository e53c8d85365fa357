import Quiver.Core.Descriptor

/-!
The tag of an encrypted vector. It covers all that decryption depends on besides the key.
-/

namespace Quiver.Crypto

open Quiver.Core

def ivLen : Nat := 12

abbrev Iv := Vector UInt8 ivLen

def authDomain : Bytes := "quiver/dcpe/v2/tag".toByteArray.data.toList

def normDomain : Bytes := "quiver/dcpe/v2/norm".toByteArray.data.toList

@[ext] structure Normalization where
  shift : List F32
  scale : F32

@[ext] structure EncryptedVector (Tag : Type) where
  ciphertext : List F32
  iv : Iv
  tag : Tag

inductive DcpeError where
  | emptyVector
  | integrity
  | dimensionMismatch (vector shift : Nat)

structure DcpeCipher (Tag : Type) where
  mac : Bytes → Tag
  approximationFactor : F32
  normalization : Option Normalization

namespace DcpeCipher

variable {Tag : Type} [DecidableEq Tag] (c : DcpeCipher Tag)

/-- The bytes under the tag. -/
def macFor (iv : Iv) (ciphertext : List F32) : Bytes :=
  authDomain ++ f32ToLeBytes [c.approximationFactor] ++ iv.toList ++ f32ToLeBytes ciphertext ++
    match c.normalization with
    | none => []
    | some n => normDomain ++ f32ToLeBytes (n.scale :: n.shift)

def computeTag (iv : Iv) (ciphertext : List F32) : Tag := c.mac (c.macFor iv ciphertext)

/-- The checks of `decrypt` before it touches the ciphertext. -/
def verify (sealed : EncryptedVector Tag) : Except DcpeError Unit :=
  if sealed.ciphertext.isEmpty then .error .emptyVector
  else if c.computeTag sealed.iv sealed.ciphertext = sealed.tag then .ok () else .error .integrity

/-- The length check of `denormalize`. -/
def ShiftFits (vector : List F32) : Prop := ∀ n ∈ c.normalization, n.shift.length = vector.length

omit [DecidableEq Tag] in
theorem macFor_inj {c c' : DcpeCipher Tag} {iv iv' : Iv} {ciphertext ciphertext' : List F32}
    (fits : c.ShiftFits ciphertext) (fits' : c'.ShiftFits ciphertext')
    (same : c.macFor iv ciphertext = c'.macFor iv' ciphertext') :
    c.approximationFactor = c'.approximationFactor ∧ iv = iv' ∧ ciphertext = ciphertext' ∧
      c.normalization = c'.normalization := by
  have words {v w : List F32} (eq : f32ToLeBytes v = f32ToLeBytes w) : v = w := by
    rw [← leBytesToF32_f32ToLeBytes v, ← leBytesToF32_f32ToLeBytes w, eq]
  have nineteen : normDomain.length = 19 := rfl
  simp only [macFor, List.append_assoc, List.append_cancel_left_eq] at same
  obtain ⟨factor, same⟩ := List.append_inj same rfl
  obtain ⟨ivs, same⟩ := List.append_inj same (by simp)
  refine ⟨List.singleton_inj.mp (words factor), Vector.toList_inj.mp ivs, ?_⟩
  have sizes := congrArg List.length same
  -- Nineteen bytes of domain are no multiple of four, so a normalisation on one side only cannot fit.
  cases here : c.normalization with
  | none =>
    cases there : c'.normalization with
    | none =>
      simp only [here, there, List.append_nil] at same
      exact ⟨words same, rfl⟩
    | some n =>
      simp only [here, there, List.length_append, nineteen, length_f32ToLeBytes, List.length_nil] at sizes
      omega
  | some n =>
    have shift := fits n here
    cases there : c'.normalization with
    | none =>
      simp only [here, there, List.length_append, nineteen, length_f32ToLeBytes, List.length_nil] at sizes
      omega
    | some n' =>
      have shift' := fits' n' there
      simp only [here, there, List.length_append, length_f32ToLeBytes, List.length_cons] at sizes same
      obtain ⟨ciphertexts, same⟩ := List.append_inj same (by simp only [length_f32ToLeBytes]; omega)
      obtain ⟨scale, shift⟩ := List.cons.inj (words (List.append_cancel_left same))
      exact ⟨words ciphertexts, congrArg some (Normalization.ext shift scale)⟩

/-- The bytes under the tag of a sealed vector. -/
def message (sealed : EncryptedVector Tag) : Bytes := c.macFor sealed.iv sealed.ciphertext

/-- Among the vectors that are checked under a key, only those pass whose bytes were tagged with it. -/
def Unforged (mac : Bytes → Tag) (tagged : List Bytes) (message : Bytes) (tag : Tag) : Prop :=
  mac message = tag → message ∈ tagged

/-- Equal bytes under the tag come from equal settings and vectors. So a vector that passes was sealed with the settings
it is decrypted with, if no tag was forged for it. -/
theorem tag_covers_decryption {c c' : DcpeCipher Tag} {sealed sealed' : EncryptedVector Tag}
    (fits : c.ShiftFits sealed.ciphertext) (fits' : c'.ShiftFits sealed'.ciphertext) :
    (c.message sealed = c'.message sealed' →
      c.approximationFactor = c'.approximationFactor ∧ sealed.iv = sealed'.iv ∧
        sealed.ciphertext = sealed'.ciphertext ∧ c.normalization = c'.normalization) ∧
    ∀ issued : List (DcpeCipher Tag × EncryptedVector Tag), (∀ p ∈ issued, p.1.ShiftFits p.2.ciphertext) →
      Unforged c.mac (issued.map fun p => p.1.message p.2) (c.message sealed) sealed.tag → c.verify sealed = .ok () →
      ∃ p ∈ issued, p.1.approximationFactor = c.approximationFactor ∧ p.2.iv = sealed.iv ∧
        p.2.ciphertext = sealed.ciphertext ∧ p.1.normalization = c.normalization := by
  refine ⟨macFor_inj fits fits', fun issued allFit unforged passes => ?_⟩
  have tagged : c.computeTag sealed.iv sealed.ciphertext = sealed.tag := by
    by_contra differ
    rw [verify, if_neg differ] at passes
    split at passes <;> contradiction
  obtain ⟨p, isIssued, same⟩ := List.mem_map.mp (unforged tagged)
  exact ⟨p, isIssued, macFor_inj (allFit p isIssued) fits same⟩

/-- Two settings of one key with a tag of one byte; the vector sealed with the first passes its own check. -/
theorem tag_covers_decryption_two :
    let mac : Bytes → UInt8 := List.foldl (· ^^^ ·) 0
    let c : DcpeCipher UInt8 := ⟨mac, 7, none⟩
    let d : DcpeCipher UInt8 := ⟨mac, 7, some ⟨[1, 1], 2⟩⟩
    let sealed : EncryptedVector UInt8 := ⟨[1, 2], .replicate _ 3, c.computeTag (.replicate _ 3) [1, 2]⟩
    c.verify sealed = .ok () ∧ ∃ p ∈ [(d, sealed), (c, sealed)], p.1.approximationFactor = 7 ∧
      p.2.iv = .replicate _ 3 ∧ p.2.ciphertext = [1, 2] ∧ p.1.normalization = none := by
  intro mac c d sealed
  have passes : c.verify sealed = .ok () := by simp [verify, sealed]
  have fits : c.ShiftFits sealed.ciphertext := by simp [ShiftFits, c]
  refine ⟨passes, (tag_covers_decryption fits fits).2 [(d, sealed), (c, sealed)] ?_ ?_ passes⟩
  · simp [ShiftFits, c, d, sealed]
  · simp [Unforged]

end DcpeCipher

end Quiver.Crypto
