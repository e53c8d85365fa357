import Mathlib.Algebra.GroupWithZero.Nat
import Mathlib.Data.List.Basic

/-!
Self-delimiting binary codecs. A codec carries its round trip: decoding an encoded value returns it
and exactly what followed. Numbers are base-128 varints, sequences carry their length, variants
their index.
-/

/-- An encoder with a decoder that inverts it in front of any further bytes. -/
structure Codec (α : Type) where
  encode : α → List UInt8
  decode : List UInt8 → Option (α × List UInt8)
  decode_encode : ∀ a rest, decode (encode a ++ rest) = some (a, rest)

namespace Codec

open Option (bind_eq_bind bind_some map_some pure_def)

variable {α β : Type}

/-- Decode a whole buffer; trailing bytes are ignored. -/
def fromBytes (c : Codec α) (bytes : List UInt8) : Option α :=
  (c.decode bytes).map Prod.fst

@[simp] theorem fromBytes_encode (c : Codec α) (a : α) : c.fromBytes (c.encode a) = some a := by
  have decoded := c.decode_encode a []
  rw [List.append_nil] at decoded
  simp only [fromBytes, decoded, map_some]

/-- Seven payload bits a byte, low bits first, the high bit set on every byte but the last. -/
def encodeVarint : (fuel value : Nat) → List UInt8
  | 0, value => [UInt8.ofNat value]
  | fuel + 1, value =>
    if value < 128 then [UInt8.ofNat value]
    else UInt8.ofNat (value % 128 + 128) :: encodeVarint fuel (value / 128)

def decodeVarint : List UInt8 → Option (Nat × List UInt8)
  | [] => none
  | byte :: rest =>
    if byte.toNat < 128 then some (byte.toNat, rest)
    else (decodeVarint rest).map fun (high, rest) => (byte.toNat - 128 + 128 * high, rest)

theorem decodeVarint_encodeVarint (fuel value : Nat) (enough : value ≤ fuel) (rest : List UInt8) :
    decodeVarint (encodeVarint fuel value ++ rest) = some (value, rest) := by
  induction fuel generalizing value with
  | zero =>
    obtain rfl : value = 0 := by omega
    rfl
  | succ fuel ih =>
    simp only [encodeVarint]
    split
    case isTrue small =>
      have byte : (UInt8.ofNat value).toNat = value := by simp; omega
      simp only [List.cons_append, List.nil_append, decodeVarint, byte, small, if_true]
    case isFalse large =>
      have byte : (UInt8.ofNat (value % 128 + 128)).toNat = value % 128 + 128 := by simp; omega
      have high := ih (value / 128) (by omega)
      simp only [List.cons_append, decodeVarint, byte, high, map_some]
      rw [if_neg (by omega)]
      congr 2
      omega

def varint : Codec Nat where
  encode value := encodeVarint value value
  decode := decodeVarint
  decode_encode value rest := decodeVarint_encodeVarint value value (Nat.le_refl _) rest

def byte : Codec UInt8 where
  encode b := [b]
  decode
    | [] => none
    | b :: rest => some (b, rest)
  decode_encode _ _ := rfl

def pair (first : Codec α) (second : Codec β) : Codec (α × β) where
  encode p := first.encode p.1 ++ second.encode p.2
  decode bytes := do
    let (a, rest) ← first.decode bytes
    let (b, rest) ← second.decode rest
    return ((a, b), rest)
  decode_encode p rest := by
    simp only [List.append_assoc, first.decode_encode, second.decode_encode, bind_eq_bind,
      bind_some, pure_def]

/-- Transport a codec along a representation that loses nothing. -/
def via (c : Codec β) (into : α → β) (back : β → Option α)
    (inverse : ∀ a, back (into a) = some a) : Codec α where
  encode a := c.encode (into a)
  decode bytes := do
    let (b, rest) ← c.decode bytes
    let a ← back b
    return (a, rest)
  decode_encode a rest := by
    simp only [c.decode_encode, bind_eq_bind, bind_some, inverse, pure_def]

def encodeItems (item : Codec α) : List α → List UInt8
  | [] => []
  | a :: rest => item.encode a ++ encodeItems item rest

def decodeItems (item : Codec α) : Nat → List UInt8 → Option (List α × List UInt8)
  | 0, bytes => some ([], bytes)
  | count + 1, bytes => do
    let (a, rest) ← item.decode bytes
    let (items, rest) ← decodeItems item count rest
    return (a :: items, rest)

theorem decodeItems_encodeItems (item : Codec α) (items : List α) (rest : List UInt8) :
    decodeItems item items.length (encodeItems item items ++ rest) = some (items, rest) := by
  induction items with
  | nil => rfl
  | cons a items ih =>
    simp only [encodeItems, List.length_cons, decodeItems, List.append_assoc, item.decode_encode,
      bind_eq_bind, bind_some, ih, pure_def]

def seq (item : Codec α) : Codec (List α) where
  encode items := varint.encode items.length ++ encodeItems item items
  decode bytes := do
    let (count, rest) ← varint.decode bytes
    decodeItems item count rest
  decode_encode items rest := by
    simp only [List.append_assoc, varint.decode_encode, bind_eq_bind, bind_some,
      decodeItems_encodeItems]

def bytes : Codec (List UInt8) := seq byte

def bool : Codec Bool :=
  byte.via (fun b => if b then 1 else 0)
    (fun b => if b = 0 then some false else if b = 1 then some true else none)
    (by intro b; cases b <;> rfl)

/-- A variant: its index, then the fields of that variant. -/
def tagged (tag : α → Nat) (fields : α → List UInt8)
    (parse : Nat → List UInt8 → Option (α × List UInt8))
    (inverse : ∀ a rest, parse (tag a) (fields a ++ rest) = some (a, rest)) : Codec α where
  encode a := varint.encode (tag a) ++ fields a
  decode bytes := do
    let (index, rest) ← varint.decode bytes
    parse index rest
  decode_encode a rest := by
    simp only [List.append_assoc, varint.decode_encode, bind_eq_bind, bind_some,
      inverse]

def parseAs (c : Codec α) (build : α → β) (bytes : List UInt8) : Option (β × List UInt8) :=
  (c.decode bytes).map fun (a, rest) => (build a, rest)

@[simp] theorem parseAs_encode (c : Codec α) (build : α → β) (a : α) (rest : List UInt8) :
    c.parseAs build (c.encode a ++ rest) = some (build a, rest) := by
  simp only [parseAs, c.decode_encode, map_some]

theorem encode_inj (c : Codec α) {a b : α} (same : c.encode a = c.encode b) : a = b := by
  simpa using congrArg c.fromBytes same

/-- What is decoded from these bytes takes at least `n` of them. -/
def Takes (c : Codec α) (bytes : List UInt8) (n : Nat) : Prop :=
  ∀ a rest, c.decode bytes = some (a, rest) → rest.length + n ≤ bytes.length

theorem pair_eq_some {first : Codec α} {second : Codec β} {bytes rest : List UInt8} {p : α × β}
    (decoded : (first.pair second).decode bytes = some (p, rest)) : ∃ middle,
    first.decode bytes = some (p.1, middle) ∧ second.decode middle = some (p.2, rest) := by
  simp only [Codec.pair, bind_eq_bind, Option.bind_eq_some_iff] at decoded
  obtain ⟨⟨a, middle⟩, first, ⟨b, last⟩, second, same⟩ := decoded
  cases same
  exact ⟨middle, first, second⟩

theorem Takes.pair {first : Codec α} {second : Codec β} {bytes : List UInt8} {n m : Nat}
    (one : first.Takes bytes n) (two : ∀ rest, second.Takes rest m) :
    (first.pair second).Takes bytes (n + m) := by
  intro p rest decoded
  obtain ⟨middle, first, second⟩ := pair_eq_some decoded
  have := one p.1 middle first
  have := two middle p.2 rest second
  omega

theorem Takes.via {c : Codec β} {bytes : List UInt8} {n : Nat} (takes : c.Takes bytes n) {into : α → β}
    {back : β → Option α} {inverse : ∀ a, back (into a) = some a} :
    (c.via into back inverse).Takes bytes n := by
  intro a rest decoded
  simp only [Codec.via, bind_eq_bind, Option.bind_eq_some_iff] at decoded
  obtain ⟨⟨b, middle⟩, first, _, -, same⟩ := decoded
  cases same
  exact takes b middle first

theorem byte_takes : ∀ bytes, byte.Takes bytes 1
  | [], _, _, decoded => by cases decoded
  | _ :: _, _, _, decoded => by
    cases decoded
    exact Nat.le_refl _

theorem varint_takes (bytes : List UInt8) : varint.Takes bytes 1 := by
  induction bytes with
  | nil =>
    intro a rest decoded
    cases decoded
  | cons b bytes ih =>
    intro a rest decoded
    simp only [varint, decodeVarint] at decoded
    split at decoded
    · cases decoded
      exact Nat.le_refl _
    · obtain ⟨⟨high, last⟩, later, same⟩ := Option.map_eq_some_iff.mp decoded
      cases same
      exact Nat.le_succ_of_le (ih high last later)

theorem decodeItems_eq_some {item : Codec α} {count : Nat} {bytes rest : List UInt8} {items : List α}
    (decoded : decodeItems item (count + 1) bytes = some (items, rest)) : ∃ a middle later,
    item.decode bytes = some (a, middle) ∧ decodeItems item count middle = some (later, rest) := by
  simp only [decodeItems, bind_eq_bind, Option.bind_eq_some_iff] at decoded
  obtain ⟨⟨a, middle⟩, first, ⟨later, last⟩, second, same⟩ := decoded
  cases same
  exact ⟨a, middle, later, first, second⟩

theorem decodeItems_takes {item : Codec α} {n : Nat} (takes : ∀ bytes, item.Takes bytes n) (count : Nat)
    {bytes rest : List UInt8} {items : List α}
    (decoded : decodeItems item count bytes = some (items, rest)) :
    rest.length + n * count ≤ bytes.length := by
  induction count generalizing bytes items with
  | zero =>
    cases decoded
    exact Nat.le_refl _
  | succ count ih =>
    obtain ⟨a, middle, later, first, second⟩ := decodeItems_eq_some decoded
    have := takes bytes a middle first
    have := ih second
    rw [Nat.mul_succ]
    omega

theorem seq_eq_some {item : Codec α} {bytes rest : List UInt8} {items : List α}
    (decoded : (seq item).decode bytes = some (items, rest)) : ∃ count middle,
    varint.decode bytes = some (count, middle) ∧ decodeItems item count middle = some (items, rest) := by
  simp only [seq, bind_eq_bind, Option.bind_eq_some_iff] at decoded
  obtain ⟨⟨count, middle⟩, first, later⟩ := decoded
  exact ⟨count, middle, first, later⟩

theorem seq_takes {item : Codec α} {n : Nat} (takes : ∀ bytes, item.Takes bytes n) (bytes : List UInt8) :
    (seq item).Takes bytes 1 := by
  intro items rest decoded
  obtain ⟨count, middle, first, later⟩ := seq_eq_some decoded
  have := varint_takes bytes count middle first
  have := decodeItems_takes takes count later
  omega

/-- Only a zero byte is an empty sequence. -/
theorem seq_takes_of_ne {item : Codec α} (takes : ∀ bytes, item.Takes bytes 1) {b : UInt8} (ne : b ≠ 0)
    (bytes : List UInt8) : (seq item).Takes (b :: bytes) 2 := by
  intro items rest decoded
  obtain ⟨count, middle, first, later⟩ := seq_eq_some decoded
  have all := decodeItems_takes takes count later
  simp only [varint, decodeVarint] at first
  rw [List.length_cons]
  split at first
  · cases first
    have : b.toNat ≠ 0 := fun zero => ne (UInt8.toNat_inj.mp zero)
    omega
  · obtain ⟨⟨high, last⟩, second, same⟩ := Option.map_eq_some_iff.mp first
    cases same
    have := varint_takes bytes high last second
    change _ ≤ last.length at all
    omega

/-- A number as four little-endian bytes, truncated to 32 bits. -/
def le32 (value : Nat) : List UInt8 :=
  [UInt8.ofNat value, UInt8.ofNat (value / 2 ^ 8), UInt8.ofNat (value / 2 ^ 16),
    UInt8.ofNat (value / 2 ^ 24)]

def ofLe32 : List UInt8 → Nat
  | [] => 0
  | byte :: rest => byte.toNat + 2 ^ 8 * ofLe32 rest

@[simp] theorem length_le32 (value : Nat) : (le32 value).length = 4 := rfl

theorem ofLe32_le32 {value : Nat} (fits : value < 2 ^ 32) : ofLe32 (le32 value) = value := by
  simp only [le32, ofLe32, UInt8.toNat_ofNat']
  omega

end Codec
