import Quiver.Core.Encodings

/-!
The descriptor layouts ever written and the decoder that tries them from the newest to the
oldest. Each older layout is the one before it with one more trailing field, but the current one
has `binary` in the middle of the record, so that an older record may be taken for a current one.
-/

namespace Quiver.Core

open Codec

structure IndexSpecV1 where
  kind : IndexKind
  pqSubspaces : Option Nat

def IndexSpecV1.into (v : IndexSpecV1) : IndexSpec := ⟨v.kind, v.pqSubspaces, false⟩

structure LegacyDescriptor where
  dim : Nat
  dtype : Dtype
  metric : DistanceMetric

def LegacyDescriptor.into (v : LegacyDescriptor) : Descriptor :=
  { dim := v.dim, dtype := v.dtype, metric := v.metric }

structure DescriptorV2 extends LegacyDescriptor where
  index : IndexSpecV1

def DescriptorV2.into (v : DescriptorV2) : Descriptor :=
  { v.toLegacyDescriptor.into with index := v.index.into }

structure DescriptorV3 extends DescriptorV2 where
  filterable : List FilterableField

def DescriptorV3.into (v : DescriptorV3) : Descriptor :=
  { v.toDescriptorV2.into with filterable := v.filterable }

structure DescriptorV4 extends DescriptorV3 where
  multivector : Bool

def DescriptorV4.into (v : DescriptorV4) : Descriptor :=
  { v.toDescriptorV3.into with multivector := v.multivector }

structure DescriptorPreBinary extends DescriptorV4 where
  vectorEncryption : VectorEncryption

def DescriptorPreBinary.into (v : DescriptorPreBinary) : Descriptor :=
  { v.toDescriptorV4.into with vectorEncryption := v.vectorEncryption }

namespace Postcard

section Adding

variable {α β γ : Type} (earlier : Codec α) (field : Codec β) (split : γ → α × β) (build : α → β → γ)
    (inverse : ∀ c, build (split c).1 (split c).2 = c)

/-- A layout with one more trailing field. -/
def adding : Codec γ :=
  (earlier.pair field).via split (fun p => some (build p.1 p.2)) (by intro c; rw [inverse])

variable {earlier field split build inverse}

theorem adding_none {bytes : Bytes} (fails : earlier.fromBytes bytes = none) :
    (adding earlier field split build inverse).fromBytes bytes = none := by
  rw [fromBytes, Option.map_eq_none_iff] at fails ⊢
  simp [adding, via, pair, fails]

/-- A record without the field ends where the field is read. -/
theorem adding_end (atEnd : field.decode [] = none) (a : α) :
    (adding earlier field split build inverse).fromBytes (earlier.encode a) = none := by
  have decoded := earlier.decode_encode a []
  rw [List.append_nil] at decoded
  simp [fromBytes, adding, via, pair, decoded, atEnd]

end Adding

def legacyDescriptor : Codec LegacyDescriptor :=
  (Codec.varint.pair (dtype.pair distanceMetric)).via (fun v => (v.dim, v.dtype, v.metric))
    (fun (dim, dtype, metric) => some ⟨dim, dtype, metric⟩) (by simp)

def indexSpecV1 : Codec IndexSpecV1 :=
  (indexKind.pair (option Codec.varint)).via (fun v => (v.kind, v.pqSubspaces))
    (fun (kind, pq) => some ⟨kind, pq⟩) (by simp)

def descriptorV2 : Codec DescriptorV2 :=
  adding legacyDescriptor indexSpecV1 (fun v => (v.toLegacyDescriptor, v.index)) .mk (fun _ => rfl)

def descriptorV3 : Codec DescriptorV3 :=
  adding descriptorV2 (Codec.seq filterableField) (fun v => (v.toDescriptorV2, v.filterable)) .mk
    (fun _ => rfl)

def descriptorV4 : Codec DescriptorV4 :=
  adding descriptorV3 Codec.bool (fun v => (v.toDescriptorV3, v.multivector)) .mk (fun _ => rfl)

def descriptorPreBinary : Codec DescriptorPreBinary :=
  adding descriptorV4 vectorEncryption (fun v => (v.toDescriptorV4, v.vectorEncryption)) .mk
    (fun _ => rfl)

def olderDescriptor (bytes : Bytes) : Option Descriptor :=
  ((descriptorPreBinary.fromBytes bytes).map (·.into)).or
    (((descriptorV4.fromBytes bytes).map (·.into)).or
      (((descriptorV3.fromBytes bytes).map (·.into)).or
        (((descriptorV2.fromBytes bytes).map (·.into)).or
          ((legacyDescriptor.fromBytes bytes).map (·.into)))))

/-- What the current layout has after the fields all layouts with an index share. -/
abbrev fromBinary : Codec (Bool × List FilterableField × Bool × VectorEncryption) :=
  Codec.bool.pair ((Codec.seq filterableField).pair (Codec.bool.pair vectorEncryption))

/-- What stands behind the shared fields is read as the rest of a current record. -/
theorem descriptor_fromBinary (v : DescriptorV2) (bytes : Bytes) :
    descriptor.fromBytes (descriptorV2.encode v ++ bytes) = (fromBinary.decode bytes).map fun read =>
      { dim := v.dim, dtype := v.dtype, metric := v.metric, index := ⟨v.index.kind, v.index.pqSubspaces, read.1.1⟩
        filterable := read.1.2.1, multivector := read.1.2.2.1, vectorEncryption := read.1.2.2.2 } := by
  simp only [fromBytes, descriptor, indexSpec, descriptorV2, adding, legacyDescriptor,
    indexSpecV1, via, pair, List.append_assoc, decode_encode, Option.bind_eq_bind, Option.bind_some,
    Option.pure_def, Option.bind_assoc, Option.map_bind, Function.comp_def, Option.map_some]

theorem descriptor_legacy (v : LegacyDescriptor) : descriptor.fromBytes (legacyDescriptor.encode v) = none := by
  rw [← List.append_nil (legacyDescriptor.encode v)]
  simp only [fromBytes, descriptor, legacyDescriptor, via, pair, List.append_assoc,
    decode_encode, Option.bind_eq_bind, Option.bind_some]
  rfl

theorem enumeration_takes {α : Type} {tag : α → Nat} {variants : List α}
    {listed : ∀ a, variants[tag a]? = some a} (bytes : Bytes) :
    (enumeration tag variants listed).Takes bytes 1 :=
  (varint_takes bytes).via

theorem filterableField_takes (bytes : Bytes) : filterableField.Takes bytes 2 :=
  ((seq_takes byte_takes bytes).via.pair enumeration_takes).via

theorem filterableField_takes_of_ne {b : UInt8} (ne : b ≠ 0) (bytes : Bytes) :
    filterableField.Takes (b :: bytes) 3 :=
  ((seq_takes_of_ne byte_takes ne bytes).via.pair enumeration_takes).via

theorem others_take (bytes : Bytes) : (bool.pair vectorEncryption).Takes bytes 2 :=
  (byte_takes bytes).via.pair enumeration_takes

theorem fromBinary_takes (bytes : Bytes) : fromBinary.Takes bytes 4 :=
  (byte_takes bytes).via.pair fun rest =>
    (seq_takes filterableField_takes rest).pair others_take

theorem encodeItems_byte (bytes : Bytes) : encodeItems byte bytes = bytes := by
  induction bytes with
  | nil => rfl
  | cons b bytes ih => exact congrArg (b :: ·) ih

theorem bool_eq_some {bytes rest : Bytes} {b : Bool} (read : bool.decode bytes = some (b, rest)) :
    bytes = bool.encode b ++ rest := by
  cases bytes with
  | nil => cases read
  | cons c bytes =>
    simp only [Codec.bool, via, byte, Option.bind_eq_bind, Option.bind_some] at read
    split_ifs at read with zero one
    · cases read
      rw [zero]
      rfl
    · cases read
      rw [one]
      rfl
    · cases read

/-- The count of several fields is no boolean. -/
theorem count_of_bool {count : Nat} {rest after : Bytes} {b : Bool}
    (read : bool.decode (varint.encode count ++ rest) = some (b, after)) : count ≤ 1 := by
  have whole := varint.decode_encode count rest
  rw [bool_eq_some read] at whole
  cases b <;> cases whole <;> decide

/-- The fields in front of at most two bytes are read as the end of a current record only if there is
one of them, with an empty path or the path of a zero byte. -/
theorem fields_of_fromBinary {fields : List FilterableField} {bytes : Bytes} (short : bytes.length ≤ 2)
    (reads : fromBinary.decode ((seq filterableField).encode fields ++ bytes) ≠ none) :
    ∃ path type, fields = [⟨path, type⟩] ∧ (path = "" ∧ 0 < bytes.length ∨ path = "\x00" ∧ 1 < bytes.length) := by
  obtain ⟨⟨value, last⟩, decoded⟩ := Option.ne_none_iff_exists'.mp reads
  obtain ⟨after, binary, later⟩ := pair_eq_some decoded
  obtain ⟨rest, items, others⟩ := pair_eq_some later
  have left := others_take rest _ _ others
  match fields with
  | [] =>
    have := fromBinary_takes _ _ _ decoded
    change _ ≤ bytes.length + 1 at this
    omega
  | [⟨path, type⟩] =>
    refine ⟨path, type, rfl, ?_⟩
    -- the length of the path is read as the number of fields, its bytes as the fields
    have shift : bool.decode ((seq filterableField).encode [⟨path, type⟩] ++ bytes) =
        some (true, string.encode path ++ fieldType.encode type ++ [] ++ bytes) := rfl
    obtain ⟨-, rfl⟩ := Prod.mk.inj (Option.some.inj (shift.symm.trans binary))
    obtain ⟨count, middle, first, all⟩ := seq_eq_some items
    dsimp only [string, via, Codec.bytes, seq] at first
    rw [encodeItems_byte, List.append_nil, List.append_assoc, List.append_assoc, varint.decode_encode] at first
    have same {t : String} (isPath : path.toByteArray.data.toList = t.toByteArray.data.toList) : path = t :=
      string.encode_inj (congrArg Codec.bytes.encode isPath)
    generalize path.toByteArray.data.toList = letters at first same
    cases first
    have tag : (fieldType.encode type).length = 1 := by cases type <;> rfl
    have bound := decodeItems_takes filterableField_takes _ all
    simp only [List.length_append, tag] at bound
    match letters with
    | [] => exact .inl ⟨same rfl, by simp at bound; omega⟩
    | [b] =>
      by_cases zero : b = 0
      · exact .inr ⟨same (by rw [zero]; rfl), by simp at bound; omega⟩
      · obtain ⟨field, _, _, one, none⟩ := decodeItems_eq_some all
        cases none
        have := filterableField_takes_of_ne zero _ field _ one
        simp at this
        omega
    | b :: c :: more =>
      simp at bound
      omega
  | a :: b :: more =>
    rw [seq, List.append_assoc] at binary
    have := count_of_bool binary
    simp at this

theorem descriptorV3_none (v : DescriptorV3) {bytes : Bytes} (short : bytes.length ≤ 2)
    (clear : ∀ path type, v.filterable = [⟨path, type⟩] →
      ¬ (path = "" ∧ 0 < bytes.length ∨ path = "\x00" ∧ 1 < bytes.length)) :
    descriptor.fromBytes (descriptorV3.encode v ++ bytes) = none := by
  change descriptor.fromBytes (descriptorV2.encode v.toDescriptorV2 ++ _ ++ bytes) = none
  rw [List.append_assoc]
  rw [descriptor_fromBinary, Option.map_eq_none_iff]
  by_contra reads
  obtain ⟨path, type, single, isPath⟩ := fields_of_fromBinary short reads
  exact clear path type single isPath

end Postcard

def Encoding.postcard : Encoding := { Encoding.plain with olderDescriptor := Postcard.olderDescriptor }

/-- A descriptor in one of the layouts ever written. -/
inductive Layout where
  | legacy (v : LegacyDescriptor)
  | v2 (v : DescriptorV2)
  | v3 (v : DescriptorV3)
  | v4 (v : DescriptorV4)
  | preBinary (v : DescriptorPreBinary)
  | current (v : Descriptor)

namespace Layout

open Postcard

def encode : Layout → Bytes
  | legacy v => legacyDescriptor.encode v
  | v2 v => descriptorV2.encode v
  | v3 v => descriptorV3.encode v
  | v4 v => descriptorV4.encode v
  | preBinary v => descriptorPreBinary.encode v
  | current v => descriptor.encode v

/-- The descriptor with the later fields at their defaults. -/
def into : Layout → Descriptor
  | legacy v | v2 v | v3 v | v4 v | preBinary v => v.into
  | current v => v

/-- The records that a reader of the current layout accepts. -/
def Ambiguous : Layout → Prop
  | v4 v => ∃ type, v.filterable = [⟨"", type⟩]
  | preBinary v => ∃ path ∈ ["", "\x00"], ∃ type, v.filterable = [⟨path, type⟩]
  | _ => False

theorem tried (bytes : Bytes) : Encoding.postcard.decodeDescriptor bytes =
    (descriptor.fromBytes bytes).or (olderDescriptor bytes) := rfl

theorem decodeDescriptor_of_clear (l : Layout) (clear : ¬ l.Ambiguous) :
    Encoding.postcard.decodeDescriptor l.encode = some l.into := by
  cases l with
  | legacy v =>
    have v2 : descriptorV2.fromBytes _ = none := adding_end rfl v
    have v3 : descriptorV3.fromBytes _ = none := adding_none v2
    have v4 : descriptorV4.fromBytes _ = none := adding_none v3
    have preBinary : descriptorPreBinary.fromBytes _ = none := adding_none v4
    simp [tried, encode, into, olderDescriptor, descriptor_legacy, preBinary, v4, v3, v2]
  | v2 v =>
    have v3 : descriptorV3.fromBytes _ = none := adding_end rfl v
    have v4 : descriptorV4.fromBytes _ = none := adding_none v3
    have preBinary : descriptorPreBinary.fromBytes _ = none := adding_none v4
    have current : descriptor.fromBytes (descriptorV2.encode v ++ []) = none := descriptor_fromBinary v []
    rw [List.append_nil] at current
    simp [tried, encode, into, olderDescriptor, current, preBinary, v4, v3]
  | v3 v =>
    have v4 : descriptorV4.fromBytes _ = none := adding_end rfl v
    have preBinary : descriptorPreBinary.fromBytes _ = none := adding_none v4
    have current : descriptor.fromBytes (descriptorV3.encode v ++ []) = none :=
      descriptorV3_none v (by simp) (by simp)
    rw [List.append_nil] at current
    simp [tried, encode, into, olderDescriptor, current, preBinary, v4]
  | v4 v =>
    have preBinary : descriptorPreBinary.fromBytes _ = none := adding_end rfl v
    have current : descriptor.fromBytes (descriptorV4.encode v) = none := by
      refine descriptorV3_none v.toDescriptorV3 (by decide : 1 ≤ 2) ?_
      rintro path type single (⟨rfl, _⟩ | ⟨_, long⟩)
      · exact clear ⟨type, single⟩
      · exact absurd long (by decide : ¬ 1 < 1)
    simp [tried, encode, into, olderDescriptor, current, preBinary]
  | preBinary v =>
    have current : descriptor.fromBytes (descriptorPreBinary.encode v) = none := by
      change descriptor.fromBytes (descriptorV3.encode v.toDescriptorV3 ++ _ ++ _) = none
      rw [List.append_assoc]
      refine descriptorV3_none v.toDescriptorV3 ?_ fun path type single isPath => clear ⟨path, ?_, type, single⟩
      · have tag : (vectorEncryption.encode v.vectorEncryption).length = 1 := by cases v.vectorEncryption <;> rfl
        exact (congrArg Nat.succ tag).le
      · obtain ⟨rfl, _⟩ | ⟨rfl, _⟩ := isPath <;> simp
    simp [tried, encode, into, olderDescriptor, current]
  | current v => exact Encoding.postcard.decodeDescriptor_encode v

/-- A record that a reader of the current layout accepts with other fields. -/
theorem misread (v : DescriptorV3) {bytes : Bytes} (reads : ∃ read, fromBinary.decode
      ((Codec.seq filterableField).encode v.filterable ++ bytes) = some read ∧ read.1.2.1 ≠ v.filterable) {d : Descriptor}
    (decoded : Encoding.postcard.decodeDescriptor (descriptorV3.encode v ++ bytes) = some d) :
    d.filterable ≠ v.filterable := by
  obtain ⟨read, reads, differ⟩ := reads
  have current := descriptor_fromBinary v.toDescriptorV2 ((Codec.seq filterableField).encode v.filterable ++ bytes)
  rw [reads, ← List.append_assoc] at current
  change descriptor.fromBytes (descriptorV3.encode v ++ bytes) = _ at current
  rw [tried, current] at decoded
  cases decoded
  exact differ

theorem decodeDescriptor_of_ambiguous (l : Layout) (ambiguous : l.Ambiguous) :
    Encoding.postcard.decodeDescriptor l.encode ≠ some l.into := by
  intro decoded
  cases l with
  | v4 v =>
    obtain ⟨v, multivector⟩ := v
    obtain ⟨type, single⟩ := ambiguous
    refine misread v ?_ decoded rfl
    rw [single]
    cases type <;> cases multivector <;> exact ⟨_, rfl, nofun⟩
  | preBinary v =>
    obtain ⟨⟨v, multivector⟩, encryption⟩ := v
    obtain ⟨path, isPath, type, single⟩ := ambiguous
    change Encoding.postcard.decodeDescriptor (descriptorV3.encode v ++ bool.encode multivector ++
      vectorEncryption.encode encryption) = _ at decoded
    rw [List.append_assoc] at decoded
    refine misread v ?_ decoded rfl
    rw [single]
    simp only [List.mem_cons, List.not_mem_nil, or_false] at isPath
    obtain rfl | rfl := isPath
    · cases type <;> cases multivector <;> exact ⟨_, rfl, nofun⟩
    · cases type <;> cases multivector <;> cases encryption <;> exact ⟨_, rfl, by decide⟩
  | legacy | v2 | v3 | current => exact ambiguous

theorem decodeDescriptor_encode_layout (l : Layout) :
    Encoding.postcard.decodeDescriptor l.encode = some l.into ↔ ¬ l.Ambiguous :=
  ⟨fun decoded ambiguous => decodeDescriptor_of_ambiguous l ambiguous decoded, decodeDescriptor_of_clear l⟩

def emptyPath : DescriptorV4 := ⟨⟨⟨⟨4, .f32, .l2⟩, ⟨.hnsw, none⟩⟩, [⟨"", .keyword⟩]⟩, false⟩

/-- One field with an empty path is read as a binary index without fields. -/
theorem empty_path_misread : Encoding.postcard.decodeDescriptor (v4 emptyPath).encode =
      some { dim := 4, metric := .l2, index := ⟨.hnsw, none, true⟩ } ∧
    Encoding.postcard.decodeDescriptor (v4 emptyPath).encode ≠ some (v4 emptyPath).into := by
  decide +kernel

end Layout

end Quiver.Core
