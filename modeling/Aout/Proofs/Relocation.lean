import Aout.Relocation
/-!
Relocation records. A record refers to a symbol if it is external, and to a segment otherwise
(`Relocation.symbolIndex?_eq_none_iff`).

A file keeps the low bits of a record's fields (`Relocation.stored`),
so a record is read as it was written exactly when its fields fit (`Relocation.stored_eq_self_iff`).
Reading inverts writing on the records whose fields fit (`Relocation.take?_eq_some_iff`). Of any
record the low bits of each field are read back, and nothing of the field beside it
(`Relocation.fields_apart`).
-/

set_option autoImplicit false
set_option relaxedAutoImplicit false

namespace Aout.Relocation

/-- The fields fit into the bits that a file has for them. -/
structure Storable (record : Relocation) : Prop where
  index : record.index.toNat < indexLimit
  length : record.length.toNat < 4
  spare : record.spare.toNat < 16

/-- The record as a file keeps it. -/
def stored (record : Relocation) : Relocation :=
  { record with
    index := UInt32.ofNat (record.index.toNat % indexLimit)
    length := UInt8.ofNat (record.length.toNat % 4)
    spare := UInt8.ofNat (record.spare.toNat % 16) }

variable {record : Relocation}

theorem symbolIndex?_eq_some_iff {index : Nat} : record.symbolIndex? = some index ↔
    record.external = true ∧ record.index.toNat = index := by
  cases hexternal : record.external <;> simp [symbolIndex?, hexternal]

theorem symbolIndex?_eq_none_iff : record.symbolIndex? = none ↔ record.external = false := by
  cases hexternal : record.external <;> simp [symbolIndex?, hexternal]

/-- The five fields do not overlap. -/
theorem toNat_packed (record : Relocation) :
    record.packed.toNat = record.index.toNat % 0x1000000
      + 0x1000000 * record.pcRelative.toNat
      + 0x2000000 * (record.length.toNat % 4)
      + 0x8000000 * record.external.toNat
      + 0x10000000 * (record.spare.toNat % 16) := by
  have hrelative := record.pcRelative.toNat_le
  have hexternal := record.external.toNat_le
  have hsize : UInt32.size = 0x100000000 := rfl
  unfold packed indexLimit
  apply UInt32.toNat_ofNat_of_lt'
  omega

theorem toNat_beq_one (flag : Bool) : (flag.toNat == 1) = flag := by
  cases flag <;> rfl

theorem ofPacked_packed (record : Relocation) :
    ofPacked record.address record.packed = record.stored := by
  have hrelative := record.pcRelative.toNat_le
  have hexternal := record.external.toNat_le
  have hpacked := toNat_packed record
  unfold ofPacked stored indexLimit
  congr 1
  · congr 1
    omega
  · rw [← toNat_beq_one record.pcRelative]
    congr 1
    omega
  · congr 1
    omega
  · rw [← toNat_beq_one record.external]
    congr 1
    omega
  · congr 1
    omega

theorem storable_ofPacked (address packed : UInt32) : (ofPacked address packed).Storable where
  index := by
    rw [ofPacked, UInt32.toNat_ofNat_of_lt']
    · exact Nat.mod_lt _ (by decide)
    · exact Nat.lt_trans (Nat.mod_lt _ (by decide)) (by decide)
  length := by
    rw [ofPacked, UInt8.toNat_ofNat_of_lt']
    · exact Nat.mod_lt _ (by decide)
    · exact Nat.lt_trans (Nat.mod_lt _ (by decide)) (by decide)
  spare := by
    have hpacked := packed.toNat_lt
    have hspare : packed.toNat / 0x10000000 < 16 := by omega
    rw [ofPacked, UInt8.toNat_ofNat_of_lt' (Nat.lt_trans hspare (by decide))]
    exact hspare

theorem toNat_beq_one_toNat {bit : Nat} (hbit : bit < 2) : (bit == 1).toNat = bit := by
  match bit, hbit with
  | 0, _ => rfl
  | 1, _ => rfl

/-- No bit of the second word is lost. -/
theorem packed_ofPacked (address packed : UInt32) : (ofPacked address packed).packed = packed := by
  have hpacked := packed.toNat_lt
  have hrelative : (ofPacked address packed).pcRelative.toNat = packed.toNat / 0x1000000 % 2 :=
    toNat_beq_one_toNat (Nat.mod_lt _ (by decide))
  have hexternal : (ofPacked address packed).external.toNat = packed.toNat / 0x8000000 % 2 :=
    toNat_beq_one_toNat (Nat.mod_lt _ (by decide))
  have hindexValue : (ofPacked address packed).index.toNat = packed.toNat % 0x1000000 :=
    UInt32.toNat_ofNat_of_lt' (Nat.lt_trans (Nat.mod_lt _ (by decide)) (by decide))
  have hlengthValue : (ofPacked address packed).length.toNat = packed.toNat / 0x2000000 % 4 :=
    UInt8.toNat_ofNat_of_lt' (Nat.lt_trans (Nat.mod_lt _ (by decide)) (by decide))
  have hspareValue : (ofPacked address packed).spare.toNat = packed.toNat / 0x10000000 :=
    UInt8.toNat_ofNat_of_lt'
      (Nat.lt_trans (show packed.toNat / 0x10000000 < 16 by omega) (by decide))
  rw [← UInt32.toNat_inj, toNat_packed]
  omega

theorem storable_stored (record : Relocation) : record.stored.Storable :=
  ofPacked_packed record ▸ storable_ofPacked record.address record.packed

/-- A file keeps exactly the records whose fields fit. -/
theorem stored_eq_self_iff : record.stored = record ↔ record.Storable := by
  constructor
  · intro hstored
    exact hstored ▸ storable_stored record
  · intro hstorable
    rw [stored, Nat.mod_eq_of_lt hstorable.index, Nat.mod_eq_of_lt hstorable.length,
      Nat.mod_eq_of_lt hstorable.spare]
    simp

/-- A record that was written is read as the file keeps it. -/
theorem take?_encode_append (record : Relocation) (rest : List UInt8) :
    take? (record.encode ++ rest) = some (record.stored, rest) := by
  simp [take?, encode, LittleEndian.take32?_bytes32_append, ofPacked_packed]

theorem take?_eq_some_iff {bytes rest : List UInt8} :
    take? bytes = some (record, rest) ↔ record.Storable ∧ bytes = record.encode ++ rest := by
  constructor
  · intro htake
    simp only [take?, Option.bind_eq_bind, Option.bind_eq_some_iff, Option.pure_def,
      Option.some.injEq, Prod.mk.injEq, LittleEndian.take32?_eq_some_iff, Prod.exists] at htake
    obtain ⟨address, _, rfl, packed, _, rfl, rfl, rfl⟩ := htake
    refine ⟨storable_ofPacked address packed, ?_⟩
    rw [encode, packed_ofPacked, List.append_assoc]
    rfl
  · rintro ⟨hstorable, rfl⟩
    rw [take?_encode_append, stored_eq_self_iff.mpr hstorable]

/-! ### Fields and their bits -/

/-- Where the bits of the second word come from: `index`, `pcRelative`, `length`, `external` and
`spare` follow one another from the lowest bit. -/
theorem testBit_packed (record : Relocation) (bit : Nat) :
    record.packed.toNat.testBit bit =
      if bit < 24 then record.index.toNat.testBit bit
      else if bit = 24 then record.pcRelative
      else if bit < 27 then record.length.toNat.testBit (bit - 25)
      else if bit = 27 then record.external
      else if bit < 32 then record.spare.toNat.testBit (bit - 28)
      else false := by
  have hrelative := record.pcRelative.toNat_le
  have hexternal := record.external.toNat_le
  have hflag (flag : Bool) : flag.toNat.testBit 0 = flag := by cases flag <;> rfl
  -- The fields as digits of different widths, each of them below the weight of the next one.
  have hnested : record.packed.toNat =
      2 ^ 24 * (2 ^ 1 * (2 ^ 2 * (2 ^ 1 * (record.spare.toNat % 2 ^ 4) + record.external.toNat)
        + record.length.toNat % 2 ^ 2) + record.pcRelative.toNat)
        + record.index.toNat % 2 ^ 24 := by
    rw [toNat_packed]
    omega
  rw [hnested, Nat.testBit_two_pow_mul_add _ (Nat.mod_lt _ (by decide)),
    Nat.testBit_two_pow_mul_add _ (by omega),
    Nat.testBit_two_pow_mul_add _ (Nat.mod_lt _ (by decide)),
    Nat.testBit_two_pow_mul_add _ (by omega)]
  by_cases hindex : bit < 24
  · rw [if_pos hindex, if_pos hindex, Nat.testBit_mod_two_pow, decide_eq_true hindex,
      Bool.true_and]
  rw [if_neg hindex, if_neg hindex]
  by_cases hrelativeBit : bit = 24
  · rw [hrelativeBit, if_pos (by decide), if_pos rfl, Nat.sub_self, hflag]
  rw [if_neg (by omega), if_neg hrelativeBit]
  by_cases hlength : bit < 27
  · rw [if_pos (by omega), if_pos hlength, Nat.testBit_mod_two_pow, decide_eq_true (by omega),
      Bool.true_and, Nat.sub_sub]
  rw [if_neg (by omega), if_neg hlength]
  by_cases hexternalBit : bit = 27
  · rw [hexternalBit, if_pos (by decide), if_pos rfl, hflag]
  rw [if_neg (by omega), if_neg hexternalBit, Nat.testBit_mod_two_pow, Nat.sub_sub, Nat.sub_sub,
    Nat.sub_sub]
  by_cases hspare : bit < 32
  · rw [if_pos hspare, decide_eq_true (by omega), Bool.true_and]
  · rw [if_neg hspare, decide_eq_false (by omega), Bool.false_and]

theorem toNat_stored (record : Relocation) :
    record.stored.index.toNat = record.index.toNat % 0x1000000 ∧
      record.stored.length.toNat = record.length.toNat % 4 ∧
      record.stored.spare.toNat = record.spare.toNat % 16 := by
  refine ⟨UInt32.toNat_ofNat_of_lt' ?_, UInt8.toNat_ofNat_of_lt' ?_, UInt8.toNat_ofNat_of_lt' ?_⟩
  · exact Nat.lt_trans (Nat.mod_lt _ (by decide)) (by decide)
  · exact Nat.lt_trans (Nat.mod_lt _ (by decide)) (by decide)
  · exact Nat.lt_trans (Nat.mod_lt _ (by decide)) (by decide)

/-- Eight bytes hold a record, whatever they are. -/
theorem exists_take?_of_length {bytes : List UInt8} (hlength : bytes.length = fileSize) :
    ∃ record : Relocation, take? bytes = some (record, []) := by
  match bytes, hlength with
  | [_, _, _, _, _, _, _, _], _ => exact ⟨_, rfl⟩

/-- The fields of a record do not get into each other. Each has bits of its own in the second word,
and is read back cut to their number whatever the record held. Any eight bytes are written again as
they are by the record that is read from them. -/
theorem fields_apart :
    (∀ (record : Relocation) (bit : Nat), record.packed.toNat.testBit bit =
      if bit < 24 then record.index.toNat.testBit bit
      else if bit = 24 then record.pcRelative
      else if bit < 27 then record.length.toNat.testBit (bit - 25)
      else if bit = 27 then record.external
      else if bit < 32 then record.spare.toNat.testBit (bit - 28)
      else false) ∧
    (∀ (record : Relocation) (rest : List UInt8), record.encode.length = 8 ∧
      ∃ read : Relocation, take? (record.encode ++ rest) = some (read, rest) ∧
        read.address = record.address ∧ read.index.toNat = record.index.toNat % 0x1000000 ∧
        read.pcRelative = record.pcRelative ∧ read.length.toNat = record.length.toNat % 4 ∧
        read.external = record.external ∧ read.spare.toNat = record.spare.toNat % 16) ∧
    ∀ bytes : List UInt8, bytes.length = 8 →
      ∃ record : Relocation, take? bytes = some (record, []) ∧ record.encode = bytes := by
  refine ⟨testBit_packed, fun record rest ↦ ?_, fun bytes hlength ↦ ?_⟩
  · obtain ⟨hindex, hlength, hspare⟩ := toNat_stored record
    exact ⟨length_encode record, record.stored, take?_encode_append record rest, rfl, hindex, rfl,
      hlength, rfl, hspare⟩
  · obtain ⟨record, htake⟩ := exists_take?_of_length hlength
    obtain ⟨-, hbytes⟩ := take?_eq_some_iff.mp htake
    exact ⟨record, htake, by rw [hbytes, List.append_nil]⟩

/-- A record whose index, length and spare are all too wide, and a second word with all bits set. -/
theorem fields_apart_oversized :
    (∃ read : Relocation, take? (encode ⟨0x10, 0x1000002, false, 6, true, 0x21⟩) = some (read, []) ∧
      read.index.toNat = 2 ∧ read.pcRelative = false ∧ read.length.toNat = 2 ∧
      read.spare.toNat = 1) ∧
    ∃ record : Relocation, take? [0x10, 0, 0, 0, 0xFF, 0xFF, 0xFF, 0xFF] = some (record, []) ∧
      record.encode = [0x10, 0, 0, 0, 0xFF, 0xFF, 0xFF, 0xFF] := by
  obtain ⟨-, hread, hwritten⟩ := fields_apart
  obtain ⟨-, read, htake, -, hindex, hrelative, hlength, -, hspare⟩ :=
    hread ⟨0x10, 0x1000002, false, 6, true, 0x21⟩ []
  rw [List.append_nil] at htake
  exact ⟨⟨read, htake, hindex, hrelative, hlength, hspare⟩, hwritten _ rfl⟩

end Aout.Relocation
