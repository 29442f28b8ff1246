import Aout.Bytes.LittleEndian
import Aout.Segment
/-!
Relocation records. A record gives the offset of a 16-bit placeholder in the section that owns it,
and what the placeholder stands for: an offset into a segment of the same object, or a symbol of the
object's table.

In a file a record is two 32-bit words, the second of them packed from five fields. In memory a
field may exceed its width; writing keeps its low bits.
-/

set_option autoImplicit false
set_option relaxedAutoImplicit false

namespace Aout

structure Relocation where
  /-- Offset of the placeholder. -/
  address : UInt32
  /-- Position in the symbol table when `external` is set, segment tag otherwise. -/
  index : UInt32
  pcRelative : Bool
  /-- The placeholder has two to the power of `length` bytes. -/
  length : UInt8
  external : Bool
  spare : UInt8
  deriving DecidableEq

namespace Relocation

/-- The number of bytes of a record in a file. -/
def fileSize : Nat := 8

/-- The number of table positions that a record can hold in a file. -/
def indexLimit : Nat := 0x1000000

/-- The length code of a 16-bit placeholder. -/
def wordLength : UInt8 := 1

/-- A placeholder that holds an offset into `segment` of the same object. -/
def ofSegment (address : UInt32) (segment : Segment) : Relocation :=
  ⟨address, segment.tag, false, wordLength, false, 0⟩

/-- A placeholder that stands for the symbol at `position` of the object's table. -/
def ofSymbol (address : UInt32) (position : Nat) : Relocation :=
  ⟨address, UInt32.ofNat (position % indexLimit), false, wordLength, true, 0⟩

/-- The segment into which the placeholder points; none for an external record or an unknown tag. -/
def segment? (record : Relocation) : Option Segment :=
  if record.external then none else Segment.ofTag? record.index

/-- The table position that the placeholder stands for, if the record is external. -/
def symbolIndex? (record : Relocation) : Option Nat :=
  if record.external then some record.index.toNat else none

/-- The number of bytes of the placeholder. -/
def width (record : Relocation) : UInt32 :=
  1 <<< record.length.toUInt32

/-- The second word of a record: the index in 24 bits, then one bit for `pcRelative`, two for
`length`, one for `external` and four for `spare`. -/
def packed (record : Relocation) : UInt32 :=
  UInt32.ofNat (record.index.toNat % indexLimit
    + 0x1000000 * record.pcRelative.toNat
    + 0x2000000 * (record.length.toNat % 4)
    + 0x8000000 * record.external.toNat
    + 0x10000000 * (record.spare.toNat % 16))

/-- The record with a given address and second word. -/
def ofPacked (address packed : UInt32) : Relocation where
  address := address
  index := UInt32.ofNat (packed.toNat % indexLimit)
  pcRelative := packed.toNat / 0x1000000 % 2 == 1
  length := UInt8.ofNat (packed.toNat / 0x2000000 % 4)
  external := packed.toNat / 0x8000000 % 2 == 1
  spare := UInt8.ofNat (packed.toNat / 0x10000000)

def encode (record : Relocation) : List UInt8 :=
  LittleEndian.bytes32 record.address ++ LittleEndian.bytes32 record.packed

/-- The record at the front of a byte string, and what follows it. -/
def take? (bytes : List UInt8) : Option (Relocation × List UInt8) := do
  let (address, bytes) ← LittleEndian.take32? bytes
  let (packed, bytes) ← LittleEndian.take32? bytes
  return (ofPacked address packed, bytes)

@[simp] theorem length_encode (record : Relocation) : record.encode.length = fileSize := by
  simp [encode, fileSize]

end Relocation

end Aout
