import Aout.Bytes.LittleEndian
import Aout.Fault
/-!
The header of an object file: eight signed 32-bit fields, written in order. Reading is the inverse
of writing (`Header.take?_eq_some_iff`); `Header.check` accepts a header with the magic number of
objects and without negative counts.
-/

set_option autoImplicit false
set_option relaxedAutoImplicit false

namespace Aout

structure Header where
  magic : Int32
  text : Int32
  data : Int32
  bss : Int32
  symbols : Int32
  entry : Int32
  textRelocations : Int32
  dataRelocations : Int32
  deriving DecidableEq

namespace Header

/-- The magic number of an object whose text and data are contiguous and writable. -/
def objectMagic : Int32 := 263

/-- The number of bytes of a header in a file. -/
def fileSize : Nat := 32

/-- The fields in file order. -/
def fields (header : Header) : List Int32 :=
  [header.magic, header.text, header.data, header.bss, header.symbols, header.entry,
    header.textRelocations, header.dataRelocations]

def encode (header : Header) : List UInt8 :=
  header.fields.flatMap fun field ↦ LittleEndian.bytes32 field.toUInt32

/-- The header at the front of a byte string, and what follows it. -/
def take? (bytes : List UInt8) : Option (Header × List UInt8) := do
  let (magic, bytes) ← LittleEndian.take32? bytes
  let (text, bytes) ← LittleEndian.take32? bytes
  let (data, bytes) ← LittleEndian.take32? bytes
  let (bss, bytes) ← LittleEndian.take32? bytes
  let (symbols, bytes) ← LittleEndian.take32? bytes
  let (entry, bytes) ← LittleEndian.take32? bytes
  let (textRelocations, bytes) ← LittleEndian.take32? bytes
  let (dataRelocations, bytes) ← LittleEndian.take32? bytes
  return (⟨magic.toInt32, text.toInt32, data.toInt32, bss.toInt32, symbols.toInt32, entry.toInt32,
    textRelocations.toInt32, dataRelocations.toInt32⟩, bytes)

theorem length_encode (header : Header) : header.encode.length = fileSize := by
  simp [encode, fields, fileSize]

theorem take?_eq_some_iff {bytes rest : List UInt8} {header : Header} :
    take? bytes = some (header, rest) ↔ bytes = header.encode ++ rest := by
  constructor
  · intro htake
    simp only [take?, Option.bind_eq_bind, Option.bind_eq_some_iff, Option.pure_def,
      Option.some.injEq, Prod.mk.injEq, LittleEndian.take32?_eq_some_iff, Prod.exists] at htake
    obtain ⟨magic, _, rfl, text, _, rfl, data, _, rfl, bss, _, rfl, symbols, _, rfl, entry, _, rfl,
      textRelocations, _, rfl, dataRelocations, _, rfl, rfl, rfl⟩ := htake
    simp [encode, fields]
  · rintro rfl
    simp [take?, encode, fields, LittleEndian.take32?_bytes32_append]

/-- The value of a count that may not be negative. -/
def count (header : Header) : HeaderCount → Int32
  | .text => header.text
  | .data => header.data
  | .bss => header.bss
  | .symbols => header.symbols
  | .textRelocations => header.textRelocations
  | .dataRelocations => header.dataRelocations

/-- What is wrong with a header, if anything: a foreign magic number before a negative count, and of
several negative counts the first. -/
def check (header : Header) : Except FormatFault Unit :=
  if header.magic = objectMagic then
    match HeaderCount.all.find? fun count ↦ header.count count < 0 with
    | some count => .error (.negativeCount count (header.count count))
    | none => .ok ()
  else .error (.badMagic header.magic)

end Header

end Aout
