import Aout.Object
/-!
Objects as files: header, text, data, the records of text and of data, symbols, and names to the end
of the file. The lengths of all parts but the last are in the header, and the last part takes the
rest, so a file holds exactly one object. `decode` reads the parts in file order and then the name
of each symbol; the first thing that is wrong is what it reports.
-/

set_option autoImplicit false
set_option relaxedAutoImplicit false

namespace Aout.Object

/-- The bytes of the file that holds the object. -/
def encode (object : Object) : List UInt8 :=
  object.header.encode
    ++ object.text.bytes.toList
    ++ object.data.bytes.toList
    ++ object.text.relocations.toList.flatMap (·.encode)
    ++ object.data.relocations.toList.flatMap (·.encode)
    ++ object.symbols.entries.toList.flatMap (·.symbol.encode)
    ++ object.names.bytes.toList

/-- The first `count` bytes, and what follows them. -/
def takeBytes? (count : Nat) (bytes : List UInt8) : Option (List UInt8 × List UInt8) :=
  if bytes.length < count then none else some (bytes.splitAt count)

/-- The first `count` records, and what follows them. -/
def takeRecords? {Record : Type} (take? : List UInt8 → Option (Record × List UInt8)) :
    Nat → List UInt8 → Option (List Record × List UInt8)
  | 0, bytes => some ([], bytes)
  | count + 1, bytes => do
    let (record, bytes) ← take? bytes
    let (records, bytes) ← takeRecords? take? count bytes
    return (record :: records, bytes)

/-- A part that could be read, or else the fault that the file ends inside it. -/
def whole {Contents : Type} (part : FilePart) : Option Contents → Except FormatFault Contents
  | some contents => .ok contents
  | none => .error (.truncated part)

/-- Each symbol with its name, the first of them at a given position. -/
def nameSymbols (names : NameTable) : (position : Nat) → List Symbol →
    Except FormatFault (List SymbolEntry)
  | _, [] => .ok []
  | position, symbol :: rest => do
    let name ← names.nameAt position symbol.nameOffset
    let entries ← nameSymbols names (position + 1) rest
    return ⟨name, symbol⟩ :: entries

/-- The object that a file holds. -/
def decode (bytes : List UInt8) : Except FormatFault Object := do
  let (header, bytes) ← whole .header (Header.take? bytes)
  header.check
  let (text, bytes) ← whole .text (takeBytes? header.text.toInt.toNat bytes)
  let (data, bytes) ← whole .data (takeBytes? header.data.toInt.toNat bytes)
  let (textRelocations, bytes) ← whole .textRelocations
    (takeRecords? Relocation.take? header.textRelocations.toInt.toNat bytes)
  let (dataRelocations, bytes) ← whole .dataRelocations
    (takeRecords? Relocation.take? header.dataRelocations.toInt.toNat bytes)
  let (symbols, bytes) ← whole .symbols
    (takeRecords? Symbol.take? header.symbols.toInt.toNat bytes)
  let names : NameTable := ⟨bytes.toArray⟩
  let entries ← nameSymbols names 0 symbols
  return {
    magic := header.magic
    entry := header.entry.toUInt32
    text := ⟨text.toArray, textRelocations.toArray⟩
    data := ⟨data.toArray, dataRelocations.toArray⟩
    bssSize := header.bss.toUInt32
    symbols := .ofEntries entries
    names := names }

end Aout.Object
