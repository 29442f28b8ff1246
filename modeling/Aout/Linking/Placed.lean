import Aout.Linking.Layout
/-!
Placed objects. An object that has load addresses still holds relative values in its placeholders.
`Placed.relocate` replaces them by absolute addresses: a placeholder into a segment by its value
plus the base of the segment, and one that stands for a symbol by the address of the one definition
of that name among the objects at hand. All values are found before any is written.
-/

set_option autoImplicit false
set_option relaxedAutoImplicit false

namespace Aout

structure Placed where
  object : Object
  bases : Bases

/-- An object whose placeholders hold absolute addresses. Its defined symbols are offsets into their
segments until they are `rebased`, and addresses from then on. -/
structure Relocated where
  object : Object
  bases : Bases
  rebased : Bool

/-- A word to be written over a placeholder. -/
structure Patch where
  address : UInt32
  word : UInt16
  deriving DecidableEq

namespace Patch

/-- The patch that writes an address over a placeholder, if the address fits. -/
def ofAddress (placeholder address : UInt32) : Except LinkFault Patch :=
  match Word.narrow? address with
  | some word => .ok ⟨placeholder, word⟩
  | none => .error (.operandTooWide placeholder address)

/-- Write a patch over the bytes of a segment. -/
def apply (owner : StoredSegment) (bytes : Array UInt8) (patch : Patch) :
    Except LinkFault (Array UInt8) :=
  match Placeholder.setWordAt? bytes patch.address.toNat patch.word with
  | some written => .ok written
  | none => .error (.placeholderOutside owner.segment patch.address)

/-- The bytes with a patch written over them, if they reach that far. -/
def write (bytes : Array UInt8) (patch : Patch) : Array UInt8 :=
  Placeholder.overwrite bytes patch.address.toNat patch.word

end Patch

namespace Placed

/-- The symbol that an object defines under a name. -/
def definition? (module : Placed) (name : String) : Option Symbol :=
  (module.object.symbols.find? name).filter (·.isDefined)

/-- The addresses at which objects define a name. -/
def definitions (modules : List Placed) (name : String) : List UInt32 :=
  modules.filterMap fun module ↦ (module.definition? name).map module.bases.addressOf

/-- The address of a name that exactly one of the objects defines. -/
def findDefinition (modules : List Placed) (name : String) : Except LinkFault UInt32 :=
  match definitions modules name with
  | [] => .error (.unresolvedSymbol name)
  | [address] => .ok address
  | _ :: _ :: _ => .error (.multiplyDefined name)

/-- The address for which a placeholder stands that holds the given word now. -/
def target (module : Placed) (modules : List Placed) (record : Relocation) (held : UInt16) :
    Except LinkFault UInt32 :=
  match record.symbolIndex? with
  | none =>
    match Segment.ofTag? record.index with
    | some segment => .ok (Word.saturatingAdd held.toUInt32 (module.bases.of segment))
    | none => .error (.unknownSegmentTag record.address record.index)
  | some index =>
    match module.object.symbols.entryAt? index with
    | some entry => findDefinition modules entry.name
    | none => .error (.unknownSymbolIndex record.address index module.object.symbols.size)

/-- The patch for the placeholder of one record. -/
def resolveRecord (module : Placed) (modules : List Placed) (owner : StoredSegment)
    (record : Relocation) : Except LinkFault Patch :=
  match Placeholder.wordAt? (module.object.contents owner).bytes record.address.toNat with
  | none => .error (.placeholderOutside owner.segment record.address)
  | some held => do
    let address ← module.target modules record held
    Patch.ofAddress record.address address

/-- The patches for all placeholders of a stored segment, in the order of its records. -/
def resolve (module : Placed) (modules : List Placed) (owner : StoredSegment) :
    Except LinkFault (List Patch) :=
  (module.object.contents owner).relocations.toList.mapM (module.resolveRecord modules owner)

/-- The patches for all placeholders of text and of data. -/
def resolveAll (module : Placed) (modules : List Placed) :
    Except LinkFault (List Patch × List Patch) := do
  let text ← module.resolve modules .text
  let data ← module.resolve modules .data
  return (text, data)

/-- The object with its patches written. -/
def patched (module : Placed) (patches : List Patch × List Patch) : Except LinkFault Relocated := do
  let text ← patches.1.foldlM (Patch.apply .text) module.object.text.bytes
  let data ← patches.2.foldlM (Patch.apply .data) module.object.data.bytes
  let object := { module.object with
    text := { module.object.text with bytes := text }
    data := { module.object.data with bytes := data } }
  return ⟨object, module.bases, false⟩

/-- Relocate one object against itself and its siblings. -/
def relocate (module : Placed) (siblings : List Placed) : Except LinkFault Relocated := do
  let patches ← module.resolveAll (module :: siblings)
  module.patched patches

/-- Relocate every object against all of them. -/
def relocateAll (modules : List Placed) : Except LinkFault (List Relocated) := do
  let patches ← modules.mapM fun module ↦ module.resolveAll modules
  (modules.zip patches).mapM fun (module, patches) ↦ module.patched patches

end Placed

end Aout
