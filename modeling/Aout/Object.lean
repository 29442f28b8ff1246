import Aout.Header
import Aout.NameTable
import Aout.Relocation
import Aout.Symbol.Table
import Aout.Bytes.Placeholder
/-!
Objects: a magic number, two sections of bytes with their relocation records, the size of bss, an
entry address, a symbol table and the names of its symbols. The header is never stored; it is
computed from the rest (`Object.header`), so its counts cannot disagree with what they count.
-/

set_option autoImplicit false
set_option relaxedAutoImplicit false

namespace Aout

/-- The contents of a stored segment: its bytes, and the records of the placeholders among them. -/
structure Section where
  bytes : Array UInt8
  relocations : Array Relocation
  deriving DecidableEq

namespace Section

def empty : Section := ⟨#[], #[]⟩

/-- The number of bytes, as addresses count them. -/
def size (contents : Section) : UInt32 :=
  UInt32.ofNat contents.bytes.size

end Section

structure Object where
  /-- The magic number in the header of its file. -/
  magic : Int32
  /-- The entry address as the file holds it; programs start at its low 16 bits. -/
  entry : UInt32
  text : Section
  data : Section
  bssSize : UInt32
  symbols : SymbolTable
  names : NameTable

namespace Object

def empty : Object :=
  ⟨Header.objectMagic, 0, .empty, .empty, 0, .empty, .empty⟩

/-- The contents of a stored segment. -/
def contents (object : Object) : StoredSegment → Section
  | .text => object.text
  | .data => object.data

def setContents (object : Object) (owner : StoredSegment) (contents : Section) : Object :=
  match owner with
  | .text => { object with text := contents }
  | .data => { object with data := contents }

/-- Change the contents of a stored segment. -/
def modifyContents (object : Object) (owner : StoredSegment) (change : Section → Section) :
    Object :=
  match owner with
  | .text => { object with text := change object.text }
  | .data => { object with data := change object.data }

def size (object : Object) : Segment → UInt32
  | .text => object.text.size
  | .data => object.data.size
  | .bss => object.bssSize

def entryPoint (object : Object) : UInt16 :=
  object.entry.toUInt16

/-- The header that describes the object. -/
def header (object : Object) : Header where
  magic := object.magic
  text := object.text.size.toInt32
  data := object.data.size.toInt32
  bss := object.bssSize.toInt32
  symbols := (UInt32.ofNat object.symbols.size).toInt32
  entry := object.entry.toInt32
  textRelocations := (UInt32.ofNat object.text.relocations.size).toInt32
  dataRelocations := (UInt32.ofNat object.data.relocations.size).toInt32

/-- The 16-bit word at an address of a segment; bss holds no words. -/
def wordAt? (object : Object) (segment : Segment) (address : UInt32) : Option UInt16 :=
  (StoredSegment.ofSegment? segment).bind fun owner ↦
    Placeholder.wordAt? (object.contents owner).bytes address.toNat

/-- The records of the placeholders in a segment; bss has none. -/
def relocations (object : Object) (segment : Segment) : Array Relocation :=
  match StoredSegment.ofSegment? segment with
  | some owner => (object.contents owner).relocations
  | none => #[]

/-- An address in words: the nearest label with the distance to it, or else the address itself. -/
def symbolize (object : Object) (segment : Segment) (address : UInt16) : String :=
  match object.symbols.index.nearest? segment address.toUInt32 with
  | none => "0x" ++ Numeral.upperHex 4 address.toNat
  | some ⟨name, distance⟩ =>
    if distance = 0 then name else name ++ "+" ++ Numeral.decimal distance.toNat

@[simp] theorem contents_setContents (object : Object) (owner : StoredSegment)
    (contents : Section) : (object.setContents owner contents).contents owner = contents := by
  cases owner <;> rfl

@[simp] theorem setContents_contents (object : Object) (owner : StoredSegment) :
    object.setContents owner (object.contents owner) = object := by
  cases owner <;> rfl

theorem contents_setContents_of_ne (object : Object) {owner other : StoredSegment}
    (hother : other ≠ owner) (contents : Section) :
    (object.setContents owner contents).contents other = object.contents other := by
  cases owner <;> cases other <;> simp_all [Object.contents, setContents]

theorem modifyContents_eq (object : Object) (owner : StoredSegment) (change : Section → Section) :
    object.modifyContents owner change =
      object.setContents owner (change (object.contents owner)) := by
  cases owner <;> rfl

end Object

end Aout
