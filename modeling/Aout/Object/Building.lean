import Aout.Object
/-!
Building objects. Bytes and reservations go at the end of their segment, relocation records at the
end of their list. A name enters the symbol table once: naming it again defines a symbol that was
awaited so far (`Object.addSymbol`), in place, so that records which give its position stay good.
-/

set_option autoImplicit false
set_option relaxedAutoImplicit false

namespace Aout.Object

/-- Add bytes at the end of a stored segment; with them goes the offset of the last one. -/
def appendBytes (object : Object) (owner : StoredSegment) (bytes : List UInt8) :
    Option UInt32 × Object :=
  let before := object.contents owner
  let after : Section := { before with bytes := before.bytes ++ bytes }
  (if bytes.isEmpty then none else some (after.size - 1), object.setContents owner after)

/-- Add a 16-bit word at the end of a stored segment; with it goes its offset. -/
def appendWord (object : Object) (owner : StoredSegment) (word : UInt16) : UInt32 × Object :=
  let before := object.contents owner
  (before.size,
    object.setContents owner { before with bytes := before.bytes ++ LittleEndian.bytes16 word })

/-- Reserve bytes at the end of bss; with them goes the offset of the first one. -/
def reserve (object : Object) (size : UInt32) : UInt32 × Object :=
  (object.bssSize, { object with bssSize := object.bssSize + size })

/-- Add a name to the name table; with it goes its offset. -/
def addName (object : Object) (name : String) : UInt32 × Object :=
  (object.names.nextOffset, { object with names := object.names.add name })

/-- Enter a new name into the symbol table; with it goes its position. -/
def enter (object : Object) (name : String) (symbol : Symbol) : Nat × Object :=
  (object.symbols.size,
    { object with
      names := object.names.add name
      symbols := object.symbols.push
        ⟨name, { symbol with nameOffset := object.names.nextOffset }⟩ })

/-- Add a symbol, or define the one of this name that is still awaited; with it goes its position. A
definition may be repeated but not changed. -/
def addSymbol (object : Object) (name : String) (symbol : Symbol) :
    Except LinkFault Nat × Object :=
  match object.symbols.locate? name with
  | none =>
    let (position, grown) := object.enter name symbol
    (.ok position, grown)
  | some (position, known) =>
    if !known.isDefined then
      (.ok position,
        { object with symbols := object.symbols.redefine position symbol.kind symbol.value })
    else if symbol.isDefined && (known.kind != symbol.kind || known.value != symbol.value) then
      (.error (.multiplyDefined name), object)
    else (.ok position, object)

/-- The position of a name, which is entered as awaited if it is new. -/
def await (object : Object) (name : String) : Nat × Object :=
  match object.symbols.locate? name with
  | some (position, _) => (position, object)
  | none => object.enter name .awaited

def addRelocation (object : Object) (owner : StoredSegment) (record : Relocation) : Object :=
  object.modifyContents owner fun contents ↦
    { contents with relocations := contents.relocations.push record }

def setEntryPoint (object : Object) (entry : UInt16) : Object :=
  { object with entry := entry.toUInt32 }

end Aout.Object
