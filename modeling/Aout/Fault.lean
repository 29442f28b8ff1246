import Aout.Segment
import Aout.Text.Numeral
/-!
What can go wrong, by cause. `FormatFault` is what reading an object from bytes finds wrong with
them, `LinkFault` is what building and linking objects refuses. The wording of each cause is its
`message`.
-/

set_option autoImplicit false
set_option relaxedAutoImplicit false

namespace Aout

/-- The counts of a header that may not be negative, in the order in which they are checked. -/
inductive HeaderCount
  | text
  | data
  | bss
  | symbols
  | textRelocations
  | dataRelocations
  deriving DecidableEq

namespace HeaderCount

def all : List HeaderCount :=
  [.text, .data, .bss, .symbols, .textRelocations, .dataRelocations]

def name : HeaderCount → String
  | .text => "a_text"
  | .data => "a_data"
  | .bss => "a_bss"
  | .symbols => "a_syms"
  | .textRelocations => "a_trsize"
  | .dataRelocations => "a_drsize"

end HeaderCount

/-- The parts of an object file whose length is known before they are read, in file order. -/
inductive FilePart
  | header
  | text
  | data
  | textRelocations
  | dataRelocations
  | symbols
  deriving DecidableEq

def FilePart.name : FilePart → String
  | .header => "header"
  | .text => "text segment"
  | .data => "data segment"
  | .textRelocations => "text relocations"
  | .dataRelocations => "data relocations"
  | .symbols => "symbol table"

/-- Why bytes are not an object. Symbols are given by their position in the table. -/
inductive FormatFault
  | badMagic (magic : Int32)
  | negativeCount (count : HeaderCount) (value : Int32)
  | truncated (part : FilePart)
  | nameOutsideTable (position : Nat) (offset : UInt32)
  | unterminatedName (position : Nat)
  | undecodableName (position : Nat)
  deriving DecidableEq

def FormatFault.message : FormatFault → String
  | .badMagic magic => "bad magic number " ++ Numeral.prefixedOctal magic.toUInt32.toNat
  | .negativeCount count value =>
    "header field " ++ count.name ++ " holds negative count " ++ Numeral.signedDecimal value.toInt
  | .truncated part => "unexpected end of file while reading " ++ part.name
  | .nameOutsideTable position offset =>
    "symbol #" ++ Numeral.decimal position ++ " has name offset " ++ Numeral.decimal offset.toNat ++
      " outside the string table"
  | .unterminatedName position =>
    "symbol #" ++ Numeral.decimal position ++ " has an unterminated name"
  | .undecodableName position =>
    "symbol #" ++ Numeral.decimal position ++ " has a name that is not valid UTF-8"

/-- Why an object cannot be changed or linked as asked. Addresses of placeholders are offsets into
the section that holds them. -/
inductive LinkFault
  | unresolvedSymbol (name : String)
  | multiplyDefined (name : String)
  | placeholderOutside (segment : Segment) (address : UInt32)
  | unknownSegmentTag (address tag : UInt32)
  | unknownSymbolIndex (address : UInt32) (index tableSize : Nat)
  | operandTooWide (address value : UInt32)
  | addressSpaceOverrun (segment : Segment)
  | entryTooWide (value : UInt32)
  | symbolInUse (name : String)
  | nothingToLink
  deriving DecidableEq

def LinkFault.message : LinkFault → String
  | .unresolvedSymbol name => "symbol '" ++ name ++ "' not found"
  | .multiplyDefined name => "symbol '" ++ name ++ "' multiply defined"
  | .placeholderOutside segment address =>
    "relocation at " ++ Numeral.prefixedHex 4 address.toNat ++ " lies outside the " ++
      segment.name ++ " segment"
  | .unknownSegmentTag address tag =>
    "relocation at " ++ Numeral.prefixedHex 4 address.toNat ++ " names invalid segment tag " ++
      Numeral.decimal tag.toNat
  | .unknownSymbolIndex address index tableSize =>
    "relocation at " ++ Numeral.prefixedHex 4 address.toNat ++ " references symbol #" ++
      Numeral.decimal index ++ ", table holds " ++ Numeral.decimal tableSize
  | .operandTooWide address value =>
    "address " ++ Numeral.prefixedHex 1 value.toNat ++ " patched at " ++
      Numeral.prefixedHex 4 address.toNat ++ " does not fit 16 bits"
  | .addressSpaceOverrun segment =>
    segment.name ++ " segments overrun the 16-bit address space"
  | .entryTooWide value =>
    "entry point " ++ Numeral.prefixedHex 1 value.toNat ++ " does not fit 16 bits"
  | .symbolInUse name =>
    "symbol '" ++ name ++ "' is still referenced by an external relocation"
  | .nothingToLink => "no input objects provided"

end Aout
