import Aout.Object
import Aout.Report.HexDump
/-!
Reports on an object: its header, and on demand its bytes, its relocation records and its symbols.
Each section of a report stands under an underlined title.
-/

set_option autoImplicit false
set_option relaxedAutoImplicit false

namespace Aout

namespace Report

/-- Which sections a report has besides the header. -/
structure Selection where
  text : Bool
  data : Bool
  relocations : Bool
  symbols : Bool
  deriving DecidableEq

def Selection.all : Selection := ⟨true, true, true, true⟩

/-- A title, underlined, with a blank line below it. Titles are ASCII. -/
def title (words : String) : String :=
  words ++ "\n" ++ String.ofList (List.replicate words.length '-') ++ "\n\n"

/-- A header field in hexadecimal, as the bits of its 32-bit word. -/
def fieldHex (width : Nat) (field : Int32) : String :=
  "0x" ++ Numeral.upperHex width field.toUInt32.toNat

/-- A line of the header that shows a count of bytes or entries. -/
def countLine (label : String) (count : Int32) (unit : String) : String :=
  label ++ ": " ++ fieldHex 4 count ++ " (" ++ Numeral.signedDecimal count.toInt ++ ") " ++ unit ++
    "\n"

def header (object : Object) : String :=
  let header := object.header
  title "File Header"
    ++ "     Magic Number: " ++ fieldHex 1 header.magic ++ "\n"
    ++ countLine "Text Segment size" header.text "bytes"
    ++ countLine "Data Segment size" header.data "bytes"
    ++ countLine " BSS Segment size" header.bss "bytes"
    ++ countLine "Symbol Table size" header.symbols "entries"
    ++ " Main Entry Point: " ++ fieldHex 4 header.entry ++ "\n"
    ++ countLine " Text reloc count" header.textRelocations "entries"
    ++ countLine " Data reloc count" header.dataRelocations "entries"
    ++ "\n"

/-- The bytes of a segment. -/
def bytes (heading : String) (contents : Section) : String :=
  title heading ++ HexDump.text contents.bytes.toList ++ "\n"

/-- What a placeholder stands for: a symbol by its name, or a segment. -/
def target (object : Object) (record : Relocation) : String :=
  match record.symbolIndex? with
  | some index =>
    "External\t" ++ (match object.symbols.entryAt? index with
      | some entry => entry.name
      | none => "<bad index>")
  | none =>
    "Segment: " ++ (match record.segment? with
      | some segment => segment.name
      | none => "<bad tag " ++ Numeral.decimal record.index.toNat ++ ">")

def relocation (object : Object) (record : Relocation) : String :=
  Numeral.upperHex 4 record.address.toNat ++ "\tsize: " ++ Numeral.decimal record.width.toNat ++
    " (bytes)\t" ++ target object record ++ "\n"

/-- The records of a stored segment. -/
def relocations (object : Object) (owner : StoredSegment) : String :=
  title (owner.segment.name ++ " segment relocations")
    ++ String.join ((object.contents owner).relocations.toList.map (relocation object)) ++ "\n"

/-- A name set flush right in a column of fifteen characters. -/
def column (name : String) : String :=
  String.ofList (List.replicate (15 - name.length) ' ') ++ name

def symbol (entry : SymbolEntry) : String :=
  column entry.name ++ "\t" ++ entry.symbol.kind.description ++ " segment\toffset: " ++
    Numeral.decimal entry.symbol.value.toNat ++ " (0x" ++
    Numeral.upperHex 4 entry.symbol.value.toNat ++ ")\n"

def symbols (object : Object) : String :=
  title "Symbols" ++ String.join (object.symbols.entries.toList.map symbol)

end Report

/-- The report on an object with the selected sections. -/
def report (object : Object) (selection : Report.Selection) : String :=
  Report.header object
    ++ (if selection.text then Report.bytes "Text segment (hex)" object.text else "")
    ++ (if selection.data then Report.bytes ".data segment (hex)" object.data else "")
    ++ (if selection.relocations then
        Report.relocations object .text ++ Report.relocations object .data
      else "")
    ++ (if selection.symbols then Report.symbols object else "")

end Aout
