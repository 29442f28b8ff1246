import Aout.Bytes.LittleEndian
import Aout.Segment
/-!
Symbols. The kind of a symbol is a set of flags in a 32-bit word; bits that name no flag are kept. A
symbol belongs to the first of text, data and bss whose flag it carries, and is defined unless it
carries `SymbolFlag.undefined`.
-/

set_option autoImplicit false
set_option relaxedAutoImplicit false

namespace Aout

inductive SymbolFlag
  /-- Visible to other objects. -/
  | visible
  | text
  | data
  | bss
  /-- The value is an address that linking does not move. -/
  | absolute
  /-- Named here, defined in another object. -/
  | undefined
  deriving DecidableEq

namespace SymbolFlag

/-- Every flag, in the order in which reports list them. -/
def all : List SymbolFlag := [.visible, .text, .data, .bss, .absolute, .undefined]

/-- The bit that stands for the flag. -/
def mask : SymbolFlag → UInt32
  | .visible => 1
  | .text => 2
  | .data => 4
  | .bss => 8
  | .absolute => 16
  | .undefined => 32

/-- The flag as reports show it. -/
def word : SymbolFlag → String
  | .visible => "public"
  | .text => ".text"
  | .data => ".data"
  | .bss => ".bss"
  | .absolute => "abs"
  | .undefined => "external"

def ofSegment : Segment → SymbolFlag
  | .text => .text
  | .data => .data
  | .bss => .bss

end SymbolFlag

structure SymbolKind where
  bits : UInt32
  deriving DecidableEq

namespace SymbolKind

def has (kind : SymbolKind) (flag : SymbolFlag) : Bool :=
  kind.bits &&& flag.mask == flag.mask

/-- The kind that carries exactly the given flags. -/
def ofFlags (flags : List SymbolFlag) : SymbolKind :=
  ⟨flags.foldl (fun bits flag ↦ bits ||| flag.mask) 0⟩

/-- The kind of a label in a segment. -/
def label (segment : Segment) (visible : Bool) : SymbolKind :=
  ofFlags (if visible then [.visible, .ofSegment segment] else [.ofSegment segment])

/-- The kind of a name that another object is to define. -/
def awaited : SymbolKind :=
  ofFlags [.visible, .undefined]

/-- The segment to which symbols of this kind belong, if any. -/
def segment? (kind : SymbolKind) : Option Segment :=
  Segment.all.find? fun segment ↦ kind.has (.ofSegment segment)

/-- The flags as reports list them, each word behind a blank. -/
def description (kind : SymbolKind) : String :=
  String.join ((SymbolFlag.all.filter kind.has).map fun flag ↦ " " ++ flag.word)

end SymbolKind

structure Symbol where
  /-- Where the name starts in the object's name table. -/
  nameOffset : UInt32
  kind : SymbolKind
  /-- An offset into the segment of the symbol, or an address. -/
  value : UInt32
  deriving DecidableEq

namespace Symbol

/-- The number of bytes of a symbol in a file. -/
def fileSize : Nat := 12

/-- A label at `offset` of `segment`, not yet named. -/
def label (segment : Segment) (offset : UInt32) (visible : Bool) : Symbol :=
  ⟨0, .label segment visible, offset⟩

/-- A name that another object is to define, not yet named. -/
def awaited : Symbol :=
  ⟨0, .awaited, 0⟩

def isDefined (symbol : Symbol) : Bool :=
  !symbol.kind.has .undefined

def isVisible (symbol : Symbol) : Bool :=
  symbol.kind.has .visible

def segment? (symbol : Symbol) : Option Segment :=
  symbol.kind.segment?

def encode (symbol : Symbol) : List UInt8 :=
  LittleEndian.bytes32 symbol.nameOffset ++ LittleEndian.bytes32 symbol.kind.bits ++
    LittleEndian.bytes32 symbol.value

/-- The symbol at the front of a byte string, and what follows it. -/
def take? (bytes : List UInt8) : Option (Symbol × List UInt8) := do
  let (nameOffset, bytes) ← LittleEndian.take32? bytes
  let (bits, bytes) ← LittleEndian.take32? bytes
  let (value, bytes) ← LittleEndian.take32? bytes
  return (⟨nameOffset, ⟨bits⟩, value⟩, bytes)

@[simp] theorem length_encode (symbol : Symbol) : symbol.encode.length = fileSize := by
  simp [encode, fileSize]

theorem take?_eq_some_iff {bytes rest : List UInt8} {symbol : Symbol} :
    take? bytes = some (symbol, rest) ↔ bytes = symbol.encode ++ rest := by
  constructor
  · intro htake
    simp only [take?, Option.bind_eq_bind, Option.bind_eq_some_iff, Option.pure_def,
      Option.some.injEq, Prod.mk.injEq, LittleEndian.take32?_eq_some_iff, Prod.exists] at htake
    obtain ⟨nameOffset, _, rfl, bits, _, rfl, value, _, rfl, rfl, rfl⟩ := htake
    simp [encode]
  · rintro rfl
    simp [take?, encode, LittleEndian.take32?_bytes32_append]

end Symbol

end Aout
