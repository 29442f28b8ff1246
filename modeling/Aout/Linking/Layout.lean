import Aout.Object
import Aout.Bytes.Word
/-!
Load addresses. Text has an address space of its own, which the text of all objects fills from a
given address on. Data and bss share another one: the data of all objects from zero on, and the bss
of all objects behind the last data byte. Objects stand in the order in which they are given, and no
segment may end beyond the 16-bit address space.
-/

set_option autoImplicit false
set_option relaxedAutoImplicit false

namespace Aout

/-- The load addresses of the segments of one object. -/
structure Bases where
  text : UInt32
  data : UInt32
  bss : UInt32
  deriving DecidableEq

namespace Bases

def of (bases : Bases) : Segment → UInt32
  | .text => bases.text
  | .data => bases.data
  | .bss => bases.bss

/-- The address of a symbol whose value is an offset into its segment. A symbol of no segment stands
for its value. -/
def addressOf (bases : Bases) (symbol : Symbol) : UInt32 :=
  match symbol.segment? with
  | some segment => Word.saturatingAdd (bases.of segment) symbol.value
  | none => symbol.value

end Bases

namespace Layout

/-- The number of addresses of an address space. -/
def addressSpace : Nat := 0x10000

/-- The end of a segment that starts at an address, if the address space reaches that far. -/
def advance (segment : Segment) (start size : UInt32) : Except LinkFault UInt32 :=
  if start.toNat + size.toNat ≤ addressSpace then .ok (start + size)
  else .error (.addressSpaceOverrun segment)

theorem advance_eq_ok_iff {segment : Segment} {start size stop : UInt32} :
    advance segment start size = .ok stop ↔
      stop.toNat = start.toNat + size.toNat ∧ stop.toNat ≤ addressSpace := by
  have hspace : addressSpace = 65536 := rfl
  have hstop := stop.toNat_lt
  unfold advance
  split
  · rename_i hfits
    rw [Except.ok.injEq, ← UInt32.toNat_inj, UInt32.toNat_add]
    omega
  · simp only [reduceCtorEq, false_iff]
    omega

/-- Where the next object starts when one with the given bases is in place. -/
def next (bases : Bases) (object : Object) : Except LinkFault Bases := do
  let text ← advance .text bases.text (object.size .text)
  let data ← advance .data bases.data (object.size .data)
  let bss ← advance .bss bases.bss (object.size .bss)
  return ⟨text, data, bss⟩

/-- The load addresses of objects of which the first stands at the given bases. -/
def place : Bases → List Object → Except LinkFault (List Bases)
  | _, [] => .ok []
  | bases, object :: rest => do
    let following ← next bases object
    let others ← place following rest
    return bases :: others

/-- The number of data bytes of all objects together. -/
def dataTotal (objects : List Object) : Except LinkFault UInt32 :=
  objects.foldlM (fun total object ↦ advance .data total (object.size .data)) 0

end Layout

/-- The load addresses of objects whose text starts at `textBase`. -/
def layout (objects : List Object) (textBase : UInt16) : Except LinkFault (List Bases) := do
  let dataTotal ← Layout.dataTotal objects
  Layout.place ⟨textBase.toUInt32, 0, dataTotal⟩ objects

end Aout
