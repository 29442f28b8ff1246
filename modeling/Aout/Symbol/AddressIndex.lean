import Aout.Segment
/-!
The address index: which name labels an address of a segment. An address carries at most one label,
and the first one to claim it keeps it (`AddressIndex.nameAt?_claim`). Besides the exact lookup
there is the nearest label at or below an address, in one segment or in any, with the distance to
it.
-/

set_option autoImplicit false
set_option relaxedAutoImplicit false

namespace Aout

/-- A name at an address of a segment. -/
structure Label where
  segment : Segment
  address : UInt32
  name : String
  deriving DecidableEq

namespace Label

def isAt (label : Label) (segment : Segment) (address : UInt32) : Bool :=
  label.segment == segment && label.address == address

/-- The label with the greatest address, the earlier one of two at the same address. -/
def latest? : List Label → Option Label
  | [] => none
  | label :: rest =>
    match latest? rest with
    | none => some label
    | some best => some (if label.address < best.address then best else label)

end Label

/-- A name, and how far an address is behind it. -/
structure Nearby where
  name : String
  distance : UInt32
  deriving DecidableEq

/-- The label as seen from an address behind it. -/
def Label.nearby (label : Label) (address : UInt32) : Nearby :=
  ⟨label.name, address - label.address⟩

/-- The best name so far, or a further one if that is strictly closer. -/
def Nearby.closer : Option (Segment × Nearby) → Segment × Nearby → Option (Segment × Nearby)
  | none, further => some further
  | some best, further =>
    some (if further.2.distance < best.2.distance then further else best)

structure AddressIndex where
  labels : List Label
  deriving DecidableEq

namespace AddressIndex

def empty : AddressIndex := ⟨[]⟩

/-- The name of exactly this address. -/
def nameAt? (index : AddressIndex) (segment : Segment) (address : UInt32) : Option String :=
  (index.labels.find? (·.isAt segment address)).map (·.name)

/-- Label an address, unless it has a label already. -/
def claim (index : AddressIndex) (label : Label) : AddressIndex :=
  match index.nameAt? label.segment label.address with
  | some _ => index
  | none => ⟨label :: index.labels⟩

/-- Take a label off its address, unless the address is labelled with another name. -/
def release (index : AddressIndex) (label : Label) : AddressIndex :=
  if index.nameAt? label.segment label.address = some label.name then
    ⟨index.labels.filter fun other ↦ !other.isAt label.segment label.address⟩
  else index

/-- The label closest to an address, from below or at it. -/
def nearestLabel? (index : AddressIndex) (segment : Segment) (address : UInt32) : Option Label :=
  Label.latest? (index.labels.filter fun label ↦
    label.segment == segment && label.address ≤ address)

/-- The name closest to an address, from below or at it, with the distance to it. -/
def nearest? (index : AddressIndex) (segment : Segment) (address : UInt32) : Option Nearby :=
  (index.nearestLabel? segment address).map (·.nearby address)

/-- The name closest to an address, from below or at it, in any segment. Of two at the same distance
the one in the earlier segment is taken. -/
def nearestAny? (index : AddressIndex) (address : UInt32) : Option (Segment × Nearby) :=
  (Segment.all.filterMap fun segment ↦
    (index.nearest? segment address).map fun found ↦ (segment, found)).foldl Nearby.closer none

theorem nameAt?_empty (segment : Segment) (address : UInt32) :
    empty.nameAt? segment address = none := rfl

/-- The first label at an address stays; a free address takes the new one. -/
theorem nameAt?_claim (index : AddressIndex) (label : Label) :
    (index.claim label).nameAt? label.segment label.address =
      some ((index.nameAt? label.segment label.address).getD label.name) := by
  unfold claim
  cases hname : index.nameAt? label.segment label.address with
  | some name => simp [hname]
  | none => simp [nameAt?, Label.isAt]

theorem nameAt?_claim_of_ne (index : AddressIndex) (label : Label) {segment : Segment}
    {address : UInt32} (hother : label.isAt segment address = false) :
    (index.claim label).nameAt? segment address = index.nameAt? segment address := by
  unfold claim
  split
  · rfl
  · simp [nameAt?, hother]

end AddressIndex

end Aout
