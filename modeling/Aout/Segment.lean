/-!
The segments of an object. Text and data hold bytes in the file; bss is only a size, and its bytes
are zero when the program starts. A relocation record names a segment by its tag
(`Segment.ofTag?_eq_some_iff`: each tag belongs to one segment).
-/

set_option autoImplicit false
set_option relaxedAutoImplicit false

namespace Aout

inductive Segment
  | text
  | data
  | bss
  deriving DecidableEq

/-- A segment whose bytes are stored in the file, and which may therefore hold placeholders. -/
inductive StoredSegment
  | text
  | data
  deriving DecidableEq

namespace Segment

/-- Every segment, in the order in which ties between them are decided. -/
def all : List Segment := [.text, .data, .bss]

theorem mem_all (segment : Segment) : segment ∈ all := by
  cases segment <;> decide

/-- The number that stands for the segment in a relocation record. -/
def tag : Segment → UInt32
  | .text => 0
  | .data => 1
  | .bss => 2

def ofTag? (tag : UInt32) : Option Segment :=
  all.find? fun segment ↦ segment.tag == tag

theorem ofTag?_tag (segment : Segment) : ofTag? segment.tag = some segment := by
  cases segment <;> rfl

theorem eq_of_tag_eq {segment other : Segment} (htag : segment.tag = other.tag) :
    segment = other :=
  Option.some.inj (by rw [← ofTag?_tag, htag, ofTag?_tag])

theorem ofTag?_eq_some_iff {tag : UInt32} {segment : Segment} :
    ofTag? tag = some segment ↔ segment.tag = tag := by
  constructor
  · intro hfound
    simpa using List.find?_some hfound
  · rintro rfl
    exact ofTag?_tag segment

/-- The segment as reports and messages name it. -/
def name : Segment → String
  | .text => ".text"
  | .data => ".data"
  | .bss => ".bss"

end Segment

namespace StoredSegment

/-- Text comes before data in the file and in every pass over an object. -/
def all : List StoredSegment := [.text, .data]

theorem mem_all (owner : StoredSegment) : owner ∈ all := by
  cases owner <;> decide

def segment : StoredSegment → Segment
  | .text => .text
  | .data => .data

def ofSegment? : Segment → Option StoredSegment
  | .text => some .text
  | .data => some .data
  | .bss => none

end StoredSegment

end Aout
