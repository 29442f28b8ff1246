import Aout.Linking.Placed
import Aout.Progress
import Aout.Object.Building
/-!
Concatenation: one relocated object takes in another one. The bytes of the second go behind those of
the first, and its definitions join the table of the first, where the first definition of a name is
the one that stays. Then the records of the first are pointed at the symbols that are defined by
now, and the records of the second are added, moved to their new offsets and re-pointed into the
joint table.

From the first concatenation on, all defined symbols of an object are absolute addresses.
-/

set_option autoImplicit false
set_option relaxedAutoImplicit false

namespace Aout.Relocated

/-- The absolute address of a defined symbol of the object. -/
def addressOf (module : Relocated) (symbol : Symbol) : UInt32 :=
  if module.rebased then symbol.value else module.bases.addressOf symbol

/-- Make every defined symbol an absolute address. -/
def rebase (module : Relocated) : Relocated :=
  if module.rebased then module
  else
    let valueOf (symbol : Symbol) : UInt32 :=
      if symbol.isDefined then module.bases.addressOf symbol else symbol.value
    { module with
      object := { module.object with symbols := module.object.symbols.mapValues valueOf }
      rebased := true }

/-- Put the bytes of another object behind those of this one, and its bss behind this one's. -/
def appendSegments (module other : Relocated) (bssSize : UInt32) : Relocated :=
  let object := module.object
  { module with
    object := { object with
      bssSize := bssSize
      text := { object.text with bytes := object.text.bytes ++ other.object.text.bytes }
      data := { object.data with bytes := object.data.bytes ++ other.object.data.bytes } } }

/-- Take one definition of another object into the table. A new name is added, an awaited one
becomes defined, and a known definition stays; two visible definitions must agree. -/
def mergeEntry (other module : Relocated) (entry : SymbolEntry) : Progress Relocated :=
  let symbol := entry.symbol
  let address := other.addressOf symbol
  if !symbol.isDefined then .done module
  else
    match module.object.symbols.locate? entry.name with
    | none =>
      .done { module with object := (module.object.enter entry.name ⟨0, symbol.kind, address⟩).2 }
    | some (position, known) =>
      if !known.isDefined then
        .done { module with
          object := { module.object with
            symbols := module.object.symbols.redefine position symbol.kind address } }
      else if known.isVisible && symbol.isVisible
          && (known.kind != symbol.kind || known.value != address) then
        .stopped module (.multiplyDefined entry.name)
      else .done module

/-- Take all definitions of another object into the table. -/
def mergeSymbols (module other : Relocated) : Progress Relocated :=
  .each (mergeEntry other) module other.object.symbols.entries.toList

/-- What became of a record that refers to a symbol: the symbol is defined, and its address is to be
written. -/
structure Resolution where
  patch : Patch
  /-- The segment of the symbol. Without one the record goes on referring to the symbol. -/
  segment? : Option Segment

/-- A record whose placeholder holds the address of a symbol of the given segment. -/
def settle (record : Relocation) (segment? : Option Segment) : Relocation :=
  match segment? with
  | some segment => { record with external := false, index := segment.tag }
  | none => record

/-- What became of a record of this object: nothing while its symbol is awaited. -/
def resolveOwn (module : Relocated) (record : Relocation) : Except LinkFault (Option Resolution) :=
  match record.symbolIndex? with
  | none => .ok none
  | some index =>
    match module.object.symbols.entryAt? index with
    | none => .error (.unknownSymbolIndex record.address index module.object.symbols.size)
    | some entry =>
      if entry.symbol.isDefined then do
        let patch ← Patch.ofAddress record.address (module.addressOf entry.symbol)
        return some ⟨patch, entry.symbol.segment?⟩
      else .ok none

/-- Whether a record stays as it is, or its address can be written over its placeholder. -/
def isSettled (bytes : Array UInt8) (item : Relocation × Option Resolution) : Bool :=
  item.2.all fun resolution ↦ Placeholder.isInside bytes resolution.patch.address.toNat

/-- Write the resolutions of records, and settle the records, from the first to the last. A
placeholder outside the bytes stops this. -/
def settleAll (owner : StoredSegment) (bytes : Array UInt8)
    (items : List (Relocation × Option Resolution)) : Progress Section :=
  let settled := items.takeWhile (isSettled bytes)
  let left := items.drop settled.length
  let patches := settled.filterMap fun item ↦ item.2.map (·.patch)
  let contents : Section :=
    ⟨patches.foldl Patch.write bytes,
      (settled.map (fun item ↦ settle item.1 (item.2.bind (·.segment?))) ++ left.map (·.1)).toArray⟩
  match left with
  | [] => .done contents
  | (record, _) :: _ => .stopped contents (.placeholderOutside owner.segment record.address)

/-- Settle the records of one stored segment whose symbols are defined by now. All addresses are
found before one is written. -/
def settleRecords (module : Relocated) (owner : StoredSegment) : Progress Relocated :=
  let contents := module.object.contents owner
  let records := contents.relocations.toList
  match records.mapM module.resolveOwn with
  | .error fault => .stopped module fault
  | .ok resolutions =>
    (settleAll owner contents.bytes (records.zip resolutions)).map fun contents ↦
      { module with object := module.object.setContents owner contents }

/-- Whether nothing becomes of a record of this object. -/
def isUnmoved (module : Relocated) (record : Relocation) : Bool :=
  match module.resolveOwn record with
  | .ok none => true
  | _ => false

/-- Write the addresses of the symbols that are defined by now over the placeholders of one stored
segment (`fixUp_eq`). Where nothing becomes of any record, the segment is left alone. -/
def fixUp (module : Relocated) (owner : StoredSegment) : Progress Relocated :=
  if (module.object.contents owner).relocations.all module.isUnmoved then .done module
  else module.settleRecords owner

/-- The records of another object that have been taken in so far. The names they refer to have
joined the table of the object at hand; the records themselves, and the words to be written, come
last one first. -/
structure Adoption where
  module : Relocated
  records : List Relocation
  patches : List Patch

namespace Adoption

def start (module : Relocated) : Adoption := ⟨module, [], []⟩

def add (adoption : Adoption) (record : Relocation) : Adoption :=
  { adoption with records := record :: adoption.records }

def write (adoption : Adoption) (patch : Patch) : Adoption :=
  { adoption with patches := patch :: adoption.patches }

/-- The object with the records behind its own, and the words written. -/
def finish (owner : StoredSegment) (adoption : Adoption) : Relocated :=
  { adoption.module with
    object := adoption.module.object.modifyContents owner fun contents ↦
      ⟨adoption.patches.reverse.foldl Patch.write contents.bytes,
        contents.relocations ++ adoption.records.reverse⟩ }

end Adoption

/-- Take in one record of another object, whose bytes stand at offset `shift` here. A symbol to
which it refers is found by name, and awaited if it is new. -/
def adopt (other : Relocated) (owner : StoredSegment) (shift : UInt32) (adoption : Adoption)
    (record : Relocation) : Progress Adoption :=
  let moved := { record with address := record.address + shift }
  match record.symbolIndex? with
  | none => .done (adoption.add moved)
  | some index =>
    match other.object.symbols.entryAt? index with
    | none =>
      .stopped adoption (.unknownSymbolIndex record.address index other.object.symbols.size)
    | some entry =>
      let (position, object) := adoption.module.object.await entry.name
      let joined := { adoption with module := { adoption.module with object := object } }
      let pointed := { moved with index := UInt32.ofNat position }
      match (object.symbols.entryAt? position).filter (·.symbol.isDefined) with
      | none => .done (joined.add pointed)
      | some found =>
        match Patch.ofAddress moved.address (joined.module.addressOf found.symbol) with
        | .error fault => .stopped joined fault
        | .ok patch =>
          if Placeholder.isInside (object.contents owner).bytes patch.address.toNat then
            .done ((joined.add (settle pointed found.symbol.segment?)).write patch)
          else .stopped joined (.placeholderOutside owner.segment moved.address)

/-- Take in all records of one stored segment of another object. -/
def adoptAll (module other : Relocated) (owner : StoredSegment) (shift : UInt32) :
    Progress Relocated :=
  (Progress.each (adopt other owner shift) (.start module)
    (other.object.contents owner).relocations.toList).map (Adoption.finish owner)

/-- Take in another object. -/
def concat (module other : Relocated) : Progress Relocated :=
  let textShift := module.object.text.size
  let dataShift := module.object.data.size
  match Word.checkedAdd? module.object.bssSize other.object.bssSize with
  | none => .stopped module (.addressSpaceOverrun .bss)
  | some bssSize =>
    ((module.rebase.appendSegments other bssSize).mergeSymbols other)
      |>.andThen (·.fixUp .text)
      |>.andThen (·.fixUp .data)
      |>.andThen (·.adoptAll other .text textShift)
      |>.andThen (·.adoptAll other .data dataShift)

/-- The finished object, whose symbols are absolute addresses. -/
def toObject (module : Relocated) : Object :=
  module.rebase.object

def setEntryPoint (module : Relocated) (entry : UInt16) : Relocated :=
  { module with object := module.object.setEntryPoint entry }

theorem isUnmoved_iff {module : Relocated} {record : Relocation} :
    module.isUnmoved record ↔ module.resolveOwn record = .ok none := by
  unfold isUnmoved
  split
  · simp_all
  · rename_i hmoved
    simpa using hmoved

/-- Records of which nothing becomes resolve to nothing. -/
theorem mapM_resolveOwn_of_isUnmoved {module : Relocated} {records : List Relocation}
    (hunmoved : ∀ record ∈ records, module.isUnmoved record) :
    records.mapM module.resolveOwn = .ok (records.map fun _ ↦ none) := by
  induction records with
  | nil => rfl
  | cons record rest ih =>
    rw [List.forall_mem_cons] at hunmoved
    rw [List.mapM_cons, isUnmoved_iff.mp hunmoved.1, ih hunmoved.2]
    rfl

theorem settleAll_of_none (owner : StoredSegment) (bytes : Array UInt8)
    (records : List Relocation) :
    settleAll owner bytes (records.map fun record ↦ (record, none)) =
      .done ⟨bytes, records.toArray⟩ := by
  have hsettled : (records.map fun record ↦ (record, none)).takeWhile (isSettled bytes) =
      records.map fun record ↦ (record, none) := by
    induction records with
    | nil => rfl
    | cons record rest ih => simp [List.takeWhile_cons, isSettled, ih]
  have hpatches : records.filterMap (fun _ ↦ (none : Option Patch)) = [] := by simp
  simp [settleAll, hsettled, hpatches, settle, List.filterMap_map, Function.comp_def,
    List.drop_eq_nil_of_le]

/-- Leaving a segment alone is the same as settling records of which nothing becomes. -/
theorem fixUp_eq (module : Relocated) (owner : StoredSegment) :
    module.fixUp owner = module.settleRecords owner := by
  unfold fixUp
  split
  · rename_i hall
    rw [← Array.all_toList, List.all_eq_true] at hall
    simp only [settleRecords, mapM_resolveOwn_of_isUnmoved hall, ← List.map_prod_left_eq_zip,
      settleAll_of_none, Progress.map, Progress.done, Array.toArray_toList]
    rw [Object.setContents_contents]
  · rfl

end Aout.Relocated
