import Aout.Proofs.Linking.Records
/-!
What an object passes through while it takes in another one, whether or not a fault stops it.
Symbols only enter under names that the other object defines or refers to and that are new here,
awaited ones are defined in place, values move, and records are records of either object that have
been moved, re-pointed or settled (`Object.Inherits`).
`Relocated.concat_evolves` says this once for all steps of a concatenation, so an invariant of
objects has to be checked against these few changes only.
-/

set_option autoImplicit false
set_option relaxedAutoImplicit false

namespace Aout

namespace Object

/-- A record that one segment of an object may hold while the object takes in another one. -/
inductive Inherits (other : Object) (owner : StoredSegment) (object : Object) : Relocation → Prop
  | own {record : Relocation} (hrecord : record ∈ (object.contents owner).relocations) :
      Inherits other owner object record
  | internal {record : Relocation} (hrecord : record ∈ (other.contents owner).relocations)
      (hinternal : record.external = false) (address : UInt32) :
      Inherits other owner object { record with address }
  | pointed {record : Relocation} (hrecord : record ∈ (other.contents owner).relocations)
      (hexternal : record.external = true) {position : Nat}
      (hposition : position < object.symbols.size) (address : UInt32) :
      Inherits other owner object { record with address, index := UInt32.ofNat position }
  | settled {record : Relocation} (hrecord : Inherits other owner object record)
      (segment : Segment) : Inherits other owner object (Relocated.settle record (some segment))

/-- The objects that an object passes through while it takes in another one. -/
inductive Evolves (other : Object) : Object → Object → Prop
  | refl (object : Object) : Evolves other object object
  | enter {before object : Object} (hsteps : Evolves other before object) {entry : SymbolEntry}
      (hentry : entry ∈ other.symbols.entries)
      (hneeded : entry.symbol.isDefined ∨ other.RefersTo entry.name)
      (hfresh : object.symbols.locate? entry.name = none) (symbol : Symbol) :
      Evolves other before (object.enter entry.name symbol).2
  | redefine {before object : Object} (hsteps : Evolves other before object) {position : Nat}
      {known : SymbolEntry} (hknown : object.symbols.entryAt? position = some known)
      (hawaited : known.symbol.isDefined = false) (kind : SymbolKind) (value : UInt32) :
      Evolves other before { object with symbols := object.symbols.redefine position kind value }
  | mapValues {before object : Object} (hsteps : Evolves other before object)
      (valueOf : Symbol → UInt32) :
      Evolves other before { object with symbols := object.symbols.mapValues valueOf }
  | setBss {before object : Object} (hsteps : Evolves other before object) (bssSize : UInt32) :
      Evolves other before { object with bssSize }
  | setContents {before object : Object} (hsteps : Evolves other before object)
      (owner : StoredSegment) {contents : Section}
      (hrecords : ∀ record ∈ contents.relocations, Inherits other owner object record) :
      Evolves other before (object.setContents owner contents)

variable {other before object : Object} {owner : StoredSegment}

theorem Inherits.mono {after : Object} {record : Relocation}
    (hrecord : Inherits other owner before record)
    (hcontents : after.contents owner = before.contents owner)
    (hsize : before.symbols.size ≤ after.symbols.size) : Inherits other owner after record := by
  induction hrecord with
  | own hrecord => exact .own (hcontents ▸ hrecord)
  | internal hrecord hinternal address => exact .internal hrecord hinternal address
  | pointed hrecord hexternal hposition address =>
    exact .pointed hrecord hexternal (Nat.lt_of_lt_of_le hposition hsize) address
  | settled _ segment ih => exact .settled ih segment

theorem Inherits.settle {record : Relocation} (hrecord : Inherits other owner object record)
    (segment? : Option Segment) :
    Inherits other owner object (Relocated.settle record segment?) := by
  cases segment? with
  | none => exact hrecord
  | some segment => exact .settled hrecord segment

theorem Evolves.appendBytes (hsteps : Evolves other before object) (owner : StoredSegment)
    (bytes : Array UInt8) : Evolves other before
      (object.setContents owner ⟨bytes, (object.contents owner).relocations⟩) :=
  hsteps.setContents owner fun _ hrecord ↦ .own hrecord

theorem await_eq_enter_or (object : Object) (name : String) :
    (∃ position, object.await name = (position, object)) ∨
      object.symbols.locate? name = none ∧ object.await name = object.enter name .awaited := by
  unfold await
  split
  · exact .inl ⟨_, rfl⟩
  · rename_i hfresh
    exact .inr ⟨hfresh, rfl⟩

theorem Evolves.await (hsteps : Evolves other before object) {entry : SymbolEntry}
    (hentry : entry ∈ other.symbols.entries) (hrefers : other.RefersTo entry.name) :
    Evolves other before (object.await entry.name).2 := by
  rcases await_eq_enter_or object entry.name with ⟨position, hawait⟩ | ⟨hfresh, hawait⟩
  · rwa [hawait]
  · rw [hawait]
    exact hsteps.enter hentry (.inr hrefers) hfresh _

/-- No name comes from anywhere else. -/
theorem Evolves.names_subset {after : Object} (hsteps : Evolves other before after) :
    after.symbols.names ⊆ before.symbols.names ++ other.symbols.names := by
  induction hsteps with
  | refl => exact List.subset_append_left _ _
  | enter _ hentry _ _ symbol ih =>
    rw [Object.enter, SymbolTable.names_push]
    have hname := List.mem_append_right before.symbols.names (SymbolTable.mem_names_of_mem hentry)
    exact List.append_subset.mpr ⟨ih, List.cons_subset.mpr ⟨hname, List.nil_subset _⟩⟩
  | redefine _ _ _ kind value ih => rwa [SymbolTable.names_redefine]
  | mapValues _ valueOf ih => rwa [SymbolTable.names_mapValues]
  | setBss _ bssSize ih => exact ih
  | setContents _ owner hrecords ih => rwa [symbols_setContents]

/-- A name that was not there before has been needed: the other object defines it or refers to it.
-/
theorem Evolves.mem_names {after : Object} (hsteps : Evolves other before after) {name : String}
    (hname : name ∈ after.symbols.names) : name ∈ before.symbols.names ∨
      (∃ entry ∈ other.symbols.entries, entry.name = name ∧ entry.symbol.isDefined) ∨
        other.RefersTo name := by
  induction hsteps with
  | refl => exact .inl hname
  | @enter object _ entry hentry hneeded _ symbol ih =>
    rw [Object.enter, SymbolTable.names_push, List.mem_append, List.mem_singleton] at hname
    rcases hname with hformer | rfl
    · exact ih hformer
    · exact .inr (hneeded.imp (fun hdefined ↦ ⟨entry, hentry, rfl, hdefined⟩) id)
  | redefine _ _ _ kind value ih => exact ih (by rwa [SymbolTable.names_redefine] at hname)
  | mapValues _ valueOf ih => exact ih (by rwa [SymbolTable.names_mapValues] at hname)
  | setBss _ bssSize ih => exact ih hname
  | setContents _ owner hrecords ih => exact ih (by rwa [symbols_setContents] at hname)

/-- The names that were there before stay where they were, and so do their places in the name table.
-/
theorem Evolves.spellings_prefix {after : Object} (hsteps : Evolves other before after) :
    before.symbols.spellings <+: after.symbols.spellings := by
  induction hsteps with
  | refl => exact List.prefix_refl _
  | enter _ _ _ _ symbol ih =>
    rw [Object.enter, SymbolTable.spellings_push]
    exact ih.trans (List.prefix_append _ _)
  | redefine _ _ _ kind value ih => rwa [SymbolTable.spellings_redefine]
  | mapValues _ valueOf ih => rwa [SymbolTable.spellings_mapValues]
  | setBss _ bssSize ih => exact ih
  | setContents _ owner hrecords ih => rwa [symbols_setContents]

theorem Evolves.names_prefix {after : Object} (hsteps : Evolves other before after) :
    before.symbols.names <+: after.symbols.names := by
  rw [← SymbolTable.map_fst_spellings, ← SymbolTable.map_fst_spellings]
  exact hsteps.spellings_prefix.map _

theorem Evolves.size_le {after : Object} (hsteps : Evolves other before after) :
    before.symbols.size ≤ after.symbols.size := by
  rw [← SymbolTable.length_names, ← SymbolTable.length_names]
  exact hsteps.names_prefix.length_le

theorem Evolves.namesDistinct {after : Object} (hsteps : Evolves other before after)
    (hdistinct : before.symbols.NamesDistinct) : after.symbols.NamesDistinct := by
  induction hsteps with
  | refl => exact hdistinct
  | @enter object _ entry _ _ hfresh symbol ih =>
    have hgrows : object.symbols.Grows (object.enter entry.name symbol).2.symbols := .push hfresh
    exact hgrows.distinct ih
  | redefine _ hknown hawaited kind value ih =>
    exact (SymbolTable.Grows.redefine hknown hawaited kind value).distinct ih
  | mapValues _ valueOf ih =>
    rwa [SymbolTable.namesDistinct_iff_nodup, SymbolTable.names_mapValues,
      ← SymbolTable.namesDistinct_iff_nodup]
  | setBss _ bssSize ih => exact ih
  | setContents _ owner hrecords ih => rwa [symbols_setContents]

end Object

namespace Relocated

open Object

variable {module other : Relocated} {before : Object} {owner : StoredSegment}

theorem evolves_rebase {other : Object} (hsteps : Evolves other before module.object) :
    Evolves other before module.rebase.object := by
  unfold rebase
  split
  · exact hsteps
  · exact hsteps.mapValues _

theorem evolves_appendSegments (hsteps : Evolves other.object before module.object)
    (bssSize : UInt32) : Evolves other.object before (module.appendSegments other bssSize).object :=
  ((hsteps.setBss bssSize).appendBytes .text
    (module.object.text.bytes ++ other.object.text.bytes)).appendBytes .data
      (module.object.data.bytes ++ other.object.data.bytes)

theorem evolves_mergeEntry (hsteps : Evolves other.object before module.object)
    {entry : SymbolEntry} (hentry : entry ∈ other.object.symbols.entries) :
    Evolves other.object before (mergeEntry other module entry).state.object := by
  unfold mergeEntry
  dsimp only
  split
  · exact hsteps
  · rename_i hdefined
    split
    · rename_i hfresh
      exact hsteps.enter hentry (.inl (by simpa using hdefined)) hfresh _
    · rename_i position known hlocate
      split
      · rename_i hawaited
        exact hsteps.redefine (SymbolTable.entryAt?_of_locate? hlocate)
          (by simpa using hawaited) _ _
      · split
        · exact hsteps
        · exact hsteps

theorem evolves_mergeSymbols (hsteps : Evolves other.object before module.object) :
    Evolves other.object before (module.mergeSymbols other).state.object :=
  Progress.each_preserves_of_mem (fun state : Relocated ↦ Evolves other.object before state.object)
    (fun _ _ hentry hsteps ↦ evolves_mergeEntry hsteps (Array.mem_toList_iff.mp hentry)) hsteps

/-- Settling keeps the records, as they are or pointing into a segment. -/
theorem exists_settle_of_settleAll {bytes : Array UInt8}
    {items : List (Relocation × Option Resolution)} {record : Relocation}
    (hrecord : record ∈ (settleAll owner bytes items).state.relocations) :
    ∃ item ∈ items, ∃ segment?, record = settle item.1 segment? := by
  have hstate : (settleAll owner bytes items).state.relocations =
      ((items.takeWhile (isSettled bytes)).map
          (fun item ↦ settle item.1 (item.2.bind (·.segment?))) ++
        (items.drop (items.takeWhile (isSettled bytes)).length).map (·.1)).toArray := by
    unfold settleAll
    dsimp only
    split <;> rfl
  rw [hstate, List.mem_toArray, List.mem_append, List.mem_map, List.mem_map] at hrecord
  rcases hrecord with ⟨item, hitem, rfl⟩ | ⟨item, hitem, rfl⟩
  · exact ⟨item, (List.takeWhile_prefix _).mem hitem, _, rfl⟩
  · exact ⟨item, List.mem_of_mem_drop hitem, none, rfl⟩

theorem evolves_settleRecords {other : Object} (hsteps : Evolves other before module.object)
    (owner : StoredSegment) :
    Evolves other before (module.settleRecords owner).state.object := by
  unfold settleRecords
  dsimp only
  split
  · exact hsteps
  · rename_i resolutions hresolutions
    refine hsteps.setContents owner fun record hrecord ↦ ?_
    obtain ⟨item, hitem, segment?, rfl⟩ := exists_settle_of_settleAll hrecord
    have hown := (List.of_mem_zip hitem).1
    exact (Inherits.own (Array.mem_toList_iff.mp hown)).settle segment?

/-- What is taken in so far, while an object takes in the records of another one. -/
structure Takes (other before : Object) (owner : StoredSegment) (adoption : Adoption) : Prop where
  evolves : Evolves other before adoption.module.object
  inherits : ∀ record ∈ adoption.records, Inherits other owner adoption.module.object record

namespace Takes

variable {other before : Object} {adoption : Adoption}

theorem add (htakes : Takes other before owner adoption) {record : Relocation}
    (hrecord : Inherits other owner adoption.module.object record) :
    Takes other before owner (adoption.add record) :=
  ⟨htakes.evolves, List.forall_mem_cons.mpr ⟨hrecord, htakes.inherits⟩⟩

theorem write (htakes : Takes other before owner adoption) (patch : Patch) :
    Takes other before owner (adoption.write patch) :=
  ⟨htakes.evolves, htakes.inherits⟩

theorem await (htakes : Takes other before owner adoption) {entry : SymbolEntry}
    (hentry : entry ∈ other.symbols.entries) (hrefers : other.RefersTo entry.name) :
    Takes other before owner { adoption with
      module := { adoption.module with
        object := (adoption.module.object.await entry.name).2 } } where
  evolves := htakes.evolves.await hentry hrefers
  inherits := by
    obtain ⟨hawaits, -, hobject⟩ := await_spec adoption.module.object entry.name
    refine fun record hrecord ↦ (htakes.inherits record hrecord).mono ?_ hawaits.grows.size_le
    rw [hobject]
    cases owner <;> rfl

end Takes

theorem takes_adopt {shift : UInt32} {adoption : Adoption} {record : Relocation}
    (hrecord : record ∈ (other.object.contents owner).relocations)
    (htakes : Takes other.object before owner adoption) :
    Takes other.object before owner (adopt other owner shift adoption record).state := by
  unfold adopt
  dsimp only
  split
  · rename_i hindex
    have hinternal : record.external = false := by
      simpa [Relocation.symbolIndex?] using hindex
    exact htakes.add (.internal hrecord hinternal _)
  · rename_i index hindex
    have hexternal : record.external = true := by
      by_contra hinternal
      simp [Relocation.symbolIndex?, hinternal] at hindex
    split
    · exact htakes
    · rename_i entry hentry
      have hjoined := htakes.await (Array.mem_of_getElem? hentry)
        ⟨owner, record, hrecord, index, entry.symbol, hindex, hentry⟩
      obtain ⟨-, ⟨symbol, hlocated⟩, -⟩ := await_spec adoption.module.object entry.name
      have hpointed := Inherits.pointed hrecord hexternal
        (SymbolTable.lt_size_of_entryAt? hlocated) (record.address + shift)
      split
      · exact hjoined.add hpointed
      · split
        · exact hjoined
        · split
          · exact (hjoined.add (hpointed.settle _)).write _
          · exact hjoined

theorem evolves_adoptAll (hsteps : Evolves other.object before module.object)
    (owner : StoredSegment) (shift : UInt32) :
    Evolves other.object before (module.adoptAll other owner shift).state.object := by
  have hstart : Takes other.object before owner (.start module) :=
    ⟨hsteps, fun _ hrecord ↦ by cases hrecord⟩
  have htakes := Progress.each_preserves_of_mem (Takes other.object before owner)
    (fun adoption record hrecord htakes ↦ show Takes other.object before owner
      (adopt other owner shift adoption record).state from
        takes_adopt (Array.mem_toList_iff.mp hrecord) htakes) hstart
  unfold adoptAll
  rw [Progress.map, Adoption.finish, modifyContents_eq]
  refine htakes.evolves.setContents owner fun record hrecord ↦ ?_
  rw [← Array.mem_toList_iff, Array.toList_appendList, List.mem_append, Array.mem_toList_iff]
    at hrecord
  rcases hrecord with hown | htaken
  · exact .own hown
  · exact htakes.inherits record (by simpa using htaken)

theorem evolves_andThen {other : Object} {progress : Progress Relocated}
    {next : Relocated → Progress Relocated} (hprogress : Evolves other before progress.state.object)
    (hnext : ∀ state : Relocated, Evolves other before state.object →
      Evolves other before (next state).state.object) :
    Evolves other before (progress.andThen next).state.object :=
  Progress.state_andThen (fun state : Relocated ↦ Evolves other before state.object) hprogress hnext

/-- What a concatenation makes of an object, whether or not a fault stops it. -/
theorem concat_evolves (module other : Relocated) :
    Evolves other.object module.object (module.concat other).state.object := by
  unfold concat
  dsimp only
  split
  · exact .refl _
  · rename_i bssSize hbss
    refine evolves_andThen (evolves_andThen (evolves_andThen (evolves_andThen ?_ ?_) ?_) ?_) ?_
    · exact evolves_mergeSymbols (evolves_appendSegments (evolves_rebase (.refl _)) bssSize)
    · exact fun state hsteps ↦ by rw [fixUp_eq]; exact evolves_settleRecords hsteps .text
    · exact fun state hsteps ↦ by rw [fixUp_eq]; exact evolves_settleRecords hsteps .data
    · exact fun state hsteps ↦ evolves_adoptAll hsteps .text _
    · exact fun state hsteps ↦ evolves_adoptAll hsteps .data _

end Relocated

end Aout
