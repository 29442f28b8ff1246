import Aout.Proofs.Linking.Evolution
import Aout.Proofs.Linking.Lockstep
import Aout.Proofs.Symbol.Embedding
/-!
An object inside one that also awaits a name. The two have the same bytes and load addresses; the
symbols of the small one stand at other positions of the large one, and records that refer to them
give these positions (`Relocated.Embeds`). Whatever the small object does when it takes in another
object, the large one does as well, and what it has then embeds what the small one has then
(`Relocated.Embeds.concat`). So the awaited name reaches no byte and no definition. It only decides
where the symbol of this name stands, if one is taken in.

A record holds a position in 32 bits. The table of the small object has to stay below this bound, so
that there is a position left for the awaited name.
-/

set_option autoImplicit false
set_option relaxedAutoImplicit false

namespace Aout

/-! ### Records -/

/-- A record, and the one that stands for it where the symbols stand at the given places. -/
inductive Relocation.Repositioned (places : List Nat) (record : Relocation) : Relocation → Prop
  | internal (hinternal : record.external = false) : Repositioned places record record
  | external {position moved : Nat} (hexternal : record.external = true)
      (hindex : record.index = UInt32.ofNat position) (hplace : places[position]? = some moved) :
      Repositioned places record { record with index := UInt32.ofNat moved }

namespace Relocation.Repositioned

variable {places more : List Nat} {record other : Relocation}

/-- A record as it stands, while its symbol stays where it is. -/
theorem self {count : Nat} (hknown : record.external = true → record.index.toNat < count) :
    Repositioned (List.range count) record record := by
  cases hexternal : record.external with
  | false => exact .internal hexternal
  | true =>
    have hself : { record with index := UInt32.ofNat record.index.toNat } = record := by
      rw [UInt32.ofNat_toNat]
    have hmoved : Repositioned (List.range count) record
        { record with index := UInt32.ofNat record.index.toNat } :=
      .external hexternal (UInt32.ofNat_toNat).symm (List.getElem?_range (hknown hexternal))
    rwa [hself] at hmoved

theorem mono (hrepositioned : Repositioned places record other) (hmore : places <+: more) :
    Repositioned more record other := by
  cases hrepositioned with
  | internal hinternal => exact .internal hinternal
  | external hexternal hindex hplace =>
    exact .external hexternal hindex (getElem?_of_front hmore hplace)

theorem settle (hrepositioned : Repositioned places record other) (segment? : Option Segment) :
    Repositioned places (Relocated.settle record segment?) (Relocated.settle other segment?) := by
  cases segment? with
  | none => exact hrepositioned
  | some segment =>
    cases hrepositioned with
    | internal => exact .internal rfl
    | external => exact .internal rfl

end Relocation.Repositioned

namespace Relocated

open Relocation (Repositioned)

variable {name : String} {places more : List Nat} {small large second : Relocated}
  {owner : StoredSegment}

/-- A small object inside a large one, which may have one more symbol that awaits the name. -/
structure Embeds (name : String) (places : List Nat) (small large : Relocated) : Prop where
  rebased : large.rebased = small.rebased
  bases : large.bases = small.bases
  bssSize : large.object.bssSize = small.object.bssSize
  symbols : SymbolTable.Embeds name places small.object.symbols large.object.symbols
  bytes : ∀ owner, (large.object.contents owner).bytes = (small.object.contents owner).bytes
  relocations : ∀ owner, List.Forall₂ (Repositioned places)
    (small.object.contents owner).relocations.toList
    (large.object.contents owner).relocations.toList

/-- The large object embeds the small one, wherever the symbols stand. -/
def Hosts (name : String) (large small : Relocated) : Prop :=
  ∃ places, Embeds name places small large

namespace Embeds

theorem addressOf (hembeds : Embeds name places small large) {symbol other : Symbol}
    (halike : symbol.Alike other) : large.addressOf other = small.addressOf symbol := by
  unfold Relocated.addressOf Bases.addressOf
  rw [hembeds.rebased, hembeds.bases, halike.segment?, halike.value]

/-- Objects to which symbols come. The records go on referring to the symbols that were there. -/
theorem of_tables (hembeds : Embeds name places small large) (hmore : places <+: more)
    {symbols others : SymbolTable} (hsymbols : SymbolTable.Embeds name more symbols others)
    (names further : NameTable) :
    Embeds name more { small with object := { small.object with symbols, names } }
      { large with object := { large.object with symbols := others, names := further } } where
  rebased := hembeds.rebased
  bases := hembeds.bases
  bssSize := hembeds.bssSize
  symbols := hsymbols
  bytes := by
    rintro (_ | _)
    · exact hembeds.bytes .text
    · exact hembeds.bytes .data
  relocations := by
    rintro (_ | _)
    · exact (hembeds.relocations .text).imp fun _ _ hrecord ↦ hrecord.mono hmore
    · exact (hembeds.relocations .data).imp fun _ _ hrecord ↦ hrecord.mono hmore

theorem setContents (hembeds : Embeds name places small large) (owner : StoredSegment)
    {contents others : Section} (hbytes : others.bytes = contents.bytes)
    (hrelocations : List.Forall₂ (Repositioned places) contents.relocations.toList
      others.relocations.toList) :
    Embeds name places { small with object := small.object.setContents owner contents }
      { large with object := large.object.setContents owner others } where
  rebased := hembeds.rebased
  bases := hembeds.bases
  bssSize := by
    rw [Object.bssSize_setContents, Object.bssSize_setContents]
    exact hembeds.bssSize
  symbols := by
    rw [Object.symbols_setContents, Object.symbols_setContents]
    exact hembeds.symbols
  bytes := by
    intro other
    by_cases hother : other = owner
    · rw [hother, Object.contents_setContents, Object.contents_setContents, hbytes]
    · rw [Object.contents_setContents_of_ne _ hother, Object.contents_setContents_of_ne _ hother,
        hembeds.bytes]
  relocations := by
    intro other
    by_cases hother : other = owner
    · rw [hother, Object.contents_setContents, Object.contents_setContents]
      exact hrelocations
    · rw [Object.contents_setContents_of_ne _ hother, Object.contents_setContents_of_ne _ hother]
      exact hembeds.relocations other

/-! ### Segments and symbols of another object -/

/-- Alike symbols have the same address. -/
theorem symbols_rebase_alike (bases : Bases) (symbol other : Symbol) (halike : symbol.Alike other) :
    (if other.isDefined then bases.addressOf other else other.value) =
      if symbol.isDefined then bases.addressOf symbol else symbol.value := by
  unfold Bases.addressOf
  rw [halike.isDefined, halike.segment?, halike.value]

theorem rebase (hembeds : Embeds name places small large) :
    Embeds name places small.rebase large.rebase where
  rebased := (rebased_rebase large).trans (rebased_rebase small).symm
  bases := by
    rw [bases_rebase, bases_rebase, hembeds.bases]
  bssSize := by
    have hkept (module : Relocated) : module.rebase.object.bssSize = module.object.bssSize := by
      unfold Relocated.rebase
      split <;> rfl
    rw [hkept, hkept, hembeds.bssSize]
  symbols := by
    have hvalues := hembeds.symbols.mapValues (symbols_rebase_alike small.bases)
      (fun symbol hundefined ↦ if_neg (by simp [hundefined]))
    unfold Relocated.rebase
    rw [hembeds.rebased, hembeds.bases]
    split
    · exact hembeds.symbols
    · exact hvalues
  bytes := by
    intro owner
    rw [contents_rebase, contents_rebase, hembeds.bytes]
  relocations := by
    intro owner
    rw [contents_rebase, contents_rebase]
    exact hembeds.relocations owner

theorem appendSegments (hembeds : Embeds name places small large) (second : Relocated)
    (bssSize : UInt32) :
    Embeds name places (small.appendSegments second bssSize)
      (large.appendSegments second bssSize) where
  rebased := hembeds.rebased
  bases := hembeds.bases
  bssSize := rfl
  symbols := hembeds.symbols
  bytes := by
    rintro (_ | _)
    · exact congrArg (· ++ second.object.text.bytes) (hembeds.bytes .text)
    · exact congrArg (· ++ second.object.data.bytes) (hembeds.bytes .data)
  relocations := by
    rintro (_ | _)
    · exact hembeds.relocations .text
    · exact hembeds.relocations .data

theorem enter (hembeds : Embeds name places small large) (key : String) (symbol : Symbol) :
    Embeds name (places ++ [large.object.symbols.size])
      { small with object := (small.object.enter key symbol).2 }
      { large with object := (large.object.enter key symbol).2 } := by
  have hsymbols : SymbolTable.Embeds name (places ++ [large.object.symbols.size])
      (small.object.enter key symbol).2.symbols (large.object.enter key symbol).2.symbols :=
    hembeds.symbols.push ⟨rfl, rfl, rfl⟩
  exact hembeds.of_tables (List.prefix_append _ _) hsymbols _ _

/-- The name that the large object awaits comes to the small one, and is defined in both. -/
theorem claim (hembeds : Embeds name places small large) {key : String} {moved : Nat}
    {spare : Symbol} (hspare : large.object.symbols.locate? key = some (moved, spare))
    (hmem : moved ∉ places) (kind : SymbolKind) (value : UInt32) :
    Embeds name (places ++ [moved])
      { small with object := (small.object.enter key ⟨0, kind, value⟩).2 }
      { large with object := { large.object with
        symbols := large.object.symbols.redefine moved kind value } } := by
  have hreplaces :=
    SymbolTable.replaces_redefine (SymbolTable.entryAt?_of_locate? hspare) kind value
  have hsymbols : SymbolTable.Embeds name (places ++ [moved])
      (small.object.enter key ⟨0, kind, value⟩).2.symbols
      (large.object.symbols.redefine moved kind value) := by
    refine hembeds.symbols.claim ?_ (SymbolTable.position?_of_locate? hspare) hmem hreplaces
    exact ⟨rfl, rfl, rfl⟩
  exact hembeds.of_tables (List.prefix_append _ _) hsymbols _ _

/-- A name that both objects know is defined in both. -/
theorem redefine (hembeds : Embeds name places small large) {key : String} {position moved : Nat}
    {known latter : Symbol} (hplace : places[position]? = some moved)
    (hlocate : small.object.symbols.locate? key = some (position, known))
    (hlatter : large.object.symbols.locate? key = some (moved, latter)) (kind : SymbolKind)
    (value : UInt32) :
    Embeds name places
      { small with object := { small.object with
        symbols := small.object.symbols.redefine position kind value } }
      { large with object := { large.object with
        symbols := large.object.symbols.redefine moved kind value } } := by
  have hsmall :=
    SymbolTable.replaces_redefine (SymbolTable.entryAt?_of_locate? hlocate) kind value
  have hlarge :=
    SymbolTable.replaces_redefine (SymbolTable.entryAt?_of_locate? hlatter) kind value
  have hsymbols : SymbolTable.Embeds name places
      (small.object.symbols.redefine position kind value)
      (large.object.symbols.redefine moved kind value) := by
    refine hembeds.symbols.replace ?_ hplace hsmall hlarge
    exact ⟨rfl, rfl, rfl⟩
  exact hembeds.of_tables (List.prefix_refl _) hsymbols _ _

/-- One definition is taken in. If its name is new to the small object, the large one adds it as
well or defines the symbol that has awaited it. -/
theorem mergeEntry (hembeds : Embeds name places small large) (second : Relocated)
    (entry : SymbolEntry) :
    Progress.Lockstep (Hosts name) (mergeEntry second large entry)
      (mergeEntry second small entry) := by
  cases hdefined : entry.symbol.isDefined with
  | false =>
    rw [mergeEntry_of_undefined hdefined, mergeEntry_of_undefined hdefined]
    exact .of_done ⟨places, hembeds⟩
  | true =>
    cases hlocate : small.object.symbols.locate? entry.name with
    | none =>
      rw [mergeEntry_of_new hdefined hlocate]
      rcases hembeds.symbols.locate?_eq_none hlocate with
        hunknown | ⟨-, moved, spare, hmem, hspare, halike⟩
      · rw [mergeEntry_of_new hdefined hunknown]
        exact .of_done ⟨_, hembeds.enter _ _⟩
      · have hawaited := halike.isDefined.trans SymbolTable.isDefined_awaited
        rw [mergeEntry_of_awaited hdefined hspare hawaited]
        exact .of_done ⟨_, hembeds.claim hspare hmem _ _⟩
    | some found =>
      obtain ⟨position, known⟩ := found
      obtain ⟨moved, latter, hplace, hlatter, halike⟩ := hembeds.symbols.locate?_eq_some hlocate
      cases hknown : known.isDefined with
      | false =>
        rw [mergeEntry_of_awaited hdefined hlocate hknown,
          mergeEntry_of_awaited hdefined hlatter (halike.isDefined.trans hknown)]
        exact .of_done ⟨_, hembeds.redefine hplace hlocate hlatter _ _⟩
      | true =>
        rw [mergeEntry_of_known hdefined hlocate hknown,
          mergeEntry_of_known hdefined hlatter (halike.isDefined.trans hknown), halike.kind,
          halike.value]
        split
        · exact .of_stopped
        · exact .of_done ⟨places, hembeds⟩

theorem mergeSymbols (hembeds : Embeds name places small large) (second : Relocated) :
    Progress.Lockstep (Hosts name) (large.mergeSymbols second) (small.mergeSymbols second) := by
  refine .each (fun entry other state reached hsame ⟨_, hstates⟩ ↦ ?_)
    (List.forall₂_same.mpr fun _ _ ↦ rfl) ⟨places, hembeds⟩
  rw [hsame]
  exact hstates.mergeEntry second other

/-! ### The records of the object itself -/

/-- A record finds the same symbol where it is repositioned. -/
theorem resolveOwn_eq (hembeds : Embeds name places small large)
    (hsize : small.object.symbols.size < UInt32.size) {record other : Relocation}
    (hrecord : Repositioned places record other) :
    large.resolveOwn other = small.resolveOwn record := by
  cases hrecord with
  | internal hinternal =>
    have hknown : record.symbolIndex? = none := by
      rw [Relocation.symbolIndex?, if_neg (by simp [hinternal])]
    unfold Relocated.resolveOwn
    rw [hknown]
  | @external position moved hexternal hindex hplace =>
    obtain ⟨hposition, hmoved⟩ := hembeds.symbols.lt_size hplace
    have hlarge := hembeds.symbols.size
    have hknown : record.symbolIndex? = some position := by
      rw [Relocation.symbolIndex?, if_pos hexternal, hindex,
        UInt32.toNat_ofNat_of_lt' (Nat.lt_trans hposition hsize)]
    have hother : { record with index := UInt32.ofNat moved }.symbolIndex? = some moved := by
      rw [Relocation.symbolIndex?, if_pos hexternal, UInt32.toNat_ofNat_of_lt' (by omega)]
    obtain ⟨entry, latter, hentry, hlatter, halike⟩ := hembeds.symbols.entry position moved hplace
    unfold Relocated.resolveOwn
    rw [hknown, hother]
    dsimp only
    rw [hentry, hlatter]
    dsimp only
    rw [halike.symbol.isDefined, hembeds.addressOf halike.symbol, halike.symbol.segment?]

/-- Repositioned records with the same resolutions are settled alike. -/
theorem settled_repositioned {records others : List Relocation}
    (hrecords : List.Forall₂ (Repositioned places) records others)
    (resolutions : List (Option Resolution)) (bytes : Array UInt8) :
    ((∀ item ∈ records.zip resolutions, isSettled bytes item) →
      ∀ item ∈ others.zip resolutions, isSettled bytes item) ∧
    Outcome.patches (outcomesOf (others.zip resolutions)) =
      Outcome.patches (outcomesOf (records.zip resolutions)) ∧
    List.Forall₂ (Repositioned places)
      ((outcomesOf (records.zip resolutions)).map (·.record))
      ((outcomesOf (others.zip resolutions)).map (·.record)) := by
  induction hrecords generalizing resolutions with
  | nil => exact ⟨id, rfl, .nil⟩
  | cons hfirst _ ih =>
    cases resolutions with
    | nil => exact ⟨fun _ ↦ List.forall_mem_nil _, rfl, .nil⟩
    | cons resolution? rest =>
      obtain ⟨hsettled, hpatches, hrest⟩ := ih rest
      refine ⟨fun hall ↦ ?_, ?_, .cons (hfirst.settle _) hrest⟩
      · rw [List.zip_cons_cons, List.forall_mem_cons] at hall ⊢
        exact ⟨hall.1, hsettled hall.2⟩
      · simp only [outcomesOf, List.zip_cons_cons, List.map_cons, Outcome.patches_cons]
          at hpatches ⊢
        rw [hpatches]

/-- The records of the object meet the symbols that are defined by now. -/
theorem settleRecords (hembeds : Embeds name places small large)
    (hsize : small.object.symbols.size < UInt32.size) (owner : StoredSegment) :
    Progress.Lockstep (Hosts name) (large.settleRecords owner) (small.settleRecords owner) := by
  have hresolved := Fallible.mapM_eq_of_forall₂
    (fun record other hrecord ↦ hembeds.resolveOwn_eq hsize hrecord) (hembeds.relocations owner)
  intro reached hdone
  unfold Relocated.settleRecords at hdone ⊢
  dsimp only at hdone ⊢
  rw [hresolved, hembeds.bytes]
  split at hdone
  · cases hdone
  · rename_i resolutions hresolutions
    obtain ⟨contents, hcontents, rfl⟩ := Progress.map_eq_done_iff.mp hdone
    obtain ⟨hsettled, hpatches, hrecords⟩ := settled_repositioned (hembeds.relocations owner)
      resolutions (small.object.contents owner).bytes
    obtain rfl := settleAll_eq_done hcontents
    have hlarge := hsettled (isSettled_of_settleAll hcontents)
    rw [hresolutions]
    refine ⟨_, Progress.map_eq_done_iff.mpr ⟨_, settleAll_of_settled hlarge, rfl⟩, places,
      hembeds.setContents owner ?_ hrecords⟩
    rw [Outcome.contents, Outcome.contents, hpatches]

/-! ### The records of another object -/

/-- A name is awaited at the same place. If the large object awaited it already, it takes no
further place. -/
theorem awaiting (hembeds : Embeds name places small large) (key : String) :
    ∃ more, places <+: more ∧ Embeds name more (small.awaiting key) (large.awaiting key) ∧
      more[(small.object.await key).1]? = some (large.object.await key).1 := by
  unfold Relocated.awaiting Object.await
  cases hlocate : small.object.symbols.locate? key with
  | some found =>
    obtain ⟨moved, latter, hplace, hlatter, -⟩ := hembeds.symbols.locate?_eq_some hlocate
    rw [hlatter]
    exact ⟨places, List.prefix_refl _, hembeds, hplace⟩
  | none =>
    have hlast (moved : Nat) : (places ++ [moved])[small.object.symbols.size]? = some moved :=
      getElem?_concat_eq_some_iff.mpr (.inr ⟨hembeds.symbols.length.symm, rfl⟩)
    rcases hembeds.symbols.locate?_eq_none hlocate with
      hunknown | ⟨-, moved, spare, hmem, hspare, halike⟩
    · rw [hunknown]
      exact ⟨_, List.prefix_append _ _, hembeds.enter key .awaited, hlast _⟩
    · rw [hspare]
      have hsymbols : SymbolTable.Embeds name (places ++ [moved])
          (small.object.enter key .awaited).2.symbols large.object.symbols := by
        refine hembeds.symbols.claim ?_ (SymbolTable.position?_of_locate? hspare) hmem
          (.refl (SymbolTable.entryAt?_of_locate? hspare))
        exact ⟨rfl, halike.kind, halike.value⟩
      exact ⟨_, List.prefix_append _ _,
        hembeds.of_tables (List.prefix_append _ _) hsymbols _ _, hlast moved⟩

end Embeds

/-- Adoptions of the same records into an object and into one that embeds it. -/
structure Adoption.Embeds (name : String) (places : List Nat) (small large : Adoption) : Prop where
  module : small.module.Embeds name places large.module
  records : List.Forall₂ (Repositioned places) small.records large.records
  patches : large.patches = small.patches

/-- The second adoption embeds the first one, wherever the symbols stand. -/
def Adoption.Hosts (name : String) (large small : Adoption) : Prop :=
  ∃ places, Adoption.Embeds name places small large

namespace Adoption.Embeds

variable {small large : Adoption}

theorem add (hembeds : Embeds name places small large) {record other : Relocation}
    (hrecord : Repositioned places record other) :
    Embeds name places (small.add record) (large.add other) :=
  ⟨hembeds.module, .cons hrecord hembeds.records, hembeds.patches⟩

theorem write (hembeds : Embeds name places small large) (patch : Patch) :
    Embeds name places (small.write patch) (large.write patch) :=
  ⟨hembeds.module, hembeds.records, congrArg (List.cons patch) hembeds.patches⟩

theorem finish (hembeds : Embeds name places small large) (owner : StoredSegment) :
    (small.finish owner).Embeds name places (large.finish owner) := by
  unfold Adoption.finish
  rw [Object.modifyContents_eq, Object.modifyContents_eq]
  refine hembeds.module.setContents owner ?_ ?_
  · rw [hembeds.patches, hembeds.module.bytes]
  · rw [Array.toList_appendList, Array.toList_appendList]
    exact List.rel_append (hembeds.module.relocations owner)
      (List.forall₂_reverse_iff.mpr hembeds.records)

/-- The address of a definition is written, and the record points to where the symbol stands. -/
theorem writeAddress (hembeds : Embeds name places small large) {symbol other : Symbol}
    (halike : symbol.Alike other) (owner : StoredSegment) (address : UInt32)
    {pointed further : Relocation} (hpointed : Repositioned places pointed further) :
    Progress.Lockstep (Hosts name)
      (match Patch.ofAddress address (large.module.addressOf other) with
      | .error fault => .stopped large fault
      | .ok patch =>
        if Placeholder.isInside (large.module.object.contents owner).bytes patch.address.toNat then
          .done ((large.add (settle further other.segment?)).write patch)
        else .stopped large (.placeholderOutside owner.segment address))
      (match Patch.ofAddress address (small.module.addressOf symbol) with
      | .error fault => .stopped small fault
      | .ok patch =>
        if Placeholder.isInside (small.module.object.contents owner).bytes patch.address.toNat then
          .done ((small.add (settle pointed symbol.segment?)).write patch)
        else .stopped small (.placeholderOutside owner.segment address)) := by
  rw [hembeds.module.addressOf halike, halike.segment?, hembeds.module.bytes]
  cases Patch.ofAddress address (small.module.addressOf symbol) with
  | error fault => exact .of_stopped
  | ok patch =>
    dsimp only
    split
    · exact .of_done ⟨places, (hembeds.add (hpointed.settle _)).write patch⟩
    · exact .of_stopped

/-- One record is taken in. -/
theorem adopt (hembeds : Embeds name places small large) (second : Relocated)
    (owner : StoredSegment) (shift : UInt32) (record : Relocation) :
    Progress.Lockstep (Hosts name) (adopt second owner shift large record)
      (adopt second owner shift small record) := by
  unfold Relocated.adopt
  dsimp only
  cases hindex : record.symbolIndex? with
  | none =>
    have hinternal : record.external = false := by simpa [Relocation.symbolIndex?] using hindex
    exact .of_done ⟨places, hembeds.add (.internal hinternal)⟩
  | some index =>
    have hexternal : record.external = true := by
      by_contra hinternal
      simp [Relocation.symbolIndex?, hinternal] at hindex
    dsimp only
    cases second.object.symbols.entryAt? index with
    | none => exact .of_stopped
    | some entry =>
      obtain ⟨more, hmore, hawaiting, hplace⟩ := hembeds.module.awaiting entry.name
      have hjoined : Embeds name more { small with module := small.module.awaiting entry.name }
          { large with module := large.module.awaiting entry.name } :=
        ⟨hawaiting, hembeds.records.imp fun _ _ hrecord ↦ hrecord.mono hmore, hembeds.patches⟩
      have hpointed : Repositioned more
          { record with
            address := record.address + shift
            index := UInt32.ofNat (small.module.object.await entry.name).1 }
          { record with
            address := record.address + shift
            index := UInt32.ofNat (large.module.object.await entry.name).1 } :=
        .external hexternal rfl hplace
      obtain ⟨known, latter, hknown, hlatter, halike⟩ := hawaiting.symbols.entry _ _ hplace
      unfold Relocated.awaiting at hknown hlatter
      dsimp only at hknown hlatter ⊢
      rw [hknown, hlatter, Option.filter_some, Option.filter_some, halike.symbol.isDefined]
      cases hdefined : known.symbol.isDefined with
      | false => exact .of_done ⟨more, hjoined.add hpointed⟩
      | true => exact hjoined.writeAddress halike.symbol owner _ hpointed

end Adoption.Embeds

namespace Embeds

theorem adoptAll (hembeds : Embeds name places small large) (second : Relocated)
    (owner : StoredSegment) (shift : UInt32) :
    Progress.Lockstep (Hosts name) (large.adoptAll second owner shift)
      (small.adoptAll second owner shift) := by
  have heach : Progress.Lockstep (Adoption.Hosts name)
      (.each (Relocated.adopt second owner shift) (.start large)
        (second.object.contents owner).relocations.toList)
      (.each (Relocated.adopt second owner shift) (.start small)
        (second.object.contents owner).relocations.toList) := by
    refine .each (fun record other state reached hsame ⟨_, hstates⟩ ↦ ?_)
      (List.forall₂_same.mpr fun _ _ ↦ rfl) ⟨places, hembeds, .nil, rfl⟩
    rw [hsame]
    exact hstates.adopt second owner shift other
  exact heach.map fun _ _ ⟨places, hfinal⟩ ↦ ⟨places, hfinal.finish owner⟩

/-! ### Concatenation -/

theorem size_le_of_settleRecords {module after : Relocated}
    (hdone : module.settleRecords owner = .done after) :
    module.object.symbols.size ≤ after.object.symbols.size := by
  have hsteps : Object.Evolves module.object module.object
      (module.settleRecords owner).state.object := evolves_settleRecords (.refl _) owner
  rw [hdone] at hsteps
  exact hsteps.size_le

theorem size_le_of_adoptAll {module after : Relocated} {shift : UInt32}
    (hdone : module.adoptAll second owner shift = .done after) :
    module.object.symbols.size ≤ after.object.symbols.size := by
  have hsteps : Object.Evolves second.object module.object
      (module.adoptAll second owner shift).state.object := evolves_adoptAll (.refl _) owner shift
  rw [hdone] at hsteps
  exact hsteps.size_le

/-- What the small object takes in, the large one takes in as well. -/
theorem concat (hembeds : Embeds name places small large) {joined : Relocated}
    (hdone : small.concat second = .done joined)
    (hsize : joined.object.symbols.size < UInt32.size) :
    ∃ wide, large.concat second = .done wide ∧ Hosts name wide joined := by
  have hoffset (owner : StoredSegment) :
      (large.object.contents owner).size = (small.object.contents owner).size :=
    congrArg (fun bytes : Array UInt8 ↦ UInt32.ofNat bytes.size) (hembeds.bytes owner)
  have htextShift : large.object.text.size = small.object.text.size := hoffset .text
  have hdataShift : large.object.data.size = small.object.data.size := hoffset .data
  unfold Relocated.concat at hdone ⊢
  dsimp only at hdone ⊢
  rw [hembeds.bssSize, htextShift, hdataShift]
  cases hbss : Word.checkedAdd? small.object.bssSize second.object.bssSize with
  | none =>
    rw [hbss] at hdone
    cases hdone
  | some bssSize =>
    rw [hbss] at hdone
    dsimp only at hdone ⊢
    simp only [Progress.andThen_eq_done_iff, fixUp_eq] at hdone ⊢
    obtain ⟨adopted, ⟨settled, ⟨fixed, ⟨gathered, hmerge, hfixText⟩, hfixData⟩, hadoptText⟩,
      hadoptData⟩ := hdone
    -- The table only grows, so it is small enough when the records meet their symbols.
    have hgathered := size_le_of_settleRecords hfixText
    have hfixed := size_le_of_settleRecords hfixData
    have hsettled := size_le_of_adoptAll hadoptText
    have hadopted := size_le_of_adoptAll hadoptData
    obtain ⟨_, hmerged, _, hfirst⟩ :=
      (hembeds.rebase.appendSegments second bssSize).mergeSymbols second gathered hmerge
    obtain ⟨_, htext, _, hmet⟩ := hfirst.settleRecords (by omega) .text fixed hfixText
    obtain ⟨_, hdata, _, hall⟩ := hmet.settleRecords (by omega) .data settled hfixData
    obtain ⟨_, htaken, _, hmore⟩ := hall.adoptAll second .text _ adopted hadoptText
    obtain ⟨wide, hlast, hwide⟩ := hmore.adoptAll second .data _ joined hadoptData
    exact ⟨wide, ⟨_, ⟨_, ⟨_, ⟨_, hmerged, htext⟩, hdata⟩, htaken⟩, hlast⟩, hwide⟩

end Embeds

end Relocated

end Aout
