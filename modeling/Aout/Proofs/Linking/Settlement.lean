import Aout.Proofs.Linking.Evolution
import Aout.Proofs.Linking.Joining
import Aout.Proofs.Linking.Placeholders
import Aout.Proofs.Relocation
/-!
What the records of an image refer to. While objects are joined, every record ends up with a target
(`Relocation.Targets`): a segment, or a symbol of the joint table. A record that refers to a symbol
with a segment is made to point into the segment, but only when an object takes in another one. So
an image of several objects has no such record left (`link_targets`), and the image of a single
object has the records of that object.

Only the first object needs to have distinct names. Of another object each definition is taken in by
itself, so it does not matter here which of several symbols its names find.
-/

set_option autoImplicit false
set_option relaxedAutoImplicit false

namespace Aout

/-- The record points into a segment, or it refers to an entry of the table that is allowed. -/
inductive Relocation.Targets (table : SymbolTable) (Allowed : SymbolEntry → Prop)
    (record : Relocation) : Prop
  | internal (hinternal : record.external = false) (segment : Segment)
      (htag : record.index = segment.tag) : Targets table Allowed record
  | external (hexternal : record.external = true) {entry : SymbolEntry}
      (hentry : table.entryAt? record.index.toNat = some entry) (hallowed : Allowed entry) :
      Targets table Allowed record

namespace Relocation

variable {record : Relocation} {table after : SymbolTable} {Allowed Other : SymbolEntry → Prop}

theorem targets_iff_of_internal (hinternal : record.external = false) :
    record.Targets table Allowed ↔ ∃ segment : Segment, record.index = segment.tag := by
  refine ⟨fun htargets ↦ ?_, fun ⟨segment, htag⟩ ↦ .internal hinternal segment htag⟩
  cases htargets with
  | internal _ segment htag => exact ⟨segment, htag⟩
  | external hexternal => exact absurd hexternal (by simp [hinternal])

theorem targets_iff_of_external (hexternal : record.external = true) :
    record.Targets table Allowed ↔
      ∃ entry, table.entryAt? record.index.toNat = some entry ∧ Allowed entry := by
  refine ⟨fun htargets ↦ ?_, fun ⟨_, hentry, hallowed⟩ ↦ .external hexternal hentry hallowed⟩
  cases htargets with
  | internal hinternal => exact absurd hexternal (by simp [hinternal])
  | external _ hentry hallowed => exact ⟨_, hentry, hallowed⟩

/-- A target in one table is one in another table, entry by entry. -/
theorem Targets.map (htargets : record.Targets table Allowed)
    (hentries : ∀ position entry, table.entryAt? position = some entry → Allowed entry →
      ∃ later, after.entryAt? position = some later ∧ Other later) :
    record.Targets after Other := by
  cases htargets with
  | internal hinternal segment htag => exact .internal hinternal segment htag
  | external hexternal hentry hallowed =>
    obtain ⟨later, hlater, hother⟩ := hentries _ _ hentry hallowed
    exact .external hexternal hlater hother

theorem Targets.imp (htargets : record.Targets table Allowed)
    (hallowed : ∀ position entry, table.entryAt? position = some entry → Allowed entry →
      Other entry) : record.Targets table Other :=
  htargets.map fun position entry hentry hentryAllowed ↦
    ⟨entry, hentry, hallowed position entry hentry hentryAllowed⟩

theorem Targets.and (htargets : record.Targets table Allowed)
    (hothers : record.Targets table Other) :
    record.Targets table fun entry ↦ Allowed entry ∧ Other entry := by
  cases htargets with
  | internal hinternal segment htag => exact .internal hinternal segment htag
  | external hexternal hentry hallowed =>
    obtain ⟨_, hsame, hother⟩ := (targets_iff_of_external hexternal).mp hothers
    obtain rfl := Option.some.inj (hsame.symm.trans hentry)
    exact .external hexternal hentry ⟨hallowed, hother⟩

end Relocation

/-- The symbol has no segment once it is defined. -/
def SymbolEntry.Free (entry : SymbolEntry) : Prop :=
  entry.symbol.isDefined → entry.symbol.segment? = none

namespace SymbolTable

variable {before after table : SymbolTable} {name : String}

/-- Some entry of the table defines the name. -/
def Defines (table : SymbolTable) (name : String) : Prop :=
  ∃ position symbol, table.entryAt? position = some ⟨name, symbol⟩ ∧ symbol.isDefined

theorem Grows.defines (hgrows : Grows before after) (hdefines : before.Defines name) :
    after.Defines name := by
  obtain ⟨position, symbol, hentry, hdefined⟩ := hdefines
  obtain ⟨later, hlater, -, -, hkept⟩ := hgrows.kept position _ hentry
  exact ⟨position, symbol, by rw [hlater, hkept hdefined], hdefined⟩

/-- Of distinct names, one that is defined somewhere is defined at its only entry. -/
theorem Defines.isDefined {position : Nat} {entry : SymbolEntry}
    (hdefines : table.Defines entry.name) (hdistinct : table.NamesDistinct)
    (hentry : table.entryAt? position = some entry) : entry.symbol.isDefined := by
  obtain ⟨place, symbol, hplace, hdefined⟩ := hdefines
  obtain rfl := hdistinct place position _ _ hplace hentry rfl
  have hsame : symbol = entry.symbol :=
    congrArg SymbolEntry.symbol (Option.some.inj (hplace.symm.trans hentry))
  exact hsame ▸ hdefined

theorem defines_of_definition? {symbol : Symbol} (hfound : table.definition? name = some symbol) :
    table.Defines name := by
  rw [definition?, Option.filter_eq_some_iff, find?, Option.map_eq_some_iff] at hfound
  obtain ⟨⟨⟨position, _⟩, hlocate, rfl⟩, hdefined⟩ := hfound
  exact ⟨position, _, entryAt?_of_locate? hlocate, hdefined⟩

end SymbolTable

namespace Relocated

variable {module other first second after : Relocated} {name : String}

theorem defines_of_meaning? {meaning : Meaning} (hmeaning : module.meaning? name = some meaning) :
    module.object.symbols.Defines name := by
  obtain ⟨symbol, hsymbol, -⟩ := Option.map_eq_some_iff.mp hmeaning
  exact SymbolTable.defines_of_definition? hsymbol

theorem defines_rebase (hdefines : module.object.symbols.Defines name) :
    module.rebase.object.symbols.Defines name := by
  obtain ⟨position, symbol, hentry, hdefined⟩ := hdefines
  refine ⟨position, module.absolute symbol, ?_, by rwa [isDefined_absolute]⟩
  rw [entryAt?_rebase, hentry, Option.map_some]

theorem targets_rebase {record : Relocation} {Allowed Other : SymbolEntry → Prop}
    (htargets : record.Targets module.object.symbols Allowed)
    (hallowed : ∀ entry : SymbolEntry, Allowed entry →
      Other ⟨entry.name, module.absolute entry.symbol⟩) :
    record.Targets module.rebase.object.symbols Other :=
  htargets.map fun position entry hentry hentryAllowed ↦
    ⟨_, by rw [entryAt?_rebase, hentry, Option.map_some], hallowed entry hentryAllowed⟩

/-! ### Definitions -/

/-- A module that has taken in definitions under the names of some entries. -/
structure Defined (entries : List SymbolEntry) (before after : Relocated) : Prop where
  same : SameContents before after
  grows : before.object.symbols.Grows after.object.symbols
  defines : ∀ entry ∈ entries, entry.symbol.isDefined → after.object.symbols.Defines entry.name

theorem defined_of_mergeEntry (hrebased : module.rebased = true) (hdistinct : module.NamesDistinct)
    {entry : SymbolEntry} (hdone : mergeEntry other module entry = .done after) :
    Defined [entry] module after := by
  rcases mergeEntry_cases hrebased hdistinct other entry with
    ⟨reached, hreached, hlearns, -⟩ | ⟨hstopped, -⟩
  · obtain rfl : reached = after := congrArg Progress.state (hreached.symm.trans hdone)
    refine ⟨hlearns.same, hlearns.grows, List.forall_mem_singleton.mpr fun hdefined ↦ ?_⟩
    have hmeaning := hlearns.meaning entry.name
    rw [if_pos rfl, meaningOf?, if_pos hdefined] at hmeaning
    cases hknown : module.meaning? entry.name with
    | none =>
      rw [hknown] at hmeaning
      exact defines_of_meaning? hmeaning
    | some known => exact hlearns.grows.defines (defines_of_meaning? hknown)
  · rw [hstopped] at hdone
    cases hdone

theorem defined_of_each {entries : List SymbolEntry} (hrebased : module.rebased = true)
    (hdistinct : module.NamesDistinct)
    (hdone : Progress.each (mergeEntry other) module entries = .done after) :
    Defined entries module after := by
  induction entries generalizing module with
  | nil =>
    obtain rfl : module = after := congrArg Progress.state hdone
    exact ⟨.refl _, .refl _, List.forall_mem_nil _⟩
  | cons entry rest ih =>
    obtain ⟨reached, hstep, hrest⟩ := Progress.each_cons_eq_done_iff.mp hdone
    have hentry := defined_of_mergeEntry hrebased hdistinct hstep
    have hothers := ih (hentry.same.rebased.trans hrebased) (hentry.grows.distinct hdistinct) hrest
    refine ⟨hentry.same.trans hothers.same, hentry.grows.trans hothers.grows,
      List.forall_mem_cons.mpr ⟨fun hdefined ↦ ?_, hothers.defines⟩⟩
    exact hothers.grows.defines (hentry.defines entry List.mem_cons_self hdefined)

/-! ### Records -/

variable {table given : SymbolTable} {record : Relocation} {outcome : Outcome}
  {Known : String → Prop}

/-- A record that has met its symbol points into the symbol's segment, if there is one. -/
theorem Settles.targets {symbol : Symbol} (hsettles : Settles symbol record outcome)
    (hexternal : record.external = true)
    (hentry : table.entryAt? record.index.toNat = some ⟨name, symbol⟩) (hname : Known name) :
    outcome.record.Targets table fun entry ↦ Known entry.name ∧ entry.Free := by
  cases hsettles with
  | awaited hawaited =>
    refine .external hexternal hentry ⟨hname, fun hdefined ↦ ?_⟩
    rw [hawaited] at hdefined
    cases hdefined
  | defined hdefined hword =>
    cases hsegment : symbol.segment? with
    | none => exact .external hexternal hentry ⟨hname, fun _ ↦ hsegment⟩
    | some segment => exact .internal rfl segment rfl

theorem OwnOutcome.targets
    (htargets : record.Targets table fun entry ↦ Known entry.name)
    (hown : OwnOutcome table record outcome) :
    outcome.record.Targets table fun entry ↦ Known entry.name ∧ entry.Free := by
  cases hown with
  | internal hindex =>
    have hinternal := Relocation.symbolIndex?_eq_none_iff.mp hindex
    obtain ⟨segment, htag⟩ := (Relocation.targets_iff_of_internal hinternal).mp htargets
    exact .internal hinternal segment htag
  | external hindex hentry hsettles =>
    obtain ⟨hexternal, rfl⟩ := Relocation.symbolIndex?_eq_some_iff.mp hindex
    obtain ⟨_, hknown, hname⟩ := (Relocation.targets_iff_of_external hexternal).mp htargets
    obtain rfl := Option.some.inj (hknown.symm.trans hentry)
    exact hsettles.targets hexternal hentry hname

theorem AdoptedOutcome.targets {shift : UInt32} (hsize : table.size ≤ UInt32.size)
    (htargets : record.Targets given fun entry ↦ Known entry.name)
    (hadopted : AdoptedOutcome table given shift record outcome) :
    outcome.record.Targets table fun entry ↦ Known entry.name ∧ entry.Free := by
  cases hadopted with
  | internal hindex =>
    have hinternal := Relocation.symbolIndex?_eq_none_iff.mp hindex
    obtain ⟨segment, htag⟩ := (Relocation.targets_iff_of_internal hinternal).mp htargets
    exact .internal hinternal segment htag
  | @external index position entry symbol _ hindex hentry hlocated hsettles =>
    obtain ⟨hexternal, rfl⟩ := Relocation.symbolIndex?_eq_some_iff.mp hindex
    -- The position fits its field, so the record refers to the entry that was found by name.
    have hposition : (UInt32.ofNat position).toNat = position :=
      UInt32.toNat_ofNat_of_lt'
        (Nat.lt_of_lt_of_le (SymbolTable.lt_size_of_entryAt? hlocated) hsize)
    obtain ⟨_, hknown, hname⟩ := (Relocation.targets_iff_of_external hexternal).mp htargets
    obtain rfl := Option.some.inj (hknown.symm.trans hentry)
    exact hsettles.targets hexternal (hposition.symm ▸ hlocated) hname

/-! ### One object that takes in another one -/

/-- One object that has taken in another one, as far as the targets of its records go. -/
structure Combined (first second joined : Relocated) : Prop where
  grows : first.rebase.object.symbols.Grows joined.object.symbols
  defines : ∀ entry ∈ second.object.symbols.entries, entry.symbol.isDefined →
    joined.object.symbols.Defines entry.name
  records : ∀ owner, ∀ record ∈ (joined.object.contents owner).relocations,
    ∃ patch?,
      (∃ own ∈ (first.object.contents owner).relocations,
        OwnOutcome joined.object.symbols own ⟨record, patch?⟩) ∨
      ∃ taken ∈ (second.object.contents owner).relocations,
        AdoptedOutcome joined.object.symbols second.object.symbols (first.shift owner) taken
          ⟨record, patch?⟩

theorem combined_of_concat (hdistinct : first.NamesDistinct) {joined : Relocated}
    (hdone : first.concat second = .done joined) : Combined first second joined := by
  obtain ⟨joint, gathered, habutted, hmerge, hawaits, hstacked⟩ := stacked_of_concat hdone
  have hdefined := defined_of_each habutted.rebased (habutted.distinct hdistinct) hmerge
  refine ⟨?_, fun entry hentry hdefines ↦ ?_, fun owner record hrecord ↦ ?_⟩
  · rw [← habutted.symbols]
    exact hdefined.grows.trans hawaits.grows
  · exact hawaits.grows.defines
      (hdefined.defines entry (Array.mem_toList_iff.mpr hentry) hdefines)
  · obtain ⟨own, adopted, hown, hadopted, -, hcontents⟩ := hstacked.contents owner
    rw [hcontents, Outcome.contents, List.mem_toArray, List.map_append, List.mem_append,
      List.mem_map, List.mem_map] at hrecord
    rcases hrecord with ⟨outcome, houtcome, rfl⟩ | ⟨outcome, houtcome, rfl⟩
    · obtain ⟨record, hrecord, hfollows⟩ := Fallible.exists_mem_of_forall₂ hown houtcome
      exact ⟨outcome.patch?, .inl ⟨record, Array.mem_toList_iff.mp hrecord, hfollows⟩⟩
    · obtain ⟨record, hrecord, hfollows⟩ := Fallible.exists_mem_of_forall₂ hadopted houtcome
      exact ⟨outcome.patch?, .inr ⟨record, Array.mem_toList_iff.mp hrecord, hfollows⟩⟩

end Relocated

namespace Image

open Placed

variable {modules front : List Placed} {image joined final second : Relocated} {next : Placed}

/-- The name has a definition among the modules. -/
def Known (modules : List Placed) (name : String) : Prop :=
  ∃ address, findDefinition modules name = .ok address

/-- The records of an image of the first modules: all of them refer to names that some module
defines, and the names that the first modules define are defined in the image. -/
structure Refers (modules front : List Placed) (image : Relocated) : Prop where
  distinct : image.NamesDistinct
  names : image.object.symbols.names ⊆ front.flatMap (·.object.symbols.names)
  defines : ∀ module ∈ front, ∀ name, (module.definition? name).isSome →
    image.object.symbols.Defines name
  targets : ∀ owner, ∀ record ∈ (image.object.contents owner).relocations,
    record.Targets image.object.symbols fun entry ↦ Known modules entry.name

/-- No record refers to a symbol with a segment. -/
def Settled (image : Relocated) : Prop :=
  ∀ owner, ∀ record ∈ (image.object.contents owner).relocations,
    record.Targets image.object.symbols SymbolEntry.Free

theorem targets_of_relocates {module : Placed} {relocated : Relocated} {owner : StoredSegment}
    (hrelocates : Relocates modules module relocated) {record : Relocation}
    (hrecord : record ∈ (relocated.object.contents owner).relocations) :
    record.Targets relocated.object.symbols fun entry ↦ Known modules entry.name := by
  rw [hrelocates.relocations] at hrecord
  obtain ⟨patch, hpatch⟩ := hrelocates.resolves owner record hrecord
  obtain ⟨held, address, -, htarget, -⟩ := resolveRecord_eq_ok_iff.mp hpatch
  cases hindex : record.symbolIndex? with
  | none =>
    obtain ⟨segment, hsegment, -⟩ := target_eq_ok_of_internal hindex htarget
    exact .internal (Relocation.symbolIndex?_eq_none_iff.mp hindex) segment
      (Segment.ofTag?_eq_some_iff.mp hsegment).symm
  | some index =>
    obtain ⟨entry, hentry, hfound⟩ := target_eq_ok_of_external hindex htarget
    obtain ⟨hexternal, rfl⟩ := Relocation.symbolIndex?_eq_some_iff.mp hindex
    exact .external hexternal (hrelocates.symbols ▸ hentry) ⟨address, hfound⟩

theorem refers_singleton {module : Placed} {relocated : Relocated}
    (hrelocates : Relocates modules module relocated)
    (hdistinct : module.object.symbols.NamesDistinct) : Refers modules [module] relocated where
  distinct := by rwa [Relocated.NamesDistinct, hrelocates.symbols]
  names := by
    rw [List.flatMap_singleton, hrelocates.symbols]
    exact List.Subset.refl _
  defines := List.forall_mem_singleton.mpr fun name hname ↦ by
    obtain ⟨symbol, hsymbol⟩ := Option.isSome_iff_exists.mp hname
    rw [hrelocates.symbols]
    exact SymbolTable.defines_of_definition? hsymbol
  targets := fun _ _ hrecord ↦ targets_of_relocates hrelocates hrecord

/-- One more module: its definitions join those of the image, and all records of both objects have
met the symbols that are defined by now. -/
theorem refers_append (hrefers : Refers modules front image)
    (hrelocates : Relocates modules next second)
    (hsymbols : ((front ++ [next]).map (·.object.symbols.size)).sum ≤ UInt32.size)
    (hconcat : image.concat second = .done joined) :
    Refers modules (front ++ [next]) joined ∧ Settled joined := by
  have hcombined := Relocated.combined_of_concat hrefers.distinct hconcat
  have hdistinct : joined.NamesDistinct :=
    hcombined.grows.distinct (Relocated.namesDistinct_rebase hrefers.distinct)
  have hnames := names_append hrefers.names hrelocates hconcat
  have hsize : joined.object.symbols.size ≤ UInt32.size :=
    Nat.le_trans (size_symbols_le hdistinct hnames) hsymbols
  have htargets : ∀ owner, ∀ record ∈ (joined.object.contents owner).relocations,
      record.Targets joined.object.symbols fun entry ↦ Known modules entry.name ∧ entry.Free := by
    intro owner record hrecord
    obtain ⟨patch?, ⟨own, hown, hfollows⟩ | ⟨taken, htaken, hfollows⟩⟩ :=
      hcombined.records owner record hrecord
    · refine Relocated.OwnOutcome.targets ?_ hfollows
      have hrebased : own.Targets image.rebase.object.symbols fun entry ↦
          Known modules entry.name :=
        Relocated.targets_rebase (hrefers.targets owner own hown) fun _ hknown ↦ hknown
      refine hrebased.map fun position entry hentry hknown ↦ ?_
      obtain ⟨later, hlater, hname, -⟩ := hcombined.grows.kept position entry hentry
      exact ⟨later, hlater, hname ▸ hknown⟩
    · exact Relocated.AdoptedOutcome.targets hsize (targets_of_relocates hrelocates htaken) hfollows
  refine ⟨⟨hdistinct, hnames, ?_, fun owner record hrecord ↦
    (htargets owner record hrecord).imp fun _ _ _ hallowed ↦ hallowed.1⟩,
    fun owner record hrecord ↦ (htargets owner record hrecord).imp fun _ _ _ hallowed ↦ hallowed.2⟩
  intro module hmodule name hname
  rcases List.mem_append.mp hmodule with hformer | hlast
  · have hdefines := hrefers.defines module hformer name hname
    exact hcombined.grows.defines (Relocated.defines_rebase hdefines)
  · obtain rfl := List.mem_singleton.mp hlast
    obtain ⟨symbol, hsymbol⟩ := Option.isSome_iff_exists.mp hname
    obtain ⟨position, found, hentry, hdefined⟩ := SymbolTable.defines_of_definition? hsymbol
    rw [← hrelocates.symbols] at hentry
    exact hcombined.defines _ (Array.mem_of_getElem? hentry) hdefined

/-- An image of all modules: whatever its records refer to is defined in it. Every concatenation
settles all records, those that were settled before included. -/
theorem refers_of_fold {relocated : List Relocated}
    (hrelocates : List.Forall₂ (Relocates modules) modules relocated)
    (hdistinct : ∀ module ∈ modules.head?, module.object.symbols.NamesDistinct)
    (hsymbols : (modules.map (·.object.symbols.size)).sum ≤ UInt32.size)
    (hfold : fold relocated = .ok final) :
    Refers modules modules final ∧ (2 ≤ modules.length → Settled final) := by
  refine fold_induction (motive := fun front image ↦
      Refers modules front image ∧ (2 ≤ front.length → Settled image))
    (fun first image hbegins hnext ↦ ?_)
    (fun front next image second joined hbegins hnext hconcat hrefers ↦ ?_) hrelocates hfold
  · obtain ⟨rest, rfl⟩ := hbegins
    exact ⟨refers_singleton hnext (hdistinct first rfl), fun hlength ↦ absurd hlength (by simp)⟩
  · have hsum : ((front ++ [next]).map (·.object.symbols.size)).sum ≤ UInt32.size := by
      obtain ⟨rest, rfl⟩ := hbegins
      rw [List.map_append, List.sum_append] at hsymbols
      omega
    obtain ⟨hreached, hsettled⟩ := refers_append hrefers.1 hnext hsum hconcat
    exact ⟨hreached, fun _ ↦ hsettled⟩

/-- The names that records refer to have definitions among the modules, all of which the image has
taken in. -/
theorem Refers.isDefined (hrefers : Refers modules modules image) {position : Nat}
    {entry : SymbolEntry} (hentry : image.object.symbols.entryAt? position = some entry)
    (hknown : Known modules entry.name) : entry.symbol.isDefined := by
  obtain ⟨address, hfound⟩ := hknown
  obtain ⟨place, definer, symbol, hplace, hsymbol, -⟩ := exists_definer hfound
  have hdefines := hrefers.defines definer (List.mem_of_getElem? hplace) entry.name
    (Option.isSome_iff_exists.mpr ⟨symbol, hsymbol⟩)
  exact hdefines.isDefined hrefers.distinct hentry

end Image

variable {objects : List Object} {textBase : UInt16} {entrySymbol : String}

section Linked

variable {image : Relocated} {entry : UInt16} {bases : List Bases} {relocated : List Relocated}

theorem entryAt?_toObject (image : Relocated) (entry : UInt16) (position : Nat) :
    (image.setEntryPoint entry).toObject.symbols.entryAt? position =
      (image.object.symbols.entryAt? position).map fun found ↦
        ⟨found.name, (image.setEntryPoint entry).absolute found.symbol⟩ :=
  Relocated.entryAt?_rebase (image.setEntryPoint entry) position

theorem segment?_absolute (module : Relocated) (symbol : Symbol) :
    (module.absolute symbol).segment? = symbol.segment? := by
  rw [Symbol.segment?, Relocated.kind_absolute, Symbol.segment?]

/-- The finished object differs from the image in the values of its symbols only. -/
theorem targets_toObject {record : Relocation} {Allowed Other : SymbolEntry → Prop}
    (htargets : record.Targets image.object.symbols Allowed)
    (hallowed : ∀ module : Relocated, ∀ found : SymbolEntry, Allowed found →
      Other ⟨found.name, module.absolute found.symbol⟩) :
    record.Targets (image.setEntryPoint entry).toObject.symbols Other :=
  htargets.map fun position found hfound hfoundAllowed ↦
    ⟨_, by rw [entryAt?_toObject, hfound, Option.map_some], hallowed _ found hfoundAllowed⟩

theorem refers_of_link (hlayout : layout objects textBase = .ok bases)
    (hrelocate : Placed.relocateAll (Placed.all objects bases) = .ok relocated)
    (hfold : Image.fold relocated = .ok image)
    (hdistinct : ∀ object ∈ objects.head?, object.symbols.NamesDistinct)
    (hsymbols : (objects.map (·.symbols.size)).sum ≤ UInt32.size) :
    Image.Refers (Placed.all objects bases) (Placed.all objects bases) image ∧
      (2 ≤ objects.length → Image.Settled image) := by
  have hobjects := Placed.map_object_all (layout_eq_ok hlayout).1
  have hhead : ∀ module ∈ (Placed.all objects bases).head?,
      module.object.symbols.NamesDistinct := by
    intro module hmodule
    refine hdistinct module.object ?_
    rw [← hobjects, List.head?_map, hmodule]
    rfl
  have hsum : ((Placed.all objects bases).map (·.object.symbols.size)).sum ≤ UInt32.size := by
    rwa [← hobjects, List.map_map] at hsymbols
  have hlength : (Placed.all objects bases).length = objects.length := by
    simpa only [List.length_map] using congrArg List.length hobjects
  rw [← hlength]
  exact Image.refers_of_fold (Placed.relocateAll_eq_ok hrelocate) hhead hsum hfold

/-- The image of a single object is that object, patched and moved. -/
theorem relocates_single {object : Object} (hlayout : layout [object] textBase = .ok bases)
    (hrelocate : Placed.relocateAll (Placed.all [object] bases) = .ok relocated)
    (hfold : Image.fold relocated = .ok image) :
    ∃ modules base, Placed.Relocates modules ⟨object, base⟩ image := by
  obtain ⟨base, rfl⟩ := List.length_eq_one_iff.mp (layout_eq_ok hlayout).1
  have hrelocates : List.Forall₂ _ [(⟨object, base⟩ : Placed)] relocated :=
    Placed.relocateAll_eq_ok hrelocate
  obtain ⟨first, rest, hfirst, hrest, rfl⟩ := List.forall₂_cons_left_iff.mp hrelocates
  obtain rfl := List.forall₂_nil_left_iff.mp hrest
  obtain rfl : first = image := Except.ok.inj hfold
  exact ⟨_, base, hfirst⟩

/-- A record with a target refers to a symbol without a segment, unless it is external and the
symbol that it refers to has one. -/
theorem targets_free_iff {record : Relocation} {table : SymbolTable} {Allowed : SymbolEntry → Prop}
    (htargets : record.Targets table Allowed) :
    (record.Targets table fun found ↦ Allowed found ∧ found.symbol.segment? = none) ↔
      (record.external = true → ∀ found, table.entryAt? record.index.toNat = some found →
        found.symbol.segment? = none) := by
  constructor
  · intro hfree hexternal found hfound
    obtain ⟨_, hentry, hallowed⟩ := (Relocation.targets_iff_of_external hexternal).mp hfree
    obtain rfl := Option.some.inj (hentry.symm.trans hfound)
    exact hallowed.2
  · intro hfree
    cases htargets with
    | internal hinternal segment htag => exact .internal hinternal segment htag
    | external hexternal hentry hallowed =>
      exact .external hexternal hentry ⟨hallowed, hfree hexternal _ hentry⟩

end Linked

/-- Every record points into a segment, or it refers to a symbol that is defined and has none. -/
def Object.Resolved (object : Object) : Prop :=
  ∀ owner, ∀ record ∈ (object.contents owner).relocations,
    record.Targets object.symbols fun entry ↦
      entry.symbol.isDefined ∧ entry.symbol.segment? = none

/-- What the records of an image refer to: segments, and symbols that the image defines. If it was
linked from several objects, these symbols have no segment. If it was linked from a single object,
the object's records were left as they are, so this depends on them. -/
theorem link_targets (hdistinct : ∀ object ∈ objects.head?, object.symbols.NamesDistinct)
    (hsymbols : (objects.map (·.symbols.size)).sum ≤ UInt32.size)
    {linked : Object} {notices : List Notice}
    (hlink : link objects textBase entrySymbol = .ok (linked, notices)) :
    (∀ owner, ∀ record ∈ (linked.contents owner).relocations,
      record.Targets linked.symbols fun entry ↦ entry.symbol.isDefined) ∧
    (2 ≤ objects.length → linked.Resolved) ∧
    ∀ object, objects = [object] →
      (linked.Resolved ↔
        ∀ owner, ∀ record ∈ (object.contents owner).relocations, record.external = true →
          ∀ entry, object.symbols.entryAt? record.index.toNat = some entry →
            entry.symbol.segment? = none) := by
  obtain ⟨bases, relocated, image, entry, hlayout, hrelocate, hfold, rfl⟩ := link_eq_ok hlink
  obtain ⟨hrefers, hsettled⟩ := refers_of_link hlayout hrelocate hfold hdistinct hsymbols
  have hdefined : ∀ owner, ∀ record ∈ (image.object.contents owner).relocations,
      record.Targets image.object.symbols fun found ↦ found.symbol.isDefined :=
    fun owner record hrecord ↦
      (hrefers.targets owner record hrecord).imp fun _ _ ↦ hrefers.isDefined
  have hlinked : ∀ owner, ∀ record ∈ (image.object.contents owner).relocations,
      record.Targets (image.setEntryPoint entry).toObject.symbols fun found ↦
        found.symbol.isDefined := by
    intro owner record hrecord
    refine targets_toObject (hdefined owner record hrecord) fun module found hfound ↦ ?_
    rwa [Relocated.isDefined_absolute]
  simp only [Object.Resolved, contents_toObject]
  refine ⟨hlinked, fun hlength owner record hrecord ↦ ?_, ?_⟩
  · refine targets_toObject ((hdefined owner record hrecord).and
      (hsettled hlength owner record hrecord)) fun module found hfound ↦ ?_
    rw [Relocated.isDefined_absolute, segment?_absolute]
    exact ⟨hfound.1, hfound.2 hfound.1⟩
  · rintro object rfl
    obtain ⟨modules, base, hrelocates⟩ := relocates_single hlayout hrelocate hfold
    have htable : object.symbols = image.object.symbols := hrelocates.symbols.symm
    have hrecords (owner : StoredSegment) : (object.contents owner).relocations =
        (image.object.contents owner).relocations := (hrelocates.relocations owner).symm
    simp only [hrecords, htable]
    refine forall_congr' fun owner ↦ forall₂_congr fun record hrecord ↦ ?_
    rw [targets_free_iff (hlinked owner record hrecord)]
    refine imp_congr_right fun _ ↦ ?_
    simp only [entryAt?_toObject, Option.map_eq_some_iff, forall_exists_index, and_imp,
      forall_apply_eq_imp_iff₂, segment?_absolute]

/-- The one record of an image of two objects. -/
theorem link_targets_call :
    ∃ linked notices, link [.calling "f", .labelled "f" true] 0x100 "main" = .ok (linked, notices) ∧
      (linked.contents .text).relocations.size = 1 ∧ linked.Resolved := by
  have hdistinct : ∀ object ∈ [Object.calling "f", .labelled "f" true].head?,
      object.symbols.NamesDistinct := by
    intro object hobject
    obtain rfl : Object.calling "f" = object := Option.some.inj hobject
    rw [SymbolTable.namesDistinct_iff_nodup]
    decide +kernel
  have hsome : (link [.calling "f", .labelled "f" true] 0x100 "main").toOption.any fun linked ↦
      (linked.1.contents .text).relocations.size == 1 := by
    decide +kernel
  obtain ⟨⟨linked, notices⟩, hlink, hsize⟩ := (Option.any_eq_true _ _).mp hsome
  have hlinked := Fallible.eq_ok_of_toOption hlink
  have hresolved := (link_targets hdistinct (by decide +kernel) hlinked).2.1 (Nat.le_refl 2)
  exact ⟨linked, notices, hlinked, beq_iff_eq.mp hsize, hresolved⟩

/-- Text that holds the address of a symbol, which is defined in this text later on. -/
def Object.callingItself (name : String) : Object :=
  (Object.calling name).edited [.addSymbol name (.label .text 0 false)]

/-- An image whose record refers to a symbol in its own text. -/
theorem not_link_resolved : (Object.callingItself "f").symbols.NamesDistinct ∧
    ∃ linked notices, link [.callingItself "f"] 0 "main" = .ok (linked, notices) ∧
      (linked.contents .text).relocations = #[.ofSymbol 0 0] ∧
      linked.symbols.entryAt? 0 = some ⟨"f", .label .text 0 false⟩ ∧ ¬ linked.Resolved := by
  have hsome : (link [.callingItself "f"] 0 "main").toOption.any fun linked ↦
      ((linked.1.contents .text).relocations == #[.ofSymbol 0 0]) &&
        (linked.1.symbols.entryAt? 0 == some ⟨"f", .label .text 0 false⟩) := by
    decide +kernel
  simp only [Bool.and_eq_true, beq_iff_eq, Option.any_eq_true] at hsome
  obtain ⟨⟨linked, notices⟩, hlink, hrecords, hentry⟩ := hsome
  refine ⟨SymbolTable.namesDistinct_iff_nodup.mpr (by decide +kernel), linked, notices,
    Fallible.eq_ok_of_toOption hlink, hrecords, hentry, fun hresolved ↦ ?_⟩
  have hrecord : .ofSymbol 0 0 ∈ (linked.contents .text).relocations := by
    rw [hrecords]
    exact Array.mem_singleton_self _
  obtain ⟨_, hfound, hfree⟩ :=
    (Relocation.targets_iff_of_external rfl).mp (hresolved .text _ hrecord)
  obtain rfl := Option.some.inj (hfound.symm.trans hentry)
  exact absurd hfree.2 (by decide)

end Aout
