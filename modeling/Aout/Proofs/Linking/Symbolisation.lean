import Aout.Proofs.Linking.Evolution
import Aout.Proofs.Linking.Placeholders
import Aout.Proofs.Linking.Provenance
import Aout.Proofs.Object.Catalogue
import Aout.Proofs.Object.Reloading
import Aout.Proofs.Object.Saving
/-!
Looking addresses up in an object that was saved and read again. While an object is built, a label
is given to an address when the first symbol is defined there. Reading labels the addresses in table
order, where a symbol that was awaited for some time keeps its early place. So the same addresses
have labels before and after, and the answers are the same exactly if every label is that of the
first symbol in table order at its address (`Object.Reached.lookups_of_decode`).
-/

set_option autoImplicit false
set_option relaxedAutoImplicit false

namespace Aout

namespace Object

/-- The objects that building, stripping and linking lead to, whatever names and records they are
given and whatever they take in, starting from the empty object and from files with distinct
names. -/
def Reached : Object → Prop :=
  Arises {
    Starts := fun object ↦
      object = .empty ∨ (∃ bytes, decode bytes = .ok object) ∧ object.symbols.NamesDistinct
    Permits := fun _ ↦ True
    confined := False }

variable {before after object other reloaded : Object}

theorem reached_edited (edits : List Edit) : (Object.empty.edited edits).Reached := by
  have hempty : Reached .empty := .start (.inl rfl)
  exact hempty.edited fun _ _ ↦ trivial

theorem Catalogued.relocates {modules : List Placed} {placed : Placed} {module : Relocated}
    (hcatalogued : placed.object.Catalogued) (hrelocates : Placed.Relocates modules placed module) :
    module.object.Catalogued :=
  hcatalogued.congr hrelocates.symbols hrelocates.names

theorem Catalogued.evolves (hcatalogued : before.Catalogued) (hsteps : Evolves other before after) :
    after.Catalogued := by
  induction hsteps with
  | refl => exact hcatalogued
  | enter _ _ _ hfresh symbol ih => exact ih.enter hfresh symbol
  | redefine _ hknown hawaited kind value ih => exact ih.redefine hknown hawaited kind value
  | mapValues _ valueOf ih => exact ih.mapValues valueOf
  | setBss _ bssSize ih => exact ih.congr rfl rfl
  | setContents _ owner _ ih => exact ih.setContents owner _

/-- Every operation keeps the names and the labels in order. -/
theorem Reached.catalogued (hreached : object.Reached) : object.Catalogued := by
  induction hreached with
  | start hstart =>
    rcases hstart with rfl | ⟨⟨bytes, hread⟩, hdistinct⟩
    · exact catalogued_empty
    · exact catalogued_of_decode hread hdistinct
  | edit _ _ ih => exact ih.edit _
  | relocate _ hyields ih =>
    obtain ⟨modules, hrelocates⟩ := hyields.relocates
    exact ih.relocates hrelocates
  | concat _ _ ih _ => exact ih.evolves (Relocated.concat_evolves ..)
  | @toObject module _ ih =>
    have hrebased : Evolves .empty module.object module.toObject :=
      Relocated.evolves_rebase (.refl module.object)
    exact ih.evolves hrebased

/-! ### Saving and reading -/

/-- Every lookup of an address has the same answer in both objects. -/
structure SameLookups (first second : Object) : Prop where
  nameAt? : ∀ segment address, first.symbols.index.nameAt? segment address =
    second.symbols.index.nameAt? segment address
  nearest? : ∀ segment address, first.symbols.index.nearest? segment address =
    second.symbols.index.nearest? segment address
  nearestAny? : ∀ address, first.symbols.index.nearestAny? address =
    second.symbols.index.nearestAny? address
  symbolize : ∀ segment address, first.symbolize segment address = second.symbolize segment address

/-- The names at exact addresses decide all lookups. -/
theorem sameLookups_iff : SameLookups object other ↔ ∀ segment address,
    object.symbols.index.nameAt? segment address = other.symbols.index.nameAt? segment address := by
  refine ⟨fun hsame ↦ hsame.nameAt?, fun hnames ↦ ?_⟩
  have hrelated (segment : Segment) (address : UInt32) : Option.Rel Eq
      (object.symbols.index.nameAt? segment address)
      (other.symbols.index.nameAt? segment address) := by
    rw [hnames]
    cases other.symbols.index.nameAt? segment address with
    | none => exact .none
    | some name => exact .some rfl
  have hnearest (segment : Segment) (address : UInt32) :
      object.symbols.index.nearest? segment address =
        other.symbols.index.nearest? segment address := by
    have hlabel := AddressIndex.rel_nearestLabel? (hrelated segment) address
    rw [AddressIndex.nearest?, AddressIndex.nearest?, Label.eq_of_rel_alike hlabel]
  exact {
    nameAt? := hnames
    nearest? := hnearest
    nearestAny? := fun address ↦ by
      simp only [AddressIndex.nearestAny?, hnearest]
    symbolize := fun segment address ↦ by rw [symbolize, symbolize, hnearest] }

/-- Among symbols that were written and read, the first one at an address is the same. -/
theorem rel_find?_isAt {written read : List SymbolEntry}
    (hread : List.Forall₂ (fun before after ↦ after.symbol = before.symbol ∧
      NameTable.ReadsAs before.name after.name) written read)
    (segment : Segment) (address : UInt32) :
    Option.Rel (fun entry name ↦ NameTable.ReadsAs entry.name name)
      (written.find? (·.isAt segment address))
      ((read.find? (·.isAt segment address)).map (·.name)) := by
  induction hread with
  | nil => exact .none
  | @cons before after _ _ hentry _ ih =>
    have hat : after.isAt segment address = before.isAt segment address := by
      rw [Bool.eq_iff_iff, SymbolEntry.isAt_iff, SymbolEntry.isAt_iff, hentry.1]
    rw [List.find?_cons, List.find?_cons, hat]
    cases before.isAt segment address with
    | true => exact .some hentry.2
    | false => exact ih

/-- What is read at an address is the name of the first symbol there. -/
theorem Catalogued.rel_firstAt? (hcatalogued : object.Catalogued) (hcountable : object.Countable)
    (hread : decode object.encode = .ok reloaded) (segment : Segment) (address : UInt32) :
    Option.Rel (fun entry name ↦ NameTable.ReadsAs entry.name name)
      (object.symbols.firstAt? segment address)
      (reloaded.symbols.index.nameAt? segment address) := by
  obtain ⟨hindex, hsymbols⟩ := hcountable.symbols_of_decode hread
  obtain ⟨hlength, hpairs⟩ := List.forall₂_iff_zip.mp hsymbols
  rw [hindex, SymbolTable.index_ofEntries, SymbolTable.nameAt?_foldl_label,
    AddressIndex.nameAt?_empty, Option.none_or]
  refine rel_find?_isAt (List.forall₂_iff_zip.mpr ⟨hlength, fun {before after} hpair ↦ ?_⟩) _ _
  obtain ⟨hsymbol, hspelled⟩ := hpairs hpair
  have hheld := hcatalogued.held hcountable.names _ (List.mem_map_of_mem (List.of_mem_zip hpair).1)
  exact ⟨hsymbol, hheld.readsAs hspelled⟩

/-- At each address there is a symbol, a name before and a name afterwards, or nothing of these. -/
theorem Catalogued.names_at (hcatalogued : object.Catalogued) (hcountable : object.Countable)
    (hread : decode object.encode = .ok reloaded) (segment : Segment) (address : UInt32) :
    object.symbols.firstAt? segment address = none ∧
        object.symbols.index.nameAt? segment address = none ∧
        reloaded.symbols.index.nameAt? segment address = none ∨
      ∃ entry name read, object.symbols.firstAt? segment address = some entry ∧
        object.symbols.index.nameAt? segment address = some name ∧
        reloaded.symbols.index.nameAt? segment address = some read ∧
        NameTable.ReadsAs entry.name read := by
  have hsome := hcatalogued.indexed.isSome_firstAt? segment address
  have hrelated := hcatalogued.rel_firstAt? hcountable hread segment address
  cases hfirst : object.symbols.firstAt? segment address with
  | none =>
    rw [hfirst] at hsome hrelated
    cases hreloaded : reloaded.symbols.index.nameAt? segment address with
    | none => exact .inl ⟨rfl, Option.not_isSome_iff_eq_none.mp (by simp [← hsome]), rfl⟩
    | some read =>
      rw [hreloaded] at hrelated
      cases hrelated
  | some entry =>
    rw [hfirst] at hsome hrelated
    obtain ⟨name, hname⟩ := Option.isSome_iff_exists.mp hsome.symm
    cases hreloaded : reloaded.symbols.index.nameAt? segment address with
    | none =>
      rw [hreloaded] at hrelated
      cases hrelated
    | some read =>
      rw [hreloaded] at hrelated
      cases hrelated with
      | some hreads => exact .inr ⟨entry, name, read, rfl, hname, rfl, hreads⟩

/-- Saving and reading changes no answer exactly if every label was that of the first symbol at its
address. -/
theorem Catalogued.sameLookups_iff_of_decode (hcatalogued : object.Catalogued)
    (hcountable : object.Countable) (hread : decode object.encode = .ok reloaded) :
    SameLookups object reloaded ↔ ∀ segment address entry,
      object.symbols.firstAt? segment address = some entry →
        ∃ name, object.symbols.index.nameAt? segment address = some name ∧
          NameTable.ReadsAs entry.name name := by
  have hnames := hcatalogued.names_at hcountable hread
  refine sameLookups_iff.trans ⟨?_, ?_⟩
  · intro hsame segment address entry hfirst
    rcases hnames segment address with ⟨hnone, -⟩ | ⟨first, _, read, hsome, -, hafter, hreads⟩
    · rw [hnone] at hfirst
      cases hfirst
    · obtain rfl := Option.some.inj (hsome.symm.trans hfirst)
      exact ⟨read, (hsame segment address).trans hafter, hreads⟩
  · intro hlabels segment address
    rcases hnames segment address with
      ⟨-, hbefore, hafter⟩ | ⟨entry, _, read, hfirst, -, hafter, hreads⟩
    · rw [hbefore, hafter]
    · obtain ⟨name, hname, hsame⟩ := hlabels segment address entry hfirst
      rw [hname, hafter, hsame.unique hreads]

/-- It is enough that no two symbols label the same address and that names have no zero byte. -/
theorem Reached.sameLookups_of_apart (hreached : object.Reached) (hcountable : object.Countable)
    (hread : Object.decode object.encode = .ok reloaded)
    (hfree : ∀ entry ∈ object.symbols.entries, 0 ∉ Utf8.encode entry.name)
    (hapart : ∀ first ∈ object.symbols.entries, ∀ second ∈ object.symbols.entries,
      ∀ segment address, first.isAt segment address → second.isAt segment address →
        first = second) : SameLookups object reloaded := by
  have hcatalogued := hreached.catalogued
  refine (hcatalogued.sameLookups_iff_of_decode hcountable hread).mpr ?_
  intro segment address entry hfirst
  have hentry := Array.mem_toList_iff.mp (List.mem_of_find?_eq_some hfirst)
  have hat : entry.isAt segment address := by simpa using List.find?_some hfirst
  have hsome := hcatalogued.indexed.isSome_firstAt? segment address
  rw [hfirst] at hsome
  obtain ⟨name, hname⟩ := Option.isSome_iff_exists.mp hsome.symm
  obtain ⟨position, known, hknown, rfl, hlabel⟩ := hcatalogued.indexed.sound _ _ _ hname
  obtain rfl := hapart known (Array.mem_of_getElem? hknown) entry hentry _ _ hlabel hat
  exact ⟨known.name, hname, NameTable.readsAs_self (hfree known hentry)⟩

/-- What an object answers that was saved and read again. At each address it has the name of the
first symbol there, as it is read; before, this was the name of one of the symbols there. The
nearest labels are at the same addresses as before. So no answer changes exactly if every label was
that of the first symbol at its address, as it is read. -/
theorem Reached.lookups_of_decode (hreached : object.Reached) (hcountable : object.Countable)
    (hread : Object.decode object.encode = .ok reloaded) :
    (∀ segment address, Option.Rel (fun entry name ↦ NameTable.ReadsAs entry.name name)
      (object.symbols.firstAt? segment address)
      (reloaded.symbols.index.nameAt? segment address)) ∧
    (∀ segment address name, object.symbols.index.nameAt? segment address = some name →
      ∃ entry ∈ object.symbols.entries, entry.name = name ∧ entry.isAt segment address) ∧
    (∀ segment address, Option.Rel (fun before after ↦ before.distance = after.distance)
      (object.symbols.index.nearest? segment address)
      (reloaded.symbols.index.nearest? segment address)) ∧
    (∀ address, Option.Rel
      (fun before after ↦ before.1 = after.1 ∧ before.2.distance = after.2.distance)
      (object.symbols.index.nearestAny? address) (reloaded.symbols.index.nearestAny? address)) ∧
    (SameLookups object reloaded ↔ ∀ segment address entry,
      object.symbols.firstAt? segment address = some entry →
        ∃ name, object.symbols.index.nameAt? segment address = some name ∧
          NameTable.ReadsAs entry.name name) := by
  have hcatalogued := hreached.catalogued
  have hplaces (segment : Segment) (address : UInt32) : Option.Rel (fun _ _ ↦ True)
      (object.symbols.index.nameAt? segment address)
      (reloaded.symbols.index.nameAt? segment address) := by
    rcases hcatalogued.names_at hcountable hread segment address with
      ⟨-, hbefore, hafter⟩ | ⟨_, _, _, -, hbefore, hafter, -⟩
    · rw [hbefore, hafter]
      exact .none
    · rw [hbefore, hafter]
      exact .some trivial
  refine ⟨hcatalogued.rel_firstAt? hcountable hread, fun segment address name hname ↦ ?_,
    fun segment ↦ AddressIndex.rel_nearest? (hplaces segment),
    AddressIndex.rel_nearestAny? hplaces, hcatalogued.sameLookups_iff_of_decode hcountable hread⟩
  obtain ⟨position, entry, hentry, hrest⟩ := hcatalogued.indexed.sound _ _ _ hname
  exact ⟨entry, Array.mem_of_getElem? hentry, hrest⟩

theorem Small.countable (hsmall : object.Small) : object.Countable where
  amounts := fun count ↦ Nat.lt_trans (hsmall.amounts count) (by decide)
  names := hsmall.names

/-- A label that is still found after saving and reading. -/
theorem Reached.lookups_of_decode_labelled :
    (labelled "f" true).Reached ∧ (labelled "f" true).Countable ∧
      ∃ reloaded name, Object.decode (labelled "f" true).encode = .ok reloaded ∧
        reloaded.symbols.index.nameAt? .text 0 = some name ∧ NameTable.ReadsAs "f" name := by
  have hsmall : (labelled "f" true).Small := by decide +kernel
  have hsome : (Object.decode (labelled "f" true).encode).toOption.isSome := by decide +kernel
  obtain ⟨reloaded, hread⟩ := Fallible.exists_eq_ok_of_isSome hsome
  have hreached : (labelled "f" true).Reached := reached_edited _
  obtain ⟨hfirst, -⟩ := hreached.lookups_of_decode hsmall.countable hread
  have hat : (labelled "f" true).symbols.firstAt? .text 0 = some ⟨"f", .label .text 0 true⟩ := by
    decide +kernel
  have hrelated := hfirst .text 0
  rw [hat] at hrelated
  refine ⟨hreached, hsmall.countable, reloaded, ?_⟩
  cases hname : reloaded.symbols.index.nameAt? .text 0 with
  | none =>
    rw [hname] at hrelated
    cases hrelated
  | some name =>
    rw [hname] at hrelated
    cases hrelated with
    | some hreads => exact ⟨name, hread, rfl, hreads⟩

/-- A name is awaited, another one is defined at an address, and then the first one is, too. -/
def overtaken : Object :=
  .edited .empty [.await "late", .addSymbol "early" (.label .text 5 false),
    .addSymbol "late" (.label .text 5 true)]

/-- An answer that changes when an object is saved and read again. -/
theorem not_sameLookups_of_decode : overtaken.Small ∧
    overtaken.symbols.index.nameAt? .text 5 = some "early" ∧
    ∃ reloaded, decode overtaken.encode = .ok reloaded ∧
      reloaded.symbols.index.nameAt? .text 5 = some "late" ∧
      ¬ SameLookups overtaken reloaded := by
  have hbefore : overtaken.symbols.index.nameAt? .text 5 = some "early" := by decide +kernel
  have hsome : (decode overtaken.encode).toOption.any fun reloaded ↦
      reloaded.symbols.index.nameAt? .text 5 == some "late" := by
    decide +kernel
  obtain ⟨reloaded, hread, hafter⟩ := (Option.any_eq_true _ _).mp hsome
  rw [beq_iff_eq] at hafter
  refine ⟨by decide +kernel, hbefore, reloaded, Fallible.eq_ok_of_toOption hread, hafter,
    fun hsame ↦ ?_⟩
  have hnames := hsame.nameAt? .text 5
  rw [hbefore, hafter] at hnames
  exact absurd hnames (by decide)

end Object

end Aout
