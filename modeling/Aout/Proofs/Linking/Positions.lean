import Aout.Proofs.Linking.Addresses
import Aout.Proofs.Linking.Evolution
/-!
Positions in the symbol table. Records keep bare positions, so whatever becomes of an object while
it is built and linked, a name must stay where it was entered. Unless its tables are dropped, every
operation only lets the table grow (`Object.Edit.grows`), and linking at most moves values besides.
So all objects that one leads to (`Object.Leads`) have the table of that one at the front of theirs,
with distinct names if these were distinct at first, and nothing that is defined becomes undefined
again (`Object.Leads.positions`).
-/

set_option autoImplicit false
set_option relaxedAutoImplicit false

namespace Aout

/-- What a table has grown out of stands at its front. -/
theorem SymbolTable.Grows.spellings_prefix {before after : SymbolTable}
    (hgrows : Grows before after) : before.spellings <+: after.spellings := by
  rw [List.prefix_iff_getElem?]
  intro position hinside
  simp only [spellings, List.getElem?_map, List.length_map, List.getElem_map] at hinside ⊢
  obtain ⟨later, hlater, hname, hoffset, -⟩ := hgrows.kept position _
    (Array.getElem?_eq_getElem hinside)
  rw [Array.getElem?_toList, ← entryAt?, hlater, Option.map_some, hname, hoffset]
  rfl

/-- Of distinct names, each finds the one position at which it stands. -/
theorem SymbolTable.NamesDistinct.position?_eq_some_iff {table : SymbolTable}
    (hdistinct : table.NamesDistinct) {name : String} {position : Nat} :
    table.position? name = some position ↔
      ∃ symbol, table.entryAt? position = some ⟨name, symbol⟩ := by
  constructor
  · intro hfound
    have hname := getElem?_names_of_position? hfound
    rw [getElem?_names, Option.map_eq_some_iff] at hname
    obtain ⟨entry, hentry, rfl⟩ := hname
    exact ⟨entry.symbol, hentry⟩
  · rintro ⟨symbol, hentry⟩
    exact namesDistinct_iff_position?.mp hdistinct position _ hentry

namespace Object

/-- Every operation but the one that drops the tables lets the symbol table grow. -/
theorem Edit.grows (object : Object) {edit : Edit} (hkept : edit ≠ .stripSymbols) :
    object.symbols.Grows (edit.run object).symbols := by
  cases edit with
  | appendBytes owner bytes =>
    rw [run, Object.appendBytes, symbols_setContents]
    exact .refl _
  | appendWord owner word =>
    rw [run, Object.appendWord, symbols_setContents]
    exact .refl _
  | reserve size => exact .refl _
  | addName name => exact .refl _
  | addSymbol name symbol => exact grows_addSymbol object name symbol
  | await name => exact (Relocated.await_spec object name).1.grows
  | addRelocation owner record =>
    rw [run, Object.addRelocation, modifyContents_eq, symbols_setContents]
    exact .refl _
  | setEntryPoint entry => exact .refl _
  | stripSymbols => exact absurd rfl hkept
  | stripRelocations => exact .refl _

theorem grows_edited (object : Object) {edits : List Edit}
    (hkept : ∀ edit ∈ edits, edit ≠ .stripSymbols) :
    object.symbols.Grows (object.edited edits).symbols := by
  induction edits generalizing object with
  | nil => exact .refl _
  | cons edit rest ih =>
    rw [List.forall_mem_cons] at hkept
    exact (Edit.grows object hkept.1).trans (ih _ hkept.2)

/-! ### Building and linking -/

/-- The objects that one object leads to, while its tables are not dropped: by building, by
relocation, by taking in just any other objects, some of which may be refused halfway, and by
finishing an image. -/
def Leads (start : Object) : Object → Prop :=
  Arises {
    Starts := fun object ↦ object = start
    Permits := fun edit ↦ edit ≠ .stripSymbols
    confined := False }

end Object

/-- A table whose names another one still has at its front, and whose definitions are definitions of
the same kind there. -/
structure SymbolTable.Endures (before after : SymbolTable) : Prop where
  distinct : before.NamesDistinct → after.NamesDistinct
  spellings : before.spellings <+: after.spellings
  defined : ∀ position entry, before.entryAt? position = some entry → entry.symbol.isDefined →
    ∃ later, after.entryAt? position = some later ∧ later.symbol.kind = entry.symbol.kind

namespace SymbolTable.Endures

variable {before middle after : SymbolTable}

theorem refl (table : SymbolTable) : Endures table table :=
  ⟨id, List.prefix_refl _, fun _ entry hentry _ ↦ ⟨entry, hentry, rfl⟩⟩

theorem trans (hfirst : Endures before middle) (hlast : Endures middle after) :
    Endures before after where
  distinct := hlast.distinct ∘ hfirst.distinct
  spellings := hfirst.spellings.trans hlast.spellings
  defined := by
    intro position entry hentry hdefined
    obtain ⟨later, hlater, hkind⟩ := hfirst.defined position entry hentry hdefined
    have hstill : later.symbol.isDefined := by rwa [Symbol.isDefined, hkind]
    obtain ⟨last, hlast, hsame⟩ := hlast.defined position later hlater hstill
    exact ⟨last, hlast, hsame.trans hkind⟩

end SymbolTable.Endures

theorem SymbolTable.Grows.endures {before after : SymbolTable} (hgrows : Grows before after) :
    Endures before after where
  distinct := hgrows.distinct
  spellings := hgrows.spellings_prefix
  defined := by
    intro position entry hentry hdefined
    obtain ⟨later, hlater, -, -, hkept⟩ := hgrows.kept position entry hentry
    exact ⟨later, hlater, by rw [hkept hdefined]⟩

namespace Relocated

/-- Symbols that keep their addresses stay defined. -/
theorem KeepsAddresses.endures {before after : Relocated} {other : Object}
    (hkeeps : KeepsAddresses before after)
    (hsteps : Object.Evolves other before.object after.object) :
    before.object.symbols.Endures after.object.symbols where
  distinct := hsteps.namesDistinct
  spellings := hsteps.spellings_prefix
  defined := by
    intro position entry hentry hdefined
    obtain ⟨later, hlater, -, hkind, -⟩ := hkeeps position entry hentry hdefined
    exact ⟨later, hlater, hkind⟩

end Relocated

namespace Object

variable {start object later : Object}

/-- What an object leads to has its table at the front. -/
theorem Leads.endures (hleads : Leads start object) : start.symbols.Endures object.symbols := by
  induction hleads with
  | start hstart =>
    rw [hstart]
    exact .refl _
  | edit _ hpermits ih => exact ih.trans (Edit.grows _ hpermits).endures
  | relocate _ hyields ih =>
    obtain ⟨modules, hrelocates⟩ := hyields.relocates
    rwa [hrelocates.symbols]
  | concat _ _ ih _ =>
    exact ih.trans ((Relocated.keepsAddresses_concat _ _).endures (Relocated.concat_evolves _ _))
  | @toObject module _ ih =>
    have hsteps : Evolves .empty module.object module.rebase.object :=
      Relocated.evolves_rebase (.refl _)
    exact ih.trans ((Relocated.keepsAddresses_rebase module).endures hsteps)

/-- Positions in the table of an object whose names have been distinct from the start. Looking a
name up is the inverse of reading off a position. Entries keep their places and names, stay defined,
and building never changes a definition. A symbol that is added stands at the position that goes
with it; only one that changes a definition is refused, and then nothing has changed. -/
theorem Leads.positions (hdistinct : start.symbols.NamesDistinct) (hleads : Leads start object) :
    (∀ name position, object.symbols.position? name = some position ↔
      ∃ symbol, object.symbols.entryAt? position = some ⟨name, symbol⟩) ∧
    (∀ later, Leads object later →
      object.symbols.spellings <+: later.symbols.spellings ∧
      ∀ position entry, object.symbols.entryAt? position = some entry → entry.symbol.isDefined →
        ∃ last, later.symbols.entryAt? position = some last ∧ last.symbol.isDefined ∧
          last.symbol.kind = entry.symbol.kind) ∧
    (∀ edits position entry, (∀ edit ∈ edits, edit ≠ Edit.stripSymbols) →
      object.symbols.entryAt? position = some entry → entry.symbol.isDefined →
        (object.edited edits).symbols.entryAt? position = some entry) ∧
    (∀ name symbol position grown, object.addSymbol name symbol = (.ok position, grown) →
      (Edit.addSymbol name symbol).run object = grown ∧
        grown.symbols.position? name = some position) ∧
    ∀ name symbol fault reached, object.addSymbol name symbol = (.error fault, reached) ↔
      reached = object ∧ fault = .multiplyDefined name ∧ symbol.isDefined ∧
        ∃ position known, object.symbols.entryAt? position = some ⟨name, known⟩ ∧
          known.isDefined ∧ (known.kind ≠ symbol.kind ∨ known.value ≠ symbol.value) := by
  have hnames := hleads.endures.distinct hdistinct
  refine ⟨fun _ _ ↦ hnames.position?_eq_some_iff, fun later hlater ↦ ⟨hlater.endures.spellings, ?_⟩,
    ?_, ?_, fun name symbol fault reached ↦ addSymbol_eq_error_iff hnames⟩
  · intro position entry hentry hdefined
    obtain ⟨last, hlast, hkind⟩ := hlater.endures.defined position entry hentry hdefined
    exact ⟨last, hlast, by rwa [Symbol.isDefined, hkind], hkind⟩
  · intro edits position entry hkept hentry hdefined
    obtain ⟨last, hlast, -, -, hsame⟩ := (grows_edited object hkept).kept position entry hentry
    rw [hlast, hsame hdefined]
  · intro name symbol position grown hadded
    have hgrows := grows_addSymbol object name symbol
    have hfound := entryAt?_of_addSymbol hadded
    rw [hadded] at hgrows
    refine ⟨by rw [Edit.run, hadded], ?_⟩
    exact (hgrows.distinct hnames).position?_eq_some_iff.mpr hfound

/-- A name that is awaited at first, then defined, and then defined differently in vain. -/
theorem Leads.positions_promoted : ∃ object,
    object = Object.empty.edited [.await "f", .addSymbol "f" (.label .text 3 true)] ∧
      object.symbols.position? "f" = some 0 ∧
      object.addSymbol "f" (.label .data 3 true) = (.error (.multiplyDefined "f"), object) := by
  have hentry : (Object.empty.edited
      [.await "f", .addSymbol "f" (.label .text 3 true)]).symbols.entryAt? 0 =
        some ⟨"f", .label .text 3 true⟩ := by
    decide +kernel
  have hleads : Leads .empty
      (Object.empty.edited [.await "f", .addSymbol "f" (.label .text 3 true)]) :=
    .edited (.start rfl) (by simp)
  have hdistinct : Object.empty.symbols.NamesDistinct :=
    SymbolTable.namesDistinct_iff_nodup.mpr List.nodup_nil
  obtain ⟨hposition, -, -, -, hrefused⟩ := Leads.positions hdistinct hleads
  exact ⟨_, rfl, (hposition "f" 0).mpr ⟨_, hentry⟩, (hrefused _ _ _ _).mpr
    ⟨rfl, rfl, by decide, 0, _, hentry, by decide, .inl (by decide)⟩⟩

end Object

end Aout
