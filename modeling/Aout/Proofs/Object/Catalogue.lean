import Aout.Proofs.Object.Editing
import Aout.Proofs.Object.File
import Aout.Proofs.Symbol.Lookup
/-!
The names of an object. What every object keeps that is built from nothing, whatever names it is
given: its addresses are labelled by its symbols, and each symbol's name stands in the name table
where the symbol says (`Object.Catalogued`). All changes of the two tables are made in a few ways,
and each of them is shown here to keep this, and so every operation does
(`Object.Catalogued.edit`).
-/

set_option autoImplicit false
set_option relaxedAutoImplicit false

namespace Aout.Object

/-- The addresses are labelled by the symbols, and every name is held where its symbol says. -/
structure Catalogued (object : Object) : Prop where
  indexed : object.symbols.Indexed
  held : object.names.bytes.size < UInt32.size →
    ∀ spelling ∈ object.symbols.spellings, object.names.Holds spelling.2 spelling.1

variable {object other : Object} {name : String}

theorem catalogued_empty : Catalogued .empty where
  indexed := .empty
  held := fun _ ↦ List.forall_mem_nil _

theorem catalogued_of_decode {bytes : List UInt8} (hread : decode bytes = .ok object)
    (hdistinct : object.symbols.NamesDistinct) : object.Catalogued := by
  obtain ⟨hwritable, hsymbols, -⟩ := decode_eq_ok_iff.mp hread
  refine ⟨.of_index_eq hdistinct ?_, fun _ spelling hspelling ↦
    (hwritable.names spelling hspelling).holds⟩
  rw [← SymbolTable.index_ofEntries, ← hsymbols]

namespace Catalogued

/-- Only the symbols and the names count. -/
theorem congr (hcatalogued : object.Catalogued) (hsymbols : other.symbols = object.symbols)
    (hnames : other.names = object.names) : other.Catalogued where
  indexed := hsymbols ▸ hcatalogued.indexed
  held := by
    rw [hsymbols, hnames]
    exact hcatalogued.held

theorem addName (hcatalogued : object.Catalogued) (name : String) :
    (object.addName name).2.Catalogued where
  indexed := hcatalogued.indexed
  held := fun hsize spelling hspelling ↦
    have hformer := Nat.lt_trans (NameTable.size_lt_size_add object.names name) hsize
    (hcatalogued.held hformer spelling hspelling).add name

theorem enter (hcatalogued : object.Catalogued) (hfresh : object.symbols.locate? name = none)
    (symbol : Symbol) : (object.enter name symbol).2.Catalogued where
  indexed := hcatalogued.indexed.push hfresh
  held := fun hsize ↦ by
    have hformer := Nat.lt_trans (NameTable.size_lt_size_add object.names name) hsize
    simp only [Object.enter, SymbolTable.spellings_push, List.forall_mem_append,
      List.forall_mem_singleton]
    exact ⟨(hcatalogued.addName name).held hsize, NameTable.holds_nextOffset hformer⟩

theorem redefine (hcatalogued : object.Catalogued) {position : Nat} {entry : SymbolEntry}
    (hentry : object.symbols.entryAt? position = some entry)
    (hawaited : entry.symbol.isDefined = false) (kind : SymbolKind) (value : UInt32) :
    Catalogued { object with symbols := object.symbols.redefine position kind value } where
  indexed := hcatalogued.indexed.redefine hentry hawaited kind value
  held := by
    simp only [SymbolTable.spellings_redefine]
    exact hcatalogued.held

theorem mapValues (hcatalogued : object.Catalogued) (valueOf : Symbol → UInt32) :
    Catalogued { object with symbols := object.symbols.mapValues valueOf } where
  indexed := .mapValues hcatalogued.indexed.distinct valueOf
  held := by
    simp only [SymbolTable.spellings_mapValues]
    exact hcatalogued.held

theorem setContents (hcatalogued : object.Catalogued) (owner : StoredSegment)
    (contents : Section) : (object.setContents owner contents).Catalogued := by
  cases owner with
  | text => exact hcatalogued.congr rfl rfl
  | data => exact hcatalogued.congr rfl rfl

theorem addSymbol (hcatalogued : object.Catalogued) (name : String) (symbol : Symbol) :
    (object.addSymbol name symbol).2.Catalogued :=
  addSymbol_preserves Catalogued hcatalogued (fun hfresh ↦ hcatalogued.enter hfresh symbol)
    fun _ _ hentry hawaited ↦ hcatalogued.redefine hentry hawaited _ _

theorem await (hcatalogued : object.Catalogued) (name : String) :
    (object.await name).2.Catalogued := by
  unfold Object.await
  split
  · exact hcatalogued
  · rename_i hfresh
    exact hcatalogued.enter hfresh _

theorem addRelocation (hcatalogued : object.Catalogued) (owner : StoredSegment)
    (record : Relocation) : (object.addRelocation owner record).Catalogued := by
  rw [Object.addRelocation, modifyContents_eq]
  exact hcatalogued.setContents owner _

theorem stripSymbols (hcatalogued : object.Catalogued) : object.stripSymbols.state.Catalogued := by
  rcases stripSymbols_cases object with ⟨-, hstrip⟩ | ⟨fault, hstrip⟩
  · rw [hstrip]
    exact catalogued_empty.congr rfl rfl
  · rw [hstrip]
    exact hcatalogued

theorem edit (hcatalogued : object.Catalogued) (edit : Edit) :
    (edit.run object).Catalogued := by
  cases edit with
  | appendBytes owner bytes => exact hcatalogued.setContents owner _
  | appendWord owner word => exact hcatalogued.setContents owner _
  | reserve size => exact hcatalogued.congr rfl rfl
  | addName name => exact hcatalogued.addName name
  | addSymbol name symbol => exact hcatalogued.addSymbol name symbol
  | await name => exact hcatalogued.await name
  | addRelocation owner record => exact hcatalogued.addRelocation owner record
  | setEntryPoint entry => exact hcatalogued.congr rfl rfl
  | stripSymbols => exact hcatalogued.stripSymbols
  | stripRelocations => exact hcatalogued.congr rfl rfl

end Catalogued

end Aout.Object
