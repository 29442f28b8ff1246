import Aout.Object.Building
import Aout.Object.Stripping
import Aout.Proofs.Relocation
import Aout.Proofs.Symbol.Growth
/-!
Building and stripping an object, one operation after the other (`Object.Edit.run`). Most operations
always succeed. A symbol is not added if it changes a definition, and the tables are not dropped
while a record needs them; in either case the object stays as it was (`Object.addSymbol_cases`,
`Object.stripSymbols_cases`).
-/

set_option autoImplicit false
set_option relaxedAutoImplicit false

namespace Aout.Object

/-- An operation that changes an object. -/
inductive Edit
  | appendBytes (owner : StoredSegment) (bytes : List UInt8)
  | appendWord (owner : StoredSegment) (word : UInt16)
  | reserve (size : UInt32)
  | addName (name : String)
  | addSymbol (name : String) (symbol : Symbol)
  | await (name : String)
  | addRelocation (owner : StoredSegment) (record : Relocation)
  | setEntryPoint (entry : UInt16)
  | stripSymbols
  | stripRelocations

/-- The object after an operation, which may have failed. -/
def Edit.run (object : Object) : Edit → Object
  | appendBytes owner bytes => (object.appendBytes owner bytes).2
  | appendWord owner word => (object.appendWord owner word).2
  | reserve size => (object.reserve size).2
  | addName name => (object.addName name).2
  | addSymbol name symbol => (object.addSymbol name symbol).2
  | await name => (object.await name).2
  | addRelocation owner record => object.addRelocation owner record
  | setEntryPoint entry => object.setEntryPoint entry
  | stripSymbols => object.stripSymbols.state
  | stripRelocations => object.stripRelocations

/-- The object after several operations, some of which may have failed. -/
def edited (object : Object) (edits : List Edit) : Object :=
  edits.foldl Edit.run object

variable {object : Object} {name : String} {symbol : Symbol}

/-! ### Adding symbols -/

/-- A symbol is entered if its name is new, defines the name if that is awaited, and must agree with
the definition if there is one. -/
theorem addSymbol_cases (object : Object) (name : String) (symbol : Symbol) :
    (object.symbols.locate? name = none ∧
      object.addSymbol name symbol = (.ok object.symbols.size, (object.enter name symbol).2)) ∨
    ∃ position known, object.symbols.locate? name = some (position, known) ∧
      ((known.isDefined = false ∧ object.addSymbol name symbol = (.ok position, { object with
          symbols := object.symbols.redefine position symbol.kind symbol.value })) ∨
        (known.isDefined ∧ object.addSymbol name symbol =
          (if symbol.isDefined ∧ (known.kind ≠ symbol.kind ∨ known.value ≠ symbol.value)
            then .error (.multiplyDefined name) else .ok position, object))) := by
  unfold addSymbol
  split
  · rename_i hfresh
    exact .inl ⟨hfresh, rfl⟩
  · rename_i position known hlocate
    refine .inr ⟨position, known, hlocate, ?_⟩
    cases hknown : known.isDefined with
    | false => exact .inl ⟨rfl, rfl⟩
    | true =>
      refine .inr ⟨rfl, ?_⟩
      simp only [Bool.not_true, Bool.false_eq_true, if_false, Bool.and_eq_true, Bool.or_eq_true,
        bne_iff_ne]
      split
      · rfl
      · rfl

/-- What holds before a symbol is added holds afterwards if it holds of an object with the new name
and of one where the awaited name is defined. -/
theorem addSymbol_preserves (Holds : Object → Prop) (hobject : Holds object)
    (henter : object.symbols.locate? name = none → Holds (object.enter name symbol).2)
    (hredefine : ∀ position entry, object.symbols.entryAt? position = some entry →
      entry.symbol.isDefined = false →
        Holds { object with
          symbols := object.symbols.redefine position symbol.kind symbol.value }) :
    Holds (object.addSymbol name symbol).2 := by
  rcases addSymbol_cases object name symbol with ⟨hfresh, hadd⟩ |
    ⟨position, known, hlocate, ⟨hawaited, hadd⟩ | ⟨-, hadd⟩⟩
  · rw [hadd]
    exact henter hfresh
  · rw [hadd]
    exact hredefine position _ (SymbolTable.entryAt?_of_locate? hlocate) hawaited
  · rw [hadd]
    exact hobject

/-- The table grows whether or not the symbol is added. -/
theorem grows_addSymbol (object : Object) (name : String) (symbol : Symbol) :
    object.symbols.Grows (object.addSymbol name symbol).2.symbols :=
  addSymbol_preserves (fun grown ↦ object.symbols.Grows grown.symbols) (.refl _)
    (fun hfresh ↦ .push hfresh) fun _ _ hentry hawaited ↦ .redefine hentry hawaited _ _

/-- A symbol that is added stands at the position that goes with it. -/
theorem entryAt?_of_addSymbol {position : Nat} {grown : Object}
    (hadded : object.addSymbol name symbol = (.ok position, grown)) :
    ∃ found, grown.symbols.entryAt? position = some ⟨name, found⟩ := by
  rcases addSymbol_cases object name symbol with ⟨hfresh, hadd⟩ |
    ⟨place, known, hlocate, ⟨hawaited, hadd⟩ | ⟨-, hadd⟩⟩
  · obtain ⟨hposition, rfl⟩ := Prod.mk.inj (hadded.symm.trans hadd)
    obtain rfl := Except.ok.inj hposition
    exact ⟨_, (SymbolTable.entryAt?_push _ _ _).trans (if_pos rfl)⟩
  · obtain ⟨hposition, rfl⟩ := Prod.mk.inj (hadded.symm.trans hadd)
    obtain rfl := Except.ok.inj hposition
    have hentry := SymbolTable.entryAt?_of_locate? hlocate
    exact ⟨_, (SymbolTable.entryAt?_redefine hentry _ _ _).trans (if_pos rfl)⟩
  · obtain ⟨hposition, rfl⟩ := Prod.mk.inj (hadded.symm.trans hadd)
    split at hposition
    · cases hposition
    · obtain rfl := Except.ok.inj hposition
      exact ⟨known, SymbolTable.entryAt?_of_locate? hlocate⟩

/-- Only a definition that changes an earlier one is refused, and it leaves the object as it was. -/
theorem addSymbol_eq_error_iff (hdistinct : object.symbols.NamesDistinct) {fault : LinkFault}
    {reached : Object} : object.addSymbol name symbol = (.error fault, reached) ↔
      reached = object ∧ fault = .multiplyDefined name ∧ symbol.isDefined ∧
        ∃ position known, object.symbols.entryAt? position = some ⟨name, known⟩ ∧
          known.isDefined ∧ (known.kind ≠ symbol.kind ∨ known.value ≠ symbol.value) := by
  simp only [← SymbolTable.locate?_eq_some_iff hdistinct]
  rcases addSymbol_cases object name symbol with ⟨hfresh, hadd⟩ |
    ⟨place, known, hlocate, ⟨hawaited, hadd⟩ | ⟨hdefined, hadd⟩⟩
  · simp [hadd, hfresh]
  · simp [hadd, hlocate, hawaited]
  · simp only [hadd, hlocate, Option.some.injEq, Prod.mk.injEq]
    split
    · rename_i hchanges
      simp only [Except.error.injEq]
      constructor
      · rintro ⟨rfl, rfl⟩
        exact ⟨rfl, rfl, hchanges.1, place, known, ⟨rfl, rfl⟩, hdefined, hchanges.2⟩
      · rintro ⟨rfl, rfl, -⟩
        exact ⟨rfl, rfl⟩
    · rename_i hagrees
      simp only [reduceCtorEq, false_and, false_iff]
      rintro ⟨-, -, hsymbol, position, found, ⟨-, rfl⟩, -, hchanges⟩
      exact hagrees ⟨hsymbol, hchanges⟩

/-! ### Dropping the tables -/

/-- The object without its symbols and names. -/
def anonymous (object : Object) : Object :=
  { object with symbols := .empty, names := .empty }

theorem firstSymbolInUse?_eq_none_iff : object.firstSymbolInUse? = none ↔
    ∀ owner, ∀ record ∈ (object.contents owner).relocations, record.external = false := by
  simp only [firstSymbolInUse?, List.findSome?_eq_none_iff, List.forall_mem_append,
    Array.mem_toList_iff, Relocation.symbolIndex?_eq_none_iff]
  constructor
  · rintro ⟨htext, hdata⟩ (_ | _)
    · exact htext
    · exact hdata
  · intro hinternal
    exact ⟨hinternal .text, hinternal .data⟩

/-- Either no record needs a symbol and the tables are dropped, or the object stays as it was. -/
theorem stripSymbols_cases (object : Object) :
    ((∀ owner, ∀ record ∈ (object.contents owner).relocations, record.external = false) ∧
      object.stripSymbols = .done object.anonymous) ∨
    ∃ fault, object.stripSymbols = .stopped object fault := by
  unfold stripSymbols
  split
  · rename_i hunused
    exact .inl ⟨firstSymbolInUse?_eq_none_iff.mp hunused, rfl⟩
  · exact .inr ⟨_, rfl⟩

end Aout.Object
