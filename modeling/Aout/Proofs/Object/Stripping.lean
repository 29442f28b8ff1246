import Aout.Proofs.Object.Saving
/-!
Stripping and files. An object may lose its symbols and names exactly if no record refers to a
symbol (`Object.stripSymbols_eq_done_iff`); otherwise the first record that does is to blame
(`Object.stripSymbols_eq_stopped_iff`). What is left is saved and read as it is, so stripping keeps
the program, and stripping a stripped file changes nothing (`Object.strip_keeps_program`).
-/

set_option autoImplicit false
set_option relaxedAutoImplicit false

namespace Aout.Object

/-- The records, those of text before those of data. -/
def records (object : Object) : List Relocation :=
  object.text.relocations.toList ++ object.data.relocations.toList

/-- What a fault calls the symbol at a position of the table: its name if there is one, or else the
position itself. -/
inductive Calls (object : Object) (position : Nat) : String → Prop
  | known {name : String} {symbol : Symbol}
      (hentry : object.symbols.entryAt? position = some ⟨name, symbol⟩) : Calls object position name
  | unknown (houtside : object.symbols.size ≤ position) :
      Calls object position ("#" ++ Numeral.decimal position)

/-- The first record that refers to a symbol refers to one that is called so. -/
def FirstRefersTo (object : Object) (name : String) : Prop :=
  ∃ before record after, object.records = before ++ record :: after ∧
    (∀ other ∈ before, other.external = false) ∧ record.external = true ∧
      object.Calls record.index.toNat name

variable {object stripped reached : Object} {relocationsToo : Bool} {fault : LinkFault}

/-! ### When stripping succeeds -/

theorem stripSymbols_eq_done_iff : object.stripSymbols = .done stripped ↔
    (∀ owner, ∀ record ∈ (object.contents owner).relocations, record.external = false) ∧
      stripped = object.anonymous := by
  rw [← firstSymbolInUse?_eq_none_iff, stripSymbols]
  cases object.firstSymbolInUse? with
  | none => simp [Progress.done, anonymous, eq_comm]
  | some position => simp [Progress.done, Progress.stopped]

theorem firstSymbolInUse?_eq_some_iff {position : Nat} :
    object.firstSymbolInUse? = some position ↔
      ∃ before record after, object.records = before ++ record :: after ∧
        (∀ other ∈ before, other.external = false) ∧ record.external = true ∧
          record.index.toNat = position := by
  rw [firstSymbolInUse?, ← records, List.findSome?_eq_some_iff]
  simp only [Relocation.symbolIndex?_eq_some_iff, Relocation.symbolIndex?_eq_none_iff]
  constructor
  · rintro ⟨before, record, after, hrecords, hrecord, hbefore⟩
    exact ⟨before, record, after, hrecords, hbefore, hrecord⟩
  · rintro ⟨before, record, after, hrecords, hbefore, hrecord⟩
    exact ⟨before, record, after, hrecords, hrecord, hbefore⟩

theorem calls_iff {position : Nat} {name : String} : object.Calls position name ↔
    name = match object.symbols.entryAt? position with
      | some entry => entry.name
      | none => "#" ++ Numeral.decimal position := by
  constructor
  · rintro (hentry | houtside)
    · rw [hentry]
    · rw [SymbolTable.entryAt?_eq_none_iff.mpr houtside]
  · intro hname
    split at hname
    · rename_i entry hentry
      exact hname ▸ .known hentry
    · rename_i hnone
      exact hname ▸ .unknown (SymbolTable.entryAt?_eq_none_iff.mp hnone)

theorem stripSymbols_eq_stopped_iff : object.stripSymbols = .stopped reached fault ↔
    reached = object ∧ ∃ name, fault = .symbolInUse name ∧ object.FirstRefersTo name := by
  have hrefers {name : String} : object.FirstRefersTo name ↔
      ∃ position, object.firstSymbolInUse? = some position ∧ object.Calls position name := by
    simp only [firstSymbolInUse?_eq_some_iff]
    constructor
    · rintro ⟨before, record, after, hrecords, hbefore, hexternal, hcalls⟩
      exact ⟨_, ⟨before, record, after, hrecords, hbefore, hexternal, rfl⟩, hcalls⟩
    · rintro ⟨_, ⟨before, record, after, hrecords, hbefore, hexternal, rfl⟩, hcalls⟩
      exact ⟨before, record, after, hrecords, hbefore, hexternal, hcalls⟩
  simp only [hrefers, calls_iff, stripSymbols]
  cases object.firstSymbolInUse? with
  | none => simp [Progress.done, Progress.stopped]
  | some position =>
    simp only [Option.some.injEq, exists_eq_left', exists_eq_right, Progress.stopped,
      Progress.mk.injEq]
    exact and_congr eq_comm eq_comm

/-! ### What is left -/

theorem contents_anonymous (owner : StoredSegment) :
    object.anonymous.contents owner = object.contents owner := by
  cases owner <;> rfl

theorem contents_stripRelocations (owner : StoredSegment) :
    object.stripRelocations.contents owner =
      { object.contents owner with relocations := #[] } := by
  cases owner <;> rfl

theorem not_mem_stripRelocations (owner : StoredSegment) (record : Relocation) :
    record ∉ (object.stripRelocations.contents owner).relocations := by
  rw [contents_stripRelocations]
  exact Array.not_mem_empty record

theorem Writable.stripRelocations (hwritable : object.Writable) :
    object.stripRelocations.Writable where
  magic := hwritable.magic
  amounts
    | .textRelocations | .dataRelocations => (by decide : 0 < Header.countLimit)
    | .text => hwritable.amounts .text
    | .data => hwritable.amounts .data
    | .bss => hwritable.amounts .bss
    | .symbols => hwritable.amounts .symbols
  records owner record hrecord := absurd hrecord (not_mem_stripRelocations owner record)
  names := hwritable.names

theorem Writable.anonymous (hwritable : object.Writable) : object.anonymous.Writable where
  magic := hwritable.magic
  amounts
    | .symbols => (by decide : 0 < Header.countLimit)
    | .text => hwritable.amounts .text
    | .data => hwritable.amounts .data
    | .bss => hwritable.amounts .bss
    | .textRelocations => hwritable.amounts .textRelocations
    | .dataRelocations => hwritable.amounts .dataRelocations
  records := hwritable.records
  names := List.forall_mem_nil _

/-- An object without symbols and names is read as it was written. -/
theorem Writable.decode_anonymous (hwritable : object.Writable) :
    decode object.anonymous.encode = .ok object.anonymous :=
  decode_eq_ok_iff.mpr ⟨hwritable.anonymous, rfl, rfl⟩

/-- Stripping what has been stripped changes nothing. -/
theorem strip_strip (hstrip : object.strip relocationsToo = .done stripped) :
    stripped.strip relocationsToo = .done stripped := by
  rw [strip, stripSymbols_eq_done_iff] at hstrip ⊢
  obtain ⟨hinternal, rfl⟩ := hstrip
  cases relocationsToo with
  | false => exact ⟨hinternal, rfl⟩
  | true => exact ⟨hinternal, rfl⟩

/-- Stripping an object that was read from a file. Its symbols and names can go exactly if none of
its records refers to a symbol; otherwise the object stays as it is, and the fault names the symbol
of the first record that does. Once the records are gone, they always can. What is left is the
object without its tables: a file holds it as it is, and stripping that file in the same way changes
nothing. -/
theorem strip_keeps_program {bytes : List UInt8} (hread : decode bytes = .ok object) :
    ((∃ stripped, object.strip false = .done stripped) ↔
      ∀ owner, ∀ record ∈ (object.contents owner).relocations, record.external = false) ∧
    (∀ reached fault, object.strip false = .stopped reached fault ↔
      reached = object ∧ ∃ name, fault = .symbolInUse name ∧ object.FirstRefersTo name) ∧
    (∃ stripped, object.strip true = .done stripped) ∧
    ∀ relocationsToo stripped, object.strip relocationsToo = .done stripped →
      decode stripped.encode = .ok stripped ∧ stripped.header.magic = object.header.magic ∧
      stripped.entry = object.entry ∧ stripped.bssSize = object.bssSize ∧
      (∀ owner, (stripped.contents owner).bytes = (object.contents owner).bytes ∧
        (stripped.contents owner).relocations =
          if relocationsToo then #[] else (object.contents owner).relocations) ∧
      stripped.symbols = .empty ∧ stripped.names = .empty ∧
      stripped.strip relocationsToo = .done stripped := by
  obtain ⟨hwritable, -, -⟩ := decode_eq_ok_iff.mp hread
  refine ⟨?_, fun reached fault ↦ ?_, ?_, fun relocationsToo stripped hstrip ↦ ?_⟩
  · simp only [strip, stripSymbols_eq_done_iff, Bool.false_eq_true, if_false, exists_and_left,
      exists_eq, and_true]
  · exact stripSymbols_eq_stopped_iff
  · refine ⟨object.stripRelocations.anonymous, ?_⟩
    rw [strip, if_pos rfl, stripSymbols_eq_done_iff]
    exact ⟨fun owner record hrecord ↦ absurd hrecord (not_mem_stripRelocations owner record), rfl⟩
  · have hagain := strip_strip hstrip
    obtain ⟨-, rfl⟩ := stripSymbols_eq_done_iff.mp hstrip
    cases relocationsToo with
    | false =>
      refine ⟨hwritable.decode_anonymous, rfl, rfl, rfl, fun owner ↦ ?_, rfl, rfl, hagain⟩
      rw [if_neg Bool.false_ne_true, contents_anonymous]
      exact ⟨rfl, rfl⟩
    | true =>
      refine ⟨hwritable.stripRelocations.decode_anonymous, rfl, rfl, rfl, fun owner ↦ ?_, rfl, rfl,
        hagain⟩
      rw [if_pos rfl, contents_anonymous, contents_stripRelocations]
      exact ⟨rfl, rfl⟩

/-- The record of `foreignFile` refers to the second symbol. So its tables can go only with it. -/
theorem strip_keeps_program_foreignFile : ∃ object stripped,
    decode foreignFile = .ok object ∧ object.strip false = .stopped object (.symbolInUse "b") ∧
      object.strip true = .done stripped ∧ decode stripped.encode = .ok stripped ∧
      stripped.entry = object.entry ∧ stripped.text.bytes = object.text.bytes := by
  have hsome : (decode foreignFile).toOption.any fun object ↦ object.records.head?.any fun record ↦
      record.external && (object.symbols.entryAt? record.index.toNat).any (·.name == "b") := by
    decide +kernel
  obtain ⟨object, hobject, hfirst⟩ := (Option.any_eq_true _ _).mp hsome
  simp only [Option.any_eq_true, Bool.and_eq_true, beq_iff_eq, List.head?_eq_some_iff] at hfirst
  obtain ⟨record, ⟨after, hrecords⟩, hexternal, ⟨name, symbol⟩, hentry, rfl⟩ := hfirst
  have hread := Fallible.eq_ok_of_toOption hobject
  obtain ⟨-, hrefused, ⟨stripped, hstripped⟩, hkept⟩ := strip_keeps_program hread
  obtain ⟨hsaved, -, hentries, -, hcontents, -⟩ := hkept true stripped hstripped
  refine ⟨object, stripped, hread, (hrefused _ _).mpr ⟨rfl, "b", rfl, ?_⟩, hstripped, hsaved,
    hentries, (hcontents .text).1⟩
  exact ⟨[], record, after, hrecords, List.forall_mem_nil _, hexternal, .known hentry⟩

end Aout.Object
