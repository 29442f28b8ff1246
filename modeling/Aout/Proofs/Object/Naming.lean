import Aout.Proofs.Object.Format
import Mathlib.Data.List.Nodup
/-!
The names of a file's symbols. A symbol record says only where its name starts, and reading cuts the
name off at the next zero byte (`Check.spelling`). Nothing keeps two records from spelling the same
name, be it at one offset or at two, and then the table holds this name at both positions and finds
the later one. So names and positions are one-to-one in the table exactly if the records of the file
spell different names (`Object.names_of_decode`).
-/

set_option autoImplicit false
set_option relaxedAutoImplicit false

namespace Aout

/-- The bytes of the name of the symbol at a position: those from its offset on, up to a zero
byte. -/
def Check.spelling (bytes : List UInt8) (position : Nat) : List UInt8 :=
  ((names bytes).drop (nameOffset bytes position).toNat).takeWhile (· ≠ 0)

namespace Object

open Check Fallible

variable {bytes : List UInt8} {object : Object}

/-- The symbols of an object have the name offsets of the records in its file, and its names are the
bytes behind the records. -/
theorem nameOffsets_of_decode (hread : decode bytes = .ok object) :
    object.names.bytes.toList = Check.names bytes ∧
      object.symbols.spellings.map (·.2) =
        (List.range ((Header.ofBytes bytes).amount .symbols)).map (nameOffset bytes) := by
  simp only [decode, bind_eq_ok_iff, pure_eq_ok_iff, whole_eq_ok_iff, Prod.exists, Header.take?_eq,
    takeBytes?_eq, takeRecords?_eq takeRelocation?_eq, takeRecords?_eq takeSymbol?_eq,
    Option.ite_none_left_eq_some, Option.some.injEq, Prod.mk.injEq, nameSymbols_eq_ok_iff] at hread
  obtain ⟨header, _, ⟨-, rfl, rfl⟩, -, -, text, _, ⟨-, -, rfl⟩, data, _, ⟨-, -, rfl⟩,
    textRelocations, _, ⟨-, -, rfl⟩, dataRelocations, _, ⟨-, -, rfl⟩, symbols, _, ⟨-, rfl, rfl⟩,
    entries, ⟨hentries, -⟩, rfl⟩ := hread
  have hstart : (((((bytes.drop Header.fileSize).drop (Header.ofBytes bytes).text.toInt.toNat).drop
      (Header.ofBytes bytes).data.toInt.toNat).drop
        (Relocation.fileSize * (Header.ofBytes bytes).textRelocations.toInt.toNat)).drop
          (Relocation.fileSize * (Header.ofBytes bytes).dataRelocations.toInt.toNat)) =
      bytes.drop ((Header.ofBytes bytes).partStart .symbols) := by
    simp only [List.drop_drop]
    rfl
  rw [hstart] at hentries ⊢
  refine ⟨?_, ?_⟩
  · rw [List.drop_drop, Check.names, ← Header.partEnd_symbols]
    rfl
  · have hoffsets := congrArg (List.map Symbol.nameOffset) hentries
    rw [List.map_map, List.map_map] at hoffsets
    rw [SymbolTable.spellings, SymbolTable.entries_ofEntries, List.map_map]
    refine hoffsets.trans (List.map_congr_left fun position _ ↦ ?_)
    rw [Function.comp_apply, LittleEndian.word32At_drop, LittleEndian.word32At_drop]
    rfl

/-- The names of an object are what the records of its file spell, in their order. -/
theorem map_encode_names (hread : decode bytes = .ok object) :
    object.symbols.names.map Utf8.encode =
      (List.range ((Header.ofBytes bytes).amount .symbols)).map (Check.spelling bytes) := by
  obtain ⟨hnames, hoffsets⟩ := nameOffsets_of_decode hread
  have hspells := (decode_eq_ok_iff.mp hread).1.names
  let read (offset : UInt32) := ((Check.names bytes).drop offset.toNat).takeWhile (· ≠ 0)
  calc object.symbols.names.map Utf8.encode
      = object.symbols.spellings.map fun spelling ↦ Utf8.encode spelling.1 := by
        rw [← SymbolTable.map_fst_spellings, List.map_map]
        rfl
    _ = object.symbols.spellings.map fun spelling ↦ read spelling.2 :=
        List.map_congr_left fun spelling hspelling ↦ by
          rw [(hspells spelling hspelling).encode_eq, hnames]
    _ = (object.symbols.spellings.map (·.2)).map read := by
        rw [List.map_map]
        rfl
    _ = (List.range ((Header.ofBytes bytes).amount .symbols)).map (Check.spelling bytes) := by
        rw [hoffsets, List.map_map]
        rfl

/-- A name stands at the positions of the records that spell it. -/
theorem getElem?_names_iff (hread : decode bytes = .ok object) {name : String} {position : Nat} :
    object.symbols.names[position]? = some name ↔
      position < (Header.ofBytes bytes).amount .symbols ∧
        Check.spelling bytes position = Utf8.encode name := by
  have hencoded : object.symbols.names[position]? = some name ↔
      (object.symbols.names.map Utf8.encode)[position]? = some (Utf8.encode name) := by
    rw [List.getElem?_map, Option.map_eq_some_iff]
    constructor
    · exact fun hname ↦ ⟨name, hname, rfl⟩
    · rintro ⟨found, hfound, hsame⟩
      rw [hfound, Utf8.encode_injective hsame]
  rw [hencoded, map_encode_names hread, List.getElem?_map, Option.map_eq_some_iff]
  constructor
  · rintro ⟨place, hplace, hspelling⟩
    obtain ⟨hinside, rfl⟩ := List.getElem?_eq_some_iff.mp hplace
    rw [List.length_range] at hinside
    rw [List.getElem_range] at hspelling
    exact ⟨hinside, hspelling⟩
  · exact fun ⟨hinside, hspelling⟩ ↦ ⟨position, List.getElem?_range hinside, hspelling⟩

/-- The names of an object are distinct exactly if its records spell different ones. -/
theorem namesDistinct_iff_spelling (hread : decode bytes = .ok object) :
    object.symbols.NamesDistinct ↔
      ∀ first < (Header.ofBytes bytes).amount .symbols,
        ∀ second < (Header.ofBytes bytes).amount .symbols,
          Check.spelling bytes first = Check.spelling bytes second → first = second := by
  rw [SymbolTable.namesDistinct_iff_nodup, ← List.nodup_map_iff Utf8.encode_injective,
    map_encode_names hread, List.nodup_map_iff_inj_on List.nodup_range]
  simp only [List.mem_range]

/-- What the table of an object makes of the names in its file. A name stands at the positions of
the records that spell it and finds the last of them. So every name finds the position at which it
stands exactly if no name stands at two, which is to say that no two records spell the same. -/
theorem names_of_decode (hread : decode bytes = .ok object) :
    (∀ position name, object.symbols.names[position]? = some name ↔
      position < (Header.ofBytes bytes).amount .symbols ∧
        Check.spelling bytes position = Utf8.encode name) ∧
    (∀ position name, object.symbols.position? name = some position ↔
      object.symbols.names[position]? = some name ∧
        ∀ later, object.symbols.names[later]? = some name → later ≤ position) ∧
    (object.symbols.NamesDistinct ↔ ∀ position entry,
      object.symbols.entryAt? position = some entry →
        object.symbols.position? entry.name = some position) ∧
    (object.symbols.NamesDistinct ↔
      ∀ first < (Header.ofBytes bytes).amount .symbols,
        ∀ second < (Header.ofBytes bytes).amount .symbols,
          Check.spelling bytes first = Check.spelling bytes second → first = second) :=
  ⟨fun _ _ ↦ getElem?_names_iff hread, fun _ _ ↦ SymbolTable.position?_eq_some_iff,
    SymbolTable.namesDistinct_iff_position?, namesDistinct_iff_spelling hread⟩

/-- In the file of `foreignFile` two records spell the same name, which is found at the second. -/
theorem names_of_decode_foreignFile : ∃ object, decode foreignFile = .ok object ∧
    object.symbols.names[0]? = some "b" ∧ object.symbols.position? "b" = some 1 ∧
      ¬ object.symbols.NamesDistinct := by
  obtain ⟨object, hread⟩ : ∃ object, decode foreignFile = .ok object :=
    exists_eq_ok_of_isSome (by decide +kernel)
  obtain ⟨hnames, hposition, -, hdistinct⟩ := names_of_decode hread
  have hlast : ∀ later < (Header.ofBytes foreignFile).amount .symbols,
      Check.spelling foreignFile later = Utf8.encode "b" → later ≤ 1 := by
    decide +kernel
  refine ⟨object, hread, (hnames 0 "b").mpr (by decide +kernel),
    (hposition 1 "b").mpr ⟨(hnames 1 "b").mpr (by decide +kernel), fun later hlater ↦ ?_⟩,
    fun hsame ↦ ?_⟩
  · obtain ⟨hinside, hspelling⟩ := (hnames later "b").mp hlater
    exact hlast later hinside hspelling
  · have hpositions := hdistinct.mp hsame 0 (by decide +kernel) 1 (by decide +kernel)
      (by decide +kernel)
    cases hpositions

/-- A file can be read although two of its records have the same name. -/
theorem not_namesDistinct_of_decode : ∃ object : Object, ∃ first second,
    decode foreignFile = .ok object ∧ object.symbols.entryAt? 0 = some first ∧
      object.symbols.entryAt? 1 = some second ∧ first.name = second.name ∧
      object.symbols.position? first.name ≠ some 0 ∧ ¬ object.symbols.NamesDistinct := by
  have hsome : (decode foreignFile).toOption.any fun object ↦
      (object.symbols.entryAt? 0).any fun first ↦ (object.symbols.entryAt? 1).any fun second ↦
        first.name == second.name && (object.symbols.position? first.name != some 0) := by
    decide +kernel
  obtain ⟨object, hread, hobject⟩ := (Option.any_eq_true _ _).mp hsome
  simp only [Option.any_eq_true, Bool.and_eq_true, beq_iff_eq, bne_iff_ne] at hobject
  obtain ⟨first, hfirst, second, hsecond, hname, hposition⟩ := hobject
  refine ⟨object, first, second, eq_ok_of_toOption hread, hfirst, hsecond, hname, hposition,
    fun hdistinct ↦ ?_⟩
  exact hposition (SymbolTable.namesDistinct_iff_position?.mp hdistinct 0 first hfirst)

end Object

end Aout
