import Aout.Object.File
import Aout.Proofs.Fallible
import Aout.Proofs.Header
import Aout.Proofs.NameTable
import Aout.Proofs.Relocation
import Aout.Proofs.Symbol.Growth
import Mathlib.Data.List.Induction
/-!
Reading files and writing them. Each part of a file is read exactly as it was written, so reading is
the inverse of writing on the objects that a file can hold as they are (`Object.Writable`): the
fields of headers and records are wide enough, and every name is spelled where its symbol says
(`Object.decode_eq_ok_iff`). The maps that speed up lookups are not written; reading rebuilds them
from the entries. The other way round nothing is lost either: whatever file is read, writing the
object gives back its bytes (`Object.encode_of_decode`).
-/

set_option autoImplicit false
set_option relaxedAutoImplicit false

namespace Aout

theorem SymbolTable.entries_ofEntries (entries : List SymbolEntry) :
    (ofEntries entries).entries = entries.toArray := by
  induction entries using List.reverseRecOn with
  | nil => rfl
  | append_singleton entries entry ih => simp [ofEntries_append_singleton, ih]

namespace Object

open Fallible

/-! ### Parts of files -/

theorem whole_eq_ok_iff {Contents : Type} {part : FilePart} {found : Option Contents}
    {contents : Contents} : whole part found = .ok contents ↔ found = some contents := by
  cases found <;> simp [whole]

theorem takeBytes?_eq_some_iff {count : Nat} {bytes front rest : List UInt8} :
    takeBytes? count bytes = some (front, rest) ↔ front.length = count ∧ bytes = front ++ rest := by
  unfold takeBytes?
  constructor
  · intro htake
    split at htake
    · cases htake
    · rename_i hlength
      rw [List.splitAt_eq, Option.some.injEq, Prod.mk.injEq] at htake
      obtain ⟨rfl, rfl⟩ := htake
      exact ⟨List.length_take_of_le (Nat.le_of_not_lt hlength), (List.take_append_drop ..).symm⟩
  · rintro ⟨rfl, rfl⟩
    rw [if_neg (by simp), List.splitAt_eq, List.take_left, List.drop_left]

section Records

variable {Record : Type} {take? : List UInt8 → Option (Record × List UInt8)}
  {encode : Record → List UInt8} {Valid : Record → Prop}

/-- A list of records is read as it was written if each record is. -/
theorem takeRecords?_eq_some_iff
    (htake : ∀ {record : Record} {bytes rest : List UInt8},
      take? bytes = some (record, rest) ↔ Valid record ∧ bytes = encode record ++ rest)
    {count : Nat} {records : List Record} {bytes rest : List UInt8} :
    takeRecords? take? count bytes = some (records, rest) ↔
      records.length = count ∧ (∀ record ∈ records, Valid record) ∧
        bytes = records.flatMap encode ++ rest := by
  induction count generalizing records bytes rest with
  | zero =>
    simp only [takeRecords?, Option.some.injEq, Prod.mk.injEq, List.length_eq_zero_iff]
    constructor
    · rintro ⟨rfl, rfl⟩
      exact ⟨rfl, List.forall_mem_nil _, rfl⟩
    · rintro ⟨rfl, -, rfl⟩
      exact ⟨rfl, rfl⟩
  | succ count ih =>
    simp only [takeRecords?, Option.bind_eq_bind, Option.bind_eq_some_iff, Option.pure_def,
      Option.some.injEq, Prod.mk.injEq, Prod.exists, htake, ih]
    constructor
    · rintro ⟨record, _, ⟨hvalid, rfl⟩, others, _, ⟨rfl, hothers, rfl⟩, rfl, rfl⟩
      exact ⟨rfl, List.forall_mem_cons.mpr ⟨hvalid, hothers⟩, by simp⟩
    · rintro ⟨hlength, hvalid, rfl⟩
      cases records with
      | nil => cases hlength
      | cons record others =>
        obtain ⟨hrecord, hothers⟩ := List.forall_mem_cons.mp hvalid
        exact ⟨record, _, ⟨hrecord, by simp⟩, others, rest, ⟨Nat.succ.inj hlength, hothers, rfl⟩,
          rfl, rfl⟩

end Records

theorem nameSymbols_eq_ok_iff {names : NameTable} {position : Nat} {symbols : List Symbol}
    {entries : List SymbolEntry} : nameSymbols names position symbols = .ok entries ↔
      entries.map (·.symbol) = symbols ∧
        ∀ entry ∈ entries, names.Spells entry.symbol.nameOffset entry.name := by
  induction symbols generalizing position entries with
  | nil =>
    simp only [nameSymbols, Except.ok.injEq, List.map_eq_nil_iff]
    constructor
    · rintro rfl
      exact ⟨rfl, List.forall_mem_nil _⟩
    · rintro ⟨rfl, -⟩
      rfl
  | cons symbol rest ih =>
    simp only [nameSymbols, bind_eq_ok_iff, pure_eq_ok_iff, NameTable.nameAt_eq_ok_iff_spells, ih]
    constructor
    · rintro ⟨name, hname, others, ⟨rfl, hothers⟩, rfl⟩
      exact ⟨rfl, List.forall_mem_cons.mpr ⟨hname, hothers⟩⟩
    · rintro ⟨hsymbols, hspelled⟩
      cases entries with
      | nil => cases hsymbols
      | cons entry others =>
        obtain ⟨rfl, rfl⟩ := List.cons.inj hsymbols
        obtain ⟨hentry, hothers⟩ := List.forall_mem_cons.mp hspelled
        exact ⟨entry.name, hentry, others, ⟨rfl, hothers⟩, rfl⟩

/-! ### Whole files -/

/-- What the header counts. -/
def amount (object : Object) : HeaderCount → Nat
  | .text => object.text.bytes.size
  | .data => object.data.bytes.size
  | .bss => object.bssSize.toNat
  | .symbols => object.symbols.size
  | .textRelocations => object.text.relocations.size
  | .dataRelocations => object.data.relocations.size

/-- A file can hold the object as it is. -/
structure Writable (object : Object) : Prop where
  magic : object.magic = Header.objectMagic
  amounts : ∀ count, object.amount count < Header.countLimit
  records : ∀ owner, ∀ record ∈ (object.contents owner).relocations, record.Storable
  names : ∀ spelling ∈ object.symbols.spellings, object.names.Spells spelling.2 spelling.1

variable {object : Object}

theorem count_header (object : Object) (count : HeaderCount) :
    object.header.count count = (UInt32.ofNat (object.amount count)).toInt32 := by
  cases count with
  | bss => rw [amount, UInt32.ofNat_toNat, Header.count, header]
  | _ => rfl

theorem Writable.toInt_count (hwritable : object.Writable) (count : HeaderCount) :
    (object.header.count count).toInt = object.amount count := by
  have hamount := hwritable.amounts count
  have hvalue : (UInt32.ofNat (object.amount count)).toNat = object.amount count :=
    UInt32.toNat_ofNat_of_lt' (Nat.lt_trans hamount (by decide))
  rw [count_header, Header.toInt_toInt32_of_lt (by rwa [hvalue]), hvalue]

theorem Writable.check_header (hwritable : object.Writable) : object.header.check = .ok () :=
  Header.check_eq_ok_iff.mpr ⟨hwritable.magic, fun count ↦ by
    rw [hwritable.toInt_count]
    exact Int.natCast_nonneg _⟩

theorem header_eq_iff {header : Header} : object.header = header ↔
    header.magic = object.magic ∧ header.entry = object.entry.toInt32 ∧
      ∀ count, (UInt32.ofNat (object.amount count)).toInt32 = header.count count := by
  constructor
  · rintro rfl
    exact ⟨rfl, rfl, fun count ↦ (count_header object count).symm⟩
  · rintro ⟨hmagic, hentry, hcount⟩
    obtain ⟨magic, text, data, bss, symbols, entry, textRelocations, dataRelocations⟩ := header
    simp only at hmagic hentry
    have hbss := hcount .bss
    rw [amount, UInt32.ofNat_toNat] at hbss
    rw [Object.header, Header.mk.injEq]
    exact ⟨hmagic.symm, hcount .text, hcount .data, hbss, hcount .symbols, hentry.symm,
      hcount .textRelocations, hcount .dataRelocations⟩

/-- A header that passes the check and gives the lengths of the parts is the one that describes the
object. -/
theorem header_eq_of_check {header : Header} (hcheck : header.check = .ok ())
    (hmagic : header.magic = object.magic) (hentry : header.entry.toUInt32 = object.entry)
    (hamount : ∀ count, object.amount count = (header.count count).toUInt32.toNat) :
    object.header = header ∧ ∀ count, object.amount count < Header.countLimit := by
  obtain ⟨-, hnonneg⟩ := Header.check_eq_ok_iff.mp hcheck
  constructor
  · refine header_eq_iff.mpr ⟨hmagic, ?_, fun count ↦ ?_⟩
    · rw [← hentry, Int32.toInt32_toUInt32]
    · rw [hamount, UInt32.ofNat_toNat, Int32.toInt32_toUInt32]
  · intro count
    rw [hamount]
    exact (Header.toNat_toInt_of_nonneg (hnonneg count)).2

/-- Reading accepts exactly what is written for the objects that a file can hold as they are. -/
theorem decode_eq_ok_iff {bytes : List UInt8} : decode bytes = .ok object ↔
    object.Writable ∧ object.symbols = .ofEntries object.symbols.entries.toList ∧
      bytes = object.encode := by
  have hsymbol {symbol : Symbol} {bytes rest : List UInt8} :
      Symbol.take? bytes = some (symbol, rest) ↔ True ∧ bytes = symbol.encode ++ rest := by
    rw [Symbol.take?_eq_some_iff, true_and]
  simp only [decode, bind_eq_ok_iff, pure_eq_ok_iff, whole_eq_ok_iff, Prod.exists,
    Header.take?_eq_some_iff, takeBytes?_eq_some_iff, takeRecords?_eq_some_iff hsymbol,
    takeRecords?_eq_some_iff Relocation.take?_eq_some_iff, nameSymbols_eq_ok_iff]
  constructor
  · rintro ⟨header, _, rfl, ⟨⟩, hcheck, text, _, ⟨htext, rfl⟩, data, _, ⟨hdata, rfl⟩,
      textRelocations, _, ⟨htextRelocations, htextStorable, rfl⟩,
      dataRelocations, _, ⟨hdataRelocations, hdataStorable, rfl⟩, symbols, names,
      ⟨hsymbols, -, rfl⟩, entries, ⟨rfl, hspelled⟩, hobject⟩
    have hamount (count : HeaderCount) :
        object.amount count = (header.count count).toUInt32.toNat := by
      have hvalue := (Header.toNat_toInt_of_nonneg
        ((Header.check_eq_ok_iff.mp hcheck).2 count)).1
      rw [← hobject, ← hvalue]
      cases count with
      | text => exact htext
      | data => exact hdata
      | bss => exact hvalue.symm
      | symbols =>
        simpa [amount, SymbolTable.size, SymbolTable.entries_ofEntries, Header.count] using hsymbols
      | textRelocations => exact htextRelocations
      | dataRelocations => exact hdataRelocations
    obtain ⟨hheader, hamounts⟩ :=
      header_eq_of_check hcheck (hobject ▸ rfl) (hobject ▸ rfl) hamount
    refine ⟨⟨?_, hamounts, fun owner ↦ ?_, ?_⟩, ?_, ?_⟩
    · rw [← hobject]
      exact (Header.check_eq_ok_iff.mp hcheck).1
    · rw [← hobject]
      cases owner with
      | text => simpa [contents] using htextStorable
      | data => simpa [contents] using hdataStorable
    · rw [← hobject]
      simpa [SymbolTable.spellings, SymbolTable.entries_ofEntries] using hspelled
    · rw [← hobject, SymbolTable.entries_ofEntries]
    · rw [encode, hheader, ← hobject]
      simp [SymbolTable.entries_ofEntries, List.flatMap_map]
  · rintro ⟨hwritable, hsymbols, rfl⟩
    have hlength (count : HeaderCount) :
        object.amount count = (object.header.count count).toInt.toNat := by
      rw [hwritable.toInt_count, Int.toNat_natCast]
    simp only [encode, List.append_assoc]
    refine ⟨object.header, _, rfl, (), hwritable.check_header, object.text.bytes.toList, _,
      ⟨hlength .text, rfl⟩, object.data.bytes.toList, _, ⟨hlength .data, rfl⟩,
      object.text.relocations.toList, _, ⟨hlength .textRelocations, ?_, rfl⟩,
      object.data.relocations.toList, _, ⟨hlength .dataRelocations, ?_, rfl⟩,
      object.symbols.entries.toList.map (·.symbol), object.names.bytes.toList,
      ⟨?_, fun _ _ ↦ trivial, ?_⟩, object.symbols.entries.toList, ⟨rfl, ?_⟩, ?_⟩
    · exact fun record hrecord ↦ hwritable.records .text record (Array.mem_toList_iff.mp hrecord)
    · exact fun record hrecord ↦ hwritable.records .data record (Array.mem_toList_iff.mp hrecord)
    · exact (List.length_map _).trans (hlength .symbols)
    · rw [List.flatMap_map]
    · exact fun entry hentry ↦ hwritable.names _ (List.mem_map_of_mem hentry)
    · rw [← hsymbols]
      rfl

/-- The object with its lookup structures built from the entries. -/
def reindexed (object : Object) : Object :=
  { object with symbols := .ofEntries object.symbols.entries.toList }

@[simp] theorem entries_reindexed (object : Object) :
    object.reindexed.symbols.entries = object.symbols.entries := by
  rw [reindexed, SymbolTable.entries_ofEntries]

theorem amount_reindexed (object : Object) (count : HeaderCount) :
    object.reindexed.amount count = object.amount count := by
  cases count with
  | symbols => exact congrArg Array.size (entries_reindexed object)
  | _ => rfl

theorem header_reindexed (object : Object) : object.reindexed.header = object.header :=
  header_eq_iff.mpr ⟨rfl, rfl, fun count ↦ by rw [amount_reindexed, count_header]⟩

theorem encode_reindexed (object : Object) : object.reindexed.encode = object.encode := by
  rw [encode, header_reindexed, entries_reindexed]
  rfl

theorem position?_reindexed (object : Object) (name : String) :
    object.reindexed.symbols.position? name = object.symbols.position? name := by
  rw [SymbolTable.position?_eq, SymbolTable.position?_eq, entries_reindexed]

theorem Writable.reindexed (hwritable : object.Writable) : object.reindexed.Writable where
  magic := hwritable.magic
  amounts := fun count ↦ by
    rw [amount_reindexed]
    exact hwritable.amounts count
  records := hwritable.records
  names := by
    rw [SymbolTable.spellings, entries_reindexed]
    exact hwritable.names

/-- An object that a file can hold is read as it was written, up to its lookup structures. -/
theorem Writable.decode_encode (hwritable : object.Writable) :
    decode object.encode = .ok object.reindexed :=
  decode_eq_ok_iff.mpr ⟨hwritable.reindexed, by rw [entries_reindexed]; rfl,
    (encode_reindexed object).symm⟩

/-- A file that is read is written again byte for byte, whatever it holds. -/
theorem encode_of_decode {bytes : List UInt8} (hread : decode bytes = .ok object) :
    object.encode = bytes := by
  obtain ⟨-, -, hbytes⟩ := decode_eq_ok_iff.mp hread
  exact hbytes.symm

/-- A file that this library would not have written: an entry address of 32 bits, a record with all
spare bits, a symbol kind with unknown flags, two symbols that share a name inside another name, and
a byte behind the last name. -/
def foreignFile : List UInt8 :=
  [0x07, 0x01, 0, 0, 2, 0, 0, 0, 0, 0, 0, 0, 5, 0, 0, 0, 3, 0, 0, 0, 0, 1, 0xFF, 0xFF,
    1, 0, 0, 0, 0, 0, 0, 0] ++
  [0x34, 0x12] ++
  [0, 0, 0, 0, 1, 0, 0, 0xFF] ++
  [1, 0, 0, 0, 2, 0, 0, 0xFF, 7, 0, 0, 0,
    1, 0, 0, 0, 34, 0, 0, 0, 0, 0, 0, 0,
    0, 0, 0, 0, 1, 0, 0, 0, 0, 0, 0, 0x80] ++
  [0x61, 0x62, 0, 0xFF]

theorem encode_of_decode_foreignFile :
    ∃ object, decode foreignFile = .ok object ∧ object.encode = foreignFile := by
  have hsome : (decode foreignFile).toOption.isSome := by decide +kernel
  obtain ⟨object, hread⟩ := exists_eq_ok_of_isSome hsome
  exact ⟨object, hread, encode_of_decode hread⟩

end Object

end Aout
