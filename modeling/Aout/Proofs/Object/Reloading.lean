import Aout.Proofs.Object.File
/-!
Objects that are written and read again. An object may have been written with a record or a name
that a file cannot hold, and its file may be readable all the same; what is read then are the
symbols that were written and the same name table, and each name ends with its first zero byte
(`Object.Countable.symbols_of_decode`).
-/

set_option autoImplicit false
set_option relaxedAutoImplicit false

namespace Aout

theorem Header.encode_injective {first second : Header} (hsame : first.encode = second.encode) :
    first = second := by
  have hfirst : take? (first.encode ++ []) = some (first, []) := take?_eq_some_iff.mpr rfl
  have hsecond : take? (second.encode ++ []) = some (second, []) := take?_eq_some_iff.mpr rfl
  rw [hsame, hsecond] at hfirst
  exact (Prod.mk.inj (Option.some.inj hfirst)).1.symm

namespace Object

/-- The fields of a file can number all parts of the object. -/
structure Countable (object : Object) : Prop where
  amounts : ∀ count, object.amount count < UInt32.size
  names : object.names.bytes.size < UInt32.size

variable {object reloaded : Object}

theorem amount_eq_of_header_eq (hobject : object.Countable) (hreloaded : reloaded.Writable)
    (hheader : object.header = reloaded.header) (count : HeaderCount) :
    object.amount count = reloaded.amount count := by
  have hcount : (UInt32.ofNat (object.amount count)).toInt32 =
      (UInt32.ofNat (reloaded.amount count)).toInt32 := by
    rw [← count_header, ← count_header, hheader]
  have hword := congrArg (fun field : Int32 ↦ field.toUInt32.toNat) hcount
  have hlimit : Header.countLimit ≤ UInt32.size := by decide
  simpa [UInt32.toNat_ofNat_of_lt' (hobject.amounts count),
    UInt32.toNat_ofNat_of_lt' (Nat.lt_of_lt_of_le (hreloaded.amounts count) hlimit)] using hword

/-- The bytes in front of the symbols. -/
def encodeFront (object : Object) : List UInt8 :=
  object.header.encode ++ object.text.bytes.toList ++ object.data.bytes.toList ++
    object.text.relocations.toList.flatMap (·.encode) ++
    object.data.relocations.toList.flatMap (·.encode)

theorem length_flatMap_relocations (records : List Relocation) :
    (records.flatMap (·.encode)).length = Relocation.fileSize * records.length := by
  simp [List.length_flatMap, Nat.mul_comm]

theorem length_encodeFront (object : Object) : object.encodeFront.length =
    Header.fileSize + object.amount .text + object.amount .data +
      Relocation.fileSize * object.amount .textRelocations +
      Relocation.fileSize * object.amount .dataRelocations := by
  simp only [encodeFront, List.length_append, Header.length_encode, length_flatMap_relocations,
    Array.length_toList, amount]

theorem takeRecords?_symbols (object : Object) :
    takeRecords? Symbol.take? object.symbols.size
      ((object.symbols.entries.toList.map (·.symbol)).flatMap Symbol.encode ++
        object.names.bytes.toList) =
      some (object.symbols.entries.toList.map (·.symbol), object.names.bytes.toList) := by
  have hsymbol {symbol : Symbol} {bytes rest : List UInt8} :
      Symbol.take? bytes = some (symbol, rest) ↔ True ∧ bytes = symbol.encode ++ rest := by
    rw [Symbol.take?_eq_some_iff, true_and]
  rw [takeRecords?_eq_some_iff hsymbol]
  exact ⟨by simp [SymbolTable.size], fun _ _ ↦ trivial, rfl⟩

theorem encode_eq (object : Object) : object.encode = object.encodeFront ++
    ((object.symbols.entries.toList.map (·.symbol)).flatMap Symbol.encode ++
      object.names.bytes.toList) := by
  simp [encode, encodeFront, List.flatMap_map]

theorem header_eq_of_encode_eq (hsame : object.encode = reloaded.encode) :
    object.header = reloaded.header := by
  simp only [encode, List.append_assoc] at hsame
  exact Header.encode_injective (List.append_inj hsame (by simp only [Header.length_encode])).1

/-- What is read of the symbols and names of an object that was written. -/
theorem Countable.symbols_of_decode (hcountable : object.Countable)
    (hread : decode object.encode = .ok reloaded) :
    reloaded.symbols = .ofEntries reloaded.symbols.entries.toList ∧
      List.Forall₂
        (fun written read ↦ read.symbol = written.symbol ∧
          object.names.Spells written.symbol.nameOffset read.name)
        object.symbols.entries.toList reloaded.symbols.entries.toList := by
  obtain ⟨hwritable, hindex, hbytes⟩ := decode_eq_ok_iff.mp hread
  have hamount := amount_eq_of_header_eq hcountable hwritable (header_eq_of_encode_eq hbytes)
  have hlength : object.encodeFront.length = reloaded.encodeFront.length := by
    simp only [length_encodeFront, hamount]
  rw [encode_eq, encode_eq] at hbytes
  have hfound := takeRecords?_symbols object
  have hsize : object.symbols.size = reloaded.symbols.size := hamount .symbols
  rw [(List.append_inj hbytes hlength).2, hsize, takeRecords?_symbols, Option.some.injEq,
    Prod.mk.injEq] at hfound
  have hsymbols : List.Forall₂ Eq (object.symbols.entries.toList.map (·.symbol))
      (reloaded.symbols.entries.toList.map (·.symbol)) := by
    rw [List.forall₂_eq_eq_eq, hfound.1]
  have hsame := List.forall₂_map_right_iff.mp (List.forall₂_map_left_iff.mp hsymbols)
  refine ⟨hindex, List.forall₂_iff_zip.mpr ⟨hsame.length_eq, fun {written read} hpair ↦ ?_⟩⟩
  have hsymbol : written.symbol = read.symbol := List.forall₂_zip hsame hpair
  have hspelled := hwritable.names _ (List.mem_map_of_mem (List.of_mem_zip hpair).2)
  rw [NameTable.Spells, hfound.2, ← hsymbol] at hspelled
  exact ⟨hsymbol.symm, hspelled⟩

end Object

end Aout
