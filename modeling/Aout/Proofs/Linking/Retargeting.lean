import Aout.Proofs.Linking.Placeholders
import Aout.Proofs.Linking.Provenance
/-!
What becomes of references that an object resolved inside itself when another object takes it in.
Every reference of the second object to a symbol is resolved again by name, in the joint table. So
it stands for the second object's own definition exactly as long as the first object has no
definition of this name at another address (`concat_retargets`).
-/

set_option autoImplicit false
set_option relaxedAutoImplicit false

namespace Aout

open Placeholder

namespace Relocated

variable {first second joined : Relocated} {owner : StoredSegment}

/-- The records of the second object as they stand behind the first one. -/
def movedRecords (first second : Relocated) (owner : StoredSegment) : Array Relocation :=
  (second.object.contents owner).relocations.map fun record ↦
    { record with address := record.address + first.shift owner }

/-- A reference to a name that the joint object defines is written with that definition's address.
-/
theorem AdoptedOutcome.exists_patch {table given : SymbolTable} {shift : UInt32}
    {record : Relocation} {outcome : Outcome}
    (hadopted : AdoptedOutcome table given shift record outcome) {index : Nat}
    (hindex : record.symbolIndex? = some index) {entry : SymbolEntry}
    (hentry : given.entryAt? index = some entry) (hdistinct : table.NamesDistinct)
    {symbol : Symbol} (hsymbol : table.definition? entry.name = some symbol) :
    ∃ word, outcome.patch? = some ⟨record.address + shift, word⟩ ∧
      word.toNat = symbol.value.toNat := by
  cases hadopted with
  | internal hnone =>
    rw [hindex] at hnone
    cases hnone
  | external hother hgiven hlocated hsettles =>
    obtain rfl := Option.some.inj (hindex.symm.trans hother)
    obtain rfl := Option.some.inj (hentry.symm.trans hgiven)
    rw [SymbolTable.definition?_of_entryAt? hdistinct hlocated] at hsymbol
    cases hsettles with
    | awaited hawaited =>
      rw [if_neg (by simp [hawaited])] at hsymbol
      cases hsymbol
    | defined hdefined hword =>
      rw [if_pos hdefined] at hsymbol
      obtain rfl := Option.some.inj hsymbol
      exact ⟨_, rfl, hword⟩

/-- The word that is written for a record of the second object stays, if no later placeholder meets
it. -/
theorem Joined.exists_word (hjoined : Joined first second joined) {position : Nat}
    {record : Relocation}
    (hrecord : (second.object.contents owner).relocations[position]? = some record)
    (hisolated : Relocation.Isolated (movedRecords first second owner) position) {index : Nat}
    (hindex : record.symbolIndex? = some index) {entry : SymbolEntry}
    (hentry : second.object.symbols.entryAt? index = some entry) (hdistinct : joined.NamesDistinct)
    {symbol : Symbol} (hsymbol : joined.object.symbols.definition? entry.name = some symbol) :
    ∃ word, wordAt? (joined.object.contents owner).bytes
        (record.address + first.shift owner).toNat = some word ∧
      word.toNat = symbol.value.toNat := by
  obtain ⟨own, adopted, -, hadopted, hinside, hcontents⟩ := hjoined.contents owner
  obtain ⟨outcome, houtcome, hfollows⟩ := Fallible.exists_getElem?_of_forall₂ hadopted
    (Array.getElem?_toList.trans hrecord)
  obtain ⟨word, hpatch, hword⟩ := hfollows.exists_patch hindex hentry hdistinct hsymbol
  refine ⟨word, ?_, hword⟩
  obtain ⟨hlt, rfl⟩ := List.getElem?_eq_some_iff.mp houtcome
  have hlater : ∀ slot ∈ (Outcome.patches (adopted.drop (position + 1))).map Patch.slot,
      Apart slot.offset (record.address + first.shift owner).toNat := by
    intro slot hslot
    obtain ⟨patch, hmember, rfl⟩ := List.mem_map.mp hslot
    obtain ⟨other, hother, hotherPatch⟩ := Outcome.mem_patches.mp hmember
    obtain ⟨place, hplace⟩ := List.mem_iff_getElem?.mp hother
    rw [List.getElem?_drop] at hplace
    obtain ⟨source, hsource, hfollows⟩ := Fallible.exists_getElem?_of_forall₂ hadopted.flip hplace
    rw [Array.getElem?_toList] at hsource
    have hmoved (place : Nat) (record : Relocation)
        (hrecord : (second.object.contents owner).relocations[place]? = some record) :
        (movedRecords first second owner)[place]? =
          some { record with address := record.address + first.shift owner } := by
      rw [movedRecords, Array.getElem?_map, hrecord, Option.map_some]
    have hapart := hisolated _ _ _ (hmoved position record hrecord) (hmoved _ source hsource)
      (by omega)
    rwa [Patch.slot, hfollows.standsAt.patch _ hotherPatch]
  have hsplit : Outcome.patches (own ++ adopted) =
      Outcome.patches (own ++ adopted.take position) ++
        ⟨record.address + first.shift owner, word⟩ ::
          Outcome.patches (adopted.drop (position + 1)) := by
    conv_lhs => rw [← List.take_append_drop position adopted, List.drop_eq_getElem_cons hlt]
    rw [← List.append_assoc, Outcome.patches_append, Outcome.patches_cons, hpatch]
    rfl
  have hfits := hinside _ (Outcome.mem_patches.mpr ⟨_, List.getElem_mem hlt, hpatch⟩)
  rw [hcontents, Outcome.contents, hsplit, Patch.foldl_write, List.map_append, List.map_cons]
  exact Slot.wordAt?_foldl_write_of_later_apart hlater _ (by rwa [Array.size_append])

/-- A reference of the second object to a symbol that it defines itself is written anew. It stands
for this definition afterwards exactly if the first object does not place the name somewhere else.
-/
theorem concat_retargets (hfirst : first.NamesDistinct) (hsecond : second.NamesDistinct)
    (hconcat : first.concat second = .done joined) {position index : Nat} {record : Relocation}
    {entry : SymbolEntry}
    (hrecord : (second.object.contents owner).relocations[position]? = some record)
    (hisolated : Relocation.Isolated (movedRecords first second owner) position)
    (hindex : record.symbolIndex? = some index)
    (hentry : second.object.symbols.entryAt? index = some entry)
    (hdefined : entry.symbol.isDefined) :
    ∃ word, wordAt? (joined.object.contents owner).bytes
        (record.address + first.shift owner).toNat = some word ∧
      (∀ known, first.meaning? entry.name = some known → word.toNat = known.address.toNat) ∧
      (word.toNat = (second.addressOf entry.symbol).toNat ↔
        ∀ known, first.meaning? entry.name = some known →
          known.address = second.addressOf entry.symbol) := by
  have hjoined := concat_eq_done hfirst hsecond hconcat
  have hdistinct := hjoined.distinct hfirst
  have hgiven := meaning?_of_entryAt? hsecond hentry
  rw [if_pos hdefined] at hgiven
  have hmeaning := hjoined.meaning entry.name
  rw [hgiven] at hmeaning
  obtain ⟨symbol, hsymbol, hvalue⟩ : ∃ symbol,
      joined.object.symbols.definition? entry.name = some symbol ∧
        ((first.meaning? entry.name).or
          (some ⟨entry.symbol.kind, second.addressOf entry.symbol⟩)) =
            some ⟨symbol.kind, symbol.value⟩ := by
    cases hsymbol : joined.object.symbols.definition? entry.name with
    | none =>
      rw [Relocated.meaning?, hsymbol, Option.map_none] at hmeaning
      cases hknown : first.meaning? entry.name <;> simp [hknown] at hmeaning
    | some symbol =>
      rw [Relocated.meaning?, hsymbol, Option.map_some, addressOf_of_rebased hjoined.rebased]
        at hmeaning
      exact ⟨symbol, rfl, hmeaning.symm⟩
  obtain ⟨word, hword, hwordValue⟩ :=
    hjoined.exists_word hrecord hisolated hindex hentry hdistinct hsymbol
  refine ⟨word, hword, ?_, ?_⟩
  · intro known hknown
    rw [hknown, Option.some_or] at hvalue
    rw [hwordValue, Option.some.inj hvalue]
  · rw [hwordValue, UInt32.toNat_inj]
    cases hknown : first.meaning? entry.name with
    | none =>
      rw [hknown, Option.none_or, Option.some.injEq, Meaning.mk.injEq] at hvalue
      simp [hvalue.2]
    | some known =>
      rw [hknown, Option.some_or] at hvalue
      obtain rfl := Option.some.inj hvalue
      simp

end Relocated

/-- An object whose text ends in a word that stands for a symbol, which the object itself defines at
the start of the text. -/
def Object.selfCalling (name : String) (code : List UInt8) : Object :=
  .edited .empty [.appendBytes .text code, .addSymbol name (.label .text 0 false),
    .appendWord .text 0, .addRelocation .text (.ofSymbol (UInt32.ofNat code.length) 0)]

namespace Relocated

theorem isolated_of_size_one {records : Array Relocation} (hsize : records.size = 1) :
    Relocation.Isolated records 0 :=
  Relocation.isolated_of_size_le_one (Nat.le_of_eq hsize) 0

/-- A reference that stays what it was, behind an object without the name. -/
theorem concat_retargets_apart :
    ∃ joined, concat ⟨.labelled "y" false, ⟨0x100, 0x200, 0x300⟩, false⟩
        ⟨.selfCalling "x" [0x90], ⟨0x101, 0x200, 0x300⟩, false⟩ = .done joined ∧
      ∃ word, wordAt? (joined.object.contents .text).bytes 2 = some word ∧ word.toNat = 0x101 := by
  have hconcat := Progress.eq_done_of_fault?
    (show (concat ⟨.labelled "y" false, ⟨0x100, 0x200, 0x300⟩, false⟩
      ⟨.selfCalling "x" [0x90], ⟨0x101, 0x200, 0x300⟩, false⟩).fault? = none by decide +kernel)
  have hrecords : ((Object.selfCalling "x" [0x90]).contents .text).relocations =
      #[.ofSymbol 1 0] := by
    decide +kernel
  obtain ⟨word, hword, -, hkept⟩ := concat_retargets
    (SymbolTable.namesDistinct_iff_nodup.mpr (by decide +kernel))
    (SymbolTable.namesDistinct_iff_nodup.mpr (by decide +kernel)) hconcat
    (show ((Object.selfCalling "x" [0x90]).contents .text).relocations[0]? =
      some (.ofSymbol 1 0) by rw [hrecords]; rfl)
    (isolated_of_size_one (by rw [movedRecords, Array.size_map, hrecords]; rfl)) rfl
    (show (Object.selfCalling "x" [0x90]).symbols.entryAt? 0 =
      some ⟨"x", .label .text 0 false⟩ by decide +kernel) (by decide)
  refine ⟨_, hconcat, word, hword, ?_⟩
  have hunknown : meaning? ⟨.labelled "y" false, ⟨0x100, 0x200, 0x300⟩, false⟩ "x" = none := by
    decide +kernel
  rw [hkept.mpr fun known hknown ↦ by rw [hunknown] at hknown; cases hknown]
  decide +kernel

/-- A reference that an object resolved inside itself, and that stands for a local symbol of another
one afterwards. -/
theorem not_concat_keeps :
    ¬ ∀ (first second joined : Relocated), Reachable first → Reachable second →
      first.NamesDistinct → second.NamesDistinct → first.concat second = .done joined →
      ∀ (owner : StoredSegment) (position index : Nat) (record : Relocation) (entry : SymbolEntry),
        (second.object.contents owner).relocations[position]? = some record →
        Relocation.Isolated (second.object.contents owner).relocations position →
        record.symbolIndex? = some index → second.object.symbols.entryAt? index = some entry →
        entry.symbol.isDefined →
          ∃ word, wordAt? (joined.object.contents owner).bytes
              (record.address + first.shift owner).toNat = some word ∧
            word.toNat = (second.addressOf entry.symbol).toNat := by
  intro hkeeps
  obtain ⟨first, hfirst⟩ : ∃ first,
      Placed.relocate ⟨.labelled "x" false, ⟨0, 0, 0⟩⟩ [] = .ok first :=
    Fallible.exists_eq_ok_of_isSome (by decide +kernel)
  obtain ⟨second, hsecond⟩ : ∃ second,
      Placed.relocate ⟨.selfCalling "x" [], ⟨1, 0, 0⟩⟩ [] = .ok second :=
    Fallible.exists_eq_ok_of_isSome (by decide +kernel)
  have hrun : ((Placed.relocate ⟨.labelled "x" false, ⟨0, 0, 0⟩⟩ []).toOption.bind fun first ↦
      (Placed.relocate ⟨.selfCalling "x" [], ⟨1, 0, 0⟩⟩ []).toOption.map fun second ↦
        ((first.concat second).fault?, first.shift .text,
          wordAt? ((first.concat second).state.object.contents .text).bytes 1,
          second.addressOf (.label .text 0 false))) = some (none, 1, some 0, 1) := by
    decide +kernel
  rw [hfirst, hsecond] at hrun
  simp only [Except.toOption, Option.bind_some, Option.map_some, Option.some.injEq, Prod.mk.injEq]
    at hrun
  obtain ⟨hfault, hshift, hword, haddress⟩ := hrun
  have hsame := Placed.relocates_of_relocate hsecond
  have hrecords : (second.object.contents .text).relocations = #[.ofSymbol 0 0] := by
    rw [hsame.relocations]
    decide +kernel
  obtain ⟨word, hfound, hkept⟩ := hkeeps first second _ (.relocate hfirst) (.relocate hsecond)
    (by
      rw [NamesDistinct, (Placed.relocates_of_relocate hfirst).symbols,
        SymbolTable.namesDistinct_iff_nodup]
      decide +kernel)
    (by
      rw [NamesDistinct, hsame.symbols, SymbolTable.namesDistinct_iff_nodup]
      decide +kernel)
    (Progress.eq_done_of_fault? hfault) .text 0 0 (.ofSymbol 0 0) ⟨"x", .label .text 0 false⟩
    (by rw [hrecords]; rfl) (isolated_of_size_one (by rw [hrecords]; rfl)) rfl
    (by rw [hsame.symbols]; decide +kernel) (by decide)
  rw [hshift, show (Relocation.ofSymbol 0 0).address + 1 = 1 by decide] at hfound
  obtain rfl := Option.some.inj (hword.symm.trans hfound)
  rw [haddress] at hkept
  cases hkept

end Relocated

end Aout
