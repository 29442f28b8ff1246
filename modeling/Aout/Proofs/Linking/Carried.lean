import Aout.Proofs.Linking.Evolution
import Aout.Proofs.Linking.Retargeting
import Aout.Proofs.Linking.Validity
/-!
What a concatenation makes of every record and every byte. The records of the joint object are those
of the first, followed by those of the second at their new offsets (`Relocated.sources`), each of
them pointed anew by the joint table alone (`Source.carried`). Their placeholders have words written
over them exactly where the joint table defines the name, and nothing else is written
(`Relocated.Reachable.concat_exact`).

An outcome says what became of one record. Outcomes follow from the sources one by one
(`Joined.follows`), so the words that were written belong to the sources whose names are defined, in
the same order (`Source.forall₂_patches`).
-/

set_option autoImplicit false
set_option relaxedAutoImplicit false

namespace Aout

open Placeholder

namespace Relocated

/-- A record where it stands once two objects are in one, with the name to which it refers. -/
structure Source where
  record : Relocation
  name? : Option String

/-- The name to which a record of the module refers. -/
def name? (module : Relocated) (record : Relocation) : Option String :=
  record.symbolIndex?.bind fun index ↦ (module.object.symbols.entryAt? index).map (·.name)

/-- The records of two objects, of which the second comes to stand behind the first. -/
def sources (first second : Relocated) (owner : StoredSegment) : List Source :=
  (first.object.contents owner).relocations.toList.map
      (fun record ↦ ⟨record, first.name? record⟩) ++
    (second.object.contents owner).relocations.toList.map fun record ↦
      ⟨{ record with address := record.address + first.shift owner }, second.name? record⟩

namespace Source

/-- The symbol that a table defines under the name of the source. -/
def symbol? (table : SymbolTable) (source : Source) : Option Symbol :=
  source.name?.bind table.definition?

/-- The record as a joint table has it: pointing into the segment of the symbol to whose name it
refers, or else to where the name stands in the table. -/
def carried (table : SymbolTable) (source : Source) : Relocation :=
  match source.name? with
  | none => source.record
  | some name =>
    match (table.definition? name).bind (·.segment?) with
    | some segment => { source.record with external := false, index := segment.tag }
    | none => { source.record with index := UInt32.ofNat ((table.position? name).getD 0) }

/-- The sources over whose placeholders words are written: those whose names are defined. -/
def written (table : SymbolTable) (sources : List Source) : List Source :=
  sources.filter fun source ↦ (source.symbol? table).isSome

/-- What became of a record is what the joint table says. -/
structure Follows (table : SymbolTable) (source : Source) (outcome : Outcome) : Prop where
  record : outcome.record = source.carried table
  known : ∀ name, source.name? = some name → (table.position? name).isSome
  patch : Option.Rel (fun symbol patch ↦ patch.address = source.record.address ∧
    patch.word.toNat = symbol.value.toNat) (source.symbol? table) outcome.patch?

variable {table : SymbolTable} {record : Relocation} {name : String} {symbol : Symbol}
  {outcome : Outcome} {position : Nat}

theorem follows_internal (table : SymbolTable) (record : Relocation) :
    Follows table ⟨record, none⟩ ⟨record, none⟩ :=
  ⟨rfl, fun _ hname ↦ (nomatch hname), .none⟩

/-- A record that is pointed at a symbol of the table is settled as the table says. -/
theorem follows_settles (hdistinct : table.NamesDistinct)
    (hentry : table.entryAt? position = some ⟨name, symbol⟩)
    (hsettles : Settles symbol { record with index := UInt32.ofNat position } outcome) :
    Follows table ⟨record, some name⟩ outcome := by
  have hposition : table.position? name = some position :=
    SymbolTable.namesDistinct_iff_position?.mp hdistinct position _ hentry
  have hknown : ∀ other, some name = some other → (table.position? other).isSome := by
    rintro _ ⟨rfl⟩
    rw [hposition, Option.isSome_some]
  have hdefinition := SymbolTable.definition?_of_entryAt? hdistinct hentry
  cases hsettles with
  | awaited hawaited =>
    rw [if_neg (by simp [hawaited])] at hdefinition
    refine ⟨?_, hknown, ?_⟩
    · simp only [carried, hdefinition, Option.bind_none, hposition, Option.getD_some]
    · simp only [symbol?, Option.bind_some, hdefinition]
      exact .none
  | defined hdefined hword =>
    rw [if_pos hdefined] at hdefinition
    refine ⟨?_, hknown, ?_⟩
    · unfold carried settle
      dsimp only
      rw [hdefinition, Option.bind_some, hposition]
      cases symbol.segment? with
      | none => rfl
      | some _ => rfl
    · simp only [symbol?, Option.bind_some, hdefinition]
      exact .some ⟨rfl, hword⟩

theorem map_record {sources : List Source} {outcomes : List Outcome}
    (hfollows : List.Forall₂ (Follows table) sources outcomes) :
    outcomes.map (·.record) = sources.map (·.carried table) := by
  induction hfollows with
  | nil => rfl
  | cons hfirst _ ih => rw [List.map_cons, List.map_cons, hfirst.record, ih]

/-- The words that are written belong to the sources whose names are defined. -/
theorem forall₂_patches {sources : List Source} {outcomes : List Outcome}
    (hfollows : List.Forall₂ (Follows table) sources outcomes) :
    List.Forall₂ (fun source patch ↦ ∃ symbol, source.symbol? table = some symbol ∧
        patch.address = source.record.address ∧ patch.word.toNat = symbol.value.toNat)
      (written table sources) (Outcome.patches outcomes) := by
  induction hfollows with
  | nil => exact .nil
  | @cons source outcome _ _ hfirst _ ih =>
    have hpatch := hfirst.patch
    rw [written, List.filter_cons, Outcome.patches_cons]
    generalize hsymbol : source.symbol? table = symbol?, outcome.patch? = patch? at hpatch
    cases hpatch with
    | none => exact ih
    | some hwritten => exact .cons ⟨_, hsymbol, hwritten⟩ ih

end Source

variable {first second joined : Relocated} {owner : StoredSegment}

/-! ### The records of both objects -/

theorem name?_eq_some_iff {module : Relocated} {record : Relocation} {name : String} :
    module.name? record = some name ↔ ∃ index symbol, record.symbolIndex? = some index ∧
      module.object.symbols.entryAt? index = some ⟨name, symbol⟩ := by
  rw [name?, Option.bind_eq_some_iff]
  refine exists_congr fun index ↦ ?_
  rw [Option.map_eq_some_iff]
  constructor
  · rintro ⟨hindex, ⟨_, symbol⟩, hentry, rfl⟩
    exact ⟨symbol, hindex, hentry⟩
  · rintro ⟨symbol, hindex, hentry⟩
    exact ⟨hindex, _, hentry, rfl⟩

theorem name?_eq_none {module : Relocated} {record : Relocation}
    (hindex : record.symbolIndex? = none) : module.name? record = none := by
  rw [name?, hindex, Option.bind_none]

/-- Valid records that refer to a symbol refer to a name. -/
theorem exists_name? {module : Relocated} {bytes : Nat} {record : Relocation}
    (hvalid : record.Valid bytes module.object.symbols.size) {index : Nat}
    (hindex : record.symbolIndex? = some index) : ∃ name symbol,
      module.name? record = some name ∧
        module.object.symbols.entryAt? index = some ⟨name, symbol⟩ := by
  obtain ⟨⟨name, symbol⟩, hentry⟩ : ∃ entry, module.object.symbols.entryAt? index = some entry :=
    ⟨_, Array.getElem?_eq_getElem (hvalid.lt_of_symbolIndex? hindex)⟩
  exact ⟨name, symbol, name?_eq_some_iff.mpr ⟨index, symbol, hindex, hentry⟩, hentry⟩

theorem Informed.own_follows (hinformed : Informed first second joined)
    (hdistinct : joined.NamesDistinct) {bytes : Nat} {record : Relocation}
    (hvalid : record.Valid bytes first.object.symbols.size) {outcome : Outcome}
    (hown : OwnOutcome joined.object.symbols record outcome) :
    Source.Follows joined.object.symbols ⟨record, first.name? record⟩ outcome := by
  cases hown with
  | internal hindex =>
    rw [name?_eq_none hindex]
    exact Source.follows_internal _ record
  | @external index entry _ hindex hentry hsettles =>
    obtain ⟨name, former, hname, hformer⟩ := exists_name? hvalid hindex
    obtain ⟨symbol, hlater⟩ := exists_entryAt?_of_grows hinformed.grows hformer
    obtain rfl := Option.some.inj (hlater.symm.trans hentry)
    have hsame : { record with index := UInt32.ofNat index } = record := by
      rw [← (Relocation.symbolIndex?_eq_some_iff.mp hindex).2, UInt32.ofNat_toNat]
    rw [hname]
    exact Source.follows_settles hdistinct hentry (hsame ▸ hsettles)

theorem adopted_follows (hdistinct : joined.NamesDistinct) {record : Relocation}
    {outcome : Outcome} {shift : UInt32}
    (hadopted : AdoptedOutcome joined.object.symbols second.object.symbols shift record outcome) :
    Source.Follows joined.object.symbols
      ⟨{ record with address := record.address + shift }, second.name? record⟩ outcome := by
  cases hadopted with
  | internal hindex =>
    rw [name?_eq_none hindex]
    exact Source.follows_internal _ _
  | @external index position entry symbol _ hindex hentry hlocated hsettles =>
    rw [name?_eq_some_iff.mpr ⟨index, entry.symbol, hindex, hentry⟩]
    exact Source.follows_settles hdistinct hlocated hsettles

/-- Every record of either object has its outcome in the joint one. -/
theorem Joined.follows (hjoined : Joined first second joined) (hfirst : first.object.Valid)
    (hdistinct : joined.NamesDistinct) (owner : StoredSegment) : ∃ outcomes,
      List.Forall₂ (Source.Follows joined.object.symbols) (sources first second owner) outcomes ∧
      joined.object.contents owner = Outcome.contents
        ((first.object.contents owner).bytes ++ (second.object.contents owner).bytes)
        outcomes := by
  obtain ⟨own, adopted, hown, hadopted, -, hcontents⟩ := hjoined.contents owner
  refine ⟨own ++ adopted, List.rel_append ?_ ?_, hcontents⟩
  · rw [List.forall₂_map_left_iff]
    have hvalid : ∀ record ∈ (first.object.contents owner).relocations.toList,
        record.Valid (first.object.contents owner).bytes.size first.object.symbols.size :=
      fun record hrecord ↦ hfirst owner record (Array.mem_toList_iff.mp hrecord)
    exact ((List.forall₂_and_left _ _).mpr ⟨hvalid, hown⟩).imp fun _ _ ⟨hrecord, houtcome⟩ ↦
      hjoined.own_follows hdistinct hrecord houtcome
  · rw [List.forall₂_map_left_iff]
    exact hadopted.imp fun _ _ houtcome ↦ adopted_follows hdistinct houtcome

/-- The placeholders of valid records lie inside the joint segment. -/
theorem inside_of_sources (hfirst : first.object.Valid) (hsecond : second.object.Valid)
    {source : Source} (hsource : source ∈ sources first second owner) :
    source.record.address.toNat + 1 <
      (first.object.contents owner).bytes.size + (second.object.contents owner).bytes.size := by
  rcases List.mem_append.mp hsource with hown | hmoved
  · obtain ⟨record, hrecord, rfl⟩ := List.mem_map.mp hown
    exact Nat.lt_add_right _ (hfirst owner record (Array.mem_toList_iff.mp hrecord)).inside
  · obtain ⟨record, hrecord, rfl⟩ := List.mem_map.mp hmoved
    exact inside_of_moved (hsecond owner record (Array.mem_toList_iff.mp hrecord)).inside

/-- Exactly the external ones among valid records have a name. -/
theorem name?_eq_none_iff {module : Relocated} {bytes : Nat} {record : Relocation}
    (hvalid : record.Valid bytes module.object.symbols.size) :
    module.name? record = none ↔ record.external = false := by
  rw [← Relocation.symbolIndex?_eq_none_iff]
  refine ⟨fun hnone ↦ ?_, name?_eq_none⟩
  cases hindex : record.symbolIndex? with
  | none => rfl
  | some index =>
    obtain ⟨name, -, hname, -⟩ := exists_name? hvalid hindex
    rw [hnone] at hname
    cases hname

theorem name?_eq_none_iff_of_mem_sources (hfirst : first.object.Valid)
    (hsecond : second.object.Valid) {source : Source}
    (hsource : source ∈ sources first second owner) :
    source.name? = none ↔ source.record.external = false := by
  rcases List.mem_append.mp hsource with hown | hmoved
  · obtain ⟨record, hrecord, rfl⟩ := List.mem_map.mp hown
    exact name?_eq_none_iff (hfirst owner record (Array.mem_toList_iff.mp hrecord))
  · obtain ⟨record, hrecord, rfl⟩ := List.mem_map.mp hmoved
    exact name?_eq_none_iff (hsecond owner record (Array.mem_toList_iff.mp hrecord))

/-! ### Bytes -/

/-- A word that is written belongs to a source whose name is defined. -/
theorem Source.exists_of_mem_slots {table : SymbolTable} {sources : List Source}
    {outcomes : List Outcome} (hfollows : List.Forall₂ (Source.Follows table) sources outcomes)
    {slot : Slot} (hslot : slot ∈ (Outcome.patches outcomes).map Patch.slot) :
    ∃ source ∈ Source.written table sources, slot.offset = source.record.address.toNat := by
  obtain ⟨patch, hpatch, rfl⟩ := List.mem_map.mp hslot
  obtain ⟨source, hsource, -, -, haddress, -⟩ :=
    Fallible.exists_mem_of_forall₂ (Source.forall₂_patches hfollows) hpatch
  exact ⟨source, hsource, congrArg UInt32.toNat haddress⟩

/-- The words of the joint segment, and all that lies outside of the placeholders. -/
theorem renders_of_follows {table : SymbolTable} {sources : List Source} {outcomes : List Outcome}
    (hfollows : List.Forall₂ (Source.Follows table) sources outcomes) {bytes : Array UInt8}
    (hinside : ∀ source ∈ sources, source.record.address.toNat + 1 < bytes.size) :
    (∀ offset, (∀ source ∈ Source.written table sources,
        ¬Covers source.record.address.toNat offset) →
      (Outcome.contents bytes outcomes).bytes[offset]? = bytes[offset]?) ∧
    ∀ (place : Nat) (source : Source) (symbol : Symbol),
      (Source.written table sources)[place]? = some source →
      source.symbol? table = some symbol →
      (∀ (other : Nat) (further : Source),
        (Source.written table sources)[other]? = some further → other ≠ place →
        Apart further.record.address.toNat source.record.address.toNat) →
      ∃ word, wordAt? (Outcome.contents bytes outcomes).bytes source.record.address.toNat =
        some word ∧ word.toNat = symbol.value.toNat := by
  have hpatches := Source.forall₂_patches hfollows
  have hfits : Template.Fits ⟨bytes, (Outcome.patches outcomes).map Patch.slot⟩ := by
    intro slot hslot
    obtain ⟨source, hsource, hoffset⟩ := Source.exists_of_mem_slots hfollows hslot
    rw [hoffset]
    exact hinside source (List.mem_of_mem_filter hsource)
  have hrenders := Renders.of_foldl_write hfits
  rw [← Patch.foldl_write] at hrenders
  refine ⟨fun offset hfree ↦ hrenders.outside offset fun slot hslot ↦ ?_, ?_⟩
  · obtain ⟨source, hsource, hoffset⟩ := Source.exists_of_mem_slots hfollows hslot
    rw [hoffset]
    exact hfree source hsource
  · intro place source symbol hsource hsymbol hapart
    obtain ⟨patch, hpatch, found, hfound, haddress, hword⟩ :=
      Fallible.exists_getElem?_of_forall₂ hpatches hsource
    obtain rfl := Option.some.inj (hfound.symm.trans hsymbol)
    have hslot : ((Outcome.patches outcomes).map Patch.slot)[place]? = some patch.slot := by
      rw [List.getElem?_map, hpatch, Option.map_some]
    have hisolated : Slot.Isolated ((Outcome.patches outcomes).map Patch.slot) place := by
      intro slot other position hheld hother hposition
      obtain rfl := Option.some.inj (hheld.symm.trans hslot)
      rw [List.getElem?_map, Option.map_eq_some_iff] at hother
      obtain ⟨later, hlater, rfl⟩ := hother
      obtain ⟨further, hfurther, -, -, hlaterAddress, -⟩ :=
        Fallible.exists_getElem?_of_forall₂ hpatches.flip hlater
      rw [Patch.slot, Patch.slot, haddress, hlaterAddress]
      exact hapart position further hfurther hposition
    have hheld := hrenders.word place patch.slot hslot hisolated
    rw [Patch.slot, haddress] at hheld
    exact ⟨patch.word, hheld, hword⟩

namespace Reachable

/-- What a concatenation of relocated objects makes of them, in terms of the joint table. Bytes and
sizes are those of the first object and then those of the second. So are the records, with offsets
that count from where the bytes of the first begin: none is lost, added or moved among the others,
and each is pointed anew at most. Over the placeholders of names that the joint table defines stand
its absolute addresses; no other byte has changed. -/
theorem concat_exact (hfirst : Reachable first) (hsecond : Reachable second)
    (hfirstDistinct : first.NamesDistinct) (hsecondDistinct : second.NamesDistinct)
    (hdone : first.concat second = .done joined) :
    joined.object.bssSize.toNat = first.object.bssSize.toNat + second.object.bssSize.toNat ∧
    first.object.symbols.names <+: joined.object.symbols.names ∧
    (∀ name, joined.meaning? name = (first.meaning? name).or (second.meaning? name)) ∧
    ∀ owner,
      (joined.object.contents owner).bytes.size =
        (first.object.contents owner).bytes.size + (second.object.contents owner).bytes.size ∧
      ((first.object.contents owner).bytes.size + (second.object.contents owner).bytes.size ≤
          UInt32.size →
        ∀ record ∈ (second.object.contents owner).relocations,
          (record.address + first.shift owner).toNat =
            (first.object.contents owner).bytes.size + record.address.toNat) ∧
      (∀ source ∈ sources first second owner,
        (source.name? = none ↔ source.record.external = false) ∧
          ∀ name, source.name? = some name → (joined.object.symbols.position? name).isSome) ∧
      (joined.object.contents owner).relocations.toList =
        (sources first second owner).map (·.carried joined.object.symbols) ∧
      (∀ offset, (∀ source ∈ Source.written joined.object.symbols (sources first second owner),
          ¬Covers source.record.address.toNat offset) →
        (joined.object.contents owner).bytes[offset]? =
          ((first.object.contents owner).bytes ++ (second.object.contents owner).bytes)[offset]?) ∧
      ∀ (place : Nat) (source : Source) (symbol : Symbol),
        (Source.written joined.object.symbols (sources first second owner))[place]? = some source →
        source.symbol? joined.object.symbols = some symbol →
        (∀ (other : Nat) (further : Source),
          (Source.written joined.object.symbols (sources first second owner))[other]? =
            some further → other ≠ place →
          Apart further.record.address.toNat source.record.address.toNat) →
        ∃ word, wordAt? (joined.object.contents owner).bytes source.record.address.toNat =
          some word ∧ word.toNat = (joined.addressOf symbol).toNat := by
  have hjoined := concat_eq_done hfirstDistinct hsecondDistinct hdone
  have hdistinct := hjoined.distinct hfirstDistinct
  have hsteps : Object.Evolves second.object first.object joined.object := by
    have hstate := concat_evolves first second
    rwa [hdone] at hstate
  refine ⟨hjoined.bssSize, hsteps.names_prefix, hjoined.meaning, fun owner ↦ ?_⟩
  obtain ⟨outcomes, hfollows, hcontents⟩ := hjoined.follows hfirst.valid hdistinct owner
  have hinside : ∀ source ∈ sources first second owner, source.record.address.toNat + 1 <
      ((first.object.contents owner).bytes ++ (second.object.contents owner).bytes).size := by
    rw [Array.size_append]
    exact fun source hsource ↦ inside_of_sources hfirst.valid hsecond.valid hsource
  obtain ⟨houtside, hwords⟩ := renders_of_follows hfollows hinside
  refine ⟨?_, ?_, ?_, ?_, ?_, ?_⟩
  · rw [hcontents, Outcome.size_contents, Array.size_append]
  · intro hbytes record hrecord
    exact toNat_moved (hsecond.valid owner record hrecord).inside hbytes
  · intro source hsource
    refine ⟨name?_eq_none_iff_of_mem_sources hfirst.valid hsecond.valid hsource, ?_⟩
    obtain ⟨outcome, -, houtcome⟩ := Fallible.exists_mem_of_forall₂ hfollows.flip hsource
    exact houtcome.known
  · rw [hcontents, Outcome.contents, List.toList_toArray]
    exact Source.map_record hfollows
  · rw [hcontents]
    exact houtside
  · simp only [hcontents, addressOf_of_rebased hjoined.rebased]
    exact hwords

/-- A function takes in a call of it. -/
theorem concat_exact_call : ∃ first second joined,
    Placed.relocateAll
        [⟨.labelled "f" true, ⟨0x100, 0, 0⟩⟩, ⟨.calling "f", ⟨0x101, 0, 0⟩⟩] = .ok [first, second] ∧
      first.concat second = .done joined ∧
      (joined.object.contents .text).bytes.size = 3 ∧
      (joined.object.contents .text).relocations.toList =
        (sources first second .text).map (·.carried joined.object.symbols) := by
  have hfault : ((Placed.relocateAll [⟨.labelled "f" true, ⟨0x100, 0, 0⟩⟩,
      ⟨.calling "f", ⟨0x101, 0, 0⟩⟩]).toOption.bind fun relocated ↦
        relocated[0]?.bind fun first ↦ relocated[1]?.map fun second ↦
          (first.concat second).fault?) = some none := by
    decide +kernel
  obtain ⟨relocated, hrelocate, hfault⟩ := Option.bind_eq_some_iff.mp hfault
  have hrelocate := Fallible.eq_ok_of_toOption hrelocate
  cases Placed.relocateAll_eq_ok hrelocate with
  | @cons _ first _ _ hfirst hrest =>
    cases hrest with
    | @cons _ second _ _ hsecond hnone =>
      cases hnone
      obtain ⟨-, -, -, hall⟩ := concat_exact
        (.relocateAll hrelocate List.mem_cons_self)
        (.relocateAll hrelocate (List.mem_cons_of_mem _ List.mem_cons_self))
        (by
          rw [NamesDistinct, hfirst.symbols, SymbolTable.namesDistinct_iff_nodup]
          decide +kernel)
        (by
          rw [NamesDistinct, hsecond.symbols, SymbolTable.namesDistinct_iff_nodup]
          decide +kernel)
        (Progress.eq_done_of_fault? (Option.some.inj hfault))
      obtain ⟨hsize, -, -, hrecords, -⟩ := hall .text
      refine ⟨first, second, _, hrelocate, Progress.eq_done_of_fault? (Option.some.inj hfault), ?_,
        hrecords⟩
      rw [hsize, hfirst.size_bytes, hsecond.size_bytes]
      decide +kernel

end Reachable

end Relocated

end Aout
