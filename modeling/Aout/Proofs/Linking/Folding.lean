import Aout.Linking.Image
import Aout.Proofs.Linking.Evolution
import Aout.Proofs.Linking.Joining
import Aout.Proofs.Linking.Layout
import Aout.Proofs.Linking.Resolution
/-!
The image while it takes in one relocated object after the other. It carries what the objects so far
have in them (`Image.Carries`): their segments behind one another with the words that relocation put
there, the first meaning of every name, and records that stand at these words. A placeholder of a
symbol is written again whenever its name is met later. It gets the same word, since the name has
only one definition among all objects and the image means by a name what the first of them means.
`Image.carries_append` is the step and `Image.carries_of_fold` the run.
-/

set_option autoImplicit false
set_option relaxedAutoImplicit false

namespace Aout

namespace Placed

/-- What the first of several modules that define a name means by it. -/
def firstMeaning? (modules : List Placed) (name : String) : Option Meaning :=
  modules.findSome? (·.meaning? name)

/-- A record that stands at one of the slots. If it refers to a symbol, the name of the symbol has
one definition among the modules, and the slot holds its address. -/
def Stands (modules : List Placed) (table : SymbolTable) (slots : List Slot) (record : Relocation) :
    Prop :=
  ∃ slot ∈ slots, slot.offset = record.address.toNat ∧
    ∀ index, record.symbolIndex? = some index → ∃ entry address,
      table.entryAt? index = some entry ∧ findDefinition modules entry.name = .ok address ∧
        slot.word.toNat = address.toNat

variable {modules front : List Placed} {module : Placed} {relocated : Relocated}
  {owner : StoredSegment}

theorem address_of_firstMeaning? {name : String} {address : UInt32}
    (hfound : findDefinition modules name = .ok address) (hfront : front ⊆ modules)
    {meaning : Meaning} (hmeaning : firstMeaning? front name = some meaning) :
    meaning.address = address := by
  obtain ⟨module, hmodule, hmeans⟩ := List.exists_of_findSome?_eq_some hmeaning
  exact address_of_findDefinition hfound (hfront hmodule) hmeans

namespace Relocates

theorem meaning? (hrelocates : Relocates modules module relocated) (name : String) :
    relocated.meaning? name = module.meaning? name := by
  unfold Relocated.meaning? Relocated.addressOf Placed.meaning?
  rw [hrelocates.symbols, hrelocates.rebased, hrelocates.bases]
  rfl

theorem fits (hrelocates : Relocates modules module relocated) (owner : StoredSegment) :
    (module.template modules owner).Fits := by
  intro slot hslot
  obtain ⟨record, hrecord, rfl⟩ := List.mem_map.mp hslot
  obtain ⟨patch, hpatch⟩ := hrelocates.resolves owner record (Array.mem_toList_iff.mp hrecord)
  obtain ⟨held, -, hheld, -⟩ := resolveRecord_eq_ok_iff.mp hpatch
  exact Placeholder.wordAt?_isSome_iff.mp (Option.isSome_of_eq_some hheld)

theorem size_bytes (hrelocates : Relocates modules module relocated) (owner : StoredSegment) :
    (relocated.object.contents owner).bytes.size = (module.object.contents owner).bytes.size := by
  rw [hrelocates.bytes, Slot.size_foldl_write]

theorem size_template (hrelocates : Relocates modules module relocated) (owner : StoredSegment) :
    (relocated.object.contents owner).bytes.size = (module.template modules owner).bytes.size :=
  hrelocates.size_bytes owner

theorem stands (hrelocates : Relocates modules module relocated) {record : Relocation}
    (hrecord : record ∈ (relocated.object.contents owner).relocations) :
    Stands modules relocated.object.symbols (module.template modules owner).slots record := by
  rw [hrelocates.relocations] at hrecord
  refine ⟨module.slot modules owner record, List.mem_map_of_mem (Array.mem_toList_iff.mpr hrecord),
    rfl, fun index hindex ↦ ?_⟩
  obtain ⟨patch, hpatch⟩ := hrelocates.resolves owner record hrecord
  obtain ⟨held, address, -, htarget, -, hword⟩ := resolveRecord_eq_ok_iff.mp hpatch
  obtain ⟨entry, hentry, hfound⟩ := target_eq_ok_of_external hindex htarget
  refine ⟨entry, address, hrelocates.symbols ▸ hentry, hfound, ?_⟩
  rw [slot_of_resolveRecord hpatch, Patch.slot, hword]

end Relocates

end Placed

namespace Image

open Placed

variable {modules front : List Placed} {image joined : Relocated} {owner : StoredSegment}

/-- The bytes of several modules and the words that relocation puts there. -/
def template (modules front : List Placed) (owner : StoredSegment) : Template :=
  .join (front.map (·.template modules owner))

theorem template_append_singleton (modules front : List Placed) (next : Placed)
    (owner : StoredSegment) : template modules (front ++ [next]) owner =
      (template modules front owner).append (next.template modules owner) := by
  rw [template, List.map_append, List.map_singleton, Template.join_append_singleton, template]

theorem fits_template_append {next : Placed} {second : Relocated}
    (hfits : ∀ owner, (template modules front owner).Fits)
    (hrelocates : Relocates modules next second) (owner : StoredSegment) :
    (template modules (front ++ [next]) owner).Fits := by
  rw [template_append_singleton]
  exact (hfits owner).append (hrelocates.fits owner)

/-- An image means by a name what the first of several modules means by it. -/
structure Knows (front : List Placed) (image : Relocated) : Prop where
  distinct : image.NamesDistinct
  meaning : ∀ name, image.meaning? name = firstMeaning? front name

/-- What an image carries that has taken in the modules of `front`, in this order. -/
structure Carries (modules front : List Placed) (image : Relocated) : Prop
    extends Knows front image where
  bssSize : image.object.bssSize.toNat = Layout.total .bss (front.map (·.object))
  names : image.object.symbols.names ⊆ front.flatMap (·.object.symbols.names)
  fits : ∀ owner, (template modules front owner).Fits
  renders : ∀ owner,
    Renders (template modules front owner) (image.object.contents owner).bytes
  stands : ∀ owner, ∀ record ∈ (image.object.contents owner).relocations,
    Stands modules image.object.symbols (template modules front owner).slots record

/-- The bytes of all modules together have 32-bit offsets, and their symbols 32-bit positions. -/
structure Bounded (modules : List Placed) : Prop where
  bytes : ∀ owner,
    (modules.map fun module ↦ (module.object.contents owner).bytes.size).sum ≤ UInt32.size
  symbols : (modules.map (·.object.symbols.size)).sum ≤ UInt32.size

theorem Bounded.of_append {rest : List Placed} (hbounded : Bounded (front ++ rest)) :
    Bounded front where
  bytes := fun owner ↦ by
    have hbytes := hbounded.bytes owner
    rw [List.map_append, List.sum_append] at hbytes
    omega
  symbols := by
    have hsymbols := hbounded.symbols
    rw [List.map_append, List.sum_append] at hsymbols
    omega

theorem Bounded.of_prefix (hbounded : Bounded modules) (hfront : front <+: modules) :
    Bounded front := by
  obtain ⟨rest, rfl⟩ := hfront
  exact hbounded.of_append

theorem size_template (modules front : List Placed) (owner : StoredSegment) :
    (template modules front owner).bytes.size =
      (front.map fun module ↦ (module.object.contents owner).bytes.size).sum := by
  rw [template, Template.size_join, List.map_map]
  rfl

theorem Carries.size_bytes (hcarries : Carries modules front image) (owner : StoredSegment) :
    (image.object.contents owner).bytes.size =
      (front.map fun module ↦ (module.object.contents owner).bytes.size).sum := by
  rw [(hcarries.renders owner).size_eq, size_template]

/-- An image whose names are those of several modules has no more symbols than all of them. -/
theorem size_symbols_le (hdistinct : image.NamesDistinct)
    (hnames : image.object.symbols.names ⊆ front.flatMap (·.object.symbols.names)) :
    image.object.symbols.size ≤ (front.map (·.object.symbols.size)).sum := by
  have hsize := SymbolTable.size_le_of_names_subset hdistinct hnames
  simpa [List.length_flatMap] using hsize

theorem knows_singleton {module : Placed} {relocated : Relocated}
    (hrelocates : Relocates modules module relocated)
    (hdistinct : module.object.symbols.NamesDistinct) : Knows [module] relocated where
  distinct := by rwa [Relocated.NamesDistinct, hrelocates.symbols]
  meaning := fun name ↦ by
    rw [hrelocates.meaning?, firstMeaning?, List.findSome?_cons, List.findSome?_nil]
    cases module.meaning? name <;> rfl

/-- One relocated module is the image of itself. -/
theorem carries_singleton {module : Placed} {relocated : Relocated}
    (hrelocates : Relocates modules module relocated)
    (hdistinct : module.object.symbols.NamesDistinct) : Carries modules [module] relocated where
  toKnows := knows_singleton hrelocates hdistinct
  bssSize := by
    rw [hrelocates.bssSize]
    rfl
  names := by
    rw [hrelocates.symbols, List.flatMap_singleton]
    exact List.Subset.refl _
  fits := fun owner ↦ by
    rw [template, List.map_singleton, Template.join_singleton]
    exact hrelocates.fits owner
  renders := fun owner ↦ by
    rw [template, List.map_singleton, Template.join_singleton, hrelocates.bytes]
    exact .of_foldl_write (hrelocates.fits owner)
  stands := fun owner record hrecord ↦ by
    rw [template, List.map_singleton, Template.join_singleton]
    exact hrelocates.stands hrecord

/-! ### One more module -/

/-- A record is settled at its slot: what is written there is the word of the slot, and the record
goes on standing at it. -/
theorem settles_at_slot {table : SymbolTable} {slots : List Slot} {record : Relocation}
    {slot : Slot} {index : Nat} {entry : SymbolEntry} {address : UInt32} {outcome : Outcome}
    (hslot : slot ∈ slots) (hoffset : slot.offset = record.address.toNat)
    (hindex : record.symbolIndex? = some index) (hentry : table.entryAt? index = some entry)
    (hfound : findDefinition modules entry.name = .ok address)
    (hword : slot.word.toNat = address.toNat)
    (hvalue : entry.symbol.isDefined → entry.symbol.value = address)
    (hsettles : Relocated.Settles entry.symbol record outcome) :
    (∀ patch, outcome.patch? = some patch → patch.slot ∈ slots) ∧
      Stands modules table slots outcome.record := by
  have hstands : Stands modules table slots record := by
    refine ⟨slot, hslot, hoffset, fun other hother ↦ ?_⟩
    obtain rfl := Option.some.inj (hindex.symm.trans hother)
    exact ⟨entry, address, hentry, hfound, hword⟩
  cases hsettles with
  | awaited =>
    refine ⟨fun patch hpatch ↦ ?_, hstands⟩
    cases hpatch
  | defined hdefined hvalueWord =>
    constructor
    · intro patch hpatch
      obtain rfl := Option.some.inj hpatch
      rw [hvalue hdefined, ← hword, UInt16.toNat_inj] at hvalueWord
      rwa [Patch.slot, ← hoffset, hvalueWord]
    · cases entry.symbol.segment? with
      | none => exact hstands
      | some segment =>
        exact ⟨slot, hslot, hoffset, fun other hother ↦ by cases hother⟩

/-- What an image defines under the name of a placeholder has the address that is written there. -/
theorem Knows.value_eq (hknows : Knows front joined) (hrebased : joined.rebased = true)
    (hfront : front ⊆ modules) {position : Nat} {entry : SymbolEntry} {address : UInt32}
    (hentry : joined.object.symbols.entryAt? position = some entry)
    (hfound : findDefinition modules entry.name = .ok address) (hdefined : entry.symbol.isDefined) :
    entry.symbol.value = address := by
  have hmeans := Relocated.meaning?_of_entryAt? hknows.distinct hentry
  rw [if_pos hdefined, Relocated.addressOf_of_rebased hrebased, hknows.meaning] at hmeans
  exact address_of_firstMeaning? hfound hfront hmeans

variable {next : Placed} {second : Relocated} {record : Relocation} {outcome : Outcome}

/-- A record that the image has already stays at its slot. -/
theorem own_at_slot (hcarries : Carries modules front image)
    (hjoined : Relocated.Joined image second joined) (hknows : Knows (front ++ [next]) joined)
    (hfront : front ++ [next] ⊆ modules)
    (hrecord : record ∈ (image.object.contents owner).relocations)
    (houtcome : Relocated.OwnOutcome joined.object.symbols record outcome) :
    (∀ patch, outcome.patch? = some patch → patch.slot ∈ (template modules front owner).slots) ∧
      Stands modules joined.object.symbols (template modules front owner).slots outcome.record := by
  obtain ⟨slot, hslot, hoffset, hknown⟩ := hcarries.stands owner record hrecord
  cases houtcome with
  | internal hindex =>
    refine ⟨fun patch hpatch ↦ (by cases hpatch), slot, hslot, hoffset, fun index hother ↦ ?_⟩
    rw [hindex] at hother
    cases hother
  | external hindex hentry hsettles =>
    rename_i index entry
    obtain ⟨former, address, hformer, hfound, hword⟩ := hknown index hindex
    obtain ⟨_, hlater⟩ := Relocated.exists_entryAt?_of_grows hjoined.grows hformer
    obtain rfl := Option.some.inj (hlater.symm.trans hentry)
    exact settles_at_slot hslot hoffset hindex hentry hfound hword
      (hknows.value_eq hjoined.rebased hfront hentry hfound) hsettles

/-- A record of the next module moves with its slot, if no offset and no position is too big. -/
theorem adopted_at_slot (hcarries : Carries modules front image)
    (hrelocates : Relocates modules next second) (hjoined : Relocated.Joined image second joined)
    (hknows : Knows (front ++ [next]) joined) (hfront : front ++ [next] ⊆ modules)
    (hbytes : (image.object.contents owner).bytes.size +
      (second.object.contents owner).bytes.size ≤ UInt32.size)
    (hsymbols : joined.object.symbols.size ≤ UInt32.size)
    (hrecord : record ∈ (second.object.contents owner).relocations)
    (houtcome : Relocated.AdoptedOutcome joined.object.symbols second.object.symbols
      (image.shift owner) record outcome) :
    (∀ patch, outcome.patch? = some patch →
        patch.slot ∈ (template modules (front ++ [next]) owner).slots) ∧
      Stands modules joined.object.symbols (template modules (front ++ [next]) owner).slots
        outcome.record := by
  obtain ⟨slot, hslot, hoffset, hknown⟩ := hrelocates.stands hrecord
  have hmoved : slot.moved (template modules front owner).bytes.size ∈
      (template modules (front ++ [next]) owner).slots := by
    rw [template_append_singleton]
    exact List.mem_append_right _ (List.mem_map_of_mem hslot)
  have hoffset : (slot.moved (template modules front owner).bytes.size).offset =
      (record.address + image.shift owner).toNat := by
    have hinside := hrelocates.fits owner slot hslot
    rw [hoffset, ← hrelocates.size_template] at hinside
    rw [Relocated.toNat_moved hinside hbytes, Slot.offset_moved, hoffset,
      (hcarries.renders owner).size_eq]
  cases houtcome with
  | internal hindex =>
    refine ⟨fun patch hpatch ↦ (by cases hpatch), _, hmoved, hoffset, fun index hother ↦ ?_⟩
    rw [Relocation.symbolIndex?] at hindex hother
    split at hindex
    · cases hindex
    · rename_i hinternal
      rw [if_neg hinternal] at hother
      cases hother
  | external hindex hentry hlocated hsettles =>
    rename_i index position entry symbol
    obtain ⟨former, address, hformer, hfound, hword⟩ := hknown index hindex
    obtain rfl := Option.some.inj (hformer.symm.trans hentry)
    have hposition := SymbolTable.lt_size_of_entryAt? hlocated
    have hpointed : Relocation.symbolIndex? { record with
        address := record.address + image.shift owner
        index := UInt32.ofNat position } = some position := by
      have hexternal : record.external = true := by
        by_contra hinternal
        simp [Relocation.symbolIndex?, hinternal] at hindex
      rw [Relocation.symbolIndex?, if_pos hexternal, UInt32.toNat_ofNat_of_lt' (by omega)]
    exact settles_at_slot hmoved hoffset hpointed hlocated hfound hword
      (hknows.value_eq hjoined.rebased hfront hlocated hfound) hsettles

/-- All names of an image that takes in one more module are names of the modules. -/
theorem names_append
    (hnames : image.object.symbols.names ⊆ front.flatMap (·.object.symbols.names))
    (hrelocates : Relocates modules next second) (hconcat : image.concat second = .done joined) :
    joined.object.symbols.names ⊆ (front ++ [next]).flatMap (·.object.symbols.names) := by
  have hsubset := (Relocated.concat_evolves image second).names_subset
  rw [hconcat, hrelocates.symbols] at hsubset
  rw [List.flatMap_append, List.flatMap_singleton]
  refine List.Subset.trans hsubset (List.append_subset.mpr ⟨?_, List.subset_append_right _ _⟩)
  exact List.Subset.trans hnames (List.subset_append_left _ _)

theorem stands_mono {table : SymbolTable} {slots more : List Slot} (hmore : slots ⊆ more)
    (hstands : Stands modules table slots record) : Stands modules table more record := by
  obtain ⟨slot, hslot, hrest⟩ := hstands
  exact ⟨slot, hmore hslot, hrest⟩

/-- An image that takes in one more module learns the names that it did not know. -/
theorem knows_append (hknows : Knows front image) (hrelocates : Relocates modules next second)
    (hjoined : Relocated.Joined image second joined) : Knows (front ++ [next]) joined where
  distinct := hjoined.distinct hknows.distinct
  meaning := by
    intro name
    rw [hjoined.meaning, hknows.meaning, hrelocates.meaning?, firstMeaning?, firstMeaning?,
      List.findSome?_append, List.findSome?_cons, List.findSome?_nil]
    cases next.meaning? name <;> rfl

theorem slots_subset_append (modules front : List Placed) (next : Placed) (owner : StoredSegment) :
    (template modules front owner).slots ⊆ (template modules (front ++ [next]) owner).slots := by
  rw [template_append_singleton]
  exact List.subset_append_left _ _

/-- Every record of either object is at its slot in the joint one. -/
theorem outcomes_at_slots (hcarries : Carries modules front image)
    (hrelocates : Relocates modules next second) (hjoined : Relocated.Joined image second joined)
    (hfront : front ++ [next] ⊆ modules)
    (hbytes : (image.object.contents owner).bytes.size +
      (next.object.contents owner).bytes.size ≤ UInt32.size)
    (hsymbols : joined.object.symbols.size ≤ UInt32.size) : ∃ outcomes,
    joined.object.contents owner = Outcome.contents
      ((image.object.contents owner).bytes ++ (second.object.contents owner).bytes) outcomes ∧
    ∀ outcome ∈ outcomes,
      (∀ patch, outcome.patch? = some patch →
        patch.slot ∈ (template modules (front ++ [next]) owner).slots) ∧
      Stands modules joined.object.symbols (template modules (front ++ [next]) owner).slots
        outcome.record := by
  have hknows := knows_append hcarries.toKnows hrelocates hjoined
  have hslots := slots_subset_append modules front next owner
  rw [← hrelocates.size_bytes] at hbytes
  obtain ⟨own, adopted, hown, hadopted, -, hcontents⟩ := hjoined.contents owner
  refine ⟨own ++ adopted, hcontents, fun outcome houtcome ↦ ?_⟩
  rcases List.mem_append.mp houtcome with houtcome | houtcome
  · obtain ⟨record, hrecord, hfollows⟩ := Fallible.exists_mem_of_forall₂ hown houtcome
    obtain ⟨hpatches, hstands⟩ := own_at_slot hcarries hjoined hknows hfront
      (Array.mem_toList_iff.mp hrecord) hfollows
    exact ⟨fun patch hpatch ↦ hslots (hpatches patch hpatch), stands_mono hslots hstands⟩
  · obtain ⟨record, hrecord, hfollows⟩ := Fallible.exists_mem_of_forall₂ hadopted houtcome
    exact adopted_at_slot hcarries hrelocates hjoined hknows hfront hbytes hsymbols
      (Array.mem_toList_iff.mp hrecord) hfollows

/-- An image that takes in one more module carries one more module. -/
theorem carries_append (hcarries : Carries modules front image)
    (hrelocates : Relocates modules next second) (hdistinct : next.object.symbols.NamesDistinct)
    (hfront : front ++ [next] ⊆ modules) (hbounded : Bounded (front ++ [next]))
    (hconcat : image.concat second = .done joined) : Carries modules (front ++ [next]) joined := by
  have hsecond : second.NamesDistinct := by rwa [Relocated.NamesDistinct, hrelocates.symbols]
  have hjoined := Relocated.concat_eq_done hcarries.distinct hsecond hconcat
  have hnames := names_append hcarries.names hrelocates hconcat
  have hbytes (owner : StoredSegment) : (image.object.contents owner).bytes.size +
      (next.object.contents owner).bytes.size ≤ UInt32.size := by
    have hbytes := hbounded.bytes owner
    rwa [List.map_append, List.sum_append, ← hcarries.size_bytes, List.map_singleton,
      List.sum_singleton] at hbytes
  have hsymbols : joined.object.symbols.size ≤ UInt32.size :=
    Nat.le_trans (size_symbols_le (hjoined.distinct hcarries.distinct) hnames) hbounded.symbols
  have hfits := fits_template_append hcarries.fits hrelocates
  refine ⟨knows_append hcarries.toKnows hrelocates hjoined, ?_, hnames, hfits, ?_, ?_⟩
  · rw [hjoined.bssSize, hcarries.bssSize, hrelocates.bssSize]
    simp [Layout.total, Object.size]
  · intro owner
    obtain ⟨outcomes, hcontents, houtcomes⟩ :=
      outcomes_at_slots hcarries hrelocates hjoined hfront (hbytes owner) hsymbols
    rw [hcontents, Outcome.contents, Patch.foldl_write]
    refine Renders.foldl_write ?_ (hfits owner) fun slot hslot ↦ ?_
    · rw [template_append_singleton, hrelocates.bytes]
      exact (hcarries.renders owner).append (hcarries.fits owner)
        (.of_foldl_write (hrelocates.fits owner))
    · obtain ⟨patch, hpatch, rfl⟩ := List.mem_map.mp hslot
      obtain ⟨outcome, houtcome, hpatch⟩ := Outcome.mem_patches.mp hpatch
      exact (houtcomes outcome houtcome).1 patch hpatch
  · intro owner record hrecord
    obtain ⟨outcomes, hcontents, houtcomes⟩ :=
      outcomes_at_slots hcarries hrelocates hjoined hfront (hbytes owner) hsymbols
    rw [hcontents, Outcome.contents, List.mem_toArray] at hrecord
    obtain ⟨outcome, houtcome, rfl⟩ := List.mem_map.mp hrecord
    exact (houtcomes outcome houtcome).2

/-! ### All modules -/

variable {rest : List Placed} {relocated : List Relocated} {final : Relocated}

theorem foldlM_induction {siblings : List Placed} {motive : List Placed → Relocated → Prop}
    (hstep : ∀ front next image second joined, front ++ [next] <+: modules →
      Relocates siblings next second → image.concat second = .done joined → motive front image →
        motive (front ++ [next]) joined)
    (hrelocates : List.Forall₂ (Relocates siblings) rest relocated)
    (hfront : front ++ rest = modules) (himage : motive front image)
    (hfold : relocated.foldlM (fun image module ↦ (image.concat module).result) image = .ok final) :
    motive modules final := by
  induction hrelocates generalizing front image with
  | nil =>
    obtain rfl := Except.ok.inj hfold
    rwa [← hfront, List.append_nil]
  | @cons next second rest relocated hnext _ ih =>
    rw [List.foldlM_cons] at hfold
    obtain ⟨joined, hconcat, hrest⟩ := Fallible.bind_eq_ok_iff.mp hfold
    rw [Progress.result_eq_ok_iff_eq_done] at hconcat
    rw [List.append_cons] at hfront
    have hbegins : front ++ [next] <+: modules := ⟨rest, hfront⟩
    exact ih hfront (hstep front next image second joined hbegins hnext hconcat himage) hrest

/-- What holds of the first module alone, and goes on to hold whenever an image takes in the next
module, holds of the image of all modules. -/
theorem fold_induction {siblings : List Placed} {motive : List Placed → Relocated → Prop}
    (hfirst : ∀ first image, [first] <+: modules → Relocates siblings first image →
      motive [first] image)
    (hstep : ∀ front next image second joined, front ++ [next] <+: modules →
      Relocates siblings next second → image.concat second = .done joined → motive front image →
        motive (front ++ [next]) joined)
    (hrelocates : List.Forall₂ (Relocates siblings) modules relocated)
    (hfold : fold relocated = .ok final) : motive modules final := by
  cases hrelocates with
  | nil => cases hfold
  | @cons first image rest relocated hnext hrest =>
    exact foldlM_induction hstep hrest rfl (hfirst first image ⟨rest, rfl⟩ hnext) hfold

/-- The image of all modules carries them all. -/
theorem carries_of_fold (hrelocates : List.Forall₂ (Relocates modules) modules relocated)
    (hdistinct : ∀ module ∈ modules, module.object.symbols.NamesDistinct)
    (hbounded : Bounded modules) (hfold : fold relocated = .ok final) :
    Carries modules modules final := by
  refine fold_induction (motive := Carries modules) (fun first image hbegins hnext ↦ ?_)
    (fun front next image second joined hbegins hnext hconcat hcarries ↦ ?_) hrelocates hfold
  · exact carries_singleton hnext (hdistinct first (hbegins.mem List.mem_cons_self))
  · exact carries_append hcarries hnext (hdistinct next (hbegins.mem List.mem_concat_self))
      hbegins.subset (hbounded.of_prefix hbegins) hconcat

end Image

end Aout
