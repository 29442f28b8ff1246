import Aout.Proofs.Linking.Settlement
/-!
Where objects stand in their image. The layout computes addresses from the sizes of the objects,
before any of them is taken in; the image grows by appending bytes. The two agree: the base of an
object is the number of bytes that the image of the objects before it has (`StandsAt`), so a symbol
with an offset into its segment is the address at which the byte at this offset stands
(`link_places`).

All of this is about bytes and offsets, and about each definition by itself. It does not matter here
whether the names of an object are distinct.
-/

set_option autoImplicit false
set_option relaxedAutoImplicit false

namespace Aout

open Placeholder

/-! ### Where definitions come from -/

namespace SymbolTable

variable {Allowed : String → Meaning → Prop} {table before after : SymbolTable}

/-- Every definition of a table of absolute addresses is one of those allowed. -/
def DefinesOnly (Allowed : String → Meaning → Prop) (table : SymbolTable) : Prop :=
  ∀ position entry, table.entryAt? position = some entry → entry.symbol.isDefined →
    Allowed entry.name ⟨entry.symbol.kind, entry.symbol.value⟩

namespace DefinesOnly

theorem mono {Other : String → Meaning → Prop} (honly : table.DefinesOnly Allowed)
    (hallowed : ∀ name meaning, Allowed name meaning → Other name meaning) :
    table.DefinesOnly Other :=
  fun position entry hentry hdefined ↦ hallowed _ _ (honly position entry hentry hdefined)

theorem push (honly : table.DefinesOnly Allowed) {entry : SymbolEntry}
    (hentry : Allowed entry.name ⟨entry.symbol.kind, entry.symbol.value⟩) :
    (table.push entry).DefinesOnly Allowed := by
  intro position found hfound hdefined
  rw [entryAt?_push] at hfound
  split at hfound
  · obtain rfl := Option.some.inj hfound
    exact hentry
  · exact honly position found hfound hdefined

theorem redefine (honly : table.DefinesOnly Allowed) {position : Nat} {entry : SymbolEntry}
    (hentry : table.entryAt? position = some entry) {kind : SymbolKind} {value : UInt32}
    (hallowed : Allowed entry.name ⟨kind, value⟩) :
    (table.redefine position kind value).DefinesOnly Allowed := by
  intro place found hfound hdefined
  rw [entryAt?_redefine hentry] at hfound
  split at hfound
  · obtain rfl := Option.some.inj hfound
    exact hallowed
  · exact honly place found hfound hdefined

/-- What is only awaited is not defined. -/
theorem awaits (honly : before.DefinesOnly Allowed) (hawaits : before.Awaits after) :
    after.DefinesOnly Allowed := by
  intro position entry hentry hdefined
  cases hformer : before.entryAt? position with
  | none =>
    have hawaited := hawaits.isDefined_of_added hformer hentry
    rw [hdefined] at hawaited
    cases hawaited
  | some former =>
    obtain rfl := Option.some.inj ((hawaits.kept position former hformer).symm.trans hentry)
    exact honly position former hformer hdefined

end DefinesOnly

end SymbolTable

namespace Relocated

variable {Allowed : String → Meaning → Prop} {module first second other joined : Relocated}

/-- The definitions of a module whose symbols may still be offsets, by their absolute addresses. -/
theorem definesOnly_rebase_iff : module.rebase.object.symbols.DefinesOnly Allowed ↔
    ∀ position entry, module.object.symbols.entryAt? position = some entry →
      entry.symbol.isDefined →
        Allowed entry.name ⟨entry.symbol.kind, module.addressOf entry.symbol⟩ := by
  constructor
  · intro honly position entry hentry hdefined
    have hrebased := honly position ⟨entry.name, module.absolute entry.symbol⟩
      (by rw [entryAt?_rebase, hentry, Option.map_some]) (by rwa [isDefined_absolute])
    rwa [kind_absolute, absolute, if_pos hdefined] at hrebased
  · intro hallowed position entry hentry hdefined
    rw [entryAt?_rebase, Option.map_eq_some_iff] at hentry
    obtain ⟨former, hformer, rfl⟩ := hentry
    rw [isDefined_absolute] at hdefined
    rw [kind_absolute, absolute, if_pos hdefined]
    exact hallowed position former hformer hdefined

theorem definesOnly_mergeEntry (honly : module.object.symbols.DefinesOnly Allowed)
    {entry : SymbolEntry} (hentry : entry.symbol.isDefined →
      Allowed entry.name ⟨entry.symbol.kind, other.addressOf entry.symbol⟩) :
    (mergeEntry other module entry).state.object.symbols.DefinesOnly Allowed := by
  unfold mergeEntry
  dsimp only
  split
  · exact honly
  · rename_i hdefined
    have hallowed := hentry (by simpa using hdefined)
    split
    · exact honly.push hallowed
    · rename_i position known hlocate
      split
      · exact honly.redefine (SymbolTable.entryAt?_of_locate? hlocate) hallowed
      · split
        · exact honly
        · exact honly

/-- One object that has taken in another one has no definition but those of both. -/
theorem definesOnly_concat (hfirst : first.rebase.object.symbols.DefinesOnly Allowed)
    (hsecond : second.rebase.object.symbols.DefinesOnly Allowed)
    (hdone : first.concat second = .done joined) :
    joined.object.symbols.DefinesOnly Allowed := by
  obtain ⟨joint, gathered, habutted, hmerge, hawaits, -⟩ := stacked_of_concat hdone
  rw [definesOnly_rebase_iff] at hsecond
  have hgathered := Progress.each_preserves_of_mem
    (fun state : Relocated ↦ state.object.symbols.DefinesOnly Allowed)
    (fun state entry hentry honly ↦ show
        (mergeEntry second state entry).state.object.symbols.DefinesOnly Allowed by
      obtain ⟨position, hposition⟩ := List.mem_iff_getElem?.mp hentry
      rw [Array.getElem?_toList] at hposition
      exact definesOnly_mergeEntry honly (hsecond position entry hposition))
    (show joint.object.symbols.DefinesOnly Allowed from habutted.symbols ▸ hfirst)
  rw [mergeSymbols] at hmerge
  rw [hmerge] at hgathered
  exact hgathered.awaits hawaits

end Relocated

namespace Image

open Placed

variable {siblings modules front : List Placed} {image joined second : Relocated} {next : Placed}
  {relocated : List Relocated} {owner : StoredSegment}

/-- A definition of one of the modules, by its name, its kind and its address. -/
def Stems (modules : List Placed) (name : String) (meaning : Meaning) : Prop :=
  ∃ module ∈ modules, ∃ entry ∈ module.object.symbols.entries, entry.name = name ∧
    entry.symbol.isDefined ∧
      meaning = ⟨entry.symbol.kind, module.bases.addressOf entry.symbol⟩

theorem Stems.mono {name : String} {meaning : Meaning} (hstems : Stems front name meaning)
    (hfront : front ⊆ modules) : Stems modules name meaning := by
  obtain ⟨module, hmodule, hentry⟩ := hstems
  exact ⟨module, hfront hmodule, hentry⟩

/-- How an image stacks the modules of `front`: their bytes and bss behind one another, with records
at the placeholders of the modules, and with the definitions of the modules. -/
structure Stacks (siblings front : List Placed) (image : Relocated) : Prop where
  bssSize : image.object.bssSize.toNat = Layout.total .bss (front.map (·.object))
  fits : ∀ owner, (template siblings front owner).Fits
  frames : ∀ owner,
    Frames (template siblings front owner) (image.object.contents owner).bytes
  stands : ∀ owner, ∀ record ∈ (image.object.contents owner).relocations,
    ∃ slot ∈ (template siblings front owner).slots, record.address.toNat = slot.offset
  stems : image.rebase.object.symbols.DefinesOnly (Stems front)

theorem Stacks.size_bytes (hstacks : Stacks siblings front image) (owner : StoredSegment) :
    (image.object.contents owner).bytes.size =
      (front.map fun module ↦ (module.object.contents owner).bytes.size).sum := by
  rw [(hstacks.frames owner).size_eq, size_template]

theorem frames_of_relocates (hrelocates : Relocates siblings next second) (owner : StoredSegment) :
    Frames (next.template siblings owner) (second.object.contents owner).bytes := by
  rw [hrelocates.bytes]
  exact (Frames.self _).foldl_write fun slot hslot ↦ ⟨slot, hslot, rfl⟩

theorem stems_of_relocates (hrelocates : Relocates siblings next second) :
    second.rebase.object.symbols.DefinesOnly (Stems [next]) := by
  rw [Relocated.definesOnly_rebase_iff, hrelocates.symbols]
  intro position entry hentry hdefined
  refine ⟨next, List.mem_singleton_self next, entry, Array.mem_of_getElem? hentry, rfl, hdefined,
    ?_⟩
  rw [Relocated.addressOf, hrelocates.rebased, hrelocates.bases]
  rfl

theorem stacks_singleton (hrelocates : Relocates siblings next second) :
    Stacks siblings [next] second where
  bssSize := by
    rw [hrelocates.bssSize]
    rfl
  fits := fun owner ↦ by
    rw [template, List.map_singleton, Template.join_singleton]
    exact hrelocates.fits owner
  frames := fun owner ↦ by
    rw [template, List.map_singleton, Template.join_singleton]
    exact frames_of_relocates hrelocates owner
  stands := fun owner record hrecord ↦ by
    rw [template, List.map_singleton, Template.join_singleton]
    obtain ⟨slot, hslot, hoffset, -⟩ := hrelocates.stands hrecord
    exact ⟨slot, hslot, hoffset.symm⟩
  stems := stems_of_relocates hrelocates

/-- Whatever becomes of the records of both objects happens at placeholders of the modules, as long
as no offset overflows. -/
theorem Stacks.outcomes_at_slots (hstacks : Stacks siblings front image)
    (hrelocates : Relocates siblings next second)
    (hstacked : Relocated.Stacked image second joined)
    (hbytes : (image.object.contents owner).bytes.size +
      (next.object.contents owner).bytes.size ≤ UInt32.size) : ∃ outcomes,
    joined.object.contents owner = Outcome.contents
      ((image.object.contents owner).bytes ++ (second.object.contents owner).bytes) outcomes ∧
    ∀ outcome ∈ outcomes, ∃ slot ∈ (template siblings (front ++ [next]) owner).slots,
      ∃ address : UInt32, address.toNat = slot.offset ∧ outcome.StandsAt address := by
  obtain ⟨own, adopted, hown, hadopted, -, hcontents⟩ := hstacked.contents owner
  refine ⟨own ++ adopted, hcontents, fun outcome houtcome ↦ ?_⟩
  rcases List.mem_append.mp houtcome with hfirst | hlast
  · obtain ⟨record, hrecord, hfollows⟩ := Fallible.exists_mem_of_forall₂ hown hfirst
    obtain ⟨slot, hslot, hoffset⟩ := hstacks.stands owner record (Array.mem_toList_iff.mp hrecord)
    exact ⟨slot, slots_subset_append siblings front next owner hslot, record.address, hoffset,
      hfollows.standsAt⟩
  · obtain ⟨record, hrecord, hfollows⟩ := Fallible.exists_mem_of_forall₂ hadopted hlast
    obtain ⟨slot, hslot, hoffset, -⟩ := hrelocates.stands (Array.mem_toList_iff.mp hrecord)
    have hinside := hrelocates.fits owner slot hslot
    rw [hoffset, ← hrelocates.size_template] at hinside
    rw [← hrelocates.size_bytes] at hbytes
    refine ⟨slot.moved (template siblings front owner).bytes.size, ?_, _, ?_, hfollows.standsAt⟩
    · rw [template_append_singleton]
      exact List.mem_append_right _ (List.mem_map_of_mem hslot)
    · rw [Relocated.toNat_moved hinside hbytes, Slot.offset_moved, hoffset,
        (hstacks.frames owner).size_eq]

/-- One more module goes behind those that are there. -/
theorem stacks_append (hstacks : Stacks siblings front image)
    (hrelocates : Relocates siblings next second)
    (hbytes : ∀ owner, (image.object.contents owner).bytes.size +
      (next.object.contents owner).bytes.size ≤ UInt32.size)
    (hconcat : image.concat second = .done joined) : Stacks siblings (front ++ [next]) joined := by
  obtain ⟨-, -, -, -, -, hstacked⟩ := Relocated.stacked_of_concat hconcat
  refine ⟨?_, fits_template_append hstacks.fits hrelocates, fun owner ↦ ?_,
    fun owner record hrecord ↦ ?_, ?_⟩
  · rw [hstacked.bssSize, hstacks.bssSize, hrelocates.bssSize]
    simp [Layout.total, Object.size]
  · obtain ⟨outcomes, hcontents, houtcomes⟩ :=
      hstacks.outcomes_at_slots hrelocates hstacked (hbytes owner)
    rw [hcontents, Outcome.contents, Patch.foldl_write, template_append_singleton]
    refine ((hstacks.frames owner).append (frames_of_relocates hrelocates owner)).foldl_write
      fun word hword ↦ ?_
    obtain ⟨patch, hpatch, rfl⟩ := List.mem_map.mp hword
    obtain ⟨outcome, houtcome, hpatch⟩ := Outcome.mem_patches.mp hpatch
    obtain ⟨slot, hslot, address, haddress, hstands⟩ := houtcomes outcome houtcome
    rw [template_append_singleton] at hslot
    refine ⟨slot, hslot, ?_⟩
    rw [Patch.slot, hstands.patch patch hpatch, haddress]
  · obtain ⟨outcomes, hcontents, houtcomes⟩ :=
      hstacks.outcomes_at_slots hrelocates hstacked (hbytes owner)
    rw [hcontents, Outcome.contents, List.mem_toArray] at hrecord
    obtain ⟨outcome, houtcome, rfl⟩ := List.mem_map.mp hrecord
    obtain ⟨slot, hslot, address, haddress, hstands⟩ := houtcomes outcome houtcome
    exact ⟨slot, hslot, by rw [hstands.record, haddress]⟩
  · have hrebase : joined.rebase = joined := if_pos hstacked.rebased
    rw [hrebase]
    refine Relocated.definesOnly_concat (hstacks.stems.mono fun name meaning hstems ↦ ?_)
      ((stems_of_relocates hrelocates).mono fun name meaning hstems ↦ ?_) hconcat
    · exact hstems.mono (List.subset_append_left _ _)
    · exact hstems.mono (List.subset_append_right _ _)

theorem stacks_of_fold (hrelocates : List.Forall₂ (Relocates siblings) modules relocated)
    (hbytes : ∀ owner,
      (modules.map fun module ↦ (module.object.contents owner).bytes.size).sum ≤ UInt32.size)
    (hfold : fold relocated = .ok image) : Stacks siblings modules image := by
  refine fold_induction (motive := Stacks siblings) (fun first image _ hnext ↦ ?_)
    (fun front next image second joined hbegins hnext hconcat hstacks ↦ ?_) hrelocates hfold
  · exact stacks_singleton hnext
  · refine stacks_append hstacks hnext (fun owner ↦ ?_) hconcat
    obtain ⟨rest, rfl⟩ := hbegins
    have hsum := hbytes owner
    simp only [List.map_append, List.sum_append, List.map_singleton, List.sum_singleton] at hsum
    rw [hstacks.size_bytes]
    omega

/-- The first modules have an image of their own on the way. -/
theorem exists_stacks_take (hrelocates : List.Forall₂ (Relocates siblings) modules relocated)
    (hbytes : ∀ owner,
      (modules.map fun module ↦ (module.object.contents owner).bytes.size).sum ≤ UInt32.size)
    (hfold : fold relocated = .ok image) {place : Nat} (hplace : 0 < place) :
    ∃ before, fold (relocated.take place) = .ok before ∧
      Stacks siblings (modules.take place) before := by
  have hbefore : ∃ before, fold (relocated.take place) = .ok before := by
    obtain ⟨count, rfl⟩ := Nat.exists_eq_add_of_le' hplace
    cases relocated with
    | nil => cases hfold
    | cons first rest =>
      rw [fold, ← List.take_append_drop count rest, List.foldlM_append] at hfold
      obtain ⟨before, hbefore, -⟩ := Fallible.bind_eq_ok_iff.mp hfold
      exact ⟨before, hbefore⟩
  obtain ⟨before, hbefore⟩ := hbefore
  refine ⟨before, hbefore, stacks_of_fold (List.forall₂_take place hrelocates) (fun owner ↦ ?_)
    hbefore⟩
  have hsum := hbytes owner
  rw [← List.take_append_drop place modules, List.map_append, List.sum_append] at hsum
  omega

end Image

/-! ### Addresses and offsets -/

/-- The address of the first byte of a stored segment of an image. -/
def StoredSegment.origin (textBase : UInt16) : StoredSegment → Nat
  | .text => textBase.toNat
  | .data => 0

/-- The symbol is one of the reserved bytes of the object. -/
def Object.Reserves (object : Object) (symbol : Symbol) : Prop :=
  symbol.segment? = some .bss ∧ symbol.value.toNat < object.bssSize.toNat

/-- Where one of several objects stands in their image. Its bases are the offsets at which its bytes
start, and its bss is part of the image's, which follows the data. A symbol of the object that is an
offset into its segment has the address of the byte at this offset, and the image holds that byte
unless a placeholder covers it. -/
structure StandsAt (objects : List Object) (textBase : UInt16) (linked : Object) (place : Nat)
    (module : Placed) : Prop where
  start : ∀ owner, (module.bases.of owner.segment).toNat =
    owner.origin textBase + Object.start objects owner place
  address : ∀ owner symbol, symbol.segment? = some owner.segment →
    symbol.value.toNat < (module.object.contents owner).bytes.size →
      (module.bases.addressOf symbol).toNat =
        owner.origin textBase + (Object.start objects owner place + symbol.value.toNat)
  byte : ∀ owner offset, offset < (module.object.contents owner).bytes.size →
    (∀ record ∈ (module.object.contents owner).relocations,
      ¬ Covers record.address.toNat offset) →
        (linked.contents owner).bytes[Object.start objects owner place + offset]? =
          (module.object.contents owner).bytes[offset]?
  bss : (linked.contents .data).bytes.size ≤ module.bases.bss.toNat ∧
    module.bases.bss.toNat + module.object.bssSize.toNat ≤
      (linked.contents .data).bytes.size + linked.bssSize.toNat
  reserved : ∀ symbol, module.object.Reserves symbol →
    (module.bases.addressOf symbol).toNat = module.bases.bss.toNat + symbol.value.toNat

variable {objects : List Object} {bases : List Bases} {textBase : UInt16} {entrySymbol : String}

/-- The bytes that the objects before one have are those that the layout counts. -/
theorem total_take_stored
    (hbytes : ∀ object ∈ objects, ∀ owner, (object.contents owner).bytes.size < UInt32.size)
    (owner : StoredSegment) (place : Nat) :
    Layout.total owner.segment (objects.take place) = Object.start objects owner place :=
  total_stored fun object hobject ↦ hbytes object (List.mem_of_mem_take hobject) owner

theorem toNat_base_stored
    (hbytes : ∀ object ∈ objects, ∀ owner, (object.contents owner).bytes.size < UInt32.size)
    (hlayout : layout objects textBase = .ok bases) {place : Nat} {base : Bases}
    (hbase : bases[place]? = some base) (owner : StoredSegment) :
    (base.of owner.segment).toNat =
      owner.origin textBase + Object.start objects owner place := by
  obtain ⟨htext, hdata, -⟩ := base_of_layout hlayout hbase
  rw [← total_take_stored hbytes]
  cases owner with
  | text => exact htext
  | data =>
    rw [StoredSegment.origin, Nat.zero_add]
    exact hdata

/-- The segment of an object is a part of all segments of its kind. -/
theorem total_take_add_le_total {place : Nat} {module : Placed}
    (hplace : (Placed.all objects bases)[place]? = some module) (segment : Segment) :
    Layout.total segment (objects.take place) + (module.object.size segment).toNat ≤
      Layout.total segment objects := by
  obtain ⟨hobject, -⟩ := Placed.getElem?_all.mp hplace
  have hle := Layout.total_take_add_le segment hobject (List.getElem?_eq_some_iff.mp hobject).1
  rwa [List.take_length] at hle

/-- An address that no layout exceeds is the exact sum of base and value. -/
theorem toNat_addressOf_of_fits {base : Bases} {symbol : Symbol} {segment : Segment}
    (hsegment : symbol.segment? = some segment)
    (hfits : (base.of segment).toNat + symbol.value.toNat < UInt32.size) :
    (base.addressOf symbol).toNat = (base.of segment).toNat + symbol.value.toNat := by
  rw [Bases.addressOf, hsegment]
  exact Word.toNat_saturatingAdd_of_lt hfits

/-- A symbol with an offset into the bytes of its object has the address of the byte there. -/
theorem toNat_addressOf_stored
    (hbytes : ∀ object ∈ objects, ∀ owner, (object.contents owner).bytes.size < UInt32.size)
    (hlayout : layout objects textBase = .ok bases) {place : Nat} {module : Placed}
    (hplace : (Placed.all objects bases)[place]? = some module) {owner : StoredSegment}
    {symbol : Symbol} (hsegment : symbol.segment? = some owner.segment)
    (hvalue : symbol.value.toNat < (module.object.contents owner).bytes.size) :
    (module.bases.addressOf symbol).toNat =
      owner.origin textBase + (Object.start objects owner place + symbol.value.toNat) := by
  obtain ⟨hobject, hbase⟩ := Placed.getElem?_all.mp hplace
  have hstart := toNat_base_stored hbytes hlayout hbase owner
  have hend := total_take_add_le_total hplace owner.segment
  rw [total_take_stored hbytes,
    toNat_size_segment (hbytes _ (List.mem_of_getElem? hobject) owner)] at hend
  have hbound : Layout.total owner.segment objects ≤ 65536 := (layout_eq_ok hlayout).2 owner.segment
  have horigin : owner.origin textBase < 65536 := by
    cases owner with
    | text => exact textBase.toNat_lt
    | data => exact Nat.zero_lt_succ _
  have hmodulus : UInt32.size = 4294967296 := rfl
  rw [toNat_addressOf_of_fits hsegment (by rw [hstart]; omega), hstart, Nat.add_assoc]

/-- The bss of an object lies behind all data, inside all bss. -/
theorem bss_of_layout (hlayout : layout objects textBase = .ok bases) {place : Nat}
    {module : Placed} (hplace : (Placed.all objects bases)[place]? = some module) :
    Layout.total .data objects ≤ module.bases.bss.toNat ∧
      module.bases.bss.toNat + module.object.bssSize.toNat ≤
        Layout.total .data objects + Layout.total .bss objects := by
  obtain ⟨-, hbase⟩ := Placed.getElem?_all.mp hplace
  obtain ⟨-, -, hbss⟩ := base_of_layout hlayout hbase
  have hend := total_take_add_le_total hplace .bss
  rw [Object.size] at hend
  omega

theorem toNat_addressOf_reserved (hlayout : layout objects textBase = .ok bases) {place : Nat}
    {module : Placed} (hplace : (Placed.all objects bases)[place]? = some module) {symbol : Symbol}
    (hreserves : module.object.Reserves symbol) :
    (module.bases.addressOf symbol).toNat = module.bases.bss.toNat + symbol.value.toNat := by
  obtain ⟨hsegment, hvalue⟩ := hreserves
  have hend := (bss_of_layout hlayout hplace).2
  have hdata : Layout.total .data objects ≤ 65536 := (layout_eq_ok hlayout).2 .data
  have hbss : Layout.total .bss objects ≤ 65536 := (layout_eq_ok hlayout).2 .bss
  have hmodulus : UInt32.size = 4294967296 := rfl
  exact toNat_addressOf_of_fits hsegment (by rw [Bases.of]; omega)

/-- The bss of an object ends before that of any later one. -/
theorem bss_le_of_lt (hlayout : layout objects textBase = .ok bases) {place other : Nat}
    (hlt : place < other) {first second : Placed}
    (hfirst : (Placed.all objects bases)[place]? = some first)
    (hsecond : (Placed.all objects bases)[other]? = some second) :
    first.bases.bss.toNat + first.object.bssSize.toNat ≤ second.bases.bss.toNat := by
  obtain ⟨hobject, hbase⟩ := Placed.getElem?_all.mp hfirst
  obtain ⟨-, hother⟩ := Placed.getElem?_all.mp hsecond
  have hend := Layout.total_take_add_le .bss hobject hlt
  rw [(base_of_layout hlayout hbase).2.2, (base_of_layout hlayout hother).2.2, Nat.add_assoc]
  exact Nat.add_le_add_left hend _

/-- Reserved bytes of different objects have different addresses. -/
theorem addressOf_ne_of_reserves (hlayout : layout objects textBase = .ok bases)
    {place other : Nat} {first second : Placed} (hne : place ≠ other)
    (hfirst : (Placed.all objects bases)[place]? = some first)
    (hsecond : (Placed.all objects bases)[other]? = some second) {symbol found : Symbol}
    (hsymbol : first.object.Reserves symbol) (hfound : second.object.Reserves found) :
    first.bases.addressOf symbol ≠ second.bases.addressOf found := by
  intro hsame
  have haddress := toNat_addressOf_reserved hlayout hfirst hsymbol
  rw [hsame, toNat_addressOf_reserved hlayout hsecond hfound] at haddress
  have hlow := hsymbol.2
  have hhigh := hfound.2
  rcases Nat.lt_or_gt_of_ne hne with hlt | hgt
  · have hapart := bss_le_of_lt hlayout hlt hfirst hsecond
    omega
  · have hapart := bss_le_of_lt hlayout hgt hsecond hfirst
    omega

theorem bssSize_toObject (image : Relocated) (entry : UInt16) :
    (image.setEntryPoint entry).toObject.bssSize = image.object.bssSize := by
  unfold Relocated.toObject Relocated.rebase
  split <;> rfl

/-- The image of the first objects has as many bytes as stand before the next one. -/
theorem Image.Stacks.size_start {siblings front : List Placed} {image : Relocated} {place : Nat}
    {owner : StoredSegment} (hstacks : Image.Stacks siblings front image)
    (hfront : front.map (·.object) = objects.take place) :
    (image.object.contents owner).bytes.size = Object.start objects owner place := by
  rw [hstacks.size_bytes, Object.start, ← hfront, List.map_map]
  rfl

/-- Every object stands in the image where the layout puts it. -/
theorem standsAt_of_stacks {image : Relocated} {relocated : List Relocated} {module : Placed}
    (hbytes : ∀ object ∈ objects, ∀ owner, (object.contents owner).bytes.size < UInt32.size)
    (hlayout : layout objects textBase = .ok bases)
    (hrelocates : List.Forall₂ (Placed.Relocates (Placed.all objects bases))
      (Placed.all objects bases) relocated)
    (hstacks : Image.Stacks (Placed.all objects bases) (Placed.all objects bases) image)
    (entry : UInt16) {place : Nat} (hplace : (Placed.all objects bases)[place]? = some module) :
    StandsAt objects textBase (image.setEntryPoint entry).toObject place module := by
  have hobjects := Placed.map_object_all (layout_eq_ok hlayout).1
  have hdata : ((image.setEntryPoint entry).toObject.contents .data).bytes.size =
      Layout.total .data objects := by
    have hall : (Placed.all objects bases).map (·.object) = objects.take objects.length := by
      rw [hobjects, List.take_length]
    rw [contents_toObject, hstacks.size_start hall, ← total_take_stored hbytes, List.take_length]
    rfl
  have hbss : (image.setEntryPoint entry).toObject.bssSize.toNat = Layout.total .bss objects := by
    rw [bssSize_toObject, hstacks.bssSize, hobjects]
  exact {
    start := toNat_base_stored hbytes hlayout (Placed.getElem?_all.mp hplace).2
    address := fun owner symbol hsegment hvalue ↦
      toNat_addressOf_stored hbytes hlayout hplace hsegment hvalue
    byte := fun owner offset hoffset hfree ↦ by
      rw [contents_toObject]
      have houtside := Image.outside_of_frames (hstacks.frames owner) hrelocates hplace hoffset
        hfree
      rwa [hobjects] at houtside
    bss := by
      rw [hdata, hbss]
      exact bss_of_layout hlayout hplace
    reserved := fun symbol hreserves ↦ toNat_addressOf_reserved hlayout hplace hreserves }

/-- The addresses that the layout assigns agree with where linking puts the bytes. Every object
stands in the image behind the image of the objects before it, bss symbols of different objects have
different addresses, and every definition in the image is one of an object, at its address. -/
theorem link_places
    (hbytes : ∀ object ∈ objects, ∀ owner, (object.contents owner).bytes.size < UInt32.size)
    {linked : Object} {notices : List Notice}
    (hlink : link objects textBase entrySymbol = .ok (linked, notices)) :
    ∃ bases relocated, layout objects textBase = .ok bases ∧ bases.length = objects.length ∧
      Placed.relocateAll (Placed.all objects bases) = .ok relocated ∧
      (∀ place module, (Placed.all objects bases)[place]? = some module →
        StandsAt objects textBase linked place module ∧
        (0 < place → ∃ front, Image.fold (relocated.take place) = .ok front ∧
          ∀ owner, (front.object.contents owner).bytes.size = Object.start objects owner place)) ∧
      (∀ (place other : Nat) (first second : Placed) (symbol found : Symbol), place ≠ other →
        (Placed.all objects bases)[place]? = some first →
        (Placed.all objects bases)[other]? = some second →
        first.object.Reserves symbol → second.object.Reserves found →
          first.bases.addressOf symbol ≠ second.bases.addressOf found) ∧
      linked.symbols.DefinesOnly (Image.Stems (Placed.all objects bases)) := by
  obtain ⟨bases, relocated, image, entry, hlayout, hrelocate, hfold, rfl⟩ := link_eq_ok hlink
  obtain ⟨hlength, -⟩ := layout_eq_ok hlayout
  have hrelocates := Placed.relocateAll_eq_ok hrelocate
  have hsum := bytes_of_layout hbytes hlayout
  have hstacks := Image.stacks_of_fold hrelocates hsum hfold
  refine ⟨bases, relocated, hlayout, hlength, hrelocate, fun place module hplace ↦
    ⟨standsAt_of_stacks hbytes hlayout hrelocates hstacks entry hplace, fun hpositive ↦ ?_⟩,
    fun place other first second symbol found hne hfirst hsecond hsymbol hfound ↦
      addressOf_ne_of_reserves hlayout hne hfirst hsecond hsymbol hfound, ?_⟩
  · obtain ⟨before, hbefore, hstacked⟩ := Image.exists_stacks_take hrelocates hsum hfold hpositive
    refine ⟨before, hbefore, fun owner ↦ hstacked.size_start ?_⟩
    rw [List.map_take, Placed.map_object_all hlength]
  · have hstems := Relocated.definesOnly_rebase_iff.mp hstacks.stems
    exact Relocated.definesOnly_rebase_iff.mpr hstems

/-- A function that stands behind its call. -/
theorem link_places_call :
    ∃ linked notices, link [.calling "f", .labelled "f" true] 0x100 "f" = .ok (linked, notices) ∧
      StandsAt [.calling "f", .labelled "f" true] 0x100 linked 1
        ⟨.labelled "f" true, ⟨0x102, 0, 0⟩⟩ ∧
      linked.symbols.DefinesOnly (Image.Stems (Placed.all [.calling "f", .labelled "f" true]
        [⟨0x100, 0, 0⟩, ⟨0x102, 0, 0⟩])) := by
  have hsome : (link [.calling "f", .labelled "f" true] 0x100 "f").toOption.isSome := by
    decide +kernel
  obtain ⟨⟨linked, notices⟩, hlink⟩ := Fallible.exists_eq_ok_of_isSome hsome
  obtain ⟨bases, relocated, hbases, -, -, hstands, -, hdefines⟩ :=
    link_places addressable_call.bytes hlink
  have hlayout : layout [.calling "f", .labelled "f" true] 0x100 =
      .ok [⟨0x100, 0, 0⟩, ⟨0x102, 0, 0⟩] := Fallible.eq_ok_of_toOption (by decide +kernel)
  obtain rfl := Except.ok.inj (hlayout.symm.trans hbases)
  exact ⟨linked, notices, hlink, (hstands 1 _ rfl).1, hdefines⟩

end Aout
