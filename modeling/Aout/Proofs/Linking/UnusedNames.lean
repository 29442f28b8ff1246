import Mathlib.Data.Set.Defs
import Aout.Proofs.Linking.Awaiting
import Aout.Proofs.Linking.FirstDefinitions
/-!
A link does not depend on names that an object awaits without referring to them. Object by object,
the image embeds the image that it would be without the name (`Image.exists_hosting_fold`). So both
links go through, and the finished images have the same bytes, sizes and entry address, the same
definitions, and records that refer to the same symbols (`link_await`). The positions of the symbols
may differ: where some object defines the name, or refers to it, its symbol stands where the name
was awaited.
-/

set_option autoImplicit false
set_option relaxedAutoImplicit false

namespace Aout

/-! ### The image, object by object -/

namespace Image

variable {name : String} {modules others : List Relocated} {small large final : Relocated}

theorem size_le_of_foldlM
    (hfold : modules.foldlM (fun image module ↦ (image.concat module).result) small = .ok final) :
    small.object.symbols.size ≤ final.object.symbols.size := by
  induction modules generalizing small with
  | nil =>
    obtain rfl := Except.ok.inj hfold
    exact Nat.le_refl _
  | cons second rest ih =>
    rw [List.foldlM_cons] at hfold
    obtain ⟨joined, hjoined, hrest⟩ := Fallible.bind_eq_ok_iff.mp hfold
    have hsteps := Relocated.concat_evolves small second
    rw [Progress.result_eq_ok_iff_eq_done.mp hjoined] at hsteps
    exact Nat.le_trans hsteps.size_le (ih hrest)

theorem exists_hosting_foldlM (hmodules : List.Forall₂ (Relocated.MayAwait name) modules others)
    (hhosts : Relocated.Hosts name large small)
    (hfold : modules.foldlM (fun image module ↦ (image.concat module).result) small = .ok final)
    (hsize : final.object.symbols.size < UInt32.size) :
    ∃ wide, others.foldlM (fun image module ↦ (image.concat module).result) large = .ok wide ∧
      Relocated.Hosts name wide final := by
  induction hmodules generalizing small large with
  | nil =>
    obtain rfl := Except.ok.inj hfold
    exact ⟨large, rfl, hhosts⟩
  | cons hfirst _ ih =>
    rw [List.foldlM_cons] at hfold ⊢
    obtain ⟨joined, hjoined, hrest⟩ := Fallible.bind_eq_ok_iff.mp hfold
    rw [Progress.result_eq_ok_iff_eq_done] at hjoined
    obtain ⟨places, hembeds⟩ := hhosts
    obtain ⟨wide, hwide, hjoint⟩ :=
      hembeds.concat hjoined (Nat.lt_of_le_of_lt (size_le_of_foldlM hrest) hsize)
    obtain ⟨_, hother, rfl⟩ := hfirst.concat large wide hwide
    obtain ⟨last, hlast, hfinal⟩ := ih hjoint hrest
    exact ⟨last, Fallible.bind_eq_ok_iff.mpr
      ⟨_, Progress.result_eq_ok_iff_eq_done.mpr hother, hlast⟩, hfinal⟩

/-- Objects become an image that embeds the one that they become without the awaited name. -/
theorem exists_hosting_fold (hmodules : List.Forall₂ (Relocated.MayAwait name) modules others)
    (hvalid : ∀ module ∈ modules, module.object.Valid) (hfold : fold modules = .ok final)
    (hsize : final.object.symbols.size < UInt32.size) :
    ∃ wide, fold others = .ok wide ∧ Relocated.Hosts name wide final := by
  cases hmodules with
  | nil => cases hfold
  | cons hfirst hrest =>
    exact exists_hosting_foldlM hrest
      ⟨_, hfirst.embeds (hvalid _ List.mem_cons_self)⟩ hfold hsize

end Image

/-! ### The finished image -/

/-- The names, kinds and values of the symbols that are defined. -/
def SymbolTable.definedSymbols (table : SymbolTable) : Set (String × SymbolKind × UInt32) :=
  {found | ∃ entry ∈ table.entries, entry.symbol.isDefined ∧
    found = (entry.name, entry.symbol.kind, entry.symbol.value)}

/-- Records that are the same but for the table position in an external one, where symbols of the
same name, kind and value stand. -/
structure Relocation.SameTarget (table others : SymbolTable) (record other : Relocation) :
    Prop where
  fields : other = { record with index := other.index }
  internal : record.external = false → other.index = record.index
  external : record.external = true → ∃ entry latter,
    table.entryAt? record.index.toNat = some entry ∧
      others.entryAt? other.index.toNat = some latter ∧ entry.Alike latter

/-- Images with the same bytes, sizes, entry address and definitions, and with records that refer to
the same symbols. -/
structure Object.SameImage (linked other : Object) : Prop where
  bytes : ∀ owner, (other.contents owner).bytes = (linked.contents owner).bytes
  bssSize : other.bssSize = linked.bssSize
  entry : other.entry = linked.entry
  definedSymbols : other.symbols.definedSymbols = linked.symbols.definedSymbols
  relocations : ∀ owner, List.Forall₂ (Relocation.SameTarget linked.symbols other.symbols)
    (linked.contents owner).relocations.toList (other.contents owner).relocations.toList

theorem SymbolTable.Embeds.definedSymbols {name : String} {places : List Nat}
    {small large : SymbolTable} (hembeds : Embeds name places small large) :
    large.definedSymbols = small.definedSymbols := by
  ext found
  constructor
  · rintro ⟨other, hother, hdefined, rfl⟩
    obtain ⟨moved, hmoved⟩ := Array.mem_iff_getElem?.mp hother
    have hcovered := hembeds.covered moved other hmoved hdefined
    obtain ⟨position, hplace⟩ := List.mem_iff_getElem?.mp hcovered
    obtain ⟨entry, latter, hentry, hlatter, halike⟩ := hembeds.entry position moved hplace
    obtain rfl := Option.some.inj (hlatter.symm.trans hmoved)
    refine ⟨entry, Array.mem_of_getElem? hentry, ?_, ?_⟩
    · rwa [← halike.symbol.isDefined]
    · rw [halike.name, halike.symbol.kind, halike.symbol.value]
  · rintro ⟨entry, hentry, hdefined, rfl⟩
    obtain ⟨position, hposition⟩ := Array.mem_iff_getElem?.mp hentry
    obtain ⟨moved, other, -, hother, halike⟩ := hembeds.exists_moved hposition
    refine ⟨other, Array.mem_of_getElem? hother, ?_, ?_⟩
    · rwa [halike.symbol.isDefined]
    · rw [halike.name, halike.symbol.kind, halike.symbol.value]

theorem Relocation.Repositioned.sameTarget {name : String} {places : List Nat}
    {small large : SymbolTable} (hembeds : SymbolTable.Embeds name places small large)
    (hsize : small.size < UInt32.size) {record other : Relocation}
    (hrepositioned : Repositioned places record other) : SameTarget small large record other := by
  cases hrepositioned with
  | internal hinternal =>
    exact ⟨rfl, fun _ ↦ rfl, fun hexternal ↦ absurd (hexternal.symm.trans hinternal) (by decide)⟩
  | @external position moved hexternal hindex hplace =>
    obtain ⟨hposition, hmoved⟩ := hembeds.lt_size hplace
    have hlarge := hembeds.size
    refine ⟨rfl, fun hinternal ↦ absurd (hexternal.symm.trans hinternal) (by decide), fun _ ↦ ?_⟩
    rw [hindex, UInt32.toNat_ofNat_of_lt' (Nat.lt_trans hposition hsize),
      UInt32.toNat_ofNat_of_lt' (by omega)]
    exact hembeds.entry position moved hplace

namespace Relocated.Embeds

variable {name : String} {places : List Nat} {small large : Relocated}

/-- The entry symbol has the same address, even if it is the awaited name. -/
theorem entryAddress (hembeds : Embeds name places small large) (entrySymbol : String) :
    Image.entryAddress large entrySymbol = Image.entryAddress small entrySymbol := by
  unfold Image.entryAddress SymbolTable.find?
  cases hlocate : small.object.symbols.locate? entrySymbol with
  | none =>
    rcases hembeds.symbols.locate?_eq_none hlocate with
      hunknown | ⟨-, moved, spare, -, hspare, halike⟩
    · rw [hunknown, hembeds.bases]
      rfl
    · have hundefined := halike.isDefined.trans SymbolTable.isDefined_awaited
      rw [hspare, Option.map_some, Option.filter_some, hundefined, hembeds.bases]
      rfl
  | some found =>
    obtain ⟨position, symbol⟩ := found
    obtain ⟨moved, latter, -, hlatter, halike⟩ := hembeds.symbols.locate?_eq_some hlocate
    rw [hlatter, Option.map_some, Option.map_some, Option.filter_some, Option.filter_some,
      halike.isDefined, hembeds.bases]
    cases symbol.isDefined with
    | false => rfl
    | true =>
      exact congrArg (fun address ↦ (address, ([] : List Notice))) (hembeds.addressOf halike)

theorem setEntryPoint (hembeds : Embeds name places small large) (entry : UInt16) :
    (small.setEntryPoint entry).Embeds name places (large.setEntryPoint entry) where
  rebased := hembeds.rebased
  bases := hembeds.bases
  bssSize := hembeds.bssSize
  symbols := hembeds.symbols
  bytes := by
    rintro (_ | _)
    · exact hembeds.bytes .text
    · exact hembeds.bytes .data
  relocations := by
    rintro (_ | _)
    · exact hembeds.relocations .text
    · exact hembeds.relocations .data

theorem sameImage (hembeds : Embeds name places small large)
    (hsize : small.object.symbols.size < UInt32.size) (entry : UInt16) :
    (small.setEntryPoint entry).toObject.SameImage (large.setEntryPoint entry).toObject := by
  have hfinished := (hembeds.setEntryPoint entry).rebase
  have hsymbols : (small.setEntryPoint entry).rebase.object.symbols.size < UInt32.size := by
    rwa [size_symbols_rebase]
  exact {
    bytes := hfinished.bytes
    bssSize := hfinished.bssSize
    entry := by rw [entry_toObject, entry_toObject]
    definedSymbols := hfinished.symbols.definedSymbols
    relocations := fun owner ↦ (hfinished.relocations owner).imp fun _ _ hrecord ↦
      hrecord.sameTarget hfinished.symbols hsymbols }

end Relocated.Embeds

theorem Object.SameImage.size {linked other : Object} (hsame : linked.SameImage other)
    (segment : Segment) : other.size segment = linked.size segment := by
  have hstored (owner : StoredSegment) :
      (other.contents owner).size = (linked.contents owner).size :=
    congrArg (fun bytes : Array UInt8 ↦ UInt32.ofNat bytes.size) (hsame.bytes owner)
  cases segment with
  | text => exact hstored .text
  | data => exact hstored .data
  | bss => exact hsame.bssSize

section Linked

variable {objects others : List Object} {textBase : UInt16} {entrySymbol name : String}
  {linked : Object} {notices : List Notice}

theorem Object.MayAwait.set {place : Nat} {object other : Object}
    (hplace : objects[place]? = some object) (hawaits : object.MayAwait name other) :
    List.Forall₂ (Object.MayAwait name) objects (objects.set place other) := by
  induction objects generalizing place with
  | nil => cases hplace
  | cons first rest ih =>
    cases place with
    | zero =>
      obtain rfl := Option.some.inj hplace
      exact .cons hawaits (List.forall₂_same.mpr fun _ _ ↦ .known)
    | succ place => exact .cons .known (ih hplace)

theorem Placed.MayAwait.all (hobjects : List.Forall₂ (Object.MayAwait name) objects others)
    (bases : List Bases) : List.Forall₂ (Placed.MayAwait name) (Placed.all objects bases)
      (Placed.all others bases) := by
  induction hobjects generalizing bases with
  | nil => exact .nil
  | cons hfirst _ ih =>
    cases bases with
    | nil => exact .nil
    | cons base rest => exact .cons ⟨hfirst, rfl⟩ (ih rest)

/-- Objects of which some may await one more name are linked to the same image. -/
theorem exists_link_of_mayAwait (hobjects : List.Forall₂ (Object.MayAwait name) objects others)
    (hlink : link objects textBase entrySymbol = .ok (linked, notices))
    (hsymbols : linked.symbols.size < UInt32.size) :
    ∃ other, link others textBase entrySymbol = .ok (other, notices) ∧ linked.SameImage other := by
  obtain ⟨bases, relocated, image, entry, hlayout, hrelocate, hfold, rfl⟩ := link_eq_ok hlink
  have hsize : image.object.symbols.size < UInt32.size := by
    rwa [Relocated.toObject, Relocated.size_symbols_rebase] at hsymbols
  have hplaced : layout others textBase = .ok bases :=
    (layout_congr (hobjects.imp fun _ _ hawaits ↦ hawaits.size) textBase).trans hlayout
  obtain ⟨further, hfurther, hawaits⟩ :=
    Placed.MayAwait.exists_relocateAll (Placed.MayAwait.all hobjects bases) hrelocate
  have hvalid : ∀ module ∈ relocated, module.object.Valid := by
    intro module hmodule
    obtain ⟨placed, -, hrelocates⟩ :=
      Fallible.exists_mem_of_forall₂ (Placed.relocateAll_eq_ok hrelocate) hmodule
    exact hrelocates.valid
  obtain ⟨wide, hwide, places, hembeds⟩ := Image.exists_hosting_fold hawaits hvalid hfold hsize
  rw [link_eq_of_fold hlayout hrelocate hfold] at hlink
  rw [link_eq_of_fold hplaced hfurther hwide, hembeds.entryAddress]
  dsimp only at hlink ⊢
  split at hlink
  · cases hlink
  · rename_i narrow _
    have hsame := hembeds.sameImage hsize narrow
    obtain ⟨hobject, hnotices⟩ := Prod.mk.inj (Except.ok.inj hlink)
    rw [← hobject, ← hnotices]
    simp only [← hobjects.length_eq, hsame.size]
    exact ⟨_, rfl, hsame⟩

/-- An object of a list that links may await any further name: the list links as before, with the
same notices, and the image is the same but for the positions of symbols and for symbols without a
definition. -/
theorem link_await (hlink : link objects textBase entrySymbol = .ok (linked, notices))
    (hsymbols : linked.symbols.size < UInt32.size) {place : Nat} {object : Object}
    (hplace : objects[place]? = some object) (name : String) :
    ∃ other, link (objects.set place (object.await name).2) textBase entrySymbol =
      .ok (other, notices) ∧ linked.SameImage other := by
  have hobjects := Object.MayAwait.set hplace (.await object name)
  exact exists_link_of_mayAwait hobjects hlink hsymbols

/-- A caller that also awaits the entry symbol, which no object defines. -/
theorem link_await_call : ∃ linked other notices,
    link [.calling "f", .labelled "f" true] 0x100 "main" = .ok (linked, notices) ∧
      link [((Object.calling "f").await "main").2, .labelled "f" true] 0x100 "main" =
        .ok (other, notices) ∧ linked.SameImage other := by
  have hsome : (link [.calling "f", .labelled "f" true] 0x100 "main").toOption.any fun linked ↦
      decide (linked.1.symbols.size < UInt32.size) := by
    decide +kernel
  obtain ⟨⟨linked, notices⟩, hlink, hsize⟩ := (Option.any_eq_true _ _).mp hsome
  have hlinked := Fallible.eq_ok_of_toOption hlink
  have hplace : [Object.calling "f", .labelled "f" true][0]? = some (.calling "f") := rfl
  obtain ⟨other, hother, hsame⟩ := link_await hlinked (of_decide_eq_true hsize) hplace "main"
  exact ⟨linked, other, notices, hlinked, hother, hsame⟩

end Linked

end Aout
