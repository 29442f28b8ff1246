import Aout.Proofs.Linking.Folding
/-!
Linking taken apart: an image that was linked has a layout, relocated objects and a fold behind it
(`link_eq_ok`), and where these go through, the entry address is all that is left
(`link_eq_of_fold`); only one of more than 16 bits can go wrong then (`link_of_fold`). The offsets
of bytes and the positions of symbols are kept in 32-bit fields. Objects that respect this
(`Addressable`) leave the image within these bounds, for a layout allows no more bytes than there
are addresses (`bounded_of_layout`).
-/

set_option autoImplicit false
set_option relaxedAutoImplicit false

namespace Aout

/-- The objects, each with its load addresses. -/
def Placed.all (objects : List Object) (bases : List Bases) : List Placed :=
  (objects.zip bases).map fun (object, bases) ↦ ⟨object, bases⟩

variable {objects : List Object} {bases : List Bases} {textBase : UInt16} {entrySymbol : String}

namespace Placed

theorem getElem?_all {place : Nat} {module : Placed} :
    (all objects bases)[place]? = some module ↔
      objects[place]? = some module.object ∧ bases[place]? = some module.bases := by
  rw [all, List.getElem?_map, Option.map_eq_some_iff]
  constructor
  · rintro ⟨⟨object, base⟩, hpair, rfl⟩
    exact List.getElem?_zip_eq_some.mp hpair
  · intro hpair
    exact ⟨(module.object, module.bases), List.getElem?_zip_eq_some.mpr hpair, rfl⟩

theorem map_object_all (hlength : bases.length = objects.length) :
    (all objects bases).map (·.object) = objects := by
  rw [all, List.map_map]
  exact List.map_fst_zip (Nat.le_of_eq hlength.symm)

theorem object_mem_of_mem_all {module : Placed} (hmodule : module ∈ all objects bases) :
    module.object ∈ objects := by
  obtain ⟨place, hplace⟩ := List.mem_iff_getElem?.mp hmodule
  exact List.mem_of_getElem? (getElem?_all.mp hplace).1

end Placed

/-- What an image that was linked has been made of. -/
theorem link_eq_ok {linked : Object} {notices : List Notice}
    (hlink : link objects textBase entrySymbol = .ok (linked, notices)) :
    ∃ bases relocated image entry, layout objects textBase = .ok bases ∧
      Placed.relocateAll (Placed.all objects bases) = .ok relocated ∧
      Image.fold relocated = .ok image ∧ linked = (image.setEntryPoint entry).toObject := by
  unfold link at hlink
  split at hlink
  · cases hlink
  · obtain ⟨bases, hlayout, hlink⟩ := Fallible.bind_eq_ok_iff.mp hlink
    obtain ⟨relocated, hrelocate, hlink⟩ := Fallible.bind_eq_ok_iff.mp hlink
    obtain ⟨image, hfold, hlink⟩ := Fallible.bind_eq_ok_iff.mp hlink
    dsimp only at hlink
    split at hlink
    · cases hlink
    · rename_i entry hentry
      obtain ⟨rfl, -⟩ := Prod.mk.inj (Fallible.pure_eq_ok_iff.mp hlink)
      exact ⟨bases, relocated, image, entry, hlayout, hrelocate, hfold, rfl⟩

/-- Once all objects are in one, what is left of linking is to set the entry address. -/
theorem link_eq_of_fold {relocated : List Relocated} {image : Relocated}
    (hlayout : layout objects textBase = .ok bases)
    (hrelocate : Placed.relocateAll (Placed.all objects bases) = .ok relocated)
    (hfold : Image.fold relocated = .ok image) :
    link objects textBase entrySymbol =
      let (address, notices) := Image.entryAddress image entrySymbol
      match Word.narrow? address with
      | none => .error (.entryTooWide address)
      | some entry =>
        let linked := (image.setEntryPoint entry).toObject
        .ok (linked, notices ++ [.linked objects.length (linked.size .text) (linked.size .data)
          (linked.size .bss) entry]) := by
  have hsome : objects.isEmpty = false := by
    cases objects with
    | nil =>
      obtain rfl : relocated = [] := (Except.ok.inj hrelocate).symm
      cases hfold
    | cons object rest => rfl
  have hplaced :
      Placed.relocateAll ((objects.zip bases).map fun (object, bases) ↦ ⟨object, bases⟩) =
        .ok relocated := hrelocate
  unfold link
  simp only [hsome, Bool.false_eq_true, if_false, hlayout, hplaced, hfold, bind, Except.bind]
  rfl

/-- Once all objects are in one, linking succeeds unless the entry address is too wide. -/
theorem link_of_fold {relocated : List Relocated} {image : Relocated}
    (hlayout : layout objects textBase = .ok bases)
    (hrelocate : Placed.relocateAll (Placed.all objects bases) = .ok relocated)
    (hfold : Image.fold relocated = .ok image) :
    (∃ result, link objects textBase entrySymbol = .ok result) ∨
      ∃ address, link objects textBase entrySymbol = .error (.entryTooWide address) := by
  rw [link_eq_of_fold hlayout hrelocate hfold]
  dsimp only
  split
  · exact .inr ⟨_, rfl⟩
  · exact .inl ⟨_, rfl⟩

theorem contents_toObject (image : Relocated) (entry : UInt16) (owner : StoredSegment) :
    (image.setEntryPoint entry).toObject.contents owner = image.object.contents owner := by
  rw [Relocated.toObject, Relocated.contents_rebase]
  cases owner <;> rfl

/-- The bytes of every stored segment have 32-bit offsets, and the symbols of all objects together
have 32-bit positions. -/
structure Addressable (objects : List Object) : Prop where
  bytes : ∀ object ∈ objects, ∀ owner, (object.contents owner).bytes.size < UInt32.size
  symbols : (objects.map (·.symbols.size)).sum ≤ UInt32.size

theorem toNat_size_segment {object : Object} {owner : StoredSegment}
    (hbytes : (object.contents owner).bytes.size < UInt32.size) :
    (object.size owner.segment).toNat = (object.contents owner).bytes.size := by
  cases owner with
  | text => exact UInt32.toNat_ofNat_of_lt' hbytes
  | data => exact UInt32.toNat_ofNat_of_lt' hbytes

theorem total_stored {owner : StoredSegment}
    (hbytes : ∀ object ∈ objects, (object.contents owner).bytes.size < UInt32.size) :
    Layout.total owner.segment objects =
      (objects.map fun object ↦ (object.contents owner).bytes.size).sum :=
  congrArg List.sum (List.map_congr_left fun object hobject ↦
    toNat_size_segment (hbytes object hobject))

/-- A layout leaves no more bytes in all objects together than there are offsets. -/
theorem bytes_of_layout
    (hbytes : ∀ object ∈ objects, ∀ owner, (object.contents owner).bytes.size < UInt32.size)
    (hlayout : layout objects textBase = .ok bases) (owner : StoredSegment) :
    ((Placed.all objects bases).map fun module ↦ (module.object.contents owner).bytes.size).sum ≤
      UInt32.size := by
  obtain ⟨hlength, htotal⟩ := layout_eq_ok hlayout
  have hspace : Layout.addressSpace ≤ UInt32.size := by decide
  have hle := htotal owner.segment
  rw [total_stored fun object hobject ↦ hbytes object hobject owner,
    ← Placed.map_object_all hlength, List.map_map] at hle
  exact Nat.le_trans hle hspace

theorem bounded_of_layout (haddressable : Addressable objects)
    (hlayout : layout objects textBase = .ok bases) :
    Image.Bounded (Placed.all objects bases) where
  bytes := bytes_of_layout haddressable.bytes hlayout
  symbols := by
    have hsymbols := haddressable.symbols
    rwa [← Placed.map_object_all (layout_eq_ok hlayout).1, List.map_map] at hsymbols

end Aout
