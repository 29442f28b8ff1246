import Aout.Proofs.Linking.Linked
import Aout.Proofs.Object.Editing
/-!
Where objects come from. An object arises from those there are to begin with: it is built and
stripped, relocated, takes in other objects, also where a fault stops this halfway, and is finished
as an image (`Object.Arises`). Which objects there are to begin with, which operations are permitted
and whether just any object may be taken in depends on what is to be said of it
(`Object.Provenance`). An image that is linked from such objects is one of them
(`Object.Arises.link`). Modules arise from relocated ones likewise (`Relocated.Arises`).
-/

set_option autoImplicit false
set_option relaxedAutoImplicit false

namespace Aout

/-- The modules that relocating a placed object yields, alone against others or together with
them. -/
inductive Placed.Yields (placed : Placed) : Relocated → Prop
  | relocate {siblings : List Placed} {module : Relocated}
      (hrelocate : placed.relocate siblings = .ok module) : Yields placed module
  | relocateAll {modules : List Placed} {relocated : List Relocated} {place : Nat}
      {module : Relocated} (hrelocate : relocateAll modules = .ok relocated)
      (hplaced : modules[place]? = some placed) (hmodule : relocated[place]? = some module) :
      Yields placed module

namespace Placed

variable {placed : Placed} {module : Relocated}

theorem Yields.relocates (hyields : placed.Yields module) :
    ∃ modules, Relocates modules placed module := by
  cases hyields with
  | relocate hrelocate => exact ⟨_, relocates_of_relocate hrelocate⟩
  | relocateAll hrelocate hplaced hmodule =>
    obtain ⟨found, hfound, hrelocates⟩ :=
      Fallible.exists_getElem?_of_forall₂ (relocateAll_eq_ok hrelocate) hplaced
    obtain rfl := Option.some.inj (hfound.symm.trans hmodule)
    exact ⟨_, hrelocates⟩

theorem exists_yields {modules : List Placed} {relocated : List Relocated}
    (hrelocate : relocateAll modules = .ok relocated) (hmodule : module ∈ relocated) :
    ∃ placed ∈ modules, placed.Yields module := by
  obtain ⟨place, hplace⟩ := List.mem_iff_getElem?.mp hmodule
  obtain ⟨placed, hplaced, -⟩ :=
    Fallible.exists_getElem?_of_forall₂ (relocateAll_eq_ok hrelocate).flip hplace
  exact ⟨placed, List.mem_of_getElem? hplaced, .relocateAll hrelocate hplaced hplace⟩

end Placed

/-! ### Objects -/

namespace Object

/-- What an object may come from. -/
structure Provenance where
  /-- The objects to begin with. -/
  Starts : Object → Prop
  /-- The operations that may be used. -/
  Permits : Edit → Prop
  /-- Whether only objects of the same provenance are taken in. -/
  confined : Prop

/-- The objects that arise from those to begin with, by building, stripping and linking. -/
inductive Arises (provenance : Provenance) : Object → Prop
  | start {object : Object} (hstart : provenance.Starts object) : Arises provenance object
  | edit {object : Object} (harises : Arises provenance object) {edit : Edit}
      (hpermits : provenance.Permits edit) : Arises provenance (edit.run object)
  | relocate {placed : Placed} {module : Relocated} (harises : Arises provenance placed.object)
      (hyields : placed.Yields module) : Arises provenance module.object
  | concat {module other : Relocated} (harises : Arises provenance module.object)
      (hother : provenance.confined → Arises provenance other.object) :
      Arises provenance (module.concat other).state.object
  | toObject {module : Relocated} (harises : Arises provenance module.object) :
      Arises provenance module.toObject

variable {provenance : Provenance}

theorem Arises.edited {object : Object} (harises : Arises provenance object) {edits : List Edit}
    (hpermits : ∀ edit ∈ edits, provenance.Permits edit) :
    Arises provenance (object.edited edits) := by
  induction edits generalizing object with
  | nil => exact harises
  | cons edit rest ih =>
    rw [List.forall_mem_cons] at hpermits
    exact ih (.edit harises hpermits.1) hpermits.2

theorem Arises.fold {relocated : List Relocated} {image : Relocated}
    (hrelocated : ∀ module ∈ relocated, Arises provenance module.object)
    (hfold : Image.fold relocated = .ok image) : Arises provenance image.object := by
  cases relocated with
  | nil => cases hfold
  | cons first rest =>
    rw [List.forall_mem_cons] at hrelocated
    obtain ⟨hfirst, hrest⟩ := hrelocated
    rw [Image.fold] at hfold
    induction rest generalizing first with
    | nil =>
      obtain rfl := Except.ok.inj hfold
      exact hfirst
    | cons module rest ih =>
      rw [List.forall_mem_cons] at hrest
      rw [List.foldlM_cons] at hfold
      obtain ⟨joined, hconcat, hfold⟩ := Fallible.bind_eq_ok_iff.mp hfold
      obtain ⟨rfl, -⟩ := Progress.result_eq_ok_iff.mp hconcat
      exact ih _ hfold (.concat hfirst fun _ ↦ hrest.1) hrest.2

/-- An image arises from whatever its objects arise from, if entry addresses may be set. -/
theorem Arises.link (hpermits : ∀ entry, provenance.Permits (.setEntryPoint entry))
    {objects : List Object} {textBase : UInt16} {entrySymbol : String} {linked : Object}
    {notices : List Notice} (hobjects : ∀ object ∈ objects, Arises provenance object)
    (hlink : Aout.link objects textBase entrySymbol = .ok (linked, notices)) :
    Arises provenance linked := by
  obtain ⟨bases, relocated, image, entry, -, hrelocate, hfold, rfl⟩ := link_eq_ok hlink
  have hrelocated : ∀ module ∈ relocated, Arises provenance module.object := by
    intro module hmodule
    obtain ⟨placed, hplaced, hyields⟩ := Placed.exists_yields hrelocate hmodule
    exact .relocate (hobjects _ (Placed.object_mem_of_mem_all hplaced)) hyields
  have himage : Arises provenance (image.setEntryPoint entry).object :=
    .edit (.fold hrelocated hfold) (hpermits entry)
  exact .toObject himage

end Object

/-! ### Modules -/

namespace Relocated

/-- The modules that arise from those to begin with: by taking in modules, also where a fault stops
this halfway, and by setting entry addresses. If `confined` holds, all modules that are taken in
arise in the same way. -/
inductive Arises (Starts : Relocated → Prop) (confined : Prop) : Relocated → Prop
  | start {module : Relocated} (hstart : Starts module) : Arises Starts confined module
  | concat {module other : Relocated} (harises : Arises Starts confined module)
      (hother : confined → Arises Starts confined other) :
      Arises Starts confined (module.concat other).state
  | setEntryPoint {module : Relocated} (harises : Arises Starts confined module)
      (entry : UInt16) : Arises Starts confined (module.setEntryPoint entry)

/-- The modules that a module passes through while it takes in just any others. -/
def Run (start : Relocated) : Relocated → Prop :=
  Arises (· = start) False

/-- The modules that arise from relocated objects alone. -/
def Reachable : Relocated → Prop :=
  Arises (fun module ↦ ∃ placed : Placed, placed.Yields module) True

namespace Reachable

variable {module : Relocated}

theorem relocate {placed : Placed} {siblings : List Placed}
    (hrelocate : placed.relocate siblings = .ok module) : Reachable module :=
  .start ⟨placed, .relocate hrelocate⟩

theorem relocateAll {placed : List Placed} {modules : List Relocated}
    (hrelocate : Placed.relocateAll placed = .ok modules) (hmodule : module ∈ modules) :
    Reachable module := by
  obtain ⟨origin, -, hyields⟩ := Placed.exists_yields hrelocate hmodule
  exact .start ⟨origin, hyields⟩

end Reachable

end Relocated

end Aout
