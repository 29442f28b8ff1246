import Mathlib.Data.List.Perm.Basic
import Aout.Proofs.Linking.Faults
/-!
Relocation and the order of modules. Which definitions a name has, and so everything that relocation
looks up, depends on the modules at hand as a collection (`Placed.findDefinition_perm`). A module
may therefore stand first in front of its siblings, as for `Placed.relocate`, or in its own place
among them, as for `Placed.relocateAll`. The latter writes words only when those of all modules are
found; as found words can always be written, this is the same as relocating one module after the
other (`Placed.relocateAll_eq_mapM`).
-/

set_option autoImplicit false
set_option relaxedAutoImplicit false

namespace Aout.Placed

variable {module : Placed} {modules others siblings : List Placed}

/-! ### Order -/

theorem definitions_perm (hperm : modules.Perm others) (name : String) :
    (definitions modules name).Perm (definitions others name) :=
  hperm.filterMap _

/-- None, one and several definitions are told apart by their number, and the address of a single
one is the same wherever its module stands. -/
theorem findDefinition_perm (hperm : modules.Perm others) (name : String) :
    findDefinition modules name = findDefinition others name := by
  have hdefinitions := definitions_perm hperm name
  unfold findDefinition
  match hmodules : definitions modules name with
  | [] =>
    rw [hmodules, List.nil_perm] at hdefinitions
    rw [hdefinitions]
  | [address] =>
    rw [hmodules, List.singleton_perm] at hdefinitions
    rw [← hdefinitions]
  | _ :: _ :: _ =>
    have hlength := hdefinitions.length_eq
    rw [hmodules] at hlength
    match definitions others name, hlength with
    | _ :: _ :: _, _ => rfl

theorem target_perm (hperm : modules.Perm others) (record : Relocation) (held : UInt16) :
    module.target modules record held = module.target others record held := by
  unfold target
  simp only [findDefinition_perm hperm]

theorem resolveRecord_perm (hperm : modules.Perm others) (owner : StoredSegment)
    (record : Relocation) :
    module.resolveRecord modules owner record = module.resolveRecord others owner record := by
  unfold resolveRecord
  simp only [target_perm hperm]

theorem resolve_perm (hperm : modules.Perm others) (owner : StoredSegment) :
    module.resolve modules owner = module.resolve others owner :=
  Fallible.mapM_congr fun record _ ↦ resolveRecord_perm hperm owner record

theorem resolveAll_perm (hperm : modules.Perm others) :
    module.resolveAll modules = module.resolveAll others := by
  unfold resolveAll
  rw [resolve_perm hperm, resolve_perm hperm]

/-! ### One module and all modules -/

/-- Relocate one of the modules against all of them. -/
def relocateAmong (modules : List Placed) (module : Placed) : Except LinkFault Relocated := do
  let patches ← module.resolveAll modules
  module.patched patches

theorem relocateAmong_perm (hperm : modules.Perm others) :
    relocateAmong modules module = relocateAmong others module := by
  unfold relocateAmong
  rw [resolveAll_perm hperm]

theorem relocate_perm (hperm : siblings.Perm others) :
    module.relocate siblings = module.relocate others :=
  relocateAmong_perm (hperm.cons module)

/-- To be relocated in front of all other modules, or in one's own place among them. -/
theorem relocate_eraseIdx {place : Nat} (hplace : modules[place]? = some module) :
    module.relocate (modules.eraseIdx place) = relocateAmong modules module := by
  obtain ⟨hlt, rfl⟩ := List.getElem?_eq_some_iff.mp hplace
  exact relocateAmong_perm (List.getElem_cons_eraseIdx_perm hlt)

theorem relocateAll_eq_mapM : relocateAll modules = modules.mapM (relocateAmong modules) :=
  Fallible.mapM_zip_mapM fun _ _ _ ↦ exists_patched

/-- Relocating all modules is relocating each one against the others. It succeeds when this does
for every module, with the same results; otherwise it has the fault of the first module for which
this fails. And the result of relocating a module, be it an object or a fault, does not depend on
the order of its siblings. -/
theorem relocateAll_individually (modules : List Placed) :
    ((∃ relocated, relocateAll modules = .ok relocated) ↔
      ∀ (place : Nat) (module : Placed), modules[place]? = some module →
        ∃ result, module.relocate (modules.eraseIdx place) = .ok result) ∧
    (∀ relocated, relocateAll modules = .ok relocated → relocated.length = modules.length ∧
      ∀ (place : Nat) (module : Placed), modules[place]? = some module →
        ∃ result, relocated[place]? = some result ∧
          module.relocate (modules.eraseIdx place) = .ok result) ∧
    (∀ fault, relocateAll modules = .error fault ↔
      ∃ (place : Nat) (module : Placed), modules[place]? = some module ∧
        module.relocate (modules.eraseIdx place) = .error fault ∧
        ∀ (earlier : Nat) (other : Placed), earlier < place → modules[earlier]? = some other →
          ∃ result, other.relocate (modules.eraseIdx earlier) = .ok result) ∧
    ∀ (module : Placed) (siblings others : List Placed), siblings.Perm others →
      module.relocate siblings = module.relocate others := by
  have hrelocate {place : Nat} {module : Placed} (hplace : modules[place]? = some module) :
      module.relocate (modules.eraseIdx place) = relocateAmong modules module :=
    relocate_eraseIdx hplace
  rw [relocateAll_eq_mapM]
  refine ⟨?_, fun relocated hrelocated ↦ ?_, fun fault ↦ ?_,
    fun module siblings others ↦ relocate_perm⟩
  · rw [Fallible.exists_mapM_eq_ok_iff]
    constructor
    · intro hall place module hplace
      rw [hrelocate hplace]
      exact hall module (List.mem_of_getElem? hplace)
    · intro hall module hmodule
      obtain ⟨place, hplace⟩ := List.mem_iff_getElem?.mp hmodule
      rw [← hrelocate hplace]
      exact hall place module hplace
  · rw [Fallible.mapM_eq_ok_iff] at hrelocated
    refine ⟨hrelocated.length_eq.symm, fun place module hplace ↦ ?_⟩
    rw [hrelocate hplace]
    exact Fallible.exists_getElem?_of_forall₂ hrelocated hplace
  · rw [Fallible.mapM_eq_error_iff_getElem?]
    refine exists_congr fun place ↦ exists_congr fun module ↦ and_congr_right fun hplace ↦ ?_
    rw [hrelocate hplace]
    refine and_congr_right fun _ ↦ forall_congr' fun earlier ↦ forall_congr' fun other ↦
      forall_congr' fun _ ↦ forall_congr' fun hearlier ↦ ?_
    rw [hrelocate hearlier]

/-- A caller of a function and the module that defines it, both ways. -/
theorem relocateAll_individually_call :
    ∃ relocated,
      relocateAll [⟨.calling "f", ⟨0x100, 0, 0⟩⟩, ⟨.labelled "f" true, ⟨0x102, 0, 0⟩⟩] =
        .ok relocated ∧
      ∃ caller, relocated[0]? = some caller ∧
        relocate ⟨.calling "f", ⟨0x100, 0, 0⟩⟩ [⟨.labelled "f" true, ⟨0x102, 0, 0⟩⟩] =
          .ok caller := by
  have hsome : (relocateAll [⟨.calling "f", ⟨0x100, 0, 0⟩⟩,
      ⟨.labelled "f" true, ⟨0x102, 0, 0⟩⟩]).toOption.isSome := by decide +kernel
  obtain ⟨relocated, hrelocated⟩ := Fallible.exists_eq_ok_of_isSome hsome
  have hcaller := ((relocateAll_individually _).2.1 relocated hrelocated).2 0 _ rfl
  exact ⟨relocated, hrelocated, hcaller⟩

end Aout.Placed
