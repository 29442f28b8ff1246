import Mathlib.Algebra.Order.BigOperators.Group.List
import Mathlib.Algebra.Order.Ring.Nat
import Aout.Proofs.Linking.Appearance
/-!
Three objects in either grouping. Relocated modules that share no definition, each with distinct
names and with placeholders that meet nowhere, can be put together from the left or from the right:
either both go through or neither does, and the two results look the same but for the order of their
symbols (`Relocated.concat_assoc`). The same reference may be resolved in different phases on the
two ways, as one of the object at hand or as one that is taken in. That this comes to the same is
read off the views: each grouping of objects is that grouping of views, and joining views is
associative.
-/

set_option autoImplicit false
set_option relaxedAutoImplicit false

namespace Aout

namespace Relocated

variable {first second module joined : Relocated}

/-- Relocated modules that share no definition, each with distinct names and with placeholders that
meet nowhere. Sizes and table positions in all of them together have 32 bits. -/
structure Mergeable (modules : List Relocated) : Prop where
  reachable : ∀ module ∈ modules, Reachable module
  distinct : ∀ module ∈ modules, module.NamesDistinct
  isolated : ∀ module ∈ modules, ∀ owner position,
    Relocation.Isolated (module.object.contents owner).relocations position
  disjoint : modules.Pairwise fun first second ↦ ∀ name,
    ¬ (first.object.symbols.Defines name ∧ second.object.symbols.Defines name)
  bytes : ∀ owner,
    (modules.map fun module ↦ (module.object.contents owner).bytes.size).sum < UInt32.size
  bss : (modules.map fun module ↦ module.object.bssSize.toNat).sum < UInt32.size
  symbols : (modules.map fun module ↦ module.object.symbols.size).sum ≤ UInt32.size

namespace Mergeable

variable {modules part : List Relocated}

theorem sublist (hmergeable : Mergeable modules) (hpart : part.Sublist modules) :
    Mergeable part where
  reachable := fun module hmodule ↦ hmergeable.reachable module (hpart.subset hmodule)
  distinct := fun module hmodule ↦ hmergeable.distinct module (hpart.subset hmodule)
  isolated := fun module hmodule ↦ hmergeable.isolated module (hpart.subset hmodule)
  disjoint := hmergeable.disjoint.sublist hpart
  bytes := fun owner ↦ Nat.lt_of_le_of_lt
    ((hpart.map _).sum_le_sum fun _ _ ↦ Nat.zero_le _) (hmergeable.bytes owner)
  bss := Nat.lt_of_le_of_lt ((hpart.map _).sum_le_sum fun _ _ ↦ Nat.zero_le _) hmergeable.bss
  symbols := Nat.le_trans ((hpart.map _).sum_le_sum fun _ _ ↦ Nat.zero_le _) hmergeable.symbols

theorem compatible (hmergeable : Mergeable [first, second]) : Compatible first second where
  firstDistinct := hmergeable.distinct first (by simp)
  secondDistinct := hmergeable.distinct second (by simp)
  firstValid := (hmergeable.reachable first (by simp)).valid
  secondValid := (hmergeable.reachable second (by simp)).valid
  symbols := by simpa using hmergeable.symbols
  bytes := fun owner ↦ by simpa using Nat.le_of_lt (hmergeable.bytes owner)

theorem sound_view (hmergeable : Mergeable modules) (hmodule : module ∈ modules) :
    module.view.Sound := by
  refine fun owner ↦ ⟨fun reference hreference ↦ ?_, ?_⟩
  · obtain ⟨record, hrecord, rfl⟩ := List.mem_map.mp hreference
    have hvalid := (hmergeable.reachable module hmodule).valid
    exact (hvalid owner record (Array.mem_toList_iff.mp hrecord)).inside
  · refine List.pairwise_map.mpr (List.pairwise_iff_getElem.mpr ?_)
    intro place other hplace hother hlt
    refine hmergeable.isolated module hmodule owner other _ _ place ?_ ?_ (Nat.ne_of_lt hlt)
    · rw [← Array.getElem?_toList, List.getElem?_eq_getElem hother]
    · rw [← Array.getElem?_toList, List.getElem?_eq_getElem hplace]

theorem disjoint_view (hmergeable : Mergeable [first, second]) :
    first.view.Disjoint second.view := by
  have hdisjoint := List.rel_of_pairwise_cons hmergeable.disjoint (List.mem_singleton_self second)
  intro name
  by_contra hboth
  obtain ⟨hknown, hgiven⟩ := not_or.mp hboth
  obtain ⟨known, hknown⟩ := Option.ne_none_iff_exists'.mp hknown
  obtain ⟨given, hgiven⟩ := Option.ne_none_iff_exists'.mp hgiven
  exact hdisjoint name ⟨defines_of_meaning? hknown, defines_of_meaning? hgiven⟩

end Mergeable

/-- Objects that share no definition yield such modules, if each has distinct names and placeholders
that meet nowhere. -/
theorem mergeable_of_relocateAll {placed : List Placed} {modules : List Relocated}
    (hrelocate : Placed.relocateAll placed = .ok modules)
    (hdistinct : ∀ module ∈ placed, module.object.symbols.NamesDistinct)
    (hisolated : ∀ module ∈ placed, ∀ owner position,
      Relocation.Isolated (module.object.contents owner).relocations position)
    (hdisjoint : placed.Pairwise fun first second ↦ ∀ name,
      ¬ (first.object.symbols.Defines name ∧ second.object.symbols.Defines name))
    (hbytes : ∀ owner,
      (placed.map fun module ↦ (module.object.contents owner).bytes.size).sum < UInt32.size)
    (hbss : (placed.map fun module ↦ module.object.bssSize.toNat).sum < UInt32.size)
    (hsymbols : (placed.map fun module ↦ module.object.symbols.size).sum ≤ UInt32.size) :
    Mergeable modules := by
  have hrelocates := Placed.relocateAll_eq_ok hrelocate
  have hmap {Value : Type} (before : Placed → Value) (after : Relocated → Value)
      (hsame : ∀ module relocated, Placed.Relocates placed module relocated →
        before module = after relocated) : placed.map before = modules.map after := by
    rw [← List.forall₂_eq_eq_eq, List.forall₂_map_left_iff, List.forall₂_map_right_iff]
    exact hrelocates.imp hsame
  exact {
    reachable := fun module hmodule ↦ .relocateAll hrelocate hmodule
    distinct := fun module hmodule ↦ by
      obtain ⟨source, hsource, hrelocates⟩ := Fallible.exists_mem_of_forall₂ hrelocates hmodule
      rw [NamesDistinct, hrelocates.symbols]
      exact hdistinct source hsource
    isolated := fun module hmodule owner ↦ by
      obtain ⟨source, hsource, hrelocates⟩ := Fallible.exists_mem_of_forall₂ hrelocates hmodule
      rw [hrelocates.relocations]
      exact hisolated source hsource owner
    disjoint := by
      have htables : (placed.map (·.object.symbols)).Pairwise fun first second ↦
          ∀ name, ¬ (first.Defines name ∧ second.Defines name) := List.pairwise_map.mpr hdisjoint
      rw [hmap _ (·.object.symbols) fun _ _ hrelocates ↦ hrelocates.symbols.symm] at htables
      exact List.pairwise_map.mp htables
    bytes := fun owner ↦ by
      rw [← hmap _ _ fun _ _ hrelocates ↦ (hrelocates.size_bytes owner).symm]
      exact hbytes owner
    bss := by
      rw [← hmap _ _ fun _ _ hrelocates ↦ congrArg UInt32.toNat hrelocates.bssSize.symm]
      exact hbss
    symbols := by
      rw [← hmap _ _ fun _ _ hrelocates ↦ congrArg SymbolTable.size hrelocates.symbols.symm]
      exact hsymbols }

/-- Modules that do not get in each other's way can be put together in either grouping, or in
neither, and but for the order of the symbols this comes to the same. -/
theorem concat_assoc {third : Relocated} (hmergeable : Mergeable [first, second, third]) :
    ((∃ front left, first.concat second = .done front ∧ front.concat third = .done left) ↔
      ∃ back right, second.concat third = .done back ∧ first.concat back = .done right) ∧
    ∀ front left back right, first.concat second = .done front → front.concat third = .done left →
      second.concat third = .done back → first.concat back = .done right →
        left.view = right.view := by
  have hfirstSecond : Mergeable [first, second] := hmergeable.sublist (by simp)
  have hfirstThird : Mergeable [first, third] := hmergeable.sublist (by simp)
  have hsecondThird : Mergeable [second, third] := hmergeable.sublist (by simp)
  obtain ⟨-, -, -, -, hbytes, hbss, hsymbols⟩ := hmergeable
  simp only [List.map_cons, List.map_nil, List.sum_cons, List.sum_nil] at hbytes hbss hsymbols
  have hfront (front : Relocated) (hdone : first.concat second = .done front) :
      Compatible front third :=
    hfirstSecond.compatible.concat_left hsecondThird.compatible.secondDistinct
      hsecondThird.compatible.secondValid (by omega) (fun owner ↦ by have := hbytes owner; omega)
      hdone
  have hback (back : Relocated) (hdone : second.concat third = .done back) :
      Compatible first back :=
    (hsecondThird.compatible.concat_left hfirstSecond.compatible.firstDistinct
      hfirstSecond.compatible.firstValid (by omega) (fun owner ↦ by have := hbytes owner; omega)
      hdone).symm
  have hdisjoint := hfirstSecond.disjoint_view.join_right hfirstThird.disjoint_view
  constructor
  · rw [hfirstSecond.compatible.exists_left_iff hfront,
      hsecondThird.compatible.exists_right_iff hback]
    exact View.joinable_assoc hfirstSecond.disjoint_view hfirstThird.disjoint_view
      hsecondThird.disjoint_view (by simp only [view]; omega)
  · intro front left back right hdone hleft hdone' hright
    calc left.view
      _ = (first.view.join second.view).join third.view := by
        rw [(hfront front hdone).view_concat hleft, hfirstSecond.compatible.view_concat hdone]
      _ = first.view.join (second.view.join third.view) :=
        View.join_assoc (hfirstSecond.sound_view (by simp)) (hfirstSecond.sound_view (by simp))
          (hsecondThird.sound_view (by simp)) hdisjoint
      _ = right.view := by
        rw [(hback back hdone').view_concat hright, hsecondThird.compatible.view_concat hdone']

/-- Two calls of a function, with the function between them. -/
theorem concat_assoc_calls : ∃ first second third,
    Placed.relocateAll [⟨.calling "f", ⟨0x100, 0, 0⟩⟩, ⟨.labelled "f" true, ⟨0x102, 0, 0⟩⟩,
        ⟨.calling "f", ⟨0x103, 0, 0⟩⟩] = .ok [first, second, third] ∧
      Mergeable [first, second, third] ∧
      ∃ front left back right, first.concat second = .done front ∧
        front.concat third = .done left ∧ second.concat third = .done back ∧
        first.concat back = .done right ∧ left.view = right.view := by
  have hsome : (Placed.relocateAll [⟨.calling "f", ⟨0x100, 0, 0⟩⟩,
      ⟨.labelled "f" true, ⟨0x102, 0, 0⟩⟩, ⟨.calling "f", ⟨0x103, 0, 0⟩⟩] >>=
        Image.fold).toOption.isSome := by
    decide +kernel
  obtain ⟨left, hlinked⟩ := Fallible.exists_eq_ok_of_isSome hsome
  obtain ⟨relocated, hrelocate, hfold⟩ := Fallible.bind_eq_ok_iff.mp hlinked
  have hundefined (name : String) : ¬ (Object.calling "f").symbols.Defines name := by
    rintro ⟨position, symbol, hentry, hdefined⟩
    have hall : ∀ entry ∈ (Object.calling "f").symbols.entries, entry.symbol.isDefined = false := by
      decide +kernel
    have hawaited := hall _ (Array.mem_of_getElem? hentry)
    rw [hdefined] at hawaited
    cases hawaited
  have hmergeable : Mergeable relocated := by
    refine mergeable_of_relocateAll hrelocate ?_ ?_ ?_ ?_ (by decide +kernel) (by decide +kernel)
    · simp only [List.forall_mem_cons, SymbolTable.namesDistinct_iff_nodup]
      exact ⟨by decide +kernel, by decide +kernel, by decide +kernel, nofun⟩
    · simp only [List.forall_mem_cons]
      refine ⟨fun owner ↦ ?_, fun owner ↦ ?_, fun owner ↦ ?_, nofun⟩ <;>
        exact Relocation.isolated_of_size_le_one (by cases owner <;> decide +kernel)
    · simp [List.pairwise_cons, hundefined]
    · intro owner
      cases owner <;> decide +kernel
  cases Placed.relocateAll_eq_ok hrelocate with
  | @cons _ first _ _ _ hrest =>
    cases hrest with
    | @cons _ second _ _ _ hrest =>
      cases hrest with
      | @cons _ third _ _ _ hnone =>
        cases hnone
        obtain ⟨front, hfront, hrest⟩ := Fallible.bind_eq_ok_iff.mp hfold
        obtain ⟨left, hleft, -⟩ := Fallible.bind_eq_ok_iff.mp hrest
        rw [Progress.result_eq_ok_iff_eq_done] at hfront hleft
        obtain ⟨hgroupings, hviews⟩ := concat_assoc hmergeable
        obtain ⟨back, right, hback, hright⟩ := hgroupings.mp ⟨front, left, hfront, hleft⟩
        exact ⟨first, second, third, hrelocate, hmergeable, front, left, back, right, hfront, hleft,
          hback, hright, hviews front left back right hfront hleft hback hright⟩

end Relocated

end Aout
