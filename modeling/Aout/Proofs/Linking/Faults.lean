import Aout.Proofs.Linking.Conflicts
import Aout.Proofs.Linking.Settlement
import Aout.Proofs.Linking.Validity
/-!
What stops a link. Relocation looks every reference up and checks every address before objects are
put together, so once all objects have a layout and are relocated, the checks that are made again
while the first object takes in the others find nothing new: every name that is referred to keeps
its one definition with an address of 16 bits (`Image.Foldable`), and the bss that is added up is
what the layout has room for. All that is left to be refused is a name with two visible definitions
(`Image.fold_relocated`). So every fault of a link has one of five causes (`link_refused`).
-/

set_option autoImplicit false
set_option relaxedAutoImplicit false

namespace Aout

/-! ### Relocation -/

namespace Placed

variable {module : Placed} {modules : List Placed} {owner : StoredSegment}

theorem foldlM_apply {patches : List Patch} {bytes : Array UInt8}
    (hinside : ∀ patch ∈ patches, patch.address.toNat + 1 < bytes.size) :
    patches.foldlM (Patch.apply owner) bytes = .ok (patches.foldl Patch.write bytes) := by
  induction patches generalizing bytes with
  | nil => rfl
  | cons patch rest ih =>
    rw [List.forall_mem_cons] at hinside
    have hpatch : Patch.apply owner bytes patch = .ok (Patch.write bytes patch) := by
      unfold Patch.apply Placeholder.setWordAt?
      rw [if_pos (Placeholder.isInside_iff.mpr hinside.1)]
      rfl
    rw [List.foldlM_cons, hpatch]
    refine ih fun other hother ↦ ?_
    rw [Patch.write, Placeholder.size_overwrite]
    exact hinside.2 other hother

theorem inside_of_resolve {patches : List Patch}
    (hpatches : module.resolve modules owner = .ok patches) {patch : Patch}
    (hpatch : patch ∈ patches) :
    patch.address.toNat + 1 < (module.object.contents owner).bytes.size := by
  obtain ⟨record, -, hresolves⟩ :=
    Fallible.exists_mem_of_forall₂ (Fallible.mapM_eq_ok_iff.mp hpatches) hpatch
  obtain ⟨held, -, hheld, -, haddress, -⟩ := resolveRecord_eq_ok_iff.mp hresolves
  rw [haddress]
  exact Placeholder.wordAt?_isSome_iff.mp (Option.isSome_of_eq_some hheld)

/-- Words that were found for placeholders can be written over them. -/
theorem exists_patched {patches : List Patch × List Patch}
    (hresolve : module.resolveAll modules = .ok patches) :
    ∃ relocated, module.patched patches = .ok relocated := by
  obtain ⟨text, htext, hrest⟩ := Fallible.bind_eq_ok_iff.mp hresolve
  obtain ⟨data, hdata, hreturn⟩ := Fallible.bind_eq_ok_iff.mp hrest
  obtain rfl := Fallible.pure_eq_ok_iff.mp hreturn
  exact ⟨_, Fallible.bind_eq_ok_iff.mpr ⟨_, foldlM_apply fun _ ↦ inside_of_resolve htext,
    Fallible.bind_eq_ok_iff.mpr ⟨_, foldlM_apply fun _ ↦ inside_of_resolve hdata, rfl⟩⟩⟩

/-- Relocating objects fails as looking up the references of the first one does for which this
fails. -/
theorem relocateAll_eq_error_iff {fault : LinkFault} :
    relocateAll modules = .error fault ↔ ∃ front module back, modules = front ++ module :: back ∧
      (∀ earlier ∈ front, ∃ patches, earlier.resolveAll modules = .ok patches) ∧
      module.resolveAll modules = .error fault := by
  rw [← Fallible.mapM_eq_error_iff, relocateAll, Fallible.bind_eq_error_iff]
  refine or_iff_left ?_
  rintro ⟨patches, hpatches, hpatched⟩
  obtain ⟨⟨module, patches⟩, hmodule, hfault⟩ := Fallible.exists_of_mapM_eq_error hpatched
  have hresolve := List.forall₂_zip (Fallible.mapM_eq_ok_iff.mp hpatches) hmodule
  obtain ⟨relocated, hrelocated⟩ := exists_patched hresolve
  cases hrelocated.symm.trans hfault

end Placed

/-! ### One concatenation -/

theorem Object.Valid.inRange {object : Object} (hvalid : object.Valid) : object.InRange where
  inside := fun owner record hrecord ↦ (hvalid owner record hrecord).inside
  known := fun owner record hrecord _ hindex ↦
    (hvalid owner record hrecord).lt_of_symbolIndex? hindex

namespace Relocated

variable {first second joined : Relocated} {name : String}

/-- A record that refers to a symbol after it has met one is the record that it was. -/
theorem Settles.record_eq {symbol : Symbol} {record : Relocation} {outcome : Outcome}
    (hsettles : Settles symbol record outcome) (hexternal : outcome.record.external = true) :
    outcome.record = record := by
  cases hsettles with
  | awaited => rfl
  | defined =>
    cases hsegment : symbol.segment? with
    | none => rfl
    | some segment =>
      rw [hsegment] at hexternal
      cases hexternal

/-- The records of an object that has taken in another one refer to names to which those of either
object referred. -/
theorem refersTo_of_concat (hdistinct : first.NamesDistinct) (hvalid : first.object.Valid)
    (hsize : joined.object.symbols.size ≤ UInt32.size) (hdone : first.concat second = .done joined)
    (hrefers : joined.object.RefersTo name) :
    first.object.RefersTo name ∨ second.object.RefersTo name := by
  have hcombined := combined_of_concat hdistinct hdone
  obtain ⟨owner, record, hrecord, index, symbol, hindex, hentry⟩ := hrefers
  obtain ⟨hexternal, rfl⟩ := Relocation.symbolIndex?_eq_some_iff.mp hindex
  obtain ⟨patch?, ⟨own, hown, hfollows⟩ | ⟨taken, htaken, hfollows⟩⟩ :=
    hcombined.records owner record hrecord
  · cases hfollows with
    | internal hnone => cases hnone.symm.trans hindex
    | external _ _ hsettles =>
      obtain rfl : record = own := hsettles.record_eq hexternal
      have hknown := (hvalid owner record hown).known hexternal
      obtain ⟨former, hformer⟩ : ∃ former,
          first.object.symbols.entryAt? record.index.toNat = some former :=
        ⟨_, Array.getElem?_eq_getElem hknown⟩
      obtain ⟨_, hlater⟩ := exists_entryAt?_of_grows hcombined.grows hformer
      obtain ⟨rfl, -⟩ := SymbolEntry.mk.inj (Option.some.inj (hlater.symm.trans hentry))
      exact .inl ⟨owner, record, hown, _, former.symbol, hindex, hformer⟩
  · cases hfollows with
    | internal hnone =>
      have hinternal := Relocation.symbolIndex?_eq_none_iff.mp hnone
      exact absurd (hexternal.symm.trans hinternal) (by decide)
    | @external index position known found _ hgiven hknown hlocated hsettles =>
      obtain rfl := hsettles.record_eq hexternal
      -- The position fits its field, so the record refers to the entry that was found by name.
      have hposition : (UInt32.ofNat position).toNat = position := UInt32.toNat_ofNat_of_lt'
        (Nat.lt_of_lt_of_le (SymbolTable.lt_size_of_entryAt? hlocated) hsize)
      dsimp only at hentry
      rw [hposition, hlocated] at hentry
      obtain ⟨rfl, -⟩ := SymbolEntry.mk.inj (Option.some.inj hentry)
      exact .inr ⟨owner, taken, htaken, index, known.symbol, hgiven, hknown⟩

/-- Where two objects disagree in public on some name, such a name is what stops the one from taking
in the other. -/
theorem concat_fault_of_clash (hfirst : first.NamesDistinct) (hsecond : second.NamesDistinct)
    (hbss : first.object.bssSize.toNat + second.object.bssSize.toNat < UInt32.size)
    (hclash : ClashAt first second name) :
    ∃ name, (first.concat second).fault? = some (.multiplyDefined name) ∧
      ClashAt first second name := by
  obtain ⟨bssSize, hadd⟩ : ∃ bssSize,
      Word.checkedAdd? first.object.bssSize second.object.bssSize = some bssSize :=
    ⟨_, if_pos hbss⟩
  have habutted := abutted hadd
  cases hmerge : ((first.rebase.appendSegments second bssSize).mergeSymbols second).fault? with
  | none =>
    obtain ⟨-, hagree⟩ := mergeSymbols_eq_done habutted.rebased (habutted.distinct hfirst) hsecond
      (Progress.eq_done_of_fault? hmerge)
    exact (hagree name ((habutted.clashAt_iff name).mpr hclash)).elim
  | some fault =>
    obtain ⟨found, rfl, hfound⟩ :=
      mergeSymbols_fault habutted.rebased (habutted.distinct hfirst) hsecond hmerge
    refine ⟨found, ?_, (habutted.clashAt_iff found).mp hfound⟩
    unfold concat
    simp only [hadd, Progress.fault?_andThen_eq_some_iff]
    exact .inl (.inl (.inl (.inl hmerge)))

end Relocated

namespace Image

open Placed

variable {modules front rest : List Placed} {image joined second : Relocated} {next : Placed}
  {relocated : List Relocated}

/-- An image of the first modules that can take in the others, but for names with two definitions:
its records are in place, and refer to names with one definition, at an address of 16 bits. -/
structure Foldable (modules front : List Placed) (image : Relocated) : Prop
    extends Knows front image where
  valid : image.object.Valid
  bssSize : image.object.bssSize.toNat = Layout.total .bss (front.map (·.object))
  names : image.object.symbols.names ⊆ front.flatMap (·.object.symbols.names)
  narrow : ∀ name, image.object.RefersTo name →
    ∃ address, findDefinition modules name = .ok address ∧ address.toNat ≤ 0xFFFF

theorem narrow_of_relocates (hrelocates : Relocates modules next second) {name : String}
    (hrefers : second.object.RefersTo name) :
    ∃ address, findDefinition modules name = .ok address ∧ address.toNat ≤ 0xFFFF :=
  exists_narrow_of_refersTo (fun _ _ ↦ hrelocates.stands) hrefers

theorem foldable_singleton (hrelocates : Relocates modules next second)
    (hdistinct : next.object.symbols.NamesDistinct) : Foldable modules [next] second where
  toKnows := knows_singleton hrelocates hdistinct
  valid := hrelocates.valid
  bssSize := by
    rw [hrelocates.bssSize]
    rfl
  names := by
    rw [hrelocates.symbols, List.flatMap_singleton]
    exact List.Subset.refl _
  narrow := fun _ ↦ narrow_of_relocates hrelocates

theorem foldable_append (hfoldable : Foldable modules front image)
    (hrelocates : Relocates modules next second) (hdistinct : next.object.symbols.NamesDistinct)
    (hsymbols : ((front ++ [next]).map (·.object.symbols.size)).sum ≤ UInt32.size)
    (hconcat : image.concat second = .done joined) :
    Foldable modules (front ++ [next]) joined := by
  have hsecond : second.NamesDistinct := by rwa [Relocated.NamesDistinct, hrelocates.symbols]
  have hjoined := Relocated.concat_eq_done hfoldable.distinct hsecond hconcat
  have hnames := names_append hfoldable.names hrelocates hconcat
  have hsize : joined.object.symbols.size ≤ UInt32.size :=
    Nat.le_trans (size_symbols_le (hjoined.distinct hfoldable.distinct) hnames) hsymbols
  refine ⟨knows_append hfoldable.toKnows hrelocates hjoined, ?_, ?_, hnames, fun name hrefers ↦ ?_⟩
  · have hkeeps := Relocated.keeps_concat hfoldable.valid hrelocates.valid
    rw [hconcat] at hkeeps
    exact hkeeps.holds
  · rw [hjoined.bssSize, hfoldable.bssSize, hrelocates.bssSize, List.map_append,
      Layout.total_append]
    rfl
  · rcases Relocated.refersTo_of_concat hfoldable.distinct hfoldable.valid hsize hconcat hrefers
      with hformer | hnext
    · exact hfoldable.narrow name hformer
    · exact narrow_of_relocates hrelocates hnext

/-- Only a name with two visible definitions stops an image from taking in one more module. -/
theorem fault_of_concat (hfoldable : Foldable modules front image)
    (hrelocates : Relocates modules next second) (hdistinct : next.object.symbols.NamesDistinct)
    (hfront : front ++ [next] ⊆ modules)
    (hbss : Layout.total .bss ((front ++ [next]).map (·.object)) < UInt32.size) {fault : LinkFault}
    (hfault : (image.concat second).fault? = some fault) :
    ∃ name, fault = .multiplyDefined name ∧ Relocated.ClashAt image second name := by
  have hsecond : second.NamesDistinct := by rwa [Relocated.NamesDistinct, hrelocates.symbols]
  obtain ⟨name, hclash⟩ := clash_of_concat_fault hfoldable.toKnows hfoldable.valid.inRange
    hfoldable.bssSize hfoldable.narrow hrelocates hdistinct hfront hbss hfault
  have hsum : image.object.bssSize.toNat + second.object.bssSize.toNat < UInt32.size := by
    rw [List.map_append, Layout.total_append, ← hfoldable.bssSize] at hbss
    rwa [hrelocates.bssSize]
  obtain ⟨found, hfound, hclash⟩ :=
    Relocated.concat_fault_of_clash hfoldable.distinct hsecond hsum hclash
  exact ⟨found, Option.some.inj (hfault.symm.trans hfound), hclash⟩

/-- An image takes in all modules that follow, or a clash is exposed and stops it. -/
theorem foldlM_cases (hfoldable : Foldable modules front image)
    (hrelocates : List.Forall₂ (Relocates modules) rest relocated)
    (hdistinct : ∀ module ∈ rest, module.object.symbols.NamesDistinct)
    (hfront : front ++ rest ⊆ modules)
    (hsymbols : ((front ++ rest).map (·.object.symbols.size)).sum ≤ UInt32.size)
    (hbss : Layout.total .bss ((front ++ rest).map (·.object)) < UInt32.size) :
    (∃ final,
      relocated.foldlM (fun image module ↦ (image.concat module).result) image = .ok final) ∨
    ∃ name, relocated.foldlM (fun image module ↦ (image.concat module).result) image =
      .error (.multiplyDefined name) ∧ Exposed name front rest := by
  induction hrelocates generalizing front image with
  | nil => exact .inl ⟨image, rfl⟩
  | @cons next second rest relocated hnext _ ih =>
    rw [List.forall_mem_cons] at hdistinct
    rw [List.append_cons] at hfront hsymbols hbss
    rw [List.foldlM_cons]
    cases hconcat : (image.concat second).result with
    | error fault =>
      have hbssPrefix : Layout.total .bss ((front ++ [next]).map (·.object)) < UInt32.size := by
        rw [List.map_append, Layout.total_append] at hbss
        omega
      obtain ⟨name, rfl, hclash⟩ := fault_of_concat hfoldable hnext hdistinct.1
        (List.Subset.trans (List.subset_append_left _ _) hfront) hbssPrefix
        (Progress.result_eq_error_iff.mp hconcat)
      exact .inr ⟨name, rfl, .inl ((hfoldable.clashAt_iff hnext).mp hclash)⟩
    | ok joined =>
      have hsymbolsPrefix :
          ((front ++ [next]).map (·.object.symbols.size)).sum ≤ UInt32.size := by
        rw [List.map_append, List.sum_append] at hsymbols
        omega
      have hreached := foldable_append hfoldable hnext hdistinct.1 hsymbolsPrefix
        (Progress.result_eq_ok_iff_eq_done.mp hconcat)
      exact (ih hreached hdistinct.2 hfront hsymbols hbss).imp id
        fun ⟨name, hfold, hexposed⟩ ↦ ⟨name, hfold, .inr hexposed⟩

/-- Relocated modules are put together, unless two visible definitions of a name contradict each
other. -/
theorem fold_cases (hrelocates : List.Forall₂ (Relocates modules) modules relocated)
    (hdistinct : ∀ module ∈ modules, module.object.symbols.NamesDistinct) (hsome : modules ≠ [])
    (hsymbols : (modules.map (·.object.symbols.size)).sum ≤ UInt32.size)
    (hbss : Layout.total .bss (modules.map (·.object)) < UInt32.size) :
    (∃ final, fold relocated = .ok final) ∨
      ∃ name, fold relocated = .error (.multiplyDefined name) ∧ Conflict modules name := by
  cases hrelocates with
  | nil => exact (hsome rfl).elim
  | @cons first image rest relocated hfirst hrest =>
    rw [List.forall_mem_cons] at hdistinct
    refine (foldlM_cases (foldable_singleton hfirst hdistinct.1) hrest hdistinct.2
      (List.Subset.refl _) hsymbols hbss).imp id ?_
    rintro ⟨name, hfold, hexposed⟩
    exact ⟨name, hfold, (exposed_nil_iff.mp (exposed_cons_iff.mpr hexposed)).1⟩

end Image

/-! ### Links -/

open Placed

variable {objects : List Object} {textBase : UInt16} {entrySymbol : String}

/-- What stops a link: there are no objects; a segment leaves the address space; some reference of
an object cannot be resolved, and those of all objects before can; a name is defined twice; or the
entry address is too wide. -/
inductive LinkStops (objects : List Object) (textBase : UInt16) (entrySymbol : String) :
    LinkFault → Prop
  | nothing (hnone : objects = []) : LinkStops objects textBase entrySymbol .nothingToLink
  | layout {segment : Segment}
      (hlayout : layout objects textBase = .error (.addressSpaceOverrun segment)) :
      LinkStops objects textBase entrySymbol (.addressSpaceOverrun segment)
  | reference {bases : List Bases} {front back : List Placed} {module : Placed} {fault : LinkFault}
      (hlayout : Aout.layout objects textBase = .ok bases)
      (hmodules : all objects bases = front ++ module :: back)
      (hfront : ∀ earlier ∈ front, ∃ patches, earlier.resolveAll (all objects bases) = .ok patches)
      (hfault : module.resolveAll (all objects bases) = .error fault) :
      LinkStops objects textBase entrySymbol fault
  | clash {bases : List Bases} {relocated : List Relocated} {name : String}
      (hlayout : Aout.layout objects textBase = .ok bases)
      (hrelocate : relocateAll (all objects bases) = .ok relocated)
      (hfold : Image.fold relocated = .error (.multiplyDefined name))
      (hconflict : Conflict (all objects bases) name) :
      LinkStops objects textBase entrySymbol (.multiplyDefined name)
  | entry {bases : List Bases} {relocated : List Relocated} {image : Relocated}
      (hlayout : Aout.layout objects textBase = .ok bases)
      (hrelocate : relocateAll (all objects bases) = .ok relocated)
      (hfold : Image.fold relocated = .ok image)
      (hwide : 0xFFFF < (Image.entryAddress image entrySymbol).1.toNat) :
      LinkStops objects textBase entrySymbol
        (.entryTooWide (Image.entryAddress image entrySymbol).1)

/-- With no objects, the one thing that stops a link is that there are none. -/
theorem linkStops_nil_iff {fault : LinkFault} :
    LinkStops [] textBase entrySymbol fault ↔ fault = .nothingToLink := by
  constructor
  · rintro (- | hlayout | ⟨-, hmodules, -, -⟩ | ⟨-, hrelocate, hfold, -⟩ |
      ⟨-, hrelocate, hfold, -⟩)
    · rfl
    · cases hlayout
    · exact absurd hmodules.symm (by simp [all])
    · obtain rfl := Except.ok.inj hrelocate
      cases hfold
    · obtain rfl := Except.ok.inj hrelocate
      cases hfold
  · rintro rfl
    exact .nothing rfl

/-- A link of some objects fails at its layout, at relocation, while objects are put together, or at
its entry address. -/
theorem link_eq_error_iff (hsome : objects ≠ []) {fault : LinkFault} :
    link objects textBase entrySymbol = .error fault ↔
      layout objects textBase = .error fault ∨
      ∃ bases, layout objects textBase = .ok bases ∧
        (relocateAll (all objects bases) = .error fault ∨
          ∃ relocated, relocateAll (all objects bases) = .ok relocated ∧
            (Image.fold relocated = .error fault ∨
              ∃ image, Image.fold relocated = .ok image ∧
                0xFFFF < (Image.entryAddress image entrySymbol).1.toNat ∧
                fault = .entryTooWide (Image.entryAddress image entrySymbol).1)) := by
  unfold link
  rw [if_neg (by simpa using hsome), Fallible.bind_eq_error_iff]
  refine or_congr_right (exists_congr fun bases ↦ and_congr_right fun _ ↦ ?_)
  rw [Fallible.bind_eq_error_iff]
  refine or_congr_right (exists_congr fun relocated ↦ and_congr_right fun _ ↦ ?_)
  rw [Fallible.bind_eq_error_iff]
  refine or_congr_right (exists_congr fun image ↦ and_congr_right fun _ ↦ ?_)
  dsimp only
  split
  · rename_i hnarrow
    have hwide := Word.narrow?_eq_none_iff.mp hnarrow
    simp [hwide, eq_comm]
  · rename_i entry hnarrow
    have hfits : ¬ 0xFFFF < (Image.entryAddress image entrySymbol).1.toNat := by
      rw [← Word.narrow?_eq_none_iff, hnarrow]
      exact Option.some_ne_none entry
    simp [hfits, pure, Except.pure]

/-- Objects that have a layout and are relocated are put together, unless two visible definitions of
a name contradict each other. -/
theorem Image.fold_relocated (hdistinct : ∀ object ∈ objects, object.symbols.NamesDistinct)
    (hsymbols : (objects.map (·.symbols.size)).sum ≤ UInt32.size) (hsome : objects ≠ [])
    {bases : List Bases} (hlayout : layout objects textBase = .ok bases)
    {relocated : List Relocated} (hrelocate : relocateAll (all objects bases) = .ok relocated) :
    (∃ image, fold relocated = .ok image) ∨
      ∃ name, fold relocated = .error (.multiplyDefined name) ∧
        Conflict (all objects bases) name := by
  obtain ⟨hlength, htotal⟩ := layout_eq_ok hlayout
  have hobjects := map_object_all hlength
  refine fold_cases (relocateAll_eq_ok hrelocate)
    (fun module hmodule ↦ hdistinct _ (object_mem_of_mem_all hmodule)) (fun hnil ↦ ?_) ?_ ?_
  · rw [hnil] at hobjects
    exact hsome hobjects.symm
  · rwa [← hobjects, List.map_map] at hsymbols
  · rw [hobjects]
    exact Nat.lt_of_le_of_lt (htotal .bss) (by decide)

/-- What can stop a link. Once the objects have a layout and are relocated, only two visible
definitions of a name can keep the first one from taking in the others. So a fault of a link is that
there is nothing to link, one of the layout, the fault of the first object whose references cannot
be resolved, a name with two definitions, or an entry address of more than 16 bits. -/
theorem link_refused (hdistinct : ∀ object ∈ objects, object.symbols.NamesDistinct)
    (hsymbols : (objects.map (·.symbols.size)).sum ≤ UInt32.size) :
    (∀ bases relocated, objects ≠ [] → layout objects textBase = .ok bases →
      relocateAll (all objects bases) = .ok relocated →
        (∃ image, Image.fold relocated = .ok image) ∨
          ∃ name, Image.fold relocated = .error (.multiplyDefined name) ∧
            Conflict (all objects bases) name) ∧
    ∀ fault, link objects textBase entrySymbol = .error fault ↔
      LinkStops objects textBase entrySymbol fault := by
  refine ⟨fun bases relocated hsome hlayout hrelocate ↦
    Image.fold_relocated hdistinct hsymbols hsome hlayout hrelocate, fun fault ↦ ?_⟩
  by_cases hsome : objects = []
  · subst hsome
    have hlink : link [] textBase entrySymbol = .error .nothingToLink := rfl
    rw [linkStops_nil_iff, hlink, Except.error.injEq]
    exact eq_comm
  rw [link_eq_error_iff hsome]
  constructor
  · rintro (hlayout | ⟨bases, hlayout, hrelocate | ⟨relocated, hrelocate, hfold |
      ⟨image, hfold, hwide, rfl⟩⟩⟩)
    · obtain ⟨segment, rfl⟩ := layout_eq_error hlayout
      exact .layout hlayout
    · obtain ⟨front, module, back, hmodules, hfront, hfault⟩ :=
        relocateAll_eq_error_iff.mp hrelocate
      exact .reference hlayout hmodules hfront hfault
    · rcases Image.fold_relocated hdistinct hsymbols hsome hlayout hrelocate with
        ⟨image, hok⟩ | ⟨name, hclash, hconflict⟩
      · cases hok.symm.trans hfold
      · obtain rfl := Except.error.inj (hclash.symm.trans hfold)
        exact .clash hlayout hrelocate hclash hconflict
    · exact .entry hlayout hrelocate hfold hwide
  · rintro (hnone | hlayout | ⟨hlayout, hmodules, hfront, hfault⟩ |
      ⟨hlayout, hrelocate, hfold, -⟩ | ⟨hlayout, hrelocate, hfold, hwide⟩)
    · exact (hsome hnone).elim
    · exact .inl hlayout
    · have hrelocate := relocateAll_eq_error_iff.mpr ⟨_, _, _, hmodules, hfront, hfault⟩
      exact .inr ⟨_, hlayout, .inl hrelocate⟩
    · exact .inr ⟨_, hlayout, .inr ⟨_, hrelocate, .inl hfold⟩⟩
    · exact .inr ⟨_, hlayout, .inr ⟨_, hrelocate, .inr ⟨_, hfold, hwide, rfl⟩⟩⟩

/-- Two objects that define a name in public are relocated, and then refused. -/
theorem link_refused_pair :
    link [.labelled "x" true, .labelled "x" true] 0 "main" = .error (.multiplyDefined "x") ∧
      LinkStops [.labelled "x" true, .labelled "x" true] 0 "main" (.multiplyDefined "x") := by
  have hdistinct : ∀ object ∈ [Object.labelled "x" true, .labelled "x" true],
      object.symbols.NamesDistinct := by
    simp only [List.forall_mem_cons, SymbolTable.namesDistinct_iff_nodup]
    exact ⟨by decide +kernel, by decide +kernel, fun _ hnone ↦ by cases hnone⟩
  have hlink : link [.labelled "x" true, .labelled "x" true] 0 "main" =
      .error (.multiplyDefined "x") :=
    Fallible.eq_error_of_fault? (by decide +kernel)
  exact ⟨hlink, ((link_refused hdistinct (by decide +kernel)).2 _).mp hlink⟩

end Aout
