import Aout.Proofs.Linking.Placeholders
/-!
Definitions that do not agree. While objects are put together, a visible definition of a name is
compared with the one that the image has already, and that is the first definition of the name. So a
clash comes to light exactly when it is one with the first definition (`Image.Exposed`). Two visible
definitions that contradict each other go unnoticed behind a first one that is not visible, as long
as no record refers to the name (`conflict_refused`, `conflict_accepted`).
-/

set_option autoImplicit false
set_option relaxedAutoImplicit false

namespace Aout

namespace Placed

/-- Two of the modules define a name in public, and mean different things by it. -/
def Conflict (modules : List Placed) (name : String) : Prop :=
  ∃ (place other : Nat) (first second : Placed) (known given : Meaning), place ≠ other ∧
    modules[place]? = some first ∧ modules[other]? = some second ∧
    first.meaning? name = some known ∧ second.meaning? name = some given ∧ known.Clashes given

/-- The first of the modules that define a name does not do so in public. -/
def Masked (modules : List Placed) (name : String) : Prop :=
  ∃ meaning, firstMeaning? modules name = some meaning ∧ meaning.isVisible = false

variable {modules : List Placed} {module : Placed} {name : String}

theorem firstMeaning?_append (front rest : List Placed) (name : String) :
    firstMeaning? (front ++ rest) name = (firstMeaning? front name).or (firstMeaning? rest name) :=
  List.findSome?_append

theorem firstMeaning?_cons (next : Placed) (rest : List Placed) (name : String) :
    firstMeaning? (next :: rest) name = (next.meaning? name).or (firstMeaning? rest name) := by
  rw [firstMeaning?, List.findSome?_cons, firstMeaning?]
  cases next.meaning? name <;> rfl

theorem exists_firstMeaning? (hmodule : module ∈ modules) {meaning : Meaning}
    (hmeaning : module.meaning? name = some meaning) :
    ∃ first, firstMeaning? modules name = some first := by
  cases hfirst : firstMeaning? modules name with
  | some first => exact ⟨first, rfl⟩
  | none =>
    have hnone := List.findSome?_eq_none_iff.mp hfirst module hmodule
    rw [hmeaning] at hnone
    cases hnone

end Placed

namespace Image

open Placed

/-- A visible definition in one of the modules that follow `front` clashes with the first definition
of its name. -/
def Exposed (name : String) : List Placed → List Placed → Prop
  | _, [] => False
  | front, next :: rest =>
    (∃ known given, firstMeaning? front name = some known ∧ next.meaning? name = some given ∧
      known.Clashes given) ∨ Exposed name (front ++ [next]) rest

variable {modules front rest : List Placed} {next : Placed} {name : String}

theorem exposed_iff : Exposed name front rest ↔
    ∃ middle next last known given, rest = middle ++ next :: last ∧
      firstMeaning? (front ++ middle) name = some known ∧ next.meaning? name = some given ∧
        known.Clashes given := by
  induction rest generalizing front with
  | nil => simp [Exposed]
  | cons first rest ih =>
    rw [Exposed, ih]
    constructor
    · rintro (⟨known, given, hknown, hgiven, hclash⟩ |
        ⟨middle, next, last, known, given, rfl, hknown, hgiven, hclash⟩)
      · exact ⟨[], first, rest, known, given, rfl, by rwa [List.append_nil], hgiven, hclash⟩
      · refine ⟨first :: middle, next, last, known, given, rfl, ?_, hgiven, hclash⟩
        rwa [List.append_cons]
    · rintro ⟨middle, next, last, known, given, hrest, hknown, hgiven, hclash⟩
      cases middle with
      | nil =>
        obtain ⟨rfl, rfl⟩ := List.cons.inj hrest
        exact .inl ⟨known, given, by rwa [List.append_nil] at hknown, hgiven, hclash⟩
      | cons second middle =>
        obtain ⟨rfl, rfl⟩ := List.cons.inj hrest
        refine .inr ⟨middle, next, last, known, given, rfl, ?_, hgiven, hclash⟩
        rwa [List.append_cons] at hknown

/-- By the time of a module that disagrees with the first definition, the image has that one. -/
theorem exposed_of_clash {place : Nat} {module : Placed} {first meaning : Meaning}
    (hplace : modules[place]? = some module) (hmeaning : module.meaning? name = some meaning)
    (hfirst : firstMeaning? modules name = some first) (hclash : first.Clashes meaning) :
    Exposed name [] modules := by
  obtain ⟨hlt, rfl⟩ := List.getElem?_eq_some_iff.mp hplace
  have hmodules : modules.take place ++ modules[place] :: modules.drop (place + 1) = modules := by
    rw [← List.drop_eq_getElem_cons hlt, List.take_append_drop]
  refine exposed_iff.mpr ⟨_, _, _, first, meaning, hmodules.symm, ?_, hmeaning, hclash⟩
  rw [← hmodules, firstMeaning?_append, firstMeaning?_cons, hmeaning, Option.some_or] at hfirst
  rw [List.nil_append]
  cases hfront : firstMeaning? (modules.take place) name with
  | some found => rwa [hfront, Option.some_or] at hfirst
  | none =>
    rw [hfront, Option.none_or] at hfirst
    exact (hclash.2.2 (Option.some.inj hfirst).symm).elim

/-- A clash comes to light exactly when it is one of visible definitions, the first one among them.
-/
theorem exposed_nil_iff :
    Exposed name [] modules ↔ Conflict modules name ∧ ¬ Masked modules name := by
  constructor
  · rw [exposed_iff]
    rintro ⟨front, next, last, known, given, rfl, hknown, hgiven, hclash⟩
    rw [List.nil_append] at hknown
    obtain ⟨module, hmodule, hmeaning⟩ := List.exists_of_findSome?_eq_some hknown
    obtain ⟨place, hplace⟩ := List.mem_iff_getElem?.mp hmodule
    have hlt := (List.getElem?_eq_some_iff.mp hplace).1
    constructor
    · exact ⟨place, front.length, module, next, known, given, Nat.ne_of_lt hlt,
        by rwa [List.getElem?_append_left hlt], by simp, hmeaning, hgiven, hclash⟩
    · rintro ⟨meaning, hfirst, hhidden⟩
      rw [firstMeaning?_append, hknown, Option.some_or] at hfirst
      obtain rfl := Option.some.inj hfirst
      rw [hclash.1] at hhidden
      cases hhidden
  · rintro ⟨⟨place, other, module, second, known, given, -, hplace, hother, hknown, hgiven,
      hclash⟩, hvisible⟩
    obtain ⟨first, hfirst⟩ := exists_firstMeaning? (List.mem_of_getElem? hplace) hknown
    have hfirstVisible : first.isVisible := by
      by_contra hhidden
      exact hvisible ⟨first, hfirst, by simpa using hhidden⟩
    by_cases hsame : first = known
    · exact exposed_of_clash hother hgiven hfirst (hsame ▸ hclash)
    · exact exposed_of_clash hplace hknown hfirst ⟨hfirstVisible, hclash.1, hsame⟩

/-! ### Folding -/

variable {image final : Relocated} {relocated : List Relocated} {second : Relocated}

theorem Knows.clashAt_iff (hknows : Knows front image)
    (hrelocates : Relocates modules next second) :
    Relocated.ClashAt image second name ↔ ∃ known given, firstMeaning? front name = some known ∧
      next.meaning? name = some given ∧ known.Clashes given := by
  unfold Relocated.ClashAt
  rw [hknows.meaning, hrelocates.meaning?]

/-- Where all modules are taken in, no clash was exposed. -/
theorem not_exposed_of_foldlM (hknows : Knows front image)
    (hrelocates : List.Forall₂ (Relocates modules) rest relocated)
    (hdistinct : ∀ module ∈ rest, module.object.symbols.NamesDistinct)
    (hfold : relocated.foldlM (fun image module ↦ (image.concat module).result) image = .ok final)
    (name : String) : ¬ Exposed name front rest := by
  induction hrelocates generalizing front image with
  | nil => exact id
  | @cons next second rest relocated hnext _ ih =>
    rw [List.foldlM_cons] at hfold
    obtain ⟨joined, hconcat, hrest⟩ := Fallible.bind_eq_ok_iff.mp hfold
    rw [Progress.result_eq_ok_iff_eq_done] at hconcat
    rw [List.forall_mem_cons] at hdistinct
    have hsecond : second.NamesDistinct := by
      rw [Relocated.NamesDistinct, hnext.symbols]
      exact hdistinct.1
    have hjoined := Relocated.concat_eq_done hknows.distinct hsecond hconcat
    rintro (hclash | hlater)
    · exact hjoined.agree name ((hknows.clashAt_iff hnext).mpr hclash)
    · exact ih (knows_append hknows hnext hjoined) hdistinct.2 hrest hlater

/-- Objects whose records stand at slots are in range. -/
theorem inRange_of_stands {object : Object} {templates : StoredSegment → Template}
    (hfits : ∀ owner, (templates owner).Fits)
    (hsize : ∀ owner, (object.contents owner).bytes.size = (templates owner).bytes.size)
    (hstands : ∀ owner, ∀ record ∈ (object.contents owner).relocations,
      Stands modules object.symbols (templates owner).slots record) : object.InRange where
  inside := by
    intro owner record hrecord
    obtain ⟨slot, hslot, hoffset, -⟩ := hstands owner record hrecord
    have hinside := hfits owner slot hslot
    rwa [hoffset, ← hsize] at hinside
  known := by
    intro owner record hrecord index hindex
    obtain ⟨slot, -, -, hknown⟩ := hstands owner record hrecord
    obtain ⟨entry, address, hentry, -⟩ := hknown index hindex
    exact SymbolTable.lt_size_of_entryAt? hentry

theorem Carries.inRange (hcarries : Carries modules front image) : image.object.InRange :=
  inRange_of_stands hcarries.fits (fun owner ↦ (hcarries.renders owner).size_eq) hcarries.stands

theorem inRange_of_relocates (hrelocates : Relocates modules next second) : second.object.InRange :=
  inRange_of_stands hrelocates.fits hrelocates.size_bytes fun _ _ ↦ hrelocates.stands

/-- A name that records at slots refer to has one definition, with an address of 16 bits. -/
theorem exists_narrow_of_refersTo {object : Object} {slots : StoredSegment → List Slot}
    (hstands : ∀ owner, ∀ record ∈ (object.contents owner).relocations,
      Stands modules object.symbols (slots owner) record) (hrefers : object.RefersTo name) :
    ∃ address, findDefinition modules name = .ok address ∧ address.toNat ≤ 0xFFFF := by
  obtain ⟨owner, record, hrecord, index, symbol, hindex, hentry⟩ := hrefers
  obtain ⟨slot, -, -, hknown⟩ := hstands owner record hrecord
  obtain ⟨entry, address, hfound, hdefinition, hword⟩ := hknown index hindex
  obtain rfl := Option.some.inj (hfound.symm.trans hentry)
  have hlt := slot.word.toNat_lt
  exact ⟨address, hdefinition, by omega⟩

/-- Only a clash stops an image from taking in one more module, if its records are in range and
refer to names with one definition, at an address of 16 bits. -/
theorem clash_of_concat_fault (hknows : Knows front image) (hrange : image.object.InRange)
    (hbssSize : image.object.bssSize.toNat = Layout.total .bss (front.map (·.object)))
    (hnarrow : ∀ name, image.object.RefersTo name →
      ∃ address, findDefinition modules name = .ok address ∧ address.toNat ≤ 0xFFFF)
    (hrelocates : Relocates modules next second) (hdistinct : next.object.symbols.NamesDistinct)
    (hfront : front ++ [next] ⊆ modules)
    (hbss : Layout.total .bss ((front ++ [next]).map (·.object)) < UInt32.size) {fault : LinkFault}
    (hfault : (image.concat second).fault? = some fault) :
    ∃ name, Relocated.ClashAt image second name := by
  have hsecond : second.NamesDistinct := by rwa [Relocated.NamesDistinct, hrelocates.symbols]
  cases Relocated.concat_fault hknows.distinct hsecond hrange (inRange_of_relocates hrelocates)
    hfault with
  | bss htotal =>
    rw [hbssSize, hrelocates.bssSize] at htotal
    simp only [List.map_append, List.map_singleton, Layout.total, List.map_map, List.sum_append,
      List.sum_singleton, Object.size] at hbss htotal
    omega
  | clash name hclash => exact ⟨name, hclash⟩
  | wide name meaning hrefers hmeaning hwide =>
    have hnarrow : ∃ address, findDefinition modules name = .ok address ∧
        address.toNat ≤ 0xFFFF := by
      rcases hrefers with hfirst | hnext
      · exact hnarrow name hfirst
      · exact exists_narrow_of_refersTo (fun _ _ ↦ hrelocates.stands) hnext
    obtain ⟨address, hfound, hnarrow⟩ := hnarrow
    have hfirst : firstMeaning? (front ++ [next]) name = some meaning := by
      rw [firstMeaning?_append, firstMeaning?_cons, ← hknows.meaning, ← hrelocates.meaning?]
      simpa [firstMeaning?] using hmeaning
    have haddress := address_of_firstMeaning? hfound hfront hfirst
    rw [haddress] at hwide
    omega

/-- Where no clash is exposed, an image takes in all modules. -/
theorem exists_foldlM_of_not_exposed (hcarries : Carries modules front image)
    (hrelocates : List.Forall₂ (Relocates modules) rest relocated)
    (hdistinct : ∀ module ∈ rest, module.object.symbols.NamesDistinct)
    (hfront : front ++ rest ⊆ modules) (hbounded : Bounded (front ++ rest))
    (hbss : Layout.total .bss ((front ++ rest).map (·.object)) < UInt32.size)
    (hexposed : ∀ name, ¬ Exposed name front rest) :
    ∃ final,
      relocated.foldlM (fun image module ↦ (image.concat module).result) image = .ok final := by
  induction hrelocates generalizing front image with
  | nil => exact ⟨image, rfl⟩
  | @cons next second rest relocated hnext _ ih =>
    rw [List.forall_mem_cons] at hdistinct
    rw [List.append_cons] at hfront hbounded hbss
    have hincluded := List.Subset.trans (List.subset_append_left _ _) hfront
    cases hconcat : (image.concat second).result with
    | error fault =>
      have hbssPrefix : Layout.total .bss ((front ++ [next]).map (·.object)) < UInt32.size := by
        rw [List.map_append, Layout.total_append] at hbss
        omega
      obtain ⟨name, hclash⟩ := clash_of_concat_fault hcarries.toKnows hcarries.inRange
        hcarries.bssSize (fun _ ↦ exists_narrow_of_refersTo hcarries.stands) hnext hdistinct.1
        hincluded hbssPrefix (Progress.result_eq_error_iff.mp hconcat)
      exact (hexposed name (.inl ((hcarries.clashAt_iff hnext).mp hclash))).elim
    | ok joined =>
      have hreached := carries_append hcarries hnext hdistinct.1 hincluded hbounded.of_append
        (Progress.result_eq_ok_iff_eq_done.mp hconcat)
      obtain ⟨final, hfinal⟩ := ih hreached hdistinct.2 hfront hbounded hbss
        fun name hlater ↦ hexposed name (.inr hlater)
      exact ⟨final, by rw [List.foldlM_cons, hconcat]; exact hfinal⟩

theorem exposed_cons_iff {first : Placed} :
    Exposed name [] (first :: rest) ↔ Exposed name [first] rest := by
  rw [Exposed]
  refine or_iff_right ?_
  rintro ⟨known, given, hknown, -⟩
  cases hknown

/-- Modules of which a clash is exposed are not all taken in. -/
theorem not_exposed_of_fold (hrelocates : List.Forall₂ (Relocates modules) modules relocated)
    (hdistinct : ∀ module ∈ modules, module.object.symbols.NamesDistinct)
    (hfold : fold relocated = .ok final) (name : String) : ¬ Exposed name [] modules := by
  cases hrelocates with
  | nil => exact id
  | @cons first image rest relocated hfirst hrest =>
    rw [List.forall_mem_cons] at hdistinct
    rw [exposed_cons_iff]
    exact not_exposed_of_foldlM (knows_singleton hfirst hdistinct.1) hrest hdistinct.2 hfold name

/-- Modules of which no clash is exposed are all taken in. -/
theorem exists_fold_of_not_exposed
    (hrelocates : List.Forall₂ (Relocates modules) modules relocated)
    (hdistinct : ∀ module ∈ modules, module.object.symbols.NamesDistinct) (hsome : modules ≠ [])
    (hbounded : Bounded modules)
    (hbss : Layout.total .bss (modules.map (·.object)) < UInt32.size)
    (hexposed : ∀ name, ¬ Exposed name [] modules) : ∃ final, fold relocated = .ok final := by
  cases hrelocates with
  | nil => exact (hsome rfl).elim
  | @cons first image rest relocated hfirst hrest =>
    rw [List.forall_mem_cons] at hdistinct
    simp only [exposed_cons_iff] at hexposed
    exact exists_foldlM_of_not_exposed (carries_singleton hfirst hdistinct.1) hrest hdistinct.2
      (List.Subset.refl _) hbounded hbss hexposed

end Image

namespace Placed

variable {modules : List Placed} {relocated : List Relocated} {name : String}

/-- Objects that are relocated do not refer to a name that is defined twice. -/
theorem not_refersTo_of_conflict (hrelocates : List.Forall₂ (Relocates modules) modules relocated)
    (hconflict : Conflict modules name) {module : Placed} (hmodule : module ∈ modules) :
    ¬ module.object.RefersTo name := by
  rintro ⟨owner, record, hrecord, index, symbol, hindex, hentry⟩
  obtain ⟨place, hplace⟩ := List.mem_iff_getElem?.mp hmodule
  obtain ⟨result, -, hresult⟩ := Fallible.exists_getElem?_of_forall₂ hrelocates hplace
  obtain ⟨patch, hpatch⟩ := hresult.resolves owner record hrecord
  obtain ⟨held, address, -, htarget, -, -⟩ := resolveRecord_eq_ok_iff.mp hpatch
  obtain ⟨entry, hfound, hdefinition⟩ := target_eq_ok_of_external hindex htarget
  obtain rfl := Option.some.inj (hfound.symm.trans hentry)
  obtain ⟨definer, -, -, -, -, -, honly⟩ := exists_definer hdefinition
  obtain ⟨first, second, former, latter, known, given, hne, hfirst, hsecond, hknown, hgiven, -⟩ :=
    hconflict
  obtain ⟨symbol, hknown, -⟩ := Option.map_eq_some_iff.mp hknown
  obtain ⟨other, hgiven, -⟩ := Option.map_eq_some_iff.mp hgiven
  exact hne ((honly first former symbol hfirst hknown).trans
    (honly second latter other hsecond hgiven).symm)

end Placed

open Placed

variable {objects : List Object} {bases : List Bases} {textBase : UInt16} {entrySymbol : String}

/-- Two visible definitions that contradict each other are refused if the first definition of the
name is visible or a record refers to the name. Objects without such a name that relocate are put
together, and only an entry address that is too wide can stop them then. -/
theorem conflict_refused (hdistinct : ∀ object ∈ objects, object.symbols.NamesDistinct)
    (hlayout : layout objects textBase = .ok bases) :
    (∀ name, Conflict (all objects bases) name →
      (¬ Masked (all objects bases) name ∨ ∃ object ∈ objects, object.RefersTo name) →
        ∃ fault, link objects textBase entrySymbol = .error fault) ∧
    (∀ relocated, Addressable objects → objects ≠ [] →
      relocateAll (all objects bases) = .ok relocated →
        ((∀ name, Conflict (all objects bases) name → Masked (all objects bases) name) ↔
          ∃ image, Image.fold relocated = .ok image ∧
            ((∃ result, link objects textBase entrySymbol = .ok result) ∨
              ∃ address, link objects textBase entrySymbol = .error (.entryTooWide address)))) := by
  have hmodules : ∀ module ∈ all objects bases, module.object.symbols.NamesDistinct :=
    fun module hmodule ↦ hdistinct _ (object_mem_of_mem_all hmodule)
  obtain ⟨hlength, htotal⟩ := layout_eq_ok hlayout
  have hobjects := map_object_all hlength
  constructor
  · intro name hconflict hrefused
    cases hlink : link objects textBase entrySymbol with
    | error fault => exact ⟨fault, rfl⟩
    | ok result =>
      obtain ⟨found, relocated, image, entry, hfound, hrelocate, hfold, -⟩ := link_eq_ok hlink
      obtain rfl := Except.ok.inj (hlayout.symm.trans hfound)
      have hrelocates := relocateAll_eq_ok hrelocate
      rcases hrefused with hvisible | ⟨object, hobject, hrefers⟩
      · exact (Image.not_exposed_of_fold hrelocates hmodules hfold name
          (Image.exposed_nil_iff.mpr ⟨hconflict, hvisible⟩)).elim
      · rw [← hobjects] at hobject
        obtain ⟨module, hmodule, rfl⟩ := List.mem_map.mp hobject
        exact (not_refersTo_of_conflict hrelocates hconflict hmodule hrefers).elim
  · intro relocated haddressable hsome hrelocate
    have hrelocates := relocateAll_eq_ok hrelocate
    constructor
    · intro hmasked
      have hmodulesSome : all objects bases ≠ [] := by
        intro hnil
        rw [hnil] at hobjects
        exact hsome hobjects.symm
      have hbss : Layout.total .bss ((all objects bases).map (·.object)) < UInt32.size := by
        rw [hobjects]
        exact Nat.lt_of_le_of_lt (htotal .bss) (by decide)
      obtain ⟨image, hfold⟩ := Image.exists_fold_of_not_exposed hrelocates hmodules hmodulesSome
        (bounded_of_layout haddressable hlayout) hbss fun name hexposed ↦ by
          obtain ⟨hconflict, hvisible⟩ := Image.exposed_nil_iff.mp hexposed
          exact hvisible (hmasked name hconflict)
      exact ⟨image, hfold, link_of_fold hlayout hrelocate hfold⟩
    · rintro ⟨image, hfold, -⟩ name hconflict
      by_contra hvisible
      exact Image.not_exposed_of_fold hrelocates hmodules hfold name
        (Image.exposed_nil_iff.mpr ⟨hconflict, hvisible⟩)

/-- Two objects that define a name differently. -/
theorem conflict_refused_pair :
    ∃ fault, link [.labelled "x" true, .labelled "x" true] 0 "main" = .error fault := by
  have hlayout : layout [.labelled "x" true, .labelled "x" true] 0 =
      .ok [⟨0, 0, 0⟩, ⟨1, 0, 0⟩] := Fallible.eq_ok_of_toOption (by decide +kernel)
  have hdistinct : ∀ object ∈ [Object.labelled "x" true, .labelled "x" true],
      object.symbols.NamesDistinct := by
    simp only [List.forall_mem_cons, SymbolTable.namesDistinct_iff_nodup]
    exact ⟨by decide +kernel, by decide +kernel, fun _ hnone ↦ by cases hnone⟩
  refine (conflict_refused hdistinct hlayout).1 "x" ?_ (.inl ?_)
  · exact ⟨0, 1, _, _, ⟨.label .text true, 0⟩, ⟨.label .text true, 1⟩, by decide, rfl, rfl,
      by decide +kernel, by decide +kernel, by decide +kernel⟩
  · rintro ⟨meaning, hmeaning, hhidden⟩
    have hfirst : firstMeaning? (all [.labelled "x" true, .labelled "x" true]
        [⟨0, 0, 0⟩, ⟨1, 0, 0⟩]) "x" = some ⟨.label .text true, 0⟩ := by decide +kernel
    obtain rfl := Option.some.inj (hfirst.symm.trans hmeaning)
    revert hhidden
    decide +kernel

/-- A conflict that a first definition hides which is not visible. -/
theorem not_conflict_refused :
    ¬ ∀ (objects : List Object) (textBase : UInt16) (entrySymbol : String) (bases : List Bases)
        (name : String), (∀ object ∈ objects, object.symbols.NamesDistinct) →
      layout objects textBase = .ok bases → Conflict (all objects bases) name →
        ∃ fault, link objects textBase entrySymbol = .error fault := by
  intro hrefused
  obtain ⟨fault, hfault⟩ := hrefused
    [.labelled "x" false, .labelled "x" true, .labelled "x" true] 0 "main"
    [⟨0, 0, 0⟩, ⟨1, 0, 0⟩, ⟨2, 0, 0⟩] "x" (by
      simp only [List.forall_mem_cons, SymbolTable.namesDistinct_iff_nodup]
      exact ⟨by decide +kernel, by decide +kernel, by decide +kernel, fun _ hnone ↦ by cases hnone⟩)
    (Fallible.eq_ok_of_toOption (by decide +kernel))
    ⟨1, 2, _, _, ⟨.label .text true, 1⟩, ⟨.label .text true, 2⟩, by decide, rfl, rfl,
      by decide +kernel, by decide +kernel, by decide +kernel⟩
  have hsome : (link [.labelled "x" false, .labelled "x" true, .labelled "x" true] 0
      "main").toOption.isSome := by decide +kernel
  rw [hfault] at hsome
  cases hsome

end Aout
