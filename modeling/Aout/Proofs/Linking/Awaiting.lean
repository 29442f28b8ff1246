import Aout.Proofs.Linking.Embedding
import Aout.Proofs.Linking.Siblings
import Aout.Proofs.Linking.Validity
/-!
Objects that await a name to which they do not refer (`Object.MayAwait`). Such a name adds no bytes,
so the layout is the same (`layout_congr`); it has no definition, so relocation finds the same
addresses (`Placed.MayAwait.exists_relocateAmong`); and an image that takes in the object leaves the
name behind (`Relocated.MayAwait.concat`). Only the object that an image starts with brings it in,
and this object embeds the one that does not await the name (`Relocated.MayAwait.embeds`).
-/

set_option autoImplicit false
set_option relaxedAutoImplicit false

namespace Aout

/-! ### Objects -/

/-- An object, and the same one once it awaits a name, which it may have known before. -/
inductive Object.MayAwait (name : String) (object : Object) : Object → Prop
  | known : MayAwait name object object
  | added (hfresh : object.symbols.locate? name = none) :
      MayAwait name object (object.enter name .awaited).2

/-- A new name without a definition leaves all definitions as they are. -/
theorem SymbolTable.definition?_push_of_undefined {table : SymbolTable} {entry : SymbolEntry}
    (hfresh : table.locate? entry.name = none) (hundefined : entry.symbol.isDefined = false)
    (key : String) : (table.push entry).definition? key = table.definition? key := by
  unfold definition? find? locate?
  rw [position?_push]
  split
  · rename_i hkey
    rw [locate?_eq_none_iff_position?, hkey] at hfresh
    simp [hfresh, entryAt?_push, hundefined]
  · cases hfound : table.position? key with
    | none => rfl
    | some position =>
      obtain ⟨symbol, hentry⟩ := exists_entryAt?_of_position? hfound
      have hlt := lt_size_of_entryAt? hentry
      simp [entryAt?_push, Nat.ne_of_lt hlt]

namespace Object.MayAwait

variable {name : String} {object other : Object}

theorem await (object : Object) (name : String) : object.MayAwait name (object.await name).2 := by
  rcases await_eq_enter_or object name with ⟨position, hawait⟩ | ⟨hfresh, hawait⟩
  · rw [hawait]
    exact .known
  · rw [hawait]
    exact .added hfresh

theorem contents (hawaits : object.MayAwait name other) (owner : StoredSegment) :
    other.contents owner = object.contents owner := by
  cases hawaits with
  | known => rfl
  | added => cases owner <;> rfl

theorem bssSize (hawaits : object.MayAwait name other) : other.bssSize = object.bssSize := by
  cases hawaits with
  | known => rfl
  | added => rfl

theorem size (hawaits : object.MayAwait name other) (segment : Segment) :
    other.size segment = object.size segment := by
  cases segment with
  | text => exact congrArg Section.size (hawaits.contents .text)
  | data => exact congrArg Section.size (hawaits.contents .data)
  | bss => exact hawaits.bssSize

theorem entryAt? (hawaits : object.MayAwait name other) {position : Nat} {entry : SymbolEntry}
    (hentry : object.symbols.entryAt? position = some entry) :
    other.symbols.entryAt? position = some entry := by
  cases hawaits with
  | known => exact hentry
  | added hfresh => exact (SymbolTable.Awaits.push hfresh rfl).kept position entry hentry

/-- The table, with one more symbol at its end if the name is new. -/
theorem entries (hawaits : object.MayAwait name other) :
    other.symbols.entries.toList = object.symbols.entries.toList ∨
      ∃ entry : SymbolEntry, entry.symbol.isDefined = false ∧
        other.symbols.entries.toList = object.symbols.entries.toList ++ [entry] := by
  cases hawaits with
  | known => exact .inl rfl
  | added => exact .inr ⟨_, SymbolTable.isDefined_awaited, Array.toList_push⟩

theorem definition? (hawaits : object.MayAwait name other) (key : String) :
    other.symbols.definition? key = object.symbols.definition? key := by
  cases hawaits with
  | known => rfl
  | added hfresh =>
    exact SymbolTable.definition?_push_of_undefined hfresh SymbolTable.isDefined_awaited key

theorem embeds (hawaits : object.MayAwait name other) :
    SymbolTable.Embeds name (List.range object.symbols.size) object.symbols other.symbols := by
  cases hawaits with
  | known => exact .refl name object.symbols
  | added hfresh =>
    exact .awaited (SymbolTable.locate?_eq_none_iff_position?.mp hfresh) ⟨rfl, rfl⟩

end Object.MayAwait

/-! ### Layout -/

section Sizes

variable {objects others : List Object}

theorem Layout.dataTotal_congr (hsizes : List.Forall₂ (fun object other ↦ ∀ segment : Segment,
    other.size segment = object.size segment) objects others) (start : UInt32) :
    others.foldlM (fun total object ↦ advance .data total (object.size .data)) start =
      objects.foldlM (fun total object ↦ advance .data total (object.size .data)) start := by
  induction hsizes generalizing start with
  | nil => rfl
  | cons hfirst _ ih =>
    rw [List.foldlM_cons, List.foldlM_cons, hfirst]
    exact congrArg _ (funext ih)

theorem Layout.place_congr (hsizes : List.Forall₂ (fun object other ↦ ∀ segment : Segment,
    other.size segment = object.size segment) objects others) (bases : Bases) :
    place bases others = place bases objects := by
  induction hsizes generalizing bases with
  | nil => rfl
  | cons hfirst _ ih =>
    unfold place next
    simp only [hfirst, ih]

/-- Where objects come to stand depends on their sizes alone. -/
theorem layout_congr (hsizes : List.Forall₂ (fun object other ↦ ∀ segment : Segment,
    other.size segment = object.size segment) objects others) (textBase : UInt16) :
    layout others textBase = layout objects textBase := by
  unfold layout Layout.dataTotal
  rw [Layout.dataTotal_congr hsizes]
  simp only [Layout.place_congr hsizes]

end Sizes

/-! ### Relocation -/

/-- A placed object, and the same one once its object awaits a name. -/
structure Placed.MayAwait (name : String) (module other : Placed) : Prop where
  object : module.object.MayAwait name other.object
  bases : other.bases = module.bases

/-- A relocated object, and the same one once its object awaits a name. -/
structure Relocated.MayAwait (name : String) (module other : Relocated) : Prop where
  object : module.object.MayAwait name other.object
  bases : other.bases = module.bases
  rebased : other.rebased = module.rebased

namespace Placed.MayAwait

variable {name : String} {module other : Placed} {modules others : List Placed}
  {owner : StoredSegment}

theorem definitions (hmodules : List.Forall₂ (MayAwait name) modules others) (key : String) :
    definitions others key = definitions modules key := by
  induction hmodules with
  | nil => rfl
  | cons hfirst _ ih =>
    have hdefinition := hfirst.object.definition? key
    unfold Placed.definitions at ih ⊢
    rw [List.filterMap_cons, List.filterMap_cons, ih, hfirst.bases]
    unfold Placed.definition?
    unfold SymbolTable.definition? at hdefinition
    rw [hdefinition]

theorem findDefinition (hmodules : List.Forall₂ (MayAwait name) modules others) (key : String) :
    findDefinition others key = findDefinition modules key := by
  unfold Placed.findDefinition
  rw [definitions hmodules]

/-- A reference that is found is found at the same address. -/
theorem resolveRecord (hmodules : List.Forall₂ (MayAwait name) modules others)
    (hawaits : module.MayAwait name other) {record : Relocation} {patch : Patch}
    (hresolve : module.resolveRecord modules owner record = .ok patch) :
    other.resolveRecord others owner record = .ok patch := by
  obtain ⟨held, address, hheld, htarget, hpatch⟩ := resolveRecord_eq_ok_iff.mp hresolve
  refine resolveRecord_eq_ok_iff.mpr ⟨held, address, ?_, ?_, hpatch⟩
  · rw [hawaits.object.contents, hheld]
  · unfold target at htarget ⊢
    cases hindex : record.symbolIndex? with
    | none =>
      rw [hindex] at htarget
      rw [hawaits.bases]
      exact htarget
    | some index =>
      rw [hindex] at htarget
      dsimp only at htarget ⊢
      cases hentry : module.object.symbols.entryAt? index with
      | none =>
        rw [hentry] at htarget
        cases htarget
      | some entry =>
        rw [hentry] at htarget
        rw [hawaits.object.entryAt? hentry]
        dsimp only at htarget ⊢
        rw [findDefinition hmodules, htarget]

theorem resolve (hmodules : List.Forall₂ (MayAwait name) modules others)
    (hawaits : module.MayAwait name other) {patches : List Patch}
    (hresolve : module.resolve modules owner = .ok patches) :
    other.resolve others owner = .ok patches := by
  unfold Placed.resolve at hresolve ⊢
  rw [hawaits.object.contents]
  rw [Fallible.mapM_eq_ok_iff] at hresolve ⊢
  exact hresolve.imp fun _ _ hrecord ↦ resolveRecord hmodules hawaits hrecord

theorem patched (hawaits : module.MayAwait name other) {patches : List Patch × List Patch}
    {relocated : Relocated} (hpatched : module.patched patches = .ok relocated) :
    ∃ further, other.patched patches = .ok further ∧ relocated.MayAwait name further := by
  obtain ⟨object, bases⟩ := module
  obtain ⟨latter, others⟩ := other
  obtain ⟨hobject, hbases⟩ := hawaits
  obtain rfl : others = bases := hbases
  cases hobject with
  | known => exact ⟨relocated, hpatched, .known, rfl, rfl⟩
  | added hfresh =>
    unfold Placed.patched at hpatched ⊢
    obtain ⟨text, htext, hrest⟩ := Fallible.bind_eq_ok_iff.mp hpatched
    obtain ⟨data, hdata, hreturn⟩ := Fallible.bind_eq_ok_iff.mp hrest
    obtain rfl := Fallible.pure_eq_ok_iff.mp hreturn
    refine ⟨_, Fallible.bind_eq_ok_iff.mpr ⟨text, htext,
      Fallible.bind_eq_ok_iff.mpr ⟨data, hdata, rfl⟩⟩, .added hfresh, rfl, rfl⟩

/-- An object that is relocated is also relocated if it awaits one more name. -/
theorem exists_relocateAmong (hmodules : List.Forall₂ (MayAwait name) modules others)
    (hawaits : module.MayAwait name other) {relocated : Relocated}
    (hrelocate : relocateAmong modules module = .ok relocated) :
    ∃ further, relocateAmong others other = .ok further ∧ relocated.MayAwait name further := by
  obtain ⟨patches, hpatches, hpatched⟩ := Fallible.bind_eq_ok_iff.mp hrelocate
  obtain ⟨text, htext, hrest⟩ := Fallible.bind_eq_ok_iff.mp hpatches
  obtain ⟨data, hdata, hreturn⟩ := Fallible.bind_eq_ok_iff.mp hrest
  have hresolved : other.resolveAll others = .ok patches := by
    unfold Placed.resolveAll
    rw [resolve hmodules hawaits htext, resolve hmodules hawaits hdata]
    exact hreturn
  obtain ⟨further, hfurther, hsame⟩ := hawaits.patched hpatched
  exact ⟨further, Fallible.bind_eq_ok_iff.mpr ⟨patches, hresolved, hfurther⟩, hsame⟩

theorem exists_relocateAll (hmodules : List.Forall₂ (MayAwait name) modules others)
    {relocated : List Relocated} (hrelocate : relocateAll modules = .ok relocated) :
    ∃ further, relocateAll others = .ok further ∧
      List.Forall₂ (Relocated.MayAwait name) relocated further := by
  rw [relocateAll_eq_mapM] at hrelocate ⊢
  have hrelocated : ∃ further, others.mapM (relocateAmong others) = .ok further ∧
      List.Forall₂ (fun further relocated ↦ relocated.MayAwait name further) further relocated := by
    refine Fallible.exists_mapM_of_forall₂ (fun other module relocated hawaits hmodule ↦ ?_)
      hmodules.flip hrelocate
    exact exists_relocateAmong hmodules hawaits hmodule
  obtain ⟨further, hfurther, hsame⟩ := hrelocated
  exact ⟨further, hfurther, hsame.flip⟩

end Placed.MayAwait

/-! ### Concatenation -/

namespace Relocated.MayAwait

variable {name : String} {image second other : Relocated} {owner : StoredSegment}

theorem mergeEntry_eq (hawaits : second.MayAwait name other) :
    mergeEntry other = mergeEntry second := by
  funext module entry
  unfold mergeEntry addressOf
  rw [hawaits.rebased, hawaits.bases]

/-- A name without a definition is not taken in. -/
theorem mergeSymbols_eq (hawaits : second.MayAwait name other) (image : Relocated) :
    image.mergeSymbols other = image.mergeSymbols second := by
  unfold Relocated.mergeSymbols
  rw [hawaits.mergeEntry_eq]
  rcases hawaits.object.entries with hsame | ⟨entry, hundefined, hentries⟩
  · rw [hsame]
  · rw [hentries]
    exact Progress.each_append_of_done (fun _ ↦ mergeEntry_of_undefined hundefined) _ _

theorem adopt (hawaits : second.MayAwait name other) (owner : StoredSegment) (shift : UInt32)
    (taken : Adoption) (record : Relocation) :
    Progress.Lockstep Eq (adopt other owner shift taken record)
      (adopt second owner shift taken record) := by
  unfold Relocated.adopt
  dsimp only
  cases record.symbolIndex? with
  | none => exact .of_done rfl
  | some index =>
    dsimp only
    cases hentry : second.object.symbols.entryAt? index with
    | none => exact .of_stopped
    | some entry =>
      rw [hawaits.object.entryAt? hentry]
      exact fun reached hdone ↦ ⟨reached, hdone, rfl⟩

theorem adoptAll (hawaits : second.MayAwait name other) (image : Relocated)
    (owner : StoredSegment) (shift : UInt32) :
    Progress.Lockstep Eq (image.adoptAll other owner shift)
      (image.adoptAll second owner shift) := by
  unfold Relocated.adoptAll
  rw [hawaits.object.contents]
  have heach : Progress.Lockstep Eq
      (.each (Relocated.adopt other owner shift) (.start image)
        (second.object.contents owner).relocations.toList)
      (.each (Relocated.adopt second owner shift) (.start image)
        (second.object.contents owner).relocations.toList) := by
    refine .each (fun record latter state reached hsame hstates ↦ ?_)
      (List.forall₂_same.mpr fun _ _ ↦ rfl) rfl
    rw [hsame, hstates]
    exact hawaits.adopt owner shift reached latter
  exact heach.map fun _ _ hfinal ↦ congrArg (Adoption.finish owner) hfinal

/-- An image that takes in the object is the same if the object awaits one more name. -/
theorem concat (hawaits : second.MayAwait name other) (image : Relocated) :
    Progress.Lockstep Eq (image.concat other) (image.concat second) := by
  have hbytes (owner : StoredSegment) :
      (other.object.contents owner).bytes = (second.object.contents owner).bytes := by
    rw [hawaits.object.contents]
  have happended (bssSize : UInt32) :
      image.rebase.appendSegments other bssSize = image.rebase.appendSegments second bssSize := by
    have htext : other.object.text.bytes = second.object.text.bytes := hbytes .text
    have hdata : other.object.data.bytes = second.object.data.bytes := hbytes .data
    unfold Relocated.appendSegments
    rw [htext, hdata]
  unfold Relocated.concat
  dsimp only
  rw [hawaits.object.bssSize]
  cases Word.checkedAdd? image.object.bssSize second.object.bssSize with
  | none => exact .of_stopped
  | some bssSize =>
    dsimp only
    rw [happended, hawaits.mergeSymbols_eq]
    refine .andThen (.andThen (fun reached hdone ↦ ⟨reached, hdone, rfl⟩) ?_) ?_
    · rintro state _ rfl
      exact hawaits.adoptAll state .text _
    · rintro state _ rfl
      exact hawaits.adoptAll state .data _

/-- The first object of an image embeds the one that does not await the name. -/
theorem embeds (hawaits : second.MayAwait name other) (hvalid : second.object.Valid) :
    second.Embeds name (List.range second.object.symbols.size) other where
  rebased := hawaits.rebased
  bases := hawaits.bases
  bssSize := hawaits.object.bssSize
  symbols := hawaits.object.embeds
  bytes := by
    intro owner
    rw [hawaits.object.contents]
  relocations := by
    intro owner
    rw [hawaits.object.contents]
    refine List.forall₂_same.mpr fun record hrecord ↦ ?_
    exact .self (hvalid owner record (Array.mem_toList_iff.mp hrecord)).known

end Relocated.MayAwait

end Aout
