import Aout.Proofs.Linking.Placeholders
import Aout.Proofs.Linking.Provenance
import Aout.Proofs.Relocation
/-!
The records of relocated objects are valid: their placeholders lie inside the segment, and they
point into a segment or at an entry of the symbol table (`Object.Valid`). Relocation checks this
record by record, and taking in another object keeps it in every state that is passed through, also
where a fault stops halfway (`Relocated.keeps_concat`). So the only faults that two relocated
objects can have in common are too much bss, a name that both define, and an address of more than 16
bits (`Relocated.Reachable.concat_valid`).
-/

set_option autoImplicit false
set_option relaxedAutoImplicit false

namespace Aout

/-- The placeholder of a record lies inside a segment of so many bytes, and the record points into a
segment or at one of so many symbols. -/
structure Relocation.Valid (bytes symbols : Nat) (record : Relocation) : Prop where
  inside : record.address.toNat + 1 < bytes
  tagged : record.external = false → ∃ segment : Segment, record.index = segment.tag
  known : record.external = true → record.index.toNat < symbols

namespace Relocation.Valid

variable {bytes symbols : Nat} {record : Relocation}

theorem mono {more : Nat} (hvalid : record.Valid bytes symbols) (hmore : symbols ≤ more) :
    record.Valid bytes more :=
  ⟨hvalid.inside, hvalid.tagged,
    fun hexternal ↦ Nat.lt_of_lt_of_le (hvalid.known hexternal) hmore⟩

theorem lt_of_symbolIndex? (hvalid : record.Valid bytes symbols) {index : Nat}
    (hindex : record.symbolIndex? = some index) : index < symbols := by
  obtain ⟨hexternal, rfl⟩ := symbolIndex?_eq_some_iff.mp hindex
  exact hvalid.known hexternal

theorem settle (hvalid : record.Valid bytes symbols) (segment? : Option Segment) :
    (Relocated.settle record segment?).Valid bytes symbols := by
  cases segment? with
  | none => exact hvalid
  | some segment =>
    exact ⟨hvalid.inside, fun _ ↦ ⟨segment, rfl⟩, fun hexternal ↦ by cases hexternal⟩

end Relocation.Valid

namespace Object

/-- Every record of the object is valid. -/
def Valid (object : Object) : Prop :=
  ∀ owner, ∀ record ∈ (object.contents owner).relocations,
    record.Valid (object.contents owner).bytes.size object.symbols.size

theorem Valid.congr {before after : Object} (hvalid : before.Valid)
    (hcontents : ∀ owner, after.contents owner = before.contents owner)
    (hsymbols : before.symbols.size ≤ after.symbols.size) : after.Valid := by
  intro owner record hrecord
  rw [hcontents] at hrecord ⊢
  exact (hvalid owner record hrecord).mono hsymbols

end Object

theorem Placed.Relocates.valid {modules : List Placed} {module : Placed} {relocated : Relocated}
    (hrelocates : Relocates modules module relocated) : relocated.object.Valid := by
  intro owner record hrecord
  rw [hrelocates.relocations] at hrecord
  obtain ⟨patch, hpatch⟩ := hrelocates.resolves owner record hrecord
  obtain ⟨held, address, hheld, htarget, -⟩ := resolveRecord_eq_ok_iff.mp hpatch
  rw [hrelocates.size_bytes, hrelocates.symbols]
  refine ⟨Placeholder.wordAt?_isSome_iff.mp (Option.isSome_of_eq_some hheld),
    fun hinternal ↦ ?_, fun hexternal ↦ ?_⟩
  · obtain ⟨segment, hsegment, -⟩ :=
      target_eq_ok_of_internal (Relocation.symbolIndex?_eq_none_iff.mpr hinternal) htarget
    exact ⟨segment, (Segment.ofTag?_eq_some_iff.mp hsegment).symm⟩
  · obtain ⟨entry, hentry, -⟩ := target_eq_ok_of_external
      (Relocation.symbolIndex?_eq_some_iff.mpr ⟨hexternal, rfl⟩) htarget
    exact SymbolTable.lt_size_of_entryAt? hentry

namespace Relocated

/-- What there can be against taking in an object with valid records. -/
inductive Refusal : LinkFault → Prop
  | bss : Refusal (.addressSpaceOverrun .bss)
  | clash (name : String) : Refusal (.multiplyDefined name)
  | wide (placeholder address : UInt32) : Refusal (.operandTooWide placeholder address)

variable {first second module : Relocated} {owner : StoredSegment}

/-- A valid object that holds the bytes of two others. -/
structure Accommodates (first second module : Relocated) : Prop where
  valid : module.object.Valid
  rebased : module.rebased = true
  size : ∀ owner, (module.object.contents owner).bytes.size =
    (first.object.contents owner).bytes.size + (second.object.contents owner).bytes.size

namespace Accommodates

theorem congr {after : Relocated} (haccommodates : Accommodates first second module)
    (hsame : SameContents module after)
    (hsymbols : module.object.symbols.size ≤ after.object.symbols.size) :
    Accommodates first second after where
  valid := haccommodates.valid.congr hsame.contents hsymbols
  rebased := hsame.rebased.trans haccommodates.rebased
  size := fun owner ↦ by rw [hsame.contents, haccommodates.size]

theorem setContents (haccommodates : Accommodates first second module) {contents : Section}
    (hsize : contents.bytes.size = (module.object.contents owner).bytes.size)
    (hrecords : ∀ record ∈ contents.relocations,
      record.Valid (module.object.contents owner).bytes.size module.object.symbols.size) :
    Accommodates first second
      { module with object := module.object.setContents owner contents } where
  valid := by
    intro other record hrecord
    rw [Object.symbols_setContents]
    by_cases hother : other = owner
    · subst hother
      rw [Object.contents_setContents] at hrecord ⊢
      rw [hsize]
      exact hrecords record hrecord
    · rw [Object.contents_setContents_of_ne _ hother] at hrecord ⊢
      exact haccommodates.valid other record hrecord
  rebased := haccommodates.rebased
  size := by
    intro other
    by_cases hother : other = owner
    · subst hother
      rw [Object.contents_setContents, hsize, haccommodates.size]
    · rw [Object.contents_setContents_of_ne _ hother, haccommodates.size]

end Accommodates

/-! ### Symbols -/

theorem keeps_mergeEntry (haccommodates : Accommodates first second module) (entry : SymbolEntry) :
    (mergeEntry second module entry).Keeps (Accommodates first second) Refusal := by
  unfold mergeEntry
  dsimp only
  split
  · exact .done haccommodates
  · split
    · refine .done (haccommodates.congr (.of_tables module _ _) ?_)
      simp [Object.enter, SymbolTable.size, SymbolTable.push]
    · split
      · refine .done (haccommodates.congr (.of_tables module _ _) ?_)
        exact Nat.le_of_eq (SymbolTable.size_redefine ..).symm
      · split
        · exact .stopped haccommodates (.clash entry.name)
        · exact .done haccommodates

/-! ### Records of the first object -/

theorem OwnOutcome.valid {table : SymbolTable} {record : Relocation} {outcome : Outcome}
    (hown : OwnOutcome table record outcome) {bytes symbols : Nat}
    (hvalid : record.Valid bytes symbols) : outcome.record.Valid bytes symbols := by
  cases hown with
  | internal => exact hvalid
  | external _ _ hsettles =>
    cases hsettles with
    | awaited => exact hvalid
    | defined => exact hvalid.settle _

theorem resolveOwn_fault {record : Relocation} {bytes : Nat}
    (hvalid : record.Valid bytes module.object.symbols.size) {fault : LinkFault}
    (hfault : module.resolveOwn record = .error fault) : Refusal fault := by
  unfold resolveOwn at hfault
  split at hfault
  · cases hfault
  · rename_i index hindex
    split at hfault
    · rename_i hnone
      have hlt := hvalid.lt_of_symbolIndex? hindex
      have hle := SymbolTable.entryAt?_eq_none_iff.mp hnone
      omega
    · split at hfault
      · rcases Fallible.bind_eq_error_iff.mp hfault with hwide | ⟨patch, -, hpure⟩
        · rw [(Patch.ofAddress_eq_error hwide).1]
          exact .wide _ _
        · cases hpure
      · cases hfault

theorem keeps_settleRecords (haccommodates : Accommodates first second module)
    (owner : StoredSegment) :
    (module.settleRecords owner).Keeps (Accommodates first second) Refusal := by
  have hvalid := haccommodates.valid owner
  simp only [← Array.mem_toList_iff] at hvalid
  unfold settleRecords
  dsimp only
  split
  · rename_i fault hfault
    obtain ⟨record, hrecord, herror⟩ := Fallible.exists_of_mapM_eq_error hfault
    exact .stopped haccommodates (resolveOwn_fault (hvalid record hrecord) herror)
  · rename_i resolutions hresolutions
    have hresolved := Fallible.mapM_eq_ok_iff.mp hresolutions
    have hsettled : ∀ item ∈ (module.object.contents owner).relocations.toList.zip resolutions,
        isSettled (module.object.contents owner).bytes item := by
      rintro ⟨record, resolution?⟩ hitem
      have hown := resolveOwn_eq_ok haccommodates.rebased (List.forall₂_zip hresolved hitem)
      cases resolution? with
      | none => rfl
      | some resolution =>
        rw [isSettled, Option.all_some, hown.standsAt.patch _ rfl, Placeholder.isInside_iff]
        exact (hvalid record (List.of_mem_zip hitem).1).inside
    rw [settleAll_of_settled hsettled]
    refine .done (haccommodates.setContents (Outcome.size_contents ..) fun record hrecord ↦ ?_)
    rw [Outcome.contents, List.mem_toArray] at hrecord
    obtain ⟨outcome, houtcome, rfl⟩ := List.mem_map.mp hrecord
    obtain ⟨place, hplace⟩ := List.mem_iff_getElem?.mp houtcome
    obtain ⟨former, hformer, hown⟩ := Fallible.exists_getElem?_of_forall₂
      (forall₂_outcomesOf haccommodates.rebased hresolved).flip hplace
    exact hown.valid (hvalid former (List.mem_of_getElem? hformer))

/-! ### Records of the second object -/

/-- What is taken in so far of one segment of the second object. -/
structure Adopting (first second : Relocated) (owner : StoredSegment) (adoption : Adoption) :
    Prop where
  accommodates : Accommodates first second adoption.module
  records : ∀ record ∈ adoption.records,
    record.Valid (adoption.module.object.contents owner).bytes.size
      adoption.module.object.symbols.size

namespace Adopting

variable {adoption : Adoption}

theorem add (hadopting : Adopting first second owner adoption) {record : Relocation}
    (hvalid : record.Valid (adoption.module.object.contents owner).bytes.size
      adoption.module.object.symbols.size) :
    Adopting first second owner (adoption.add record) :=
  ⟨hadopting.accommodates, List.forall_mem_cons.mpr ⟨hvalid, hadopting.records⟩⟩

theorem write (hadopting : Adopting first second owner adoption) (patch : Patch) :
    Adopting first second owner (adoption.write patch) :=
  ⟨hadopting.accommodates, hadopting.records⟩

theorem await (hadopting : Adopting first second owner adoption) (name : String) :
    Adopting first second owner { adoption with module := adoption.module.awaiting name } := by
  have hsame := sameContents_awaiting adoption.module name
  have hsize := (await_spec adoption.module.object name).1.grows.size_le
  refine ⟨hadopting.accommodates.congr hsame hsize, fun record hrecord ↦ ?_⟩
  rw [hsame.contents]
  exact (hadopting.records record hrecord).mono hsize

theorem finish (hadopting : Adopting first second owner adoption) :
    Accommodates first second (adoption.finish owner) := by
  rw [Adoption.finish, Object.modifyContents_eq]
  refine hadopting.accommodates.setContents ?_ fun record hrecord ↦ ?_
  · rw [Patch.foldl_write, Slot.size_foldl_write]
  · rw [← Array.mem_toList_iff, Array.toList_appendList, List.mem_append, Array.mem_toList_iff,
      List.mem_reverse] at hrecord
    rcases hrecord with hown | htaken
    · exact hadopting.accommodates.valid owner record hown
    · exact hadopting.records record htaken

end Adopting

/-- A record that is pointed at a name of the joint table. -/
theorem valid_pointed {record : Relocation} {address : UInt32}
    (hinside : address.toNat + 1 < (module.object.contents owner).bytes.size)
    (hexternal : record.external = true) (name : String) :
    Relocation.Valid ((module.awaiting name).object.contents owner).bytes.size
      (module.awaiting name).object.symbols.size
      { record with address, index := UInt32.ofNat (module.object.await name).1 } := by
  obtain ⟨-, ⟨symbol, hlocated⟩, -⟩ := await_spec module.object name
  have hcontents := (sameContents_awaiting module name).contents owner
  refine ⟨by rwa [hcontents], fun hinternal ↦ ?_, fun _ ↦ ?_⟩
  · exact absurd (hexternal.symm.trans hinternal) (by decide)
  · exact Nat.lt_of_le_of_lt (Nat.mod_le _ _) (SymbolTable.lt_size_of_entryAt? hlocated)

theorem keeps_adopt (hsecond : second.object.Valid) {adoption : Adoption}
    (hadopting : Adopting first second owner adoption) {record : Relocation}
    (hrecord : record ∈ (second.object.contents owner).relocations) :
    (adopt second owner (first.shift owner) adoption record).Keeps (Adopting first second owner)
      Refusal := by
  have hvalid := hsecond owner record hrecord
  have hinside : (record.address + first.shift owner).toNat + 1 <
      (adoption.module.object.contents owner).bytes.size := by
    rw [hadopting.accommodates.size]
    exact inside_of_moved hvalid.inside
  unfold adopt
  dsimp only
  split
  · rename_i hindex
    have hinternal := Relocation.symbolIndex?_eq_none_iff.mp hindex
    refine .done (hadopting.add ⟨hinside, hvalid.tagged, fun hexternal ↦ ?_⟩)
    exact absurd (hexternal.symm.trans hinternal) (by decide)
  · rename_i index hindex
    split
    · rename_i hnone
      have hlt := hvalid.lt_of_symbolIndex? hindex
      have hle := SymbolTable.entryAt?_eq_none_iff.mp hnone
      omega
    · rename_i entry hentry
      have hjoined := hadopting.await entry.name
      have hexternal := (Relocation.symbolIndex?_eq_some_iff.mp hindex).1
      have hpointed := valid_pointed hinside hexternal entry.name
      split
      · exact .done (hjoined.add hpointed)
      · split
        · rename_i fault hfault
          rw [(Patch.ofAddress_eq_error hfault).1]
          exact .stopped hjoined (.wide _ _)
        · rename_i patch hpatch
          split
          · exact .done ((hjoined.add (hpointed.settle _)).write patch)
          · rename_i houtside
            rw [Placeholder.isInside_iff, (Patch.ofAddress_eq_ok_iff.mp hpatch).1] at houtside
            exact (houtside hpointed.inside).elim

theorem keeps_adoptAll (hsecond : second.object.Valid)
    (haccommodates : Accommodates first second module) (owner : StoredSegment) :
    (module.adoptAll second owner (first.shift owner)).Keeps
      (Accommodates first second) Refusal := by
  have hstart : Adopting first second owner (.start module) :=
    ⟨haccommodates, fun _ hrecord ↦ by cases hrecord⟩
  have hkeeps : (Progress.each (adopt second owner (first.shift owner)) (.start module)
      (second.object.contents owner).relocations.toList).Keeps (Adopting first second owner)
        Refusal :=
    .each (fun adoption record hrecord hadopting ↦
      keeps_adopt hsecond hadopting (Array.mem_toList_iff.mp hrecord)) hstart
  exact hkeeps.map fun _ hadopting ↦ hadopting.finish

/-! ### The whole concatenation -/

theorem Abutted.accommodates {joint : Relocated} (habutted : Abutted first second joint)
    (hfirst : first.object.Valid) : Accommodates first second joint where
  valid := by
    intro owner record hrecord
    rw [habutted.contents] at hrecord ⊢
    obtain ⟨hinside, htagged, hknown⟩ := hfirst owner record hrecord
    rw [habutted.symbols, size_symbols_rebase, Array.size_append]
    exact ⟨Nat.lt_of_lt_of_le hinside (Nat.le_add_right _ _), htagged, hknown⟩
  rebased := habutted.rebased
  size := fun owner ↦ by rw [habutted.contents, Array.size_append]

/-- Whatever a concatenation of valid objects comes to is valid, and only a refusal stops it. -/
theorem keeps_concat (hfirst : first.object.Valid) (hsecond : second.object.Valid) :
    (first.concat second).Keeps (fun module : Relocated ↦ module.object.Valid) Refusal := by
  unfold concat
  dsimp only
  split
  · exact .stopped hfirst .bss
  · rename_i bssSize hbss
    have hjoint := (abutted hbss).accommodates hfirst
    have hmerged : ((first.rebase.appendSegments second bssSize).mergeSymbols second).Keeps
        (Accommodates first second) Refusal :=
      .each (fun _ entry _ haccommodates ↦ keeps_mergeEntry haccommodates entry) hjoint
    have hsettled (owner : StoredSegment) (module : Relocated)
        (haccommodates : Accommodates first second module) :
        (module.fixUp owner).Keeps (Accommodates first second) Refusal := by
      rw [fixUp_eq]
      exact keeps_settleRecords haccommodates owner
    have hadopted (owner : StoredSegment) (module : Relocated)
        (haccommodates : Accommodates first second module) :
        (module.adoptAll second owner (first.shift owner)).Keeps (Accommodates first second)
          Refusal := keeps_adoptAll hsecond haccommodates owner
    have hall := hmerged.andThen (hsettled .text) |>.andThen (hsettled .data)
      |>.andThen (hadopted .text) |>.andThen (hadopted .data)
    exact ⟨hall.holds.valid, hall.allowed⟩

namespace Reachable

theorem valid (hmodule : Reachable module) : module.object.Valid := by
  induction hmodule with
  | start hstart =>
    obtain ⟨placed, hyields⟩ := hstart
    obtain ⟨modules, hrelocates⟩ := hyields.relocates
    exact hrelocates.valid
  | concat _ _ ih ihOther => exact (keeps_concat ih (ihOther trivial)).holds
  | setEntryPoint _ entry ih =>
    exact ih.congr (fun owner ↦ by cases owner <;> rfl) (Nat.le_refl _)

/-- The records of a module that was relocated stay valid, whatever it takes in, and no fault tells
of a record that is not. No offset overflows on the way if the joint segment has 32-bit offsets. -/
theorem concat_valid (hfirst : Reachable first) (hsecond : Reachable second) :
    first.object.Valid ∧
      (∀ fault, (first.concat second).fault? = some fault → Refusal fault) ∧
      ∀ owner, (first.object.contents owner).bytes.size +
          (second.object.contents owner).bytes.size < UInt32.size →
        ∀ record ∈ (second.object.contents owner).relocations,
          record.address.toNat + (first.shift owner).toNat < UInt32.size := by
  refine ⟨hfirst.valid, (keeps_concat hfirst.valid hsecond.valid).allowed, ?_⟩
  intro owner hsize record hrecord
  have hinside := (hsecond.valid owner record hrecord).inside
  rw [shift, Section.size, UInt32.toNat_ofNat_of_lt' (by omega)]
  omega

/-- A function and a call of it, relocated against each other. -/
theorem concat_valid_call : ∃ first second,
    Placed.relocateAll
        [⟨.labelled "f" true, ⟨0x100, 0, 0⟩⟩, ⟨.calling "f", ⟨0x101, 0, 0⟩⟩] = .ok [first, second] ∧
      first.object.Valid ∧ (∀ fault, (first.concat second).fault? = some fault → Refusal fault) ∧
      ∀ record ∈ (second.object.contents .text).relocations,
        record.address.toNat + (first.shift .text).toNat < UInt32.size := by
  have hsome : (Placed.relocateAll [⟨.labelled "f" true, ⟨0x100, 0, 0⟩⟩,
      ⟨.calling "f", ⟨0x101, 0, 0⟩⟩]).toOption.isSome := by
    decide +kernel
  obtain ⟨relocated, hrelocate⟩ := Fallible.exists_eq_ok_of_isSome hsome
  cases Placed.relocateAll_eq_ok hrelocate with
  | @cons _ first _ _ hfirst hrest =>
    cases hrest with
    | @cons _ second _ _ hsecond hnone =>
      cases hnone
      obtain ⟨hvalid, hfaults, hoffsets⟩ := concat_valid
        (.relocateAll hrelocate List.mem_cons_self)
        (.relocateAll hrelocate (List.mem_cons_of_mem _ List.mem_cons_self))
      refine ⟨first, second, hrelocate, hvalid, hfaults, hoffsets .text ?_⟩
      rw [hfirst.size_bytes, hsecond.size_bytes]
      decide +kernel

end Reachable

end Relocated

end Aout
