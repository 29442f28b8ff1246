import Mathlib.Data.List.TakeWhile
import Aout.Proofs.Linking.Meaning
import Aout.Proofs.Linking.Resolution
/-!
What becomes of relocation records when objects are put together, one record at a time. A record
that refers to a defined symbol has the symbol's address written over its placeholder, and points
into the symbol's segment from then on if the symbol has one (`Relocated.Settles`); any other record
stays what it is. `Relocated.settleRecords_eq_done` says this for the records of the object that
takes in another one, `Relocated.adoptAll_eq_done` for the records that come from the other one. The
companions about faults say that, with records that are in range, only an address of more than 16
bits can stop either.
-/

set_option autoImplicit false
set_option relaxedAutoImplicit false

namespace Aout

/-- A record as it stands after objects are put together, and what is written over its placeholder.
-/
structure Outcome where
  record : Relocation
  patch? : Option Patch

namespace Outcome

/-- The words that are written for several records. -/
def patches (outcomes : List Outcome) : List Patch :=
  outcomes.filterMap (·.patch?)

/-- The section after all outcomes: the words written, and the records as they stand then. -/
def contents (bytes : Array UInt8) (outcomes : List Outcome) : Section :=
  ⟨(patches outcomes).foldl Patch.write bytes, (outcomes.map (·.record)).toArray⟩

@[simp] theorem size_contents (bytes : Array UInt8) (outcomes : List Outcome) :
    (contents bytes outcomes).bytes.size = bytes.size := by
  rw [contents, Patch.foldl_write, Slot.size_foldl_write]

theorem mem_patches {outcomes : List Outcome} {patch : Patch} :
    patch ∈ patches outcomes ↔ ∃ outcome ∈ outcomes, outcome.patch? = some patch :=
  List.mem_filterMap

theorem patches_cons (outcome : Outcome) (outcomes : List Outcome) :
    patches (outcome :: outcomes) = outcome.patch?.toList ++ patches outcomes := by
  cases hpatch : outcome.patch? <;> simp [patches, hpatch]

theorem patches_append (first second : List Outcome) :
    patches (first ++ second) = patches first ++ patches second :=
  List.filterMap_append

theorem contents_append (bytes : Array UInt8) (first second : List Outcome) :
    contents bytes (first ++ second) =
      ⟨(patches second).foldl Patch.write (contents bytes first).bytes,
        (contents bytes first).relocations ++ second.map (·.record)⟩ := by
  simp [contents, patches_append]

/-- A record stands at an offset, and whatever is written for it is written there. -/
structure StandsAt (outcome : Outcome) (address : UInt32) : Prop where
  record : outcome.record.address = address
  patch : ∀ patch, outcome.patch? = some patch → patch.address = address

end Outcome

namespace Object

@[simp] theorem symbols_setContents (object : Object) (owner : StoredSegment) (contents : Section) :
    (object.setContents owner contents).symbols = object.symbols := by
  cases owner <;> rfl

@[simp] theorem bssSize_setContents (object : Object) (owner : StoredSegment)
    (contents : Section) : (object.setContents owner contents).bssSize = object.bssSize := by
  cases owner <;> rfl

/-- Some record of the object refers to a symbol of this name. -/
def RefersTo (object : Object) (name : String) : Prop :=
  ∃ owner, ∃ record ∈ (object.contents owner).relocations, ∃ index symbol,
    record.symbolIndex? = some index ∧ object.symbols.entryAt? index = some ⟨name, symbol⟩

end Object

namespace Relocated

/-- What becomes of a record that refers to a symbol whose value is an absolute address. -/
inductive Settles (symbol : Symbol) (record : Relocation) : Outcome → Prop
  | awaited (hawaited : symbol.isDefined = false) : Settles symbol record ⟨record, none⟩
  | defined (hdefined : symbol.isDefined) {word : UInt16}
      (hword : word.toNat = symbol.value.toNat) :
      Settles symbol record ⟨settle record symbol.segment?, some ⟨record.address, word⟩⟩

/-- What becomes of a record of an object with a given table. -/
inductive OwnOutcome (table : SymbolTable) (record : Relocation) : Outcome → Prop
  | internal (hindex : record.symbolIndex? = none) : OwnOutcome table record ⟨record, none⟩
  | external {index : Nat} {entry : SymbolEntry} {outcome : Outcome}
      (hindex : record.symbolIndex? = some index) (hentry : table.entryAt? index = some entry)
      (hsettles : Settles entry.symbol record outcome) : OwnOutcome table record outcome

/-- What becomes of a record that comes from an object with table `given`, whose bytes stand at
offset `shift` of the object with table `table`. A symbol is found there by its name. -/
inductive AdoptedOutcome (table given : SymbolTable) (shift : UInt32) (record : Relocation) :
    Outcome → Prop
  | internal (hindex : record.symbolIndex? = none) :
      AdoptedOutcome table given shift record
        ⟨{ record with address := record.address + shift }, none⟩
  | external {index position : Nat} {entry : SymbolEntry} {symbol : Symbol} {outcome : Outcome}
      (hindex : record.symbolIndex? = some index) (hentry : given.entryAt? index = some entry)
      (hlocated : table.entryAt? position = some ⟨entry.name, symbol⟩)
      (hsettles : Settles symbol { record with
        address := record.address + shift
        index := UInt32.ofNat position } outcome) : AdoptedOutcome table given shift record outcome

theorem OwnOutcome.awaits {before after : SymbolTable} (hawaits : before.Awaits after)
    {record : Relocation} {outcome : Outcome} (hown : OwnOutcome before record outcome) :
    OwnOutcome after record outcome := by
  cases hown with
  | internal hindex => exact .internal hindex
  | external hindex hentry hsettles => exact .external hindex (hawaits.kept _ _ hentry) hsettles

@[simp] theorem address_settle (record : Relocation) (segment? : Option Segment) :
    (settle record segment?).address = record.address := by
  cases segment? <;> rfl

theorem Settles.standsAt {symbol : Symbol} {record : Relocation} {outcome : Outcome}
    (hsettles : Settles symbol record outcome) : outcome.StandsAt record.address := by
  cases hsettles with
  | awaited => exact ⟨rfl, fun _ hpatch ↦ by cases hpatch⟩
  | defined =>
    refine ⟨address_settle .., fun patch hpatch ↦ ?_⟩
    rw [← Option.some.inj hpatch]

/-- A record of the object itself stays at its placeholder. -/
theorem OwnOutcome.standsAt {table : SymbolTable} {record : Relocation} {outcome : Outcome}
    (hown : OwnOutcome table record outcome) : outcome.StandsAt record.address := by
  cases hown with
  | internal => exact ⟨rfl, fun _ hpatch ↦ by cases hpatch⟩
  | external _ _ hsettles => exact hsettles.standsAt

/-- A record of the other object moves with its placeholder. -/
theorem AdoptedOutcome.standsAt {table given : SymbolTable} {shift : UInt32} {record : Relocation}
    {outcome : Outcome} (hadopted : AdoptedOutcome table given shift record outcome) :
    outcome.StandsAt (record.address + shift) := by
  cases hadopted with
  | internal => exact ⟨rfl, fun _ hpatch ↦ by cases hpatch⟩
  | external _ _ _ hsettles => exact hsettles.standsAt

theorem AdoptedOutcome.awaits {before after given : SymbolTable} (hawaits : before.Awaits after)
    {shift : UInt32} {record : Relocation} {outcome : Outcome}
    (hadopted : AdoptedOutcome before given shift record outcome) :
    AdoptedOutcome after given shift record outcome := by
  cases hadopted with
  | internal hindex => exact .internal hindex
  | external hindex hentry hlocated hsettles =>
    exact .external hindex hentry (hawaits.kept _ _ hlocated) hsettles

/-- A record refers to a name of `other` whose address in `module` has more than 16 bits. -/
def Overreach (module other : Relocated) (record : Relocation) : Prop :=
  ∃ index entry meaning, record.symbolIndex? = some index ∧
    other.object.symbols.entryAt? index = some entry ∧
      module.meaning? entry.name = some meaning ∧ 0xFFFF < meaning.address.toNat

variable {module other : Relocated} {owner : StoredSegment}

/-! ### The records of the object that takes in another one -/

theorem resolveOwn_eq_ok (hrebased : module.rebased = true) {record : Relocation}
    {resolution? : Option Resolution} (hok : module.resolveOwn record = .ok resolution?) :
    OwnOutcome module.object.symbols record
      ⟨settle record (resolution?.bind (·.segment?)), resolution?.map (·.patch)⟩ := by
  unfold resolveOwn at hok
  split at hok
  · rename_i hindex
    obtain rfl := Except.ok.inj hok
    exact .internal hindex
  · rename_i index hindex
    split at hok
    · cases hok
    · rename_i entry hentry
      refine .external hindex hentry ?_
      split at hok
      · rename_i hdefined
        obtain ⟨patch, hpatch, hreturn⟩ := Fallible.bind_eq_ok_iff.mp hok
        obtain rfl := Fallible.pure_eq_ok_iff.mp hreturn
        obtain ⟨haddress, hword⟩ := Patch.ofAddress_eq_ok_iff.mp hpatch
        obtain ⟨place, word⟩ := patch
        obtain rfl : place = record.address := haddress
        rw [addressOf_of_rebased hrebased] at hword
        exact .defined hdefined hword
      · rename_i hawaited
        obtain rfl := Except.ok.inj hok
        exact .awaited (by simpa using hawaited)

theorem resolveOwn_eq_error (hrebased : module.rebased = true) {record : Relocation}
    {fault : LinkFault} (hfault : module.resolveOwn record = .error fault) :
    ∃ index, record.symbolIndex? = some index ∧
      (module.object.symbols.entryAt? index = none ∨
        ∃ entry, module.object.symbols.entryAt? index = some entry ∧ entry.symbol.isDefined ∧
          0xFFFF < entry.symbol.value.toNat) := by
  unfold resolveOwn at hfault
  split at hfault
  · cases hfault
  · rename_i index hindex
    refine ⟨index, hindex, ?_⟩
    split at hfault
    · rename_i hnone
      exact .inl hnone
    · rename_i entry hentry
      split at hfault
      · rename_i hdefined
        rcases Fallible.bind_eq_error_iff.mp hfault with hwide | ⟨patch, -, hpure⟩
        · have hwide := (Patch.ofAddress_eq_error hwide).2
          rw [addressOf_of_rebased hrebased] at hwide
          exact .inr ⟨entry, hentry, hdefined, hwide⟩
        · cases hpure
      · cases hfault

/-- The outcomes of records and what they resolve to. -/
def outcomesOf (items : List (Relocation × Option Resolution)) : List Outcome :=
  items.map fun item ↦ ⟨settle item.1 (item.2.bind (·.segment?)), item.2.map (·.patch)⟩

theorem forall₂_outcomesOf (hrebased : module.rebased = true) {records : List Relocation}
    {resolutions : List (Option Resolution)}
    (hresolved : List.Forall₂ (fun record resolution? ↦ module.resolveOwn record = .ok resolution?)
      records resolutions) :
    List.Forall₂ (OwnOutcome module.object.symbols) records
      (outcomesOf (records.zip resolutions)) := by
  induction hresolved with
  | nil => exact .nil
  | cons hfirst _ ih => exact .cons (resolveOwn_eq_ok hrebased hfirst) ih

theorem settleAll_of_settled {bytes : Array UInt8} {items : List (Relocation × Option Resolution)}
    (hall : ∀ item ∈ items, isSettled bytes item) :
    settleAll owner bytes items = .done (Outcome.contents bytes (outcomesOf items)) := by
  have htake : items.takeWhile (isSettled bytes) = items := List.takeWhile_eq_self_iff.mpr hall
  simp [settleAll, htake, Outcome.contents, Outcome.patches, outcomesOf, List.filterMap_map,
    Function.comp_def]

theorem settleAll_fault {bytes : Array UInt8} {items : List (Relocation × Option Resolution)}
    {fault : LinkFault} (hfault : (settleAll owner bytes items).fault? = some fault) :
    ∃ item ∈ items, isSettled bytes item = false := by
  by_cases hall : ∀ item ∈ items, isSettled bytes item
  · rw [settleAll_of_settled hall] at hfault
    cases hfault
  · simpa using hall

/-- Settling that goes through leaves no placeholder outside. -/
theorem isSettled_of_settleAll {bytes : Array UInt8} {items : List (Relocation × Option Resolution)}
    {contents : Section} (hdone : settleAll owner bytes items = .done contents) :
    ∀ item ∈ items, isSettled bytes item := by
  unfold settleAll at hdone
  dsimp only at hdone
  split at hdone
  · rename_i hleft
    have hlength := List.drop_eq_nil_iff.mp hleft
    have htake : items.takeWhile (isSettled bytes) = items :=
      (List.takeWhile_prefix _).eq_of_length_le hlength
    exact List.takeWhile_eq_self_iff.mp htake
  · cases hdone

theorem settleAll_eq_done {bytes : Array UInt8} {items : List (Relocation × Option Resolution)}
    {contents : Section} (hdone : settleAll owner bytes items = .done contents) :
    contents = Outcome.contents bytes (outcomesOf items) := by
  rw [settleAll_of_settled (isSettled_of_settleAll hdone)] at hdone
  exact (congrArg Progress.state hdone).symm

/-- A module after the records of one of its stored segments are settled. -/
structure SettledIn (owner : StoredSegment) (before after : Relocated) : Prop where
  symbols : after.object.symbols = before.object.symbols
  bssSize : after.object.bssSize = before.object.bssSize
  bases : after.bases = before.bases
  rebased : after.rebased = before.rebased
  others : ∀ other, other ≠ owner → after.object.contents other = before.object.contents other
  contents : ∃ outcomes, List.Forall₂ (OwnOutcome before.object.symbols)
      (before.object.contents owner).relocations.toList outcomes ∧
    after.object.contents owner =
      Outcome.contents (before.object.contents owner).bytes outcomes

theorem settleRecords_eq_done (hrebased : module.rebased = true) {after : Relocated}
    (hdone : module.settleRecords owner = .done after) : SettledIn owner module after := by
  unfold settleRecords at hdone
  dsimp only at hdone
  split at hdone
  · cases hdone
  · rename_i resolutions hresolutions
    obtain ⟨contents, hcontents, rfl⟩ := Progress.map_eq_done_iff.mp hdone
    obtain rfl := settleAll_eq_done hcontents
    exact ⟨Object.symbols_setContents .., Object.bssSize_setContents .., rfl, rfl,
      fun other hother ↦ Object.contents_setContents_of_ne _ hother _,
      _, forall₂_outcomesOf hrebased (Fallible.mapM_eq_ok_iff.mp hresolutions),
      Object.contents_setContents ..⟩

/-- With records that are in range, only a symbol whose address is too wide stops settling them. -/
theorem settleRecords_fault (hrebased : module.rebased = true) (hdistinct : module.NamesDistinct)
    (hinside : ∀ record ∈ (module.object.contents owner).relocations,
      record.address.toNat + 1 < (module.object.contents owner).bytes.size)
    (hknown : ∀ record ∈ (module.object.contents owner).relocations, ∀ index,
      record.symbolIndex? = some index → index < module.object.symbols.size)
    {fault : LinkFault} (hfault : (module.settleRecords owner).fault? = some fault) :
    ∃ record ∈ (module.object.contents owner).relocations, module.Overreach module record := by
  unfold settleRecords at hfault
  dsimp only at hfault
  split at hfault
  · rename_i found hfound
    obtain ⟨record, hrecord, herror⟩ := Fallible.exists_of_mapM_eq_error hfound
    rw [Array.mem_toList_iff] at hrecord
    obtain ⟨index, hindex, hnone | ⟨entry, hentry, hdefined, hwide⟩⟩ :=
      resolveOwn_eq_error hrebased herror
    · have hlt := hknown record hrecord index hindex
      have hle := SymbolTable.entryAt?_eq_none_iff.mp hnone
      omega
    · have hmeaning := meaning?_of_entryAt? hdistinct hentry
      rw [if_pos hdefined, addressOf_of_rebased hrebased] at hmeaning
      exact ⟨record, hrecord, index, entry, _, hindex, hentry, hmeaning, hwide⟩
  · rename_i resolutions hresolutions
    obtain ⟨⟨record, resolution?⟩, hitem, hunsettled⟩ := settleAll_fault hfault
    obtain ⟨hrecord, -⟩ := List.of_mem_zip hitem
    have hown := resolveOwn_eq_ok hrebased
      (List.forall₂_zip (Fallible.mapM_eq_ok_iff.mp hresolutions) hitem)
    cases resolution? with
    | none => cases hunsettled
    | some resolution =>
      have haddress := hown.standsAt.patch _ rfl
      have hrecord := hinside record (Array.mem_toList_iff.mp hrecord)
      simp only [isSettled, Option.all_some, haddress, Placeholder.isInside,
        decide_eq_false_iff_not] at hunsettled
      exact (hunsettled hrecord).elim

/-! ### The records of the other object -/

theorem await_spec (object : Object) (name : String) :
    object.symbols.Awaits (object.await name).2.symbols ∧
      (∃ symbol, (object.await name).2.symbols.entryAt? (object.await name).1 =
        some ⟨name, symbol⟩) ∧
      (object.await name).2 = { object with
        symbols := (object.await name).2.symbols, names := (object.await name).2.names } := by
  unfold Object.await
  split
  · rename_i position symbol hlocate
    exact ⟨.refl _, ⟨symbol, SymbolTable.entryAt?_of_locate? hlocate⟩, rfl⟩
  · rename_i hlocate
    exact ⟨.push hlocate rfl, ⟨_, (SymbolTable.entryAt?_push _ _ _).trans (if_pos rfl)⟩, rfl⟩

/-- What one more record does to what has been taken in so far. -/
structure Adopts (other : Relocated) (owner : StoredSegment) (shift : UInt32) (record : Relocation)
    (before after : Adoption) (outcome : Outcome) : Prop where
  same : SameContents before.module after.module
  awaits : before.module.object.symbols.Awaits after.module.object.symbols
  follows : AdoptedOutcome after.module.object.symbols other.object.symbols shift record outcome
  records : after.records = outcome.record :: before.records
  patches : after.patches = outcome.patch?.toList ++ before.patches
  inside : ∀ patch, outcome.patch? = some patch →
    patch.address.toNat + 1 < (before.module.object.contents owner).bytes.size

/-- The object at hand once a name is awaited. -/
def awaiting (module : Relocated) (name : String) : Relocated :=
  { module with object := (module.object.await name).2 }

theorem sameContents_awaiting (module : Relocated) (name : String) :
    SameContents module (module.awaiting name) := by
  have hobject := (await_spec module.object name).2.2
  rw [awaiting, hobject]
  exact .of_tables module _ _

theorem adopt_eq_done {shift : UInt32} {record : Relocation} {before after : Adoption}
    (hrebased : before.module.rebased = true)
    (hdone : adopt other owner shift before record = .done after) :
    ∃ outcome, Adopts other owner shift record before after outcome := by
  unfold adopt at hdone
  dsimp only at hdone
  split at hdone
  · rename_i hindex
    obtain rfl := congrArg Progress.state hdone
    exact ⟨⟨{ record with address := record.address + shift }, none⟩, .refl _, .refl _,
      .internal hindex, rfl, rfl, fun _ hpatch ↦ by cases hpatch⟩
  · rename_i index hindex
    split at hdone
    · cases hdone
    · rename_i entry hentry
      obtain ⟨hawaits, ⟨symbol, hlocated⟩, -⟩ := await_spec before.module.object entry.name
      have hsame := sameContents_awaiting before.module entry.name
      rw [hlocated, Option.filter_some] at hdone
      cases hdefined : symbol.isDefined with
      | false =>
        simp only [hdefined, Bool.false_eq_true, if_false] at hdone
        obtain rfl := congrArg Progress.state hdone
        exact ⟨_, hsame, hawaits, .external hindex hentry hlocated (.awaited hdefined), rfl, rfl,
          fun _ hpatch ↦ by cases hpatch⟩
      | true =>
        simp only [hdefined, if_true] at hdone
        split at hdone
        · cases hdone
        · rename_i patch hpatch
          obtain ⟨haddress, hword⟩ := Patch.ofAddress_eq_ok_iff.mp hpatch
          obtain ⟨place, word⟩ := patch
          obtain rfl : place = record.address + shift := haddress
          have hvalue := addressOf_of_rebased (hsame.rebased.trans hrebased) symbol
          split at hdone
          · rename_i hinside
            obtain rfl := congrArg Progress.state hdone
            refine ⟨_, hsame, hawaits,
              .external hindex hentry hlocated
                (.defined hdefined (hword.trans (congrArg UInt32.toNat hvalue))), rfl, rfl, ?_⟩
            intro patch hpatch
            rw [Placeholder.isInside_iff] at hinside
            obtain rfl := Option.some.inj hpatch
            rwa [← hsame.contents]
          · cases hdone

/-- All records of one segment of the other object, once they are taken in. -/
structure AdoptsAll (other : Relocated) (owner : StoredSegment) (shift : UInt32)
    (records : List Relocation) (before after : Adoption) (outcomes : List Outcome) : Prop where
  same : SameContents before.module after.module
  awaits : before.module.object.symbols.Awaits after.module.object.symbols
  follows : List.Forall₂
    (AdoptedOutcome after.module.object.symbols other.object.symbols shift) records outcomes
  records : after.records.reverse = before.records.reverse ++ outcomes.map (·.record)
  patches : after.patches.reverse = before.patches.reverse ++ Outcome.patches outcomes
  inside : ∀ patch ∈ Outcome.patches outcomes,
    patch.address.toNat + 1 < (before.module.object.contents owner).bytes.size

theorem each_adopt_eq_done {shift : UInt32} {records : List Relocation} {before after : Adoption}
    (hrebased : before.module.rebased = true)
    (hdone : Progress.each (adopt other owner shift) before records = .done after) :
    ∃ outcomes, AdoptsAll other owner shift records before after outcomes := by
  induction records generalizing before with
  | nil =>
    obtain rfl : before = after := congrArg Progress.state hdone
    exact ⟨[], .refl _, .refl _, .nil, by simp, by simp [Outcome.patches],
      by simp [Outcome.patches]⟩
  | cons record rest ih =>
    obtain ⟨reached, hstep, hrest⟩ := Progress.each_cons_eq_done_iff.mp hdone
    obtain ⟨outcome, hadopts⟩ := adopt_eq_done hrebased hstep
    obtain ⟨outcomes, hall⟩ := ih (hadopts.same.rebased.trans hrebased) hrest
    refine ⟨outcome :: outcomes, hadopts.same.trans hall.same, hadopts.awaits.trans hall.awaits,
      .cons (hadopts.follows.awaits hall.awaits) hall.follows, ?_, ?_, ?_⟩
    · rw [hall.records, hadopts.records]
      simp
    · rw [hall.patches, hadopts.patches, Outcome.patches_cons]
      cases outcome.patch? <;> simp
    · intro patch hpatch
      rw [Outcome.patches_cons, List.mem_append, Option.mem_toList] at hpatch
      rcases hpatch with hfirst | hlater
      · exact hadopts.inside patch hfirst
      · have hinside := hall.inside patch hlater
        rwa [hadopts.same.contents] at hinside

/-- A module after it has taken in the records of one stored segment of another one. -/
structure AdoptedIn (owner : StoredSegment) (other : Relocated) (shift : UInt32)
    (before after : Relocated) : Prop where
  awaits : before.object.symbols.Awaits after.object.symbols
  bssSize : after.object.bssSize = before.object.bssSize
  bases : after.bases = before.bases
  rebased : after.rebased = before.rebased
  others : ∀ segment, segment ≠ owner →
    after.object.contents segment = before.object.contents segment
  contents : ∃ outcomes,
    List.Forall₂ (AdoptedOutcome after.object.symbols other.object.symbols shift)
      (other.object.contents owner).relocations.toList outcomes ∧
    (∀ patch ∈ Outcome.patches outcomes,
      patch.address.toNat + 1 < (before.object.contents owner).bytes.size) ∧
    after.object.contents owner =
      ⟨(Outcome.patches outcomes).foldl Patch.write (before.object.contents owner).bytes,
        (before.object.contents owner).relocations ++ outcomes.map (·.record)⟩

theorem adoptAll_eq_done {shift : UInt32} (hrebased : module.rebased = true) {after : Relocated}
    (hdone : module.adoptAll other owner shift = .done after) :
    AdoptedIn owner other shift module after := by
  obtain ⟨adoption, hadoption, rfl⟩ := Progress.map_eq_done_iff.mp hdone
  obtain ⟨outcomes, hall⟩ := each_adopt_eq_done
    (show (Adoption.start module).module.rebased = true from hrebased) hadoption
  have hsymbols : (adoption.finish owner).object.symbols = adoption.module.object.symbols := by
    rw [Adoption.finish, Object.modifyContents_eq, Object.symbols_setContents]
  refine ⟨by rw [hsymbols]; exact hall.awaits, ?_, hall.same.bases, hall.same.rebased, ?_,
    outcomes, by rw [hsymbols]; exact hall.follows, hall.inside, ?_⟩
  · rw [Adoption.finish, Object.modifyContents_eq, Object.bssSize_setContents, hall.same.bssSize]
    rfl
  · intro segment hsegment
    rw [Adoption.finish, Object.modifyContents_eq, Object.contents_setContents_of_ne _ hsegment,
      hall.same.contents]
    rfl
  · rw [Adoption.finish, Object.modifyContents_eq, Object.contents_setContents, hall.records,
      hall.patches, hall.same.contents]
    rfl

/-- A module to which only awaited names came means what it meant. -/
theorem meaning?_of_awaits {before after : Relocated}
    (hawaits : before.object.symbols.Awaits after.object.symbols)
    (hbases : after.bases = before.bases) (hrebased : after.rebased = before.rebased)
    (hdistinct : before.NamesDistinct) (name : String) :
    after.meaning? name = before.meaning? name := by
  unfold meaning? addressOf
  rw [hawaits.definition?_eq hdistinct, hrebased, hbases]

theorem adopt_fault {shift : UInt32} {record : Relocation} {before : Adoption}
    (hdistinct : before.module.NamesDistinct)
    (hinside : (record.address + shift).toNat + 1 <
      (before.module.object.contents owner).bytes.size)
    (hknown : ∀ index, record.symbolIndex? = some index → index < other.object.symbols.size)
    {fault : LinkFault} (hfault : (adopt other owner shift before record).fault? = some fault) :
    before.module.Overreach other record := by
  unfold adopt at hfault
  dsimp only at hfault
  split at hfault
  · cases hfault
  · rename_i index hindex
    split at hfault
    · rename_i hnone
      have hlt := hknown index hindex
      have hle := SymbolTable.entryAt?_eq_none_iff.mp hnone
      omega
    · rename_i entry hentry
      obtain ⟨hawaits, ⟨symbol, hlocated⟩, -⟩ := await_spec before.module.object entry.name
      have hsame := sameContents_awaiting before.module entry.name
      rw [hlocated, Option.filter_some] at hfault
      cases hdefined : symbol.isDefined with
      | false =>
        simp only [hdefined, Bool.false_eq_true, if_false] at hfault
        cases hfault
      | true =>
        simp only [hdefined, if_true] at hfault
        split at hfault
        · rename_i found hfound
          have hafter : (before.module.awaiting entry.name).NamesDistinct :=
            hawaits.distinct hdistinct
          have hmeaning := meaning?_of_entryAt? hafter hlocated
          rw [if_pos hdefined,
            meaning?_of_awaits hawaits hsame.bases hsame.rebased hdistinct] at hmeaning
          exact ⟨index, entry, _, hindex, hentry, hmeaning, (Patch.ofAddress_eq_error hfound).2⟩
        · rename_i patch hpatch
          split at hfault
          · cases hfault
          · rename_i houtside
            rw [Placeholder.isInside_iff, (Patch.ofAddress_eq_ok_iff.mp hpatch).1] at houtside
            refine (houtside ?_).elim
            rwa [← hsame.contents owner] at hinside

theorem each_adopt_fault {shift : UInt32} {records : List Relocation} {before : Adoption}
    (hrebased : before.module.rebased = true) (hdistinct : before.module.NamesDistinct)
    (hinside : ∀ record ∈ records,
      (record.address + shift).toNat + 1 < (before.module.object.contents owner).bytes.size)
    (hknown : ∀ record ∈ records, ∀ index,
      record.symbolIndex? = some index → index < other.object.symbols.size)
    {fault : LinkFault}
    (hfault : (Progress.each (adopt other owner shift) before records).fault? = some fault) :
    ∃ record ∈ records, before.module.Overreach other record := by
  induction records generalizing before with
  | nil => cases hfault
  | cons record rest ih =>
    rw [List.forall_mem_cons] at hinside hknown
    rcases Progress.fault?_each_cons_eq_some_iff.mp hfault with hfirst | ⟨reached, hstep, hrest⟩
    · exact ⟨record, List.mem_cons_self, adopt_fault hdistinct hinside.1 hknown.1 hfirst⟩
    · obtain ⟨outcome, hadopts⟩ := adopt_eq_done hrebased hstep
      have hreached : ∀ record ∈ rest, (record.address + shift).toNat + 1 <
          (reached.module.object.contents owner).bytes.size := by
        rw [hadopts.same.contents]
        exact hinside.2
      obtain ⟨record, hrecord, index, entry, meaning, hindex, hentry, hmeaning, hwide⟩ :=
        ih (hadopts.same.rebased.trans hrebased) (hadopts.awaits.distinct hdistinct) hreached
          hknown.2 hrest
      rw [meaning?_of_awaits hadopts.awaits hadopts.same.bases hadopts.same.rebased hdistinct]
        at hmeaning
      exact ⟨record, List.mem_cons_of_mem _ hrecord, index, entry, meaning, hindex, hentry,
        hmeaning, hwide⟩

/-- With records that are in range, only a symbol whose address is too wide stops taking them in. -/
theorem adoptAll_fault {shift : UInt32} (hrebased : module.rebased = true)
    (hdistinct : module.NamesDistinct)
    (hinside : ∀ record ∈ (other.object.contents owner).relocations,
      (record.address + shift).toNat + 1 < (module.object.contents owner).bytes.size)
    (hknown : ∀ record ∈ (other.object.contents owner).relocations, ∀ index,
      record.symbolIndex? = some index → index < other.object.symbols.size)
    {fault : LinkFault} (hfault : (module.adoptAll other owner shift).fault? = some fault) :
    ∃ record ∈ (other.object.contents owner).relocations, module.Overreach other record := by
  simp only [← Array.mem_toList_iff] at hinside hknown ⊢
  have hstart : (Adoption.start module).module.rebased = true := hrebased
  exact each_adopt_fault hstart hdistinct hinside hknown hfault

end Relocated

end Aout
