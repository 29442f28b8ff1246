import Aout.Proofs.Object.Editing
import Aout.Proofs.Object.File
/-!
Objects that a file can hold once they are small enough. Offsets into the name table and positions
in the symbol table are cut to the width of their fields, so an object that has grown too large is
not written as it is. `Object.Sound` is what holds at any size: every name would be spelled at its
offset and every index would fit. It is kept by every operation that builds or strips an object
(`Object.Sound.edit`), and a small object that has it is one that a file can hold as it is
(`Object.Sound.writable`).
-/

set_option autoImplicit false
set_option relaxedAutoImplicit false

namespace Aout

/-- The fields of the record fit into a file that has room for a number of symbols. Only the index
of an external record may grow with the symbol table. -/
structure Relocation.Bounded (record : Relocation) (symbols : Nat) : Prop where
  index : record.index.toNat < max indexLimit symbols
  internal : record.external = false → record.index.toNat < indexLimit
  length : record.length.toNat < 4
  spare : record.spare.toNat < 16

namespace Relocation

variable {record : Relocation} {symbols more : Nat}

theorem Storable.bounded (hstorable : record.Storable) (symbols : Nat) :
    record.Bounded symbols where
  index := Nat.lt_of_lt_of_le hstorable.index (Nat.le_max_left _ _)
  internal := fun _ ↦ hstorable.index
  length := hstorable.length
  spare := hstorable.spare

namespace Bounded

theorem storable (hbounded : record.Bounded symbols) (hsymbols : symbols ≤ indexLimit) :
    record.Storable where
  index := Nat.max_eq_left hsymbols ▸ hbounded.index
  length := hbounded.length
  spare := hbounded.spare

theorem storable_of_internal (hbounded : record.Bounded symbols)
    (hinternal : record.external = false) : record.Storable where
  index := hbounded.internal hinternal
  length := hbounded.length
  spare := hbounded.spare

theorem mono (hbounded : record.Bounded symbols) (hmore : symbols ≤ more) :
    record.Bounded more where
  index := Nat.lt_of_lt_of_le hbounded.index (by omega)
  internal := hbounded.internal
  length := hbounded.length
  spare := hbounded.spare

end Bounded

end Relocation

namespace Object

/-- A file can hold the object as it is once it is small enough. -/
structure Sound (object : Object) : Prop where
  magic : object.magic = Header.objectMagic
  free : ∀ spelling ∈ object.symbols.spellings, 0 ∉ Utf8.encode spelling.1
  spelled : object.names.bytes.size < UInt32.size →
    ∀ spelling ∈ object.symbols.spellings, object.names.Spells spelling.2 spelling.1
  bounded : ∀ owner, ∀ record ∈ (object.contents owner).relocations,
    record.Bounded object.symbols.size

/-- A file can hold what the operation adds: names without a zero byte, and records that fit. -/
def Edit.Storable : Edit → Prop
  | .addSymbol name _ | .await name => 0 ∉ Utf8.encode name
  | .addRelocation _ record => record.Storable
  | _ => True

variable {object other : Object} {name : String}

theorem size_symbols_eq (hspellings : other.symbols.spellings = object.symbols.spellings) :
    other.symbols.size = object.symbols.size := by
  have hlength := congrArg List.length hspellings
  simpa [SymbolTable.spellings, SymbolTable.size] using hlength

theorem sound_empty : Sound .empty where
  magic := rfl
  free := List.forall_mem_nil _
  spelled := fun _ ↦ List.forall_mem_nil _
  bounded := by
    rintro (_ | _) record hrecord
    · exact absurd hrecord (Array.not_mem_empty _)
    · exact absurd hrecord (Array.not_mem_empty _)

namespace Sound

/-- Only the magic number, names, their places and the records count. -/
theorem congr (hsound : object.Sound) (hmagic : other.magic = object.magic)
    (hnames : other.names = object.names)
    (hspellings : other.symbols.spellings = object.symbols.spellings)
    (hrecords : ∀ owner,
      (other.contents owner).relocations = (object.contents owner).relocations) :
    other.Sound where
  magic := hmagic.trans hsound.magic
  free := hspellings ▸ hsound.free
  spelled := by
    rw [hnames, hspellings]
    exact hsound.spelled
  bounded := fun owner record hrecord ↦ by
    rw [size_symbols_eq hspellings]
    exact hsound.bounded owner record (hrecords owner ▸ hrecord)

theorem setContents (hsound : object.Sound) (owner : StoredSegment) {contents : Section}
    (hbounded : ∀ record ∈ contents.relocations, record.Bounded object.symbols.size) :
    (object.setContents owner contents).Sound := by
  have hothers (other : StoredSegment) :
      ∀ record ∈ ((object.setContents owner contents).contents other).relocations,
        record.Bounded object.symbols.size := by
    by_cases hother : other = owner
    · rw [hother, contents_setContents]
      exact hbounded
    · rw [contents_setContents_of_ne object hother]
      exact hsound.bounded other
  cases owner with
  | text => exact ⟨hsound.magic, hsound.free, hsound.spelled, hothers⟩
  | data => exact ⟨hsound.magic, hsound.free, hsound.spelled, hothers⟩

theorem setBytes (hsound : object.Sound) (owner : StoredSegment) (bytes : Array UInt8) :
    (object.setContents owner { object.contents owner with bytes }).Sound :=
  hsound.setContents owner (hsound.bounded owner)

theorem addName (hsound : object.Sound) (name : String) : (object.addName name).2.Sound where
  magic := hsound.magic
  free := hsound.free
  spelled := fun hsize spelling hspelling ↦
    have hformer := Nat.lt_trans (NameTable.size_lt_size_add object.names name) hsize
    (hsound.spelled hformer spelling hspelling).add name
  bounded := hsound.bounded

theorem enter (hsound : object.Sound) (hfree : 0 ∉ Utf8.encode name) (symbol : Symbol) :
    (object.enter name symbol).2.Sound where
  magic := hsound.magic
  free := by
    simp only [Object.enter, SymbolTable.spellings_push, List.forall_mem_append,
      List.forall_mem_singleton]
    exact ⟨hsound.free, hfree⟩
  spelled := fun hsize ↦ by
    -- The table was smaller still when the offset was handed out, so the offset did not wrap.
    have hformer := Nat.lt_trans (NameTable.size_lt_size_add object.names name) hsize
    simp only [Object.enter, SymbolTable.spellings_push, List.forall_mem_append,
      List.forall_mem_singleton]
    exact ⟨(hsound.addName name).spelled hsize, NameTable.spells_nextOffset hfree hformer⟩
  bounded := fun owner record hrecord ↦
    (hsound.bounded owner record hrecord).mono (by simp [Object.enter, SymbolTable.size])

theorem addSymbol (hsound : object.Sound) (hfree : 0 ∉ Utf8.encode name) (symbol : Symbol) :
    (object.addSymbol name symbol).2.Sound :=
  addSymbol_preserves Sound hsound (fun _ ↦ hsound.enter hfree symbol) fun _ _ _ _ ↦
    hsound.congr rfl rfl (SymbolTable.spellings_redefine ..) fun _ ↦ rfl

theorem await (hsound : object.Sound) (hfree : 0 ∉ Utf8.encode name) :
    (object.await name).2.Sound := by
  unfold Object.await
  split
  · exact hsound
  · exact hsound.enter hfree _

theorem addRelocation (hsound : object.Sound) (owner : StoredSegment) {record : Relocation}
    (hstorable : record.Storable) : (object.addRelocation owner record).Sound := by
  rw [Object.addRelocation, modifyContents_eq]
  refine hsound.setContents owner fun found hfound ↦ ?_
  rcases Array.mem_push.mp hfound with hformer | rfl
  · exact hsound.bounded owner found hformer
  · exact hstorable.bounded _

theorem stripRelocations (hsound : object.Sound) : object.stripRelocations.Sound where
  magic := hsound.magic
  free := hsound.free
  spelled := hsound.spelled
  bounded := by
    rintro (_ | _) record hrecord
    · exact absurd hrecord (Array.not_mem_empty _)
    · exact absurd hrecord (Array.not_mem_empty _)

theorem stripSymbols (hsound : object.Sound) : object.stripSymbols.state.Sound := by
  rcases stripSymbols_cases object with ⟨hinternal, hstrip⟩ | ⟨fault, hstrip⟩
  · rw [hstrip]
    refine ⟨hsound.magic, List.forall_mem_nil _, fun _ ↦ List.forall_mem_nil _,
      fun owner record hrecord ↦ ?_⟩
    have hrecord : record ∈ (object.contents owner).relocations := by cases owner <;> exact hrecord
    have hbounded := hsound.bounded owner record hrecord
    exact (hbounded.storable_of_internal (hinternal owner record hrecord)).bounded _
  · rw [hstrip]
    exact hsound

theorem edit (hsound : object.Sound) {edit : Edit} (hstorable : edit.Storable) :
    (edit.run object).Sound := by
  cases edit with
  | appendBytes owner bytes => exact hsound.setBytes owner _
  | appendWord owner word => exact hsound.setBytes owner _
  | reserve size => exact hsound.congr rfl rfl rfl fun _ ↦ rfl
  | addName name => exact hsound.addName name
  | addSymbol name symbol => exact hsound.addSymbol hstorable symbol
  | await name => exact hsound.await hstorable
  | addRelocation owner record => exact hsound.addRelocation owner hstorable
  | setEntryPoint entry => exact hsound.congr rfl rfl rfl fun _ ↦ rfl
  | stripSymbols => exact hsound.stripSymbols
  | stripRelocations => exact hsound.stripRelocations

end Sound

/-! ### Saving -/

theorem Writable.sound (hwritable : object.Writable) : object.Sound where
  magic := hwritable.magic
  free := fun spelling hspelling ↦ (hwritable.names spelling hspelling).1
  spelled := fun _ ↦ hwritable.names
  bounded := fun owner record hrecord ↦ (hwritable.records owner record hrecord).bounded _

/-- The object is small enough for a file. -/
structure Small (object : Object) : Prop where
  amounts : ∀ count, object.amount count < Header.countLimit
  symbols : object.symbols.size < Relocation.indexLimit
  names : object.names.bytes.size < UInt32.size

instance (object : Object) : Decidable object.Small :=
  decidable_of_iff ((∀ count ∈ HeaderCount.all, object.amount count < Header.countLimit) ∧
      object.symbols.size < Relocation.indexLimit ∧ object.names.bytes.size < UInt32.size)
    ⟨fun ⟨hamounts, hrest⟩ ↦ ⟨fun count ↦ hamounts count count.mem_all, hrest.1, hrest.2⟩,
      fun hsmall ↦ ⟨fun count _ ↦ hsmall.amounts count, hsmall.symbols, hsmall.names⟩⟩

theorem Sound.writable (hsound : object.Sound) (hsmall : object.Small) : object.Writable where
  magic := hsound.magic
  amounts := hsmall.amounts
  records := fun owner record hrecord ↦
    (hsound.bounded owner record hrecord).storable (Nat.le_of_lt hsmall.symbols)
  names := hsound.spelled hsmall.names

end Object

end Aout
