import Aout.Proofs.Linking.Faults
import Aout.Proofs.Linking.View
/-!
Concatenation as it appears without symbol tables. The view of an object (`Relocated.view`) has
names where its records have positions. An outcome of a record is what its reference resolves to
(`OwnOutcome.resolves`, `AdoptedOutcome.resolves`), and a name without a definition is of the kind
that it has in the first object, or awaited where the second one refers to it
(`Relocated.kind?_concat`). So the view of what a concatenation makes of two objects is the joint of
their views (`Compatible.view_concat`), and whether there is a fault shows in the views as well
(`Compatible.exists_concat_iff`).
-/

set_option autoImplicit false
set_option relaxedAutoImplicit false

namespace Aout

/-! ### Objects as views -/

/-- What the placeholder of a record stands for, by the table of the object. -/
def Relocation.target (table : SymbolTable) (record : Relocation) : Target :=
  match record.symbolIndex? with
  | none => .tagged record.index
  | some index => .named ((table.entryAt? index).map (·.name))

/-- The record with a name where it has a position in the table of the object. -/
def Relocation.reference (table : SymbolTable) (record : Relocation) : Reference :=
  ⟨record.address.toNat, record.pcRelative, record.length, record.spare, record.target table⟩

def Section.fragment (table : SymbolTable) (contents : Section) : Fragment :=
  ⟨contents.bytes, contents.relocations.toList.map (·.reference table)⟩

/-- The object without its symbol table: names stand where records have positions. -/
def Relocated.view (module : Relocated) : View where
  bssSize := module.object.bssSize.toNat
  contents := fun owner ↦ (module.object.contents owner).fragment module.object.symbols
  kind? := fun name ↦ (module.object.symbols.find? name).map (·.kind)
  meaning? := module.meaning?

@[simp] theorem Relocated.contents_view (module : Relocated) (owner : StoredSegment) :
    module.view.contents owner =
      (module.object.contents owner).fragment module.object.symbols := rfl

theorem Relocated.kind?_view (module : Relocated) (name : String) :
    module.view.kind? name = (module.object.symbols.find? name).map (·.kind) := rfl

namespace Relocation

variable {table other : SymbolTable} {record : Relocation} {index : Nat}

theorem target_of_internal (hindex : record.symbolIndex? = none) :
    record.target table = .tagged record.index := by
  rw [target, hindex]

theorem target_of_external (hindex : record.symbolIndex? = some index) :
    record.target table = .named ((table.entryAt? index).map (·.name)) := by
  rw [target, hindex]

theorem name?_reference (table : SymbolTable) (record : Relocation) :
    (record.reference table).name? =
      record.symbolIndex?.bind fun index ↦ (table.entryAt? index).map (·.name) := by
  rw [reference, Reference.name?]
  cases hindex : record.symbolIndex? with
  | none => rw [target_of_internal hindex]; rfl
  | some index => rw [target_of_external hindex]; rfl

theorem reference_settle (table : SymbolTable) (record : Relocation) (segment? : Option Segment) :
    (Relocated.settle record segment?).reference table =
      (record.reference table).settled segment? := by
  cases segment? <;> rfl

/-- Only the names in a table count. -/
theorem reference_congr (hnames : ∀ index, record.symbolIndex? = some index →
    (table.entryAt? index).map (·.name) = (other.entryAt? index).map (·.name)) :
    record.reference table = record.reference other := by
  rw [reference, reference, target, target]
  cases hindex : record.symbolIndex? with
  | none => rfl
  | some index => simp only [hnames index hindex]

end Relocation

theorem Relocated.refersTo_view_iff {module : Relocated} {name : String} :
    module.view.refersTo name ↔ module.object.RefersTo name := by
  rw [View.refersTo_iff]
  refine exists_congr fun owner ↦ ?_
  simp only [Relocated.view, Fragment.refersTo_iff, Section.fragment, List.mem_map,
    Array.mem_toList_iff, exists_exists_and_eq_and, Relocation.name?_reference,
    Option.bind_eq_some_iff, Option.map_eq_some_iff]
  refine exists_congr fun record ↦ and_congr_right fun _ ↦ exists_congr fun index ↦ ?_
  constructor
  · rintro ⟨hindex, ⟨_, symbol⟩, hentry, rfl⟩
    exact ⟨symbol, hindex, hentry⟩
  · rintro ⟨symbol, hindex, hentry⟩
    exact ⟨hindex, _, hentry, rfl⟩

/-! ### Records -/

/-- What became of a record is what its reference resolves to. -/
structure Outcome.Resolves (table : SymbolTable) (meanings : String → Option Meaning)
    (reference : Reference) (outcome : Outcome) : Prop where
  record : outcome.record.reference table = reference.resolve meanings
  slot : outcome.patch?.map Patch.slot = reference.slot? meanings

namespace Outcome

variable {table : SymbolTable} {meanings : String → Option Meaning} {references : List Reference}
  {outcomes : List Outcome}

theorem resolves_internal {record : Relocation} (hindex : record.symbolIndex? = none) :
    Resolves table meanings (record.reference table) ⟨record, none⟩ := by
  have hnone : (record.reference table).name? = none := by
    rw [Relocation.name?_reference, hindex]
    rfl
  exact ⟨(Reference.resolve_of_name?_eq_none hnone).symm,
    (Reference.slot?_of_name?_eq_none hnone).symm⟩

theorem map_reference (hresolves : List.Forall₂ (Resolves table meanings) references outcomes) :
    outcomes.map (·.record.reference table) = references.map (·.resolve meanings) := by
  induction hresolves with
  | nil => rfl
  | cons hfirst _ ih => rw [List.map_cons, List.map_cons, hfirst.record, ih]

theorem map_slot (hresolves : List.Forall₂ (Resolves table meanings) references outcomes) :
    (patches outcomes).map Patch.slot = references.filterMap (·.slot? meanings) := by
  rw [patches, List.map_filterMap]
  induction hresolves with
  | nil => rfl
  | cons hfirst _ ih => rw [List.filterMap_cons, List.filterMap_cons, hfirst.slot, ih]

/-- The section after all outcomes shows the resolved fragment. -/
theorem fragment_contents (hresolves : List.Forall₂ (Resolves table meanings) references outcomes)
    (bytes : Array UInt8) :
    (contents bytes outcomes).fragment table = Fragment.resolve meanings ⟨bytes, references⟩ := by
  rw [Section.fragment, contents, Patch.foldl_write, map_slot hresolves, List.map_map]
  exact congrArg (Fragment.mk _) (map_reference hresolves)

end Outcome

namespace Relocated

variable {first second joined module other : Relocated} {table given : SymbolTable}
  {meanings : String → Option Meaning} {record : Relocation} {outcome : Outcome} {name : String}

/-- A record that refers to an entry follows what the name of the entry means. -/
theorem Settles.resolves {index : Nat} {symbol : Symbol} (hindex : record.symbolIndex? = some index)
    (hentry : table.entryAt? index = some ⟨name, symbol⟩)
    (hmeaning : meanings name =
      if symbol.isDefined then some ⟨symbol.kind, symbol.value⟩ else none)
    (hsettles : Settles symbol record outcome) :
    outcome.Resolves table meanings (record.reference table) := by
  have hname : (record.reference table).name? = some name := by
    rw [Relocation.name?_reference, hindex, Option.bind_some, hentry]
    rfl
  have hfound : (record.reference table).meaning? meanings = meanings name := by
    rw [Reference.meaning?, hname, Option.bind_some]
  cases hsettles with
  | awaited hawaited =>
    rw [hawaited, if_neg Bool.false_ne_true] at hmeaning
    refine ⟨(Reference.resolve_of_unknown hname hmeaning).symm, ?_⟩
    rw [Reference.slot?, hfound, hmeaning]
    rfl
  | @defined hdefined word hword =>
    rw [if_pos hdefined] at hmeaning
    have hnarrow : word = symbol.value.toUInt16 := by
      have hlt := word.toNat_lt
      rw [← UInt16.toNat_inj, UInt32.toNat_toUInt16, ← hword]
      omega
    refine ⟨?_, ?_⟩
    · rw [Relocation.reference_settle, Reference.resolve, hfound, hmeaning]
      rfl
    · rw [Reference.slot?, hfound, hmeaning, hnarrow]
      rfl

/-- The entries of a table tell what names mean. -/
def Tells (table : SymbolTable) (meanings : String → Option Meaning) : Prop :=
  ∀ position name symbol, table.entryAt? position = some ⟨name, symbol⟩ →
    meanings name = if symbol.isDefined then some ⟨symbol.kind, symbol.value⟩ else none

/-- The address that was written for a record has 16 bits. -/
theorem Settles.narrow {symbol : Symbol} (hsettles : Settles symbol record outcome)
    {meaning : Meaning} (hmeaning :
      (if symbol.isDefined then some ⟨symbol.kind, symbol.value⟩ else none) = some meaning) :
    meaning.address.toNat ≤ 0xFFFF := by
  cases hsettles with
  | awaited hawaited =>
    rw [hawaited, if_neg Bool.false_ne_true] at hmeaning
    cases hmeaning
  | @defined hdefined word hword =>
    rw [if_pos hdefined] at hmeaning
    rw [← Option.some.inj hmeaning, ← hword]
    exact Nat.le_of_lt_succ word.toNat_lt

theorem OwnOutcome.resolves (htells : Tells table meanings)
    (hown : OwnOutcome table record outcome) :
    outcome.Resolves table meanings (record.reference table) := by
  cases hown with
  | internal hindex => exact Outcome.resolves_internal hindex
  | @external index entry _ hindex hentry hsettles =>
    exact hsettles.resolves hindex hentry (htells index entry.name entry.symbol hentry)

theorem AdoptedOutcome.resolves (htells : Tells table meanings) (hsize : table.size ≤ UInt32.size)
    {shift : UInt32} {size : Nat}
    (hmoved : (record.address + shift).toNat = size + record.address.toNat)
    (hadopted : AdoptedOutcome table given shift record outcome) :
    outcome.Resolves table meanings ((record.reference given).moved size) := by
  cases hadopted with
  | internal hindex =>
    have hkept : Relocation.symbolIndex? { record with address := record.address + shift } = none :=
      hindex
    have hsame : Relocation.reference table { record with address := record.address + shift } =
        (record.reference given).moved size := by
      rw [Relocation.reference, Relocation.reference, Relocation.target_of_internal hkept,
        Relocation.target_of_internal hindex, Reference.moved, hmoved]
    rw [← hsame]
    exact Outcome.resolves_internal hkept
  | @external index position entry symbol _ hindex hentry hlocated hsettles =>
    have hexternal := (Relocation.symbolIndex?_eq_some_iff.mp hindex).1
    -- The position fits its field, so the record refers to the entry that was found by name.
    have hposition : (UInt32.ofNat position).toNat = position := UInt32.toNat_ofNat_of_lt'
      (Nat.lt_of_lt_of_le (SymbolTable.lt_size_of_entryAt? hlocated) hsize)
    have hpointed : Relocation.symbolIndex? { record with
        address := record.address + shift
        index := UInt32.ofNat position } = some position :=
      Relocation.symbolIndex?_eq_some_iff.mpr ⟨hexternal, hposition⟩
    have hsame : Relocation.reference table { record with
        address := record.address + shift
        index := UInt32.ofNat position } = (record.reference given).moved size := by
      rw [Relocation.reference, Relocation.reference, Relocation.target_of_external hpointed,
        Relocation.target_of_external hindex, Reference.moved, hmoved, hlocated, hentry]
      rfl
    rw [← hsame]
    exact hsettles.resolves hpointed hlocated (htells position entry.name symbol hlocated)

/-! ### One object that takes in another one -/

theorem Informed.tells (hinformed : Informed first second joined) (hfirst : first.NamesDistinct) :
    Tells joined.object.symbols (first.view.known second.view) := by
  intro position name symbol hentry
  have hmeaning := meaning?_of_entryAt? (hinformed.distinct hfirst) hentry
  rw [hinformed.meaning, addressOf_of_rebased hinformed.rebased] at hmeaning
  exact hmeaning

/-- The records of the first object give the same names in the joint table. -/
theorem Informed.reference_eq (hinformed : Informed first second joined)
    (hvalid : first.object.Valid) {owner : StoredSegment}
    (hrecord : record ∈ (first.object.contents owner).relocations) :
    record.reference joined.object.symbols = record.reference first.object.symbols := by
  refine Relocation.reference_congr fun index hindex ↦ ?_
  have hknown := (hvalid owner record hrecord).lt_of_symbolIndex? hindex
  obtain ⟨former, hformer⟩ : ∃ former, first.object.symbols.entryAt? index = some former :=
    ⟨_, Array.getElem?_eq_getElem hknown⟩
  obtain ⟨symbol, hlater⟩ := exists_entryAt?_of_grows hinformed.grows hformer
  rw [hlater, hformer]
  rfl

/-- The segments of two objects, seen in one that has taken in both. -/
theorem Joined.fragment_eq (hjoined : Joined first second joined) (hfirst : first.NamesDistinct)
    (hfirstValid : first.object.Valid) (hsecondValid : second.object.Valid)
    (hsymbols : joined.object.symbols.size ≤ UInt32.size) {owner : StoredSegment}
    (hbytes : (first.object.contents owner).bytes.size +
      (second.object.contents owner).bytes.size ≤ UInt32.size) :
    joined.view.contents owner = (first.view.join second.view).contents owner := by
  have htells := hjoined.tells hfirst
  obtain ⟨own, adopted, hown, hadopted, -, hcontents⟩ := hjoined.contents owner
  have hfront : List.Forall₂
      (Outcome.Resolves joined.object.symbols (first.view.known second.view))
      (first.view.contents owner).references own := by
    refine List.forall₂_map_left_iff.mpr (List.Forall₂.imp ?_
      ((List.forall₂_and_left _ _).mpr ⟨fun _ hrecord ↦ hrecord, hown⟩))
    rintro record outcome ⟨hrecord, hown⟩
    rw [← hjoined.reference_eq hfirstValid (Array.mem_toList_iff.mp hrecord)]
    exact hown.resolves htells
  have hback : List.Forall₂
      (Outcome.Resolves joined.object.symbols (first.view.known second.view))
      ((second.view.contents owner).references.map
        (.moved (first.view.contents owner).bytes.size)) adopted := by
    refine List.forall₂_map_left_iff.mpr (List.forall₂_map_left_iff.mpr (List.Forall₂.imp ?_
      ((List.forall₂_and_left _ _).mpr ⟨fun _ hrecord ↦ hrecord, hadopted⟩)))
    rintro record outcome ⟨hrecord, hadopted⟩
    have hinside := (hsecondValid owner record (Array.mem_toList_iff.mp hrecord)).inside
    exact hadopted.resolves htells hsymbols (toNat_moved hinside hbytes)
  rw [View.contents_join, contents_view, hcontents,
    Outcome.fragment_contents (List.rel_append hfront hback)]
  rfl

/-! ### Kinds -/

theorem completes_mergeEntry {before : SymbolTable}
    (hcompletes : before.Completes module.object.symbols) (entry : SymbolEntry) :
    before.Completes (mergeEntry other module entry).state.object.symbols := by
  unfold mergeEntry
  dsimp only
  split
  · exact hcompletes
  · rename_i hdefined
    have hdefined : entry.symbol.isDefined := by simpa using hdefined
    split
    · exact hcompletes.push hdefined
    · rename_i position known hlocate
      split
      · exact hcompletes.redefine (SymbolTable.entryAt?_of_locate? hlocate)
          (by simpa [Symbol.isDefined] using hdefined) _
      · split
        · exact hcompletes
        · exact hcompletes

/-- What is undefined in an object that has taken in another one stood there before, or is a new
name that is awaited. -/
theorem undefined_of_concat (hdone : first.concat second = .done joined) {position : Nat}
    {entry : SymbolEntry} (hentry : joined.object.symbols.entryAt? position = some entry)
    (hundefined : entry.symbol.isDefined = false) :
    first.object.symbols.entryAt? position = some entry ∨
      first.object.symbols.entryAt? position = none ∧ entry.symbol.kind = .awaited := by
  obtain ⟨joint, gathered, habutted, hmerge, hawaits, -⟩ := stacked_of_concat hdone
  have hcompletes : first.rebase.object.symbols.Completes gathered.object.symbols := by
    have hstate := Progress.each_preserves_of_mem
      (fun state : Relocated ↦ first.rebase.object.symbols.Completes state.object.symbols)
      (fun state entry (_ : entry ∈ second.object.symbols.entries.toList) hcompletes ↦
        show first.rebase.object.symbols.Completes
          (mergeEntry second state entry).state.object.symbols from
            completes_mergeEntry hcompletes entry)
      (show first.rebase.object.symbols.Completes joint.object.symbols from
        habutted.symbols ▸ .refl _)
    rw [mergeSymbols] at hmerge
    rwa [hmerge] at hstate
  cases hgathered : gathered.object.symbols.entryAt? position with
  | some known =>
    obtain rfl := Option.some.inj ((hawaits.kept position known hgathered).symm.trans hentry)
    have hrebase := hcompletes.undefined position known hgathered hundefined
    rw [entryAt?_rebase, Option.map_eq_some_iff] at hrebase
    obtain ⟨former, hformer, rfl⟩ := hrebase
    rw [isDefined_absolute] at hundefined
    rw [absolute, if_neg (by simp [hundefined])]
    exact .inl hformer
  | none =>
    have hsize := Nat.le_trans hcompletes.size_le (SymbolTable.entryAt?_eq_none_iff.mp hgathered)
    rw [size_symbols_rebase] at hsize
    exact .inr ⟨SymbolTable.entryAt?_eq_none_iff.mpr hsize,
      hawaits.added position entry hgathered hentry⟩

theorem kind?_of_meaning? {meaning : Meaning} (hmeaning : module.meaning? name = some meaning) :
    module.view.kind? name = some meaning.kind := by
  obtain ⟨symbol, hsymbol, rfl⟩ := Option.map_eq_some_iff.mp hmeaning
  rw [SymbolTable.definition?, Option.filter_eq_some_iff] at hsymbol
  rw [kind?_view, hsymbol.1, Option.map_some]

theorem kind?_of_entryAt? (hdistinct : module.NamesDistinct) {position : Nat} {symbol : Symbol}
    (hentry : module.object.symbols.entryAt? position = some ⟨name, symbol⟩) :
    module.view.kind? name = some symbol.kind := by
  rw [kind?_view, (SymbolTable.find?_eq_some_iff hdistinct).mpr ⟨position, hentry⟩, Option.map_some]

theorem exists_entryAt?_of_kind? (hdistinct : module.NamesDistinct) {kind : SymbolKind}
    (hkind : module.view.kind? name = some kind) :
    ∃ position symbol, module.object.symbols.entryAt? position = some ⟨name, symbol⟩ ∧
      symbol.kind = kind := by
  obtain ⟨symbol, hsymbol, rfl⟩ := Option.map_eq_some_iff.mp hkind
  obtain ⟨position, hentry⟩ := (SymbolTable.find?_eq_some_iff hdistinct).mp hsymbol
  exact ⟨position, symbol, hentry, rfl⟩

/-- An entry whose name means nothing is undefined. -/
theorem isDefined_of_meaning?_eq_none (hdistinct : module.NamesDistinct) {position : Nat}
    {symbol : Symbol} (hentry : module.object.symbols.entryAt? position = some ⟨name, symbol⟩)
    (hnone : module.meaning? name = none) : symbol.isDefined = false := by
  have hmeaning := meaning?_of_entryAt? hdistinct hentry
  dsimp only at hmeaning
  rw [hnone] at hmeaning
  by_contra hdefined
  simp [hdefined] at hmeaning

/-- The names to which the second object refers join the table. -/
theorem Joined.exists_entryAt?_of_refersTo (hjoined : Joined first second joined)
    (hrefers : second.object.RefersTo name) :
    ∃ position symbol, joined.object.symbols.entryAt? position = some ⟨name, symbol⟩ := by
  obtain ⟨owner, record, hrecord, index, symbol, hindex, hentry⟩ := hrefers
  obtain ⟨own, adopted, -, hadopted, -⟩ := hjoined.contents owner
  obtain ⟨outcome, -, hfollows⟩ :=
    Fallible.exists_mem_of_forall₂ hadopted.flip (Array.mem_toList_iff.mpr hrecord)
  cases hfollows with
  | internal hnone => cases hnone.symm.trans hindex
  | external hgiven hknown hlocated =>
    obtain rfl := Option.some.inj (hgiven.symm.trans hindex)
    obtain rfl := Option.some.inj (hknown.symm.trans hentry)
    exact ⟨_, _, hlocated⟩

theorem meaning?_ne_none_of_mem (hdistinct : module.NamesDistinct) {entry : SymbolEntry}
    (hentry : entry ∈ module.object.symbols.entries) (hdefined : entry.symbol.isDefined) :
    module.meaning? entry.name ≠ none := by
  obtain ⟨position, hposition⟩ := Array.mem_iff_getElem?.mp hentry
  rw [meaning?_of_entryAt? hdistinct hposition, if_pos hdefined]
  exact nofun

/-- A name that is new in an object that has taken in another one, and means nothing there, is one
to which the other object refers. -/
theorem refersTo_of_new (hsecond : second.NamesDistinct)
    (hdone : first.concat second = .done joined) {position : Nat} {symbol : Symbol}
    (hentry : joined.object.symbols.entryAt? position = some ⟨name, symbol⟩)
    (hnew : first.view.kind? name = none) (hnone : second.meaning? name = none)
    (hfirst : first.NamesDistinct) : second.object.RefersTo name := by
  have hevolves := concat_evolves first second
  rw [hdone] at hevolves
  rcases hevolves.mem_names (SymbolTable.mem_names_of_mem (Array.mem_of_getElem? hentry)) with
    hformer | ⟨entry, hgiven, rfl, hdefined⟩ | hrefers
  · obtain ⟨place, former, hplace⟩ := SymbolTable.exists_entryAt?_of_mem_names hformer
    rw [kind?_of_entryAt? hfirst hplace] at hnew
    cases hnew
  · exact (meaning?_ne_none_of_mem hsecond hgiven hdefined hnone).elim
  · exact hrefers

/-- A name that means nothing in either object is of the kind that it has in the first one, and
awaited if only the second refers to it. -/
theorem kind?_concat (hfirst : first.NamesDistinct) (hsecond : second.NamesDistinct)
    (hdone : first.concat second = .done joined) (name : String) :
    joined.view.kind? name = (first.view.join second.view).kind? name := by
  have hjoined := concat_eq_done hfirst hsecond hdone
  have hdistinct := hjoined.distinct hfirst
  have hmeaning : joined.meaning? name = first.view.known second.view name := hjoined.meaning name
  cases hknown : first.view.known second.view name with
  | some meaning =>
    rw [kind?_of_meaning? (hmeaning.trans hknown)]
    simp only [View.join, hknown]
  | none =>
    rw [hknown] at hmeaning
    have hunknown := (View.known_eq_none_iff.mp hknown).2
    rw [View.kind?_join_of_unknown hknown]
    cases hkind : first.view.kind? name with
    | some kind =>
      obtain ⟨position, symbol, hentry, rfl⟩ := exists_entryAt?_of_kind? hfirst hkind
      obtain ⟨later, hlater⟩ := exists_entryAt?_of_grows hjoined.grows hentry
      have hundefined := isDefined_of_meaning?_eq_none hdistinct hlater hmeaning
      rcases undefined_of_concat hdone hlater hundefined with hsame | ⟨hnone, -⟩
      · obtain ⟨-, rfl⟩ := SymbolEntry.mk.inj (Option.some.inj (hentry.symm.trans hsame))
        exact kind?_of_entryAt? hdistinct hlater
      · cases hentry.symm.trans hnone
    | none =>
      -- An entry of this name is a new one, which some record of the second object has called for.
      have hnew : ∀ position symbol,
          joined.object.symbols.entryAt? position = some ⟨name, symbol⟩ →
            second.view.refersTo name ∧ symbol.kind = .awaited := by
        intro position symbol hentry
        refine ⟨refersTo_view_iff.mpr
          (refersTo_of_new hsecond hdone hentry hkind hunknown hfirst), ?_⟩
        have hundefined := isDefined_of_meaning?_eq_none hdistinct hentry hmeaning
        rcases undefined_of_concat hdone hentry hundefined with hformer | ⟨-, hawaited⟩
        · cases (kind?_of_entryAt? hfirst hformer).symm.trans hkind
        · exact hawaited
      rw [Option.none_or]
      split
      · rename_i hrefers
        obtain ⟨position, symbol, hentry⟩ :=
          hjoined.exists_entryAt?_of_refersTo (refersTo_view_iff.mp hrefers)
        rw [kind?_of_entryAt? hdistinct hentry, (hnew position symbol hentry).2]
      · rename_i hfree
        rw [Option.eq_none_iff_forall_ne_some]
        intro kind hfound
        obtain ⟨position, symbol, hentry, -⟩ := exists_entryAt?_of_kind? hdistinct hfound
        exact hfree (hnew position symbol hentry).1

/-! ### Views -/

/-- Two objects with distinct names and valid records, so small that positions and offsets in both
together have 32 bits. -/
structure Compatible (first second : Relocated) : Prop where
  firstDistinct : first.NamesDistinct
  secondDistinct : second.NamesDistinct
  firstValid : first.object.Valid
  secondValid : second.object.Valid
  symbols : first.object.symbols.size + second.object.symbols.size ≤ UInt32.size
  bytes : ∀ owner, (first.object.contents owner).bytes.size +
    (second.object.contents owner).bytes.size ≤ UInt32.size

/-- An object is no larger than the two of which it is made. -/
theorem Joined.size_bytes (hjoined : Joined first second joined) (owner : StoredSegment) :
    (joined.object.contents owner).bytes.size =
      (first.object.contents owner).bytes.size + (second.object.contents owner).bytes.size := by
  obtain ⟨own, adopted, -, -, -, hcontents⟩ := hjoined.contents owner
  rw [hcontents, Outcome.size_contents, Array.size_append]

theorem size_symbols_concat_le (hdistinct : joined.NamesDistinct)
    (hdone : first.concat second = .done joined) :
    joined.object.symbols.size ≤ first.object.symbols.size + second.object.symbols.size := by
  have hnames := (concat_evolves first second).names_subset
  rw [hdone] at hnames
  have hsize := SymbolTable.size_le_of_names_subset hdistinct hnames
  simpa using hsize

/-- Whatever the records of two objects refer to is in reach once they are in one. -/
theorem Joined.narrow (hjoined : Joined first second joined) (hfirst : first.NamesDistinct) :
    View.Narrow (fun name ↦ first.view.refersTo name ∨ second.view.refersTo name)
      (first.view.known second.view) := by
  intro name meaning hrefers hmeaning
  have htells := hjoined.tells hfirst
  rcases hrefers.imp refersTo_view_iff.mp refersTo_view_iff.mp with
    ⟨owner, record, hrecord, index, symbol, hindex, hentry⟩ |
    ⟨owner, record, hrecord, index, symbol, hindex, hentry⟩
  · obtain ⟨own, adopted, hown, -⟩ := hjoined.contents owner
    obtain ⟨outcome, -, hfollows⟩ :=
      Fallible.exists_mem_of_forall₂ hown.flip (Array.mem_toList_iff.mpr hrecord)
    cases hfollows with
    | internal hnone => cases hnone.symm.trans hindex
    | external hgiven hknown hsettles =>
      obtain rfl := Option.some.inj (hgiven.symm.trans hindex)
      obtain ⟨later, hlater⟩ := exists_entryAt?_of_grows hjoined.grows hentry
      obtain rfl := Option.some.inj (hlater.symm.trans hknown)
      exact hsettles.narrow ((htells _ _ _ hlater).symm.trans hmeaning)
  · obtain ⟨own, adopted, -, hadopted, -⟩ := hjoined.contents owner
    obtain ⟨outcome, -, hfollows⟩ :=
      Fallible.exists_mem_of_forall₂ hadopted.flip (Array.mem_toList_iff.mpr hrecord)
    cases hfollows with
    | internal hnone => cases hnone.symm.trans hindex
    | external hgiven hknown hlocated hsettles =>
      obtain rfl := Option.some.inj (hgiven.symm.trans hindex)
      obtain rfl := Option.some.inj (hknown.symm.trans hentry)
      exact hsettles.narrow ((htells _ _ _ hlocated).symm.trans hmeaning)

namespace Compatible

theorem distinct (hcompatible : Compatible first second)
    (hdone : first.concat second = .done joined) :
    joined.NamesDistinct :=
  (concat_eq_done hcompatible.firstDistinct hcompatible.secondDistinct hdone).distinct
    hcompatible.firstDistinct

theorem valid (hcompatible : Compatible first second)
    (hdone : first.concat second = .done joined) :
    joined.object.Valid := by
  have hkeeps := (keeps_concat hcompatible.firstValid hcompatible.secondValid).holds
  rwa [hdone] at hkeeps

/-- The view of an object that has taken in another one is the joint of both views. -/
theorem view_concat (hcompatible : Compatible first second)
    (hdone : first.concat second = .done joined) : joined.view = first.view.join second.view := by
  obtain ⟨hfirst, hsecond, hfirstValid, hsecondValid, hsymbols, hbytes⟩ := hcompatible
  have hjoined := concat_eq_done hfirst hsecond hdone
  have hsize := Nat.le_trans (size_symbols_concat_le (hjoined.distinct hfirst) hdone) hsymbols
  ext1
  · exact hjoined.bssSize
  · exact funext fun owner ↦
      hjoined.fragment_eq hfirst hfirstValid hsecondValid hsize (hbytes owner)
  · exact funext fun name ↦ kind?_concat hfirst hsecond hdone name
  · exact funext fun name ↦ hjoined.meaning name

/-- Whether one object can take in another one shows in their views. -/
theorem exists_concat_iff (hcompatible : Compatible first second) :
    (∃ joined, first.concat second = .done joined) ↔ first.view.Joinable second.view := by
  obtain ⟨hfirst, hsecond, hfirstValid, hsecondValid, -, -⟩ := hcompatible
  constructor
  · rintro ⟨joined, hdone⟩
    have hjoined := concat_eq_done hfirst hsecond hdone
    exact {
      bss := hjoined.bssSize ▸ joined.object.bssSize.toNat_lt
      agree := fun name known given hknown hgiven hclash ↦
        hjoined.agree name ⟨known, given, hknown, hgiven, hclash⟩
      narrow := hjoined.narrow hfirst }
  · intro hjoinable
    have hnone : (first.concat second).fault? = none := by
      refine Option.eq_none_iff_forall_ne_some.mpr fun fault hfault ↦ ?_
      rcases concat_fault hfirst hsecond hfirstValid.inRange hsecondValid.inRange hfault with
        htotal | ⟨name, known, given, hknown, hgiven, hclash⟩ |
        ⟨name, meaning, hrefers, hmeaning, hwide⟩
      · exact Nat.not_lt.mpr htotal hjoinable.bss
      · exact hjoinable.agree name known given hknown hgiven hclash
      · have hnarrow := hjoinable.narrow name meaning
          (hrefers.imp refersTo_view_iff.mpr refersTo_view_iff.mpr) hmeaning
        omega
    exact ⟨_, Progress.eq_done_of_fault? hnone⟩

/-- An object that has taken in another one can take in a third one. -/
theorem concat_left (hcompatible : Compatible first second) {third : Relocated}
    (hthird : third.NamesDistinct) (hvalid : third.object.Valid)
    (hsymbols : first.object.symbols.size + second.object.symbols.size +
      third.object.symbols.size ≤ UInt32.size)
    (hbytes : ∀ owner, (first.object.contents owner).bytes.size +
      (second.object.contents owner).bytes.size + (third.object.contents owner).bytes.size ≤
        UInt32.size)
    (hdone : first.concat second = .done joined) : Compatible joined third where
  firstDistinct := hcompatible.distinct hdone
  secondDistinct := hthird
  firstValid := hcompatible.valid hdone
  secondValid := hvalid
  symbols := by
    have hsize := size_symbols_concat_le (hcompatible.distinct hdone) hdone
    omega
  bytes := fun owner ↦ by
    have hjoined := concat_eq_done hcompatible.firstDistinct hcompatible.secondDistinct hdone
    rw [hjoined.size_bytes]
    exact hbytes owner

theorem symm (hcompatible : Compatible first second) : Compatible second first where
  firstDistinct := hcompatible.secondDistinct
  secondDistinct := hcompatible.firstDistinct
  firstValid := hcompatible.secondValid
  secondValid := hcompatible.firstValid
  symbols := by rw [Nat.add_comm]; exact hcompatible.symbols
  bytes := fun owner ↦ by rw [Nat.add_comm]; exact hcompatible.bytes owner

/-- Whether an object can take in two others in turn shows in the views. -/
theorem exists_left_iff (hcompatible : Compatible first second) {third : Relocated}
    (hfront : ∀ front, first.concat second = .done front → Compatible front third) :
    (∃ front left, first.concat second = .done front ∧ front.concat third = .done left) ↔
      first.view.Joinable second.view ∧ (first.view.join second.view).Joinable third.view := by
  constructor
  · rintro ⟨front, left, hdone, hleft⟩
    refine ⟨hcompatible.exists_concat_iff.mp ⟨front, hdone⟩, ?_⟩
    rw [← hcompatible.view_concat hdone]
    exact (hfront front hdone).exists_concat_iff.mp ⟨left, hleft⟩
  · rintro ⟨hjoinable, hthird⟩
    obtain ⟨front, hdone⟩ := hcompatible.exists_concat_iff.mpr hjoinable
    rw [← hcompatible.view_concat hdone] at hthird
    obtain ⟨left, hleft⟩ := (hfront front hdone).exists_concat_iff.mpr hthird
    exact ⟨front, left, hdone, hleft⟩

/-- Whether an object can take in another one that has taken in a third one shows in the views. -/
theorem exists_right_iff {third : Relocated} (hcompatible : Compatible second third)
    (hback : ∀ back, second.concat third = .done back → Compatible first back) :
    (∃ back right, second.concat third = .done back ∧ first.concat back = .done right) ↔
      second.view.Joinable third.view ∧ first.view.Joinable (second.view.join third.view) := by
  constructor
  · rintro ⟨back, right, hdone, hright⟩
    refine ⟨hcompatible.exists_concat_iff.mp ⟨back, hdone⟩, ?_⟩
    rw [← hcompatible.view_concat hdone]
    exact (hback back hdone).exists_concat_iff.mp ⟨right, hright⟩
  · rintro ⟨hjoinable, hfirst⟩
    obtain ⟨back, hdone⟩ := hcompatible.exists_concat_iff.mpr hjoinable
    rw [← hcompatible.view_concat hdone] at hfirst
    obtain ⟨right, hright⟩ := (hback back hdone).exists_concat_iff.mpr hfirst
    exact ⟨back, right, hdone, hright⟩

end Compatible

end Relocated

end Aout
