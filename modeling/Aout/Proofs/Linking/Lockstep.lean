import Aout.Proofs.Linking.Records
/-!
Two links of the same objects, side by side, whose texts start at different addresses. In the second
one every address in text is higher by the same number, and nothing else is different but the bytes
of placeholders (`Relocated.Raised`). Whatever the second link does when one object takes in another
one, the first link does as well, and the results go on to differ in this way alone
(`Relocated.Raised.concat`). So a fault that is missing in the second link is missing in the first.
-/

set_option autoImplicit false
set_option relaxedAutoImplicit false

namespace Aout

/-! ### Changes in lockstep -/

namespace Progress

variable {First Second Next Beyond Item Other : Type} {Related : First → Second → Prop}
  {Linked : Next → Beyond → Prop} {first : Progress First} {second : Progress Second}

/-- Where the second change goes through, the first one does, and they end in related states. -/
def Lockstep (Related : First → Second → Prop) (first : Progress First)
    (second : Progress Second) : Prop :=
  ∀ reached, second = done reached → ∃ state, first = done state ∧ Related state reached

namespace Lockstep

theorem of_done {state : First} {reached : Second} (hrelated : Related state reached) :
    Lockstep Related (done state) (done reached) := by
  rintro _ hdone
  cases hdone
  exact ⟨state, rfl, hrelated⟩

/-- Nothing is said about the first change where the second one stops. -/
theorem of_stopped {state : Second} {fault : LinkFault} :
    Lockstep Related first (stopped state fault) :=
  fun _ hdone ↦ by cases hdone

theorem andThen {next : First → Progress First} {beyond : Second → Progress Second}
    (hfirst : Lockstep Related first second)
    (hnext : ∀ state reached, Related state reached →
      Lockstep Related (next state) (beyond reached)) :
    Lockstep Related (first.andThen next) (second.andThen beyond) := by
  intro final hfinal
  obtain ⟨reached, hreached, hbeyond⟩ := andThen_eq_done_iff.mp hfinal
  obtain ⟨state, hstate, hrelated⟩ := hfirst reached hreached
  obtain ⟨last, hlast, hfinal⟩ := hnext state reached hrelated final hbeyond
  exact ⟨last, andThen_eq_done_iff.mpr ⟨state, hstate, hlast⟩, hfinal⟩

theorem map {view : First → Next} {sight : Second → Beyond} (hfirst : Lockstep Related first second)
    (hview : ∀ state reached, Related state reached → Linked (view state) (sight reached)) :
    Lockstep Linked (first.map view) (second.map sight) := by
  intro final hfinal
  obtain ⟨reached, hreached, rfl⟩ := map_eq_done_iff.mp hfinal
  obtain ⟨state, hstate, hrelated⟩ := hfirst reached hreached
  exact ⟨view state, map_eq_done_iff.mpr ⟨state, hstate, rfl⟩, hview state reached hrelated⟩

theorem each {Paired : Item → Other → Prop} {step : First → Item → Progress First}
    {pace : Second → Other → Progress Second}
    (hstep : ∀ item other state reached, Paired item other → Related state reached →
      Lockstep Related (step state item) (pace reached other))
    {items : List Item} {others : List Other} (hitems : List.Forall₂ Paired items others)
    {state : First} {reached : Second} (hrelated : Related state reached) :
    Lockstep Related (each step state items) (each pace reached others) := by
  induction hitems generalizing state reached with
  | nil => exact of_done hrelated
  | cons hpaired _ ih =>
    intro final hfinal
    obtain ⟨met, hmet, hrest⟩ := each_cons_eq_done_iff.mp hfinal
    obtain ⟨next, hnext, hmatch⟩ := hstep _ _ state reached hpaired hrelated met hmet
    obtain ⟨last, hlast, hfinal⟩ := ih hmatch final hrest
    exact ⟨last, each_cons_eq_done_iff.mpr ⟨next, hnext, hlast⟩, hfinal⟩

end Lockstep

end Progress

/-! ### Symbols -/

/-- Related options are both there or both missing. -/
theorem exists_of_rel {Value Other : Type} {relation : Value → Other → Prop}
    {value? : Option Value} {other? : Option Other} (hrelated : Option.Rel relation value? other?) :
    value? = none ∧ other? = none ∨
      ∃ value other, value? = some value ∧ other? = some other ∧ relation value other := by
  cases hrelated with
  | none => exact .inl ⟨rfl, rfl⟩
  | some hvalues => exact .inr ⟨_, _, rfl, rfl, hvalues⟩

/-- How much higher an address of a segment is where text stands higher. -/
def rise (shift : Nat) (segment? : Option Segment) : Nat :=
  if segment? = some .text then shift else 0

@[simp] theorem rise_zero (segment? : Option Segment) : rise 0 segment? = 0 := by
  simp [rise]

/-- A symbol where text stands higher. Only definitions in text have another value. -/
structure Symbol.Raised (shift : Nat) (low high : Symbol) : Prop where
  nameOffset : high.nameOffset = low.nameOffset
  kind : high.kind = low.kind
  value : high.value.toNat =
    low.value.toNat + if low.isDefined then rise shift low.segment? else 0

namespace Symbol.Raised

variable {shift : Nat} {low high : Symbol}

theorem isDefined (hraised : Raised shift low high) : high.isDefined = low.isDefined := by
  rw [Symbol.isDefined, hraised.kind, Symbol.isDefined]

theorem segment? (hraised : Raised shift low high) : high.segment? = low.segment? := by
  rw [Symbol.segment?, hraised.kind, Symbol.segment?]

theorem refl (symbol : Symbol) : Raised 0 symbol symbol :=
  ⟨rfl, rfl, by simp⟩

theorem awaited (shift : Nat) : Raised shift .awaited .awaited :=
  ⟨rfl, rfl, rfl⟩

end Symbol.Raised

structure SymbolEntry.Raised (shift : Nat) (low high : SymbolEntry) : Prop where
  name : high.name = low.name
  symbol : low.symbol.Raised shift high.symbol

/-- Tables with the same names at the same positions. -/
def SymbolTable.Raised (shift : Nat) (low high : SymbolTable) : Prop :=
  ∀ position, Option.Rel (SymbolEntry.Raised shift) (low.entryAt? position)
    (high.entryAt? position)

namespace SymbolTable.Raised

variable {shift : Nat} {low high : SymbolTable}

theorem refl (table : SymbolTable) : Raised 0 table table := by
  intro position
  cases table.entryAt? position with
  | none => exact .none
  | some entry => exact .some ⟨rfl, .refl _⟩

theorem size (hraised : Raised shift low high) : high.size = low.size := by
  have hnone (position : Nat) : low.size ≤ position ↔ high.size ≤ position := by
    rw [← entryAt?_eq_none_iff, ← entryAt?_eq_none_iff]
    rcases exists_of_rel (hraised position) with ⟨hlow, hhigh⟩ | ⟨entry, other, hlow, hhigh, -⟩
    · simp [hlow, hhigh]
    · simp [hlow, hhigh]
  exact Nat.le_antisymm ((hnone _).mp (Nat.le_refl _)) ((hnone _).mpr (Nat.le_refl _))

theorem entries (hraised : Raised shift low high) :
    List.Forall₂ (SymbolEntry.Raised shift) low.entries.toList high.entries.toList := by
  refine List.forall₂_iff_get.mpr ⟨hraised.size.symm, fun position hlow hhigh ↦ ?_⟩
  have hposition := hraised position
  rw [entryAt?, entryAt?, Array.getElem?_eq_getElem hlow, Array.getElem?_eq_getElem hhigh]
    at hposition
  cases hposition with
  | some hentry => exact hentry

theorem position? (hraised : Raised shift low high) (name : String) :
    high.position? name = low.position? name := by
  rw [position?_eq, position?_eq]
  refine SymbolEntry.position?_congr ?_ name
  have hentries := hraised.entries
  generalize low.entries.toList = former at hentries
  generalize high.entries.toList = latter at hentries
  induction hentries with
  | nil => rfl
  | cons hfirst _ ih => rw [List.map_cons, List.map_cons, hfirst.name, ih]

/-- A name finds the same position. -/
theorem locate? (hraised : Raised shift low high) (name : String) :
    Option.Rel (fun found other ↦ other.1 = found.1 ∧ found.2.Raised shift other.2)
      (low.locate? name) (high.locate? name) := by
  unfold SymbolTable.locate?
  rw [hraised.position? name]
  cases low.position? name with
  | none => exact .none
  | some position =>
    dsimp only [Option.bind_eq_bind, Option.bind_some]
    rcases exists_of_rel (hraised position) with ⟨hlow, hhigh⟩ | ⟨entry, other, hlow, hhigh, hsame⟩
    · rw [hlow, hhigh]
      exact .none
    · rw [hlow, hhigh]
      exact .some ⟨rfl, hsame.symbol⟩

theorem push (hraised : Raised shift low high) {entry other : SymbolEntry}
    (hentry : entry.Raised shift other) : Raised shift (low.push entry) (high.push other) := by
  intro position
  rw [entryAt?_push, entryAt?_push, hraised.size]
  split
  · exact .some hentry
  · exact hraised position

theorem redefine (hraised : Raised shift low high) {position : Nat} {known : SymbolEntry}
    (hknown : low.entryAt? position = some known) {kind : SymbolKind} {value other : UInt32}
    (hsymbol : Symbol.Raised shift ⟨0, kind, value⟩ ⟨0, kind, other⟩) :
    Raised shift (low.redefine position kind value) (high.redefine position kind other) := by
  rcases exists_of_rel (hraised position) with ⟨hlow, -⟩ | ⟨entry, other, hlow, hhigh, hsame⟩
  · cases hlow.symm.trans hknown
  · obtain rfl := Option.some.inj (hlow.symm.trans hknown)
    intro place
    rw [entryAt?_redefine hlow, entryAt?_redefine hhigh]
    split
    · exact .some ⟨hsame.name, hsame.symbol.nameOffset, rfl, hsymbol.value⟩
    · exact hraised place

end SymbolTable.Raised

/-! ### Objects -/

/-- Objects with the same records, and with bytes and symbols in the same places. -/
structure Object.Raised (shift : Nat) (low high : Object) : Prop where
  symbols : low.symbols.Raised shift high.symbols
  names : high.names = low.names
  bssSize : high.bssSize = low.bssSize
  relocations : ∀ owner, (high.contents owner).relocations = (low.contents owner).relocations
  size : ∀ owner, (high.contents owner).bytes.size = (low.contents owner).bytes.size

namespace Object.Raised

variable {shift : Nat} {low high : Object}

theorem of_tables (hraised : Raised shift low high) {symbols others : SymbolTable}
    {names further : NameTable} (hsymbols : symbols.Raised shift others)
    (hnames : further = names) : Raised shift { low with symbols, names }
      { high with symbols := others, names := further } where
  symbols := hsymbols
  names := hnames
  bssSize := hraised.bssSize
  relocations := by
    rintro (_ | _)
    · exact hraised.relocations .text
    · exact hraised.relocations .data
  size := by
    rintro (_ | _)
    · exact hraised.size .text
    · exact hraised.size .data

theorem enter (hraised : Raised shift low high) (name : String) {symbol other : Symbol}
    (hsymbol : symbol.Raised shift other) :
    Raised shift (low.enter name symbol).2 (high.enter name other).2 := by
  unfold Object.enter
  rw [hraised.names]
  exact hraised.of_tables
    (hraised.symbols.push ⟨rfl, rfl, hsymbol.kind, hsymbol.value⟩) rfl

/-- A name is awaited at the same position. -/
theorem await (hraised : Raised shift low high) (name : String) :
    (high.await name).1 = (low.await name).1 ∧
      Raised shift (low.await name).2 (high.await name).2 := by
  unfold Object.await
  rcases exists_of_rel (hraised.symbols.locate? name) with
    ⟨hlow, hhigh⟩ | ⟨found, other, hlow, hhigh, hsame, -⟩
  · rw [hlow, hhigh]
    exact ⟨hraised.symbols.size, hraised.enter name (.awaited shift)⟩
  · rw [hlow, hhigh]
    exact ⟨hsame, hraised⟩

theorem setContents (hraised : Raised shift low high) (owner : StoredSegment)
    {contents others : Section} (hrelocations : others.relocations = contents.relocations)
    (hsize : others.bytes.size = contents.bytes.size) :
    Raised shift (low.setContents owner contents) (high.setContents owner others) where
  symbols := by
    rw [symbols_setContents, symbols_setContents]
    exact hraised.symbols
  names := by
    cases owner with
    | text => exact hraised.names
    | data => exact hraised.names
  bssSize := by
    rw [bssSize_setContents, bssSize_setContents]
    exact hraised.bssSize
  relocations := by
    intro other
    by_cases hother : other = owner
    · rw [hother, contents_setContents, contents_setContents, hrelocations]
    · rw [contents_setContents_of_ne _ hother, contents_setContents_of_ne _ hother,
        hraised.relocations]
  size := by
    intro other
    by_cases hother : other = owner
    · rw [hother, contents_setContents, contents_setContents, hsize]
    · rw [contents_setContents_of_ne _ hother, contents_setContents_of_ne _ hother, hraised.size]

end Object.Raised

/-! ### Relocated objects -/

/-- Every defined symbol of the object has a value to which any base can be added exactly. -/
def Object.LeavesRoom (object : Object) : Prop :=
  ∀ entry ∈ object.symbols.entries, entry.symbol.isDefined →
    entry.symbol.value.toNat + Layout.addressSpace < UInt32.size

/-- Load addresses of which the one of text is higher, but still an address. -/
structure Bases.Raised (shift : Nat) (low high : Bases) : Prop where
  text : high.text.toNat = low.text.toNat + shift
  data : high.data = low.data
  bss : high.bss = low.bss
  text_le : high.text.toNat ≤ Layout.addressSpace

theorem Bases.Raised.of {shift : Nat} {low high : Bases} (hraised : low.Raised shift high)
    (segment : Segment) :
    (high.of segment).toNat = (low.of segment).toNat + rise shift (some segment) := by
  cases segment with
  | text => exact hraised.text
  | data => exact congrArg UInt32.toNat hraised.data
  | bss => exact congrArg UInt32.toNat hraised.bss

theorem Bases.Raised.exactAddress {shift : Nat} {low high : Bases}
    (hraised : low.Raised shift high) (symbol : Symbol) :
    high.exactAddress symbol = low.exactAddress symbol + rise shift symbol.segment? := by
  unfold Bases.exactAddress
  cases symbol.segment? with
  | none => rfl
  | some segment =>
    have hbase := hraised.of segment
    dsimp only
    omega

namespace Relocated

/-- Relocated objects that differ in the addresses of text alone. Before the symbols are addresses,
their values are the same, and leave room for a base. -/
structure Raised (shift : Nat) (low high : Relocated) : Prop where
  rebased : high.rebased = low.rebased
  bases : low.bases.Raised shift high.bases
  object : low.object.Raised (if low.rebased then shift else 0) high.object
  room : low.rebased = false → low.object.LeavesRoom

/-- The same for objects whose symbols are addresses. -/
structure Aligned (shift : Nat) (low high : Relocated) : Prop where
  low_rebased : low.rebased = true
  high_rebased : high.rebased = true
  bases : low.bases.Raised shift high.bases
  object : low.object.Raised shift high.object

theorem Aligned.raised {shift : Nat} {low high : Relocated} (haligned : Aligned shift low high) :
    Raised shift low high where
  rebased := haligned.high_rebased.trans haligned.low_rebased.symm
  bases := haligned.bases
  object := by
    rw [if_pos haligned.low_rebased]
    exact haligned.object
  room := fun hrebased ↦ by cases haligned.low_rebased.symm.trans hrebased

/-- What an entry of another object offers, side by side: a definition in text is higher. -/
structure Offers (shift : Nat) (low high : Relocated) (entry other : SymbolEntry) : Prop where
  name : other.name = entry.name
  kind : other.symbol.kind = entry.symbol.kind
  address : entry.symbol.isDefined → (high.addressOf other.symbol).toNat =
    (low.addressOf entry.symbol).toNat + rise shift entry.symbol.segment?

namespace Raised

variable {shift : Nat} {low high : Relocated}

theorem addressOf (hraised : Raised shift low high) {position : Nat} {entry other : SymbolEntry}
    (hentry : low.object.symbols.entryAt? position = some entry)
    (hother : high.object.symbols.entryAt? position = some other)
    (hdefined : entry.symbol.isDefined) : (high.addressOf other.symbol).toNat =
      (low.addressOf entry.symbol).toNat + rise shift entry.symbol.segment? := by
  have hposition := hraised.object.symbols position
  rw [hentry, hother] at hposition
  cases hposition with
  | some hsame =>
    have hvalue := hsame.symbol.value
    rw [if_pos hdefined] at hvalue
    cases hrebased : low.rebased with
    | true =>
      rw [addressOf_of_rebased hrebased, addressOf_of_rebased (hraised.rebased.trans hrebased),
        hvalue, hrebased, if_pos rfl]
    | false =>
      have hroom := hraised.room hrebased entry (Array.mem_of_getElem? hentry) hdefined
      have hexact := hraised.bases.exactAddress entry.symbol
      have hsymbol : high.bases.exactAddress other.symbol =
          high.bases.exactAddress entry.symbol := by
        rw [hrebased] at hvalue
        unfold Bases.exactAddress
        rw [hsame.symbol.segment?, hvalue]
        simp
      have htext := hraised.bases.text_le
      unfold Relocated.addressOf
      rw [if_neg (by simp [hraised.rebased, hrebased]), if_neg (by simp [hrebased]),
        Bases.toNat_addressOf, Bases.toNat_addressOf, hsymbol, hexact]
      unfold rise at hexact ⊢
      split
      · rename_i hsegment
        rw [if_pos hsegment] at hexact
        have hsum : high.bases.exactAddress entry.symbol =
            high.bases.text.toNat + entry.symbol.value.toNat := by
          unfold Bases.exactAddress
          rw [hsegment]
          rfl
        omega
      · rfl

theorem offers (hraised : Raised shift low high) :
    List.Forall₂ (Offers shift low high) low.object.symbols.entries.toList
      high.object.symbols.entries.toList := by
  have hentries := hraised.object.symbols.entries
  refine List.forall₂_iff_get.mpr ⟨hentries.length_eq, fun position hlow hhigh ↦ ?_⟩
  have hsame := (List.forall₂_iff_get.mp hentries).2 position hlow hhigh
  exact ⟨hsame.name, hsame.symbol.kind,
    hraised.addressOf (Array.getElem?_eq_getElem hlow) (Array.getElem?_eq_getElem hhigh)⟩

/-- Once the symbols are addresses, the defined ones in text are higher. -/
theorem absolute (hraised : Raised shift low high) {position : Nat} {entry other : SymbolEntry}
    (hentry : low.object.symbols.entryAt? position = some entry)
    (hother : high.object.symbols.entryAt? position = some other) :
    (low.absolute entry.symbol).Raised shift (high.absolute other.symbol) := by
  have hposition := hraised.object.symbols position
  rw [hentry, hother] at hposition
  cases hposition with
  | some hsame =>
    have hdefined := hsame.symbol.isDefined
    unfold Relocated.absolute
    rw [hdefined]
    cases hcase : entry.symbol.isDefined with
    | true =>
      rw [if_pos rfl, if_pos rfl]
      refine ⟨hsame.symbol.nameOffset, hsame.symbol.kind, ?_⟩
      refine (hraised.addressOf hentry hother hcase).trans ?_
      exact congrArg _ (if_pos hcase).symm
    | false =>
      rw [if_neg Bool.false_ne_true, if_neg Bool.false_ne_true]
      refine ⟨hsame.symbol.nameOffset, hsame.symbol.kind, ?_⟩
      have hvalue := hsame.symbol.value
      rwa [if_neg (by simp [hcase])] at hvalue ⊢

theorem rebase (hraised : Raised shift low high) : Aligned shift low.rebase high.rebase where
  low_rebased := rebased_rebase low
  high_rebased := rebased_rebase high
  bases := by
    rw [bases_rebase, bases_rebase]
    exact hraised.bases
  object := by
    have hkept (module : Relocated) : module.rebase.object.names = module.object.names ∧
        module.rebase.object.bssSize = module.object.bssSize := by
      unfold Relocated.rebase
      split <;> exact ⟨rfl, rfl⟩
    refine ⟨fun position ↦ ?_, ?_, ?_, fun owner ↦ ?_, fun owner ↦ ?_⟩
    · rw [entryAt?_rebase, entryAt?_rebase]
      rcases exists_of_rel (hraised.object.symbols position) with
        ⟨hlow, hhigh⟩ | ⟨entry, other, hlow, hhigh, hsame⟩
      · rw [hlow, hhigh]
        exact .none
      · rw [hlow, hhigh]
        exact .some ⟨hsame.name, hraised.absolute hlow hhigh⟩
    · rw [(hkept high).1, (hkept low).1, hraised.object.names]
    · rw [(hkept high).2, (hkept low).2, hraised.object.bssSize]
    · rw [contents_rebase, contents_rebase, hraised.object.relocations]
    · rw [contents_rebase, contents_rebase, hraised.object.size]

end Raised

/-! ### Symbols of another object -/

namespace Aligned

variable {shift : Nat} {low high first second : Relocated}

theorem of_object (haligned : Aligned shift low high) {object other : Object}
    (hobject : object.Raised shift other) :
    Aligned shift { low with object } { high with object := other } :=
  ⟨haligned.low_rebased, haligned.high_rebased, haligned.bases, hobject⟩

theorem appendSegments (haligned : Aligned shift low high) (hothers : Raised shift first second)
    (bssSize : UInt32) :
    Aligned shift (low.appendSegments first bssSize) (high.appendSegments second bssSize) :=
  haligned.of_object {
    symbols := haligned.object.symbols
    names := haligned.object.names
    bssSize := rfl
    relocations := by
      rintro (_ | _)
      · exact haligned.object.relocations .text
      · exact haligned.object.relocations .data
    size := by
      have hsum (owner : StoredSegment) : ((high.object.contents owner).bytes ++
          (second.object.contents owner).bytes).size = ((low.object.contents owner).bytes ++
            (first.object.contents owner).bytes).size := by
        rw [Array.size_append, Array.size_append, haligned.object.size, hothers.object.size]
      rintro (_ | _)
      · exact hsum .text
      · exact hsum .data }

/-- Definitions that agree where text is lower agree where it is higher, and the other way round. -/
theorem clashes_iff {known other : Symbol} (hknown : known.Raised shift other)
    (hdefined : known.isDefined) {kind : SymbolKind} {address further : UInt32}
    (hfurther : further.toNat = address.toNat + rise shift kind.segment?) :
    Meaning.Clashes ⟨known.kind, known.value⟩ ⟨kind, address⟩ ↔
      Meaning.Clashes ⟨other.kind, other.value⟩ ⟨kind, further⟩ := by
  have hvalue := hknown.value
  rw [if_pos hdefined, Symbol.segment?] at hvalue
  unfold Meaning.Clashes Meaning.isVisible
  rw [hknown.kind]
  refine and_congr_right fun _ ↦ and_congr_right fun _ ↦ not_congr ?_
  rw [Meaning.mk.injEq, Meaning.mk.injEq, ← UInt32.toNat_inj, ← UInt32.toNat_inj]
  refine and_congr_right fun hkind ↦ ?_
  rw [hvalue, hfurther, hkind]
  omega

/-- One definition is taken in where text is lower, if it is where text is higher. -/
theorem mergeEntry (haligned : Aligned shift low high) {entry other : SymbolEntry}
    (hoffers : Offers shift first second entry other) :
    Progress.Lockstep (Aligned shift) (mergeEntry first low entry)
      (mergeEntry second high other) := by
  have hsame : other.symbol.isDefined = entry.symbol.isDefined := by
    rw [Symbol.isDefined, hoffers.kind, Symbol.isDefined]
  cases hdefined : entry.symbol.isDefined with
  | false =>
    rw [mergeEntry_of_undefined hdefined, mergeEntry_of_undefined (hsame.trans hdefined)]
    exact .of_done haligned
  | true =>
    have hother := hsame.trans hdefined
    have hvalue := hoffers.address hdefined
    have hcopied : Symbol.Raised shift ⟨0, entry.symbol.kind, first.addressOf entry.symbol⟩
        ⟨0, entry.symbol.kind, second.addressOf other.symbol⟩ :=
      ⟨rfl, rfl, hvalue.trans (congrArg _ (if_pos hdefined).symm)⟩
    rcases exists_of_rel (haligned.object.symbols.locate? entry.name) with
      ⟨hlow, hhigh⟩ | ⟨⟨position, known⟩, ⟨_, former⟩, hlow, hhigh, rfl, hknown⟩
    · rw [← hoffers.name] at hhigh
      rw [mergeEntry_of_new hdefined hlow, mergeEntry_of_new hother hhigh, hoffers.kind,
        hoffers.name]
      exact .of_done (haligned.of_object (haligned.object.enter entry.name hcopied))
    · rw [← hoffers.name] at hhigh
      cases hawaited : known.isDefined with
      | false =>
        rw [mergeEntry_of_awaited hdefined hlow hawaited,
          mergeEntry_of_awaited hother hhigh (hknown.isDefined.trans hawaited), hoffers.kind]
        have htable := haligned.object.symbols.redefine
          (SymbolTable.entryAt?_of_locate? hlow) hcopied
        exact .of_done (haligned.of_object
          (haligned.object.of_tables htable haligned.object.names))
      | true =>
        rw [mergeEntry_of_known hdefined hlow hawaited,
          mergeEntry_of_known hother hhigh (hknown.isDefined.trans hawaited), hoffers.kind]
        by_cases hclashes : Meaning.Clashes ⟨known.kind, known.value⟩
            ⟨entry.symbol.kind, first.addressOf entry.symbol⟩
        · rw [if_pos ((clashes_iff hknown hawaited hvalue).mp hclashes)]
          exact .of_stopped
        · rw [if_neg hclashes, if_neg (mt (clashes_iff hknown hawaited hvalue).mpr hclashes)]
          exact .of_done haligned

theorem mergeSymbols (haligned : Aligned shift low high) (hothers : Raised shift first second) :
    Progress.Lockstep (Aligned shift) (low.mergeSymbols first) (high.mergeSymbols second) := by
  unfold Relocated.mergeSymbols
  exact .each (fun _ _ _ _ hoffers hstates ↦ hstates.mergeEntry hoffers) hothers.offers haligned

end Aligned

/-! ### The records of the object itself -/

/-- Resolutions that differ in the word to be written alone. -/
structure Resolution.Alike (low high : Resolution) : Prop where
  address : low.patch.address = high.patch.address
  segment? : low.segment? = high.segment?

/-- A lower address fits into a word if a higher one does. -/
theorem exists_ofAddress_of_le {placeholder address further : UInt32} {patch : Patch}
    (hle : address.toNat ≤ further.toNat) (hok : Patch.ofAddress placeholder further = .ok patch) :
    ∃ former, Patch.ofAddress placeholder address = .ok former ∧
      former.address = patch.address := by
  obtain ⟨haddress, hword⟩ := Patch.ofAddress_eq_ok_iff.mp hok
  cases hformer : Patch.ofAddress placeholder address with
  | ok former => exact ⟨former, rfl, (Patch.ofAddress_eq_ok_iff.mp hformer).1.trans haddress.symm⟩
  | error fault =>
    have hwide := (Patch.ofAddress_eq_error hformer).2
    have hlt := patch.word.toNat_lt
    omega

namespace Aligned

variable {shift : Nat} {low high first second : Relocated}

/-- The address of a symbol is not higher where text is lower. -/
theorem addressOf_le (haligned : Aligned shift low high) {symbol other : Symbol}
    (hsame : symbol.Raised shift other) :
    (low.addressOf symbol).toNat ≤ (high.addressOf other).toNat := by
  rw [addressOf_of_rebased haligned.low_rebased, addressOf_of_rebased haligned.high_rebased,
    hsame.value]
  exact Nat.le_add_right _ _

theorem resolveOwn (haligned : Aligned shift low high) {record : Relocation}
    {resolution? : Option Resolution} (hok : high.resolveOwn record = .ok resolution?) :
    ∃ former?, low.resolveOwn record = .ok former? ∧
      Option.Rel Resolution.Alike former? resolution? := by
  unfold Relocated.resolveOwn at hok ⊢
  cases hindex : record.symbolIndex? with
  | none =>
    rw [hindex] at hok
    obtain rfl := Except.ok.inj hok
    exact ⟨none, rfl, .none⟩
  | some index =>
    rw [hindex] at hok
    dsimp only at hok ⊢
    rcases exists_of_rel (haligned.object.symbols index) with
      ⟨hlow, hhigh⟩ | ⟨entry, other, hlow, hhigh, hsame⟩
    · rw [hhigh] at hok
      cases hok
    · rw [hhigh] at hok
      rw [hlow]
      dsimp only at hok ⊢
      rw [hsame.symbol.isDefined] at hok
      cases hdefined : entry.symbol.isDefined with
      | false =>
        rw [hdefined, if_neg Bool.false_ne_true] at hok
        obtain rfl := Except.ok.inj hok
        exact ⟨none, rfl, .none⟩
      | true =>
        rw [hdefined, if_pos rfl] at hok
        obtain ⟨patch, hpatch, hreturn⟩ := Fallible.bind_eq_ok_iff.mp hok
        obtain rfl := Fallible.pure_eq_ok_iff.mp hreturn
        obtain ⟨former, hformer, haddress⟩ :=
          exists_ofAddress_of_le (haligned.addressOf_le hsame.symbol) hpatch
        refine ⟨some ⟨former, entry.symbol.segment?⟩, ?_, .some ⟨haddress, ?_⟩⟩
        · rw [if_pos rfl, hformer]
          rfl
        · exact hsame.symbol.segment?.symm

/-- Records with alike resolutions are settled alike. -/
theorem settled_alike {formers resolutions : List (Option Resolution)}
    (halike : List.Forall₂ (Option.Rel Resolution.Alike) formers resolutions)
    {bytes others : Array UInt8} (hsize : others.size = bytes.size) (records : List Relocation) :
    ((∀ item ∈ records.zip resolutions, isSettled others item) →
      ∀ item ∈ records.zip formers, isSettled bytes item) ∧
    (outcomesOf (records.zip resolutions)).map (·.record) =
      (outcomesOf (records.zip formers)).map (·.record) := by
  induction halike generalizing records with
  | nil => simp
  | @cons former? resolution? _ _ hfirst _ ih =>
    cases records with
    | nil => simp
    | cons record rest =>
      obtain ⟨hsettled, hrecords⟩ := ih rest
      simp only [List.zip_cons_cons, List.forall_mem_cons, outcomesOf, List.map_cons] at hrecords ⊢
      rcases exists_of_rel hfirst with ⟨rfl, rfl⟩ | ⟨former, resolution, rfl, rfl, hsame⟩
      · exact ⟨fun hall ↦ ⟨rfl, hsettled hall.2⟩, congrArg _ hrecords⟩
      · refine ⟨fun hall ↦ ⟨?_, hsettled hall.2⟩, ?_⟩
        · have hinside := hall.1
          simp only [isSettled, Option.all_some, Placeholder.isInside_iff] at hinside ⊢
          rwa [hsame.address, ← hsize]
        · simp only [Option.bind_some, hsame.segment?, hrecords]

/-- Settling records goes through where text is lower. -/
theorem settleRecords (haligned : Aligned shift low high) (owner : StoredSegment) :
    Progress.Lockstep (Aligned shift) (low.settleRecords owner) (high.settleRecords owner) := by
  intro reached hdone
  unfold Relocated.settleRecords at hdone ⊢
  dsimp only at hdone ⊢
  rw [haligned.object.relocations] at hdone
  split at hdone
  · cases hdone
  · rename_i resolutions hresolutions
    obtain ⟨formers, hformers, halike⟩ := Fallible.exists_mapM_of_forall₂
      (fun record _ resolution? hsame hok ↦ hsame ▸ haligned.resolveOwn hok)
      (List.forall₂_same.mpr fun _ _ ↦ rfl) hresolutions
    obtain ⟨contents, hcontents, rfl⟩ := Progress.map_eq_done_iff.mp hdone
    obtain ⟨hsettled, hrecords⟩ := settled_alike halike (haligned.object.size owner)
      (low.object.contents owner).relocations.toList
    obtain rfl := settleAll_eq_done hcontents
    rw [hformers]
    have hlow := hsettled (isSettled_of_settleAll hcontents)
    refine ⟨_, Progress.map_eq_done_iff.mpr ⟨_, settleAll_of_settled hlow, rfl⟩,
      haligned.of_object (haligned.object.setContents owner ?_ ?_)⟩
    · exact congrArg List.toArray hrecords
    · rw [Outcome.size_contents, Outcome.size_contents, haligned.object.size]

end Aligned

/-! ### The records of another object -/

/-- Adoptions of the same records into objects of which one has its text higher. -/
structure Adoption.Aligned (shift : Nat) (low high : Adoption) : Prop where
  module : low.module.Aligned shift high.module
  records : high.records = low.records

namespace Adoption.Aligned

variable {shift : Nat} {low high : Adoption}

theorem add (haligned : Aligned shift low high) (record : Relocation) :
    Aligned shift (low.add record) (high.add record) :=
  ⟨haligned.module, congrArg (List.cons record) haligned.records⟩

theorem write (haligned : Aligned shift low high) (patch other : Patch) :
    Aligned shift (low.write patch) (high.write other) :=
  ⟨haligned.module, haligned.records⟩

theorem finish (haligned : Aligned shift low high) (owner : StoredSegment) :
    (low.finish owner).Aligned shift (high.finish owner) := by
  unfold Adoption.finish
  rw [Object.modifyContents_eq, Object.modifyContents_eq]
  refine haligned.module.of_object (haligned.module.object.setContents owner ?_ ?_)
  · rw [haligned.module.object.relocations, haligned.records]
  · rw [Patch.foldl_write, Patch.foldl_write, Slot.size_foldl_write, Slot.size_foldl_write,
      haligned.module.object.size]

/-- The address of a definition is written where text is lower, if it is where text is higher. -/
theorem writeAddress (haligned : Aligned shift low high) {symbol other : Symbol}
    (hsame : symbol.Raised shift other) (owner : StoredSegment) (address : UInt32)
    (pointed : Relocation) :
    Progress.Lockstep (Aligned shift)
      (match Patch.ofAddress address (low.module.addressOf symbol) with
      | .error fault => .stopped low fault
      | .ok patch =>
        if Placeholder.isInside (low.module.object.contents owner).bytes patch.address.toNat then
          .done ((low.add (settle pointed symbol.segment?)).write patch)
        else .stopped low (.placeholderOutside owner.segment address))
      (match Patch.ofAddress address (high.module.addressOf other) with
      | .error fault => .stopped high fault
      | .ok patch =>
        if Placeholder.isInside (high.module.object.contents owner).bytes patch.address.toNat then
          .done ((high.add (settle pointed other.segment?)).write patch)
        else .stopped high (.placeholderOutside owner.segment address)) := by
  cases hpatch : Patch.ofAddress address (high.module.addressOf other) with
  | error fault => exact .of_stopped
  | ok patch =>
    obtain ⟨former, hformer, haddress⟩ :=
      exists_ofAddress_of_le (haligned.module.addressOf_le hsame) hpatch
    have hinside :
        Placeholder.isInside (low.module.object.contents owner).bytes former.address.toNat =
          Placeholder.isInside (high.module.object.contents owner).bytes patch.address.toNat := by
      unfold Placeholder.isInside
      rw [haligned.module.object.size, haddress]
    rw [hformer, hsame.segment?]
    dsimp only
    rw [hinside]
    split
    · exact .of_done ((haligned.add _).write former patch)
    · exact .of_stopped

end Adoption.Aligned

/-- Taking in one record goes through where text is lower. -/
theorem Raised.adopt {shift : Nat} {first second : Relocated} {taken further : Adoption}
    (hothers : Raised shift first second) (haligned : taken.Aligned shift further)
    (owner : StoredSegment) (offset : UInt32) (record : Relocation) :
    Progress.Lockstep (Adoption.Aligned shift) (adopt first owner offset taken record)
      (adopt second owner offset further record) := by
  unfold Relocated.adopt
  dsimp only
  cases hindex : record.symbolIndex? with
  | none => exact .of_done (haligned.add _)
  | some index =>
    dsimp only
    rcases exists_of_rel (hothers.object.symbols index) with
      ⟨hlow, hhigh⟩ | ⟨entry, other, hlow, hhigh, hsame⟩
    · rw [hhigh]
      exact .of_stopped
    · rw [hlow, hhigh]
      dsimp only
      -- The name is found, or awaited, at the same position of both tables.
      obtain ⟨hposition, hobject⟩ := haligned.module.object.await entry.name
      rw [hsame.name, hposition]
      have hjoined : Adoption.Aligned shift
          { taken with module := taken.module.awaiting entry.name }
          { further with module := further.module.awaiting entry.name } :=
        ⟨haligned.module.of_object hobject, haligned.records⟩
      rcases exists_of_rel (hobject.symbols (taken.module.object.await entry.name).1) with
        ⟨hlow, hhigh⟩ | ⟨found, latter, hlow, hhigh, hfound⟩
      · rw [hlow, hhigh]
        exact .of_done (hjoined.add _)
      · rw [hlow, hhigh, Option.filter_some, Option.filter_some, hfound.symbol.isDefined]
        cases hdefined : found.symbol.isDefined with
        | false => exact .of_done (hjoined.add _)
        | true => exact hjoined.writeAddress hfound.symbol owner _ _

/-- Taking in all records of a segment goes through where text is lower. -/
theorem Aligned.adoptAll {shift : Nat} {low high first second : Relocated}
    (haligned : Aligned shift low high) (hothers : Raised shift first second)
    (owner : StoredSegment) (offset : UInt32) :
    Progress.Lockstep (Aligned shift) (low.adoptAll first owner offset)
      (high.adoptAll second owner offset) := by
  unfold Relocated.adoptAll
  rw [hothers.object.relocations]
  have heach : Progress.Lockstep (Adoption.Aligned shift)
      (.each (Relocated.adopt first owner offset) (.start low)
        (first.object.contents owner).relocations.toList)
      (.each (Relocated.adopt second owner offset) (.start high)
        (first.object.contents owner).relocations.toList) :=
    .each (fun _ _ _ _ hsame hstates ↦ hsame ▸ hothers.adopt hstates owner offset _)
      (List.forall₂_same.mpr fun _ _ ↦ rfl) ⟨haligned, rfl⟩
  exact heach.map fun _ _ hfinal ↦ hfinal.finish owner

/-! ### Concatenation -/

/-- One object takes in another one where text is lower, if it does where text is higher. Then all
symbols are addresses, which only differ in text. -/
theorem Raised.concat {shift : Nat} {low high first second : Relocated}
    (hraised : Raised shift low high) (hothers : Raised shift first second) :
    Progress.Lockstep (Aligned shift) (low.concat first) (high.concat second) := by
  have hoffset (owner : StoredSegment) :
      (high.object.contents owner).size = (low.object.contents owner).size :=
    congrArg UInt32.ofNat (hraised.object.size owner)
  have htext : high.object.text.size = low.object.text.size := hoffset .text
  have hdata : high.object.data.size = low.object.data.size := hoffset .data
  unfold Relocated.concat
  dsimp only
  rw [hraised.object.bssSize, hothers.object.bssSize, htext, hdata]
  cases Word.checkedAdd? low.object.bssSize first.object.bssSize with
  | none => exact .of_stopped
  | some bssSize =>
    dsimp only
    refine .andThen (.andThen (.andThen (.andThen ?_ ?_) ?_) ?_) ?_
    · exact (hraised.rebase.appendSegments hothers bssSize).mergeSymbols hothers
    · intro state reached haligned
      rw [fixUp_eq, fixUp_eq]
      exact haligned.settleRecords .text
    · intro state reached haligned
      rw [fixUp_eq, fixUp_eq]
      exact haligned.settleRecords .data
    · exact fun state reached haligned ↦ haligned.adoptAll hothers .text _
    · exact fun state reached haligned ↦ haligned.adoptAll hothers .data _

end Relocated

end Aout
