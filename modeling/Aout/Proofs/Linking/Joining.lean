import Aout.Proofs.Linking.Records
/-!
One object that has taken in another one, as a whole (`Relocated.Joined`): its segments are those of
both objects behind one another, its names mean what they meant in the first object or else in the
second, and every record of either object had its outcome in the joint table.
`Relocated.concat_eq_done` says that a concatenation without a fault yields such an object, and
`Relocated.concat_fault` what there is to be wrong with two objects whose records are in range: too
much bss, a name on which they disagree in public, or a reference to an address of more than 16
bits.
-/

set_option autoImplicit false
set_option relaxedAutoImplicit false

namespace Aout

namespace Object

/-- All placeholders lie inside their segments, and all symbols that are referred to are in the
table. -/
structure InRange (object : Object) : Prop where
  inside : ∀ owner, ∀ record ∈ (object.contents owner).relocations,
    record.address.toNat + 1 < (object.contents owner).bytes.size
  known : ∀ owner, ∀ record ∈ (object.contents owner).relocations, ∀ index,
    record.symbolIndex? = some index → index < object.symbols.size

end Object

namespace Relocated

variable {first second module middle after : Relocated}

/-- A module after its own records are settled, in text and in data. -/
structure Settled (before after : Relocated) : Prop where
  symbols : after.object.symbols = before.object.symbols
  bssSize : after.object.bssSize = before.object.bssSize
  bases : after.bases = before.bases
  rebased : after.rebased = before.rebased
  contents : ∀ owner, ∃ outcomes,
    List.Forall₂ (OwnOutcome before.object.symbols)
      (before.object.contents owner).relocations.toList outcomes ∧
    after.object.contents owner =
      Outcome.contents (before.object.contents owner).bytes outcomes

theorem SettledIn.both (htext : SettledIn .text module middle)
    (hdata : SettledIn .data middle after) :
    Settled module after where
  symbols := hdata.symbols.trans htext.symbols
  bssSize := hdata.bssSize.trans htext.bssSize
  bases := hdata.bases.trans htext.bases
  rebased := hdata.rebased.trans htext.rebased
  contents := by
    have hkept := htext.others .data (by decide)
    rintro (_ | _)
    · rw [hdata.others .text (by decide)]
      exact htext.contents
    · rw [← hkept, ← htext.symbols]
      exact hdata.contents

/-- A module after it has taken in the records of another one, in text and in data. -/
structure Adopted (other : Relocated) (shift : StoredSegment → UInt32) (before after : Relocated) :
    Prop where
  awaits : before.object.symbols.Awaits after.object.symbols
  bssSize : after.object.bssSize = before.object.bssSize
  bases : after.bases = before.bases
  rebased : after.rebased = before.rebased
  contents : ∀ owner, ∃ outcomes,
    List.Forall₂ (AdoptedOutcome after.object.symbols other.object.symbols (shift owner))
      (other.object.contents owner).relocations.toList outcomes ∧
    (∀ patch ∈ Outcome.patches outcomes,
      patch.address.toNat + 1 < (before.object.contents owner).bytes.size) ∧
    after.object.contents owner =
      ⟨(Outcome.patches outcomes).foldl Patch.write (before.object.contents owner).bytes,
        (before.object.contents owner).relocations ++ outcomes.map (·.record)⟩

theorem AdoptedIn.both {other : Relocated} {shift : StoredSegment → UInt32}
    (htext : AdoptedIn .text other (shift .text) module middle)
    (hdata : AdoptedIn .data other (shift .data) middle after) :
    Adopted other shift module after where
  awaits := htext.awaits.trans hdata.awaits
  bssSize := hdata.bssSize.trans htext.bssSize
  bases := hdata.bases.trans htext.bases
  rebased := hdata.rebased.trans htext.rebased
  contents := by
    have hkept := htext.others .data (by decide)
    rintro (_ | _)
    · obtain ⟨outcomes, hadopted, hinside, hcontents⟩ := htext.contents
      refine ⟨outcomes, hadopted.imp fun _ _ houtcome ↦ houtcome.awaits hdata.awaits, hinside, ?_⟩
      rw [hdata.others .text (by decide), hcontents]
    · rw [← hkept]
      exact hdata.contents

/-! ### Both objects -/

/-- The bytes of two objects in one, before any record or symbol of the second is taken in. -/
structure Abutted (first second joint : Relocated) : Prop where
  rebased : joint.rebased = true
  bases : joint.bases = first.bases
  bssSize : joint.object.bssSize.toNat = first.object.bssSize.toNat + second.object.bssSize.toNat
  symbols : joint.object.symbols = first.rebase.object.symbols
  contents : ∀ owner, joint.object.contents owner =
    ⟨(first.object.contents owner).bytes ++ (second.object.contents owner).bytes,
      (first.object.contents owner).relocations⟩

theorem abutted {bssSize : UInt32}
    (hbss : Word.checkedAdd? first.object.bssSize second.object.bssSize = some bssSize) :
    Abutted first second (first.rebase.appendSegments second bssSize) where
  rebased := rebased_rebase first
  bases := bases_rebase first
  bssSize := (Word.checkedAdd?_eq_some_iff.mp hbss).symm
  symbols := rfl
  contents := by
    rintro (_ | _)
    · rw [← contents_rebase first]
      rfl
    · rw [← contents_rebase first]
      rfl

@[simp] theorem size_symbols_rebase (module : Relocated) :
    module.rebase.object.symbols.size = module.object.symbols.size := by
  unfold rebase
  split
  · rfl
  · exact SymbolTable.size_mapValues ..

theorem Abutted.distinct {joint : Relocated} (habutted : Abutted first second joint)
    (hdistinct : first.NamesDistinct) : joint.NamesDistinct := by
  rw [NamesDistinct, habutted.symbols]
  exact namesDistinct_rebase hdistinct

theorem Abutted.meaning? {joint : Relocated} (habutted : Abutted first second joint)
    (name : String) : joint.meaning? name = first.meaning? name := by
  rw [← meaning?_rebase first]
  unfold Relocated.meaning? addressOf
  rw [habutted.symbols, habutted.rebased, rebased_rebase]
  rfl

/-- The offset at which the bytes of another object come to stand. -/
def shift (module : Relocated) (owner : StoredSegment) : UInt32 :=
  (module.object.contents owner).size

/-- A placeholder of the second object lies inside the joint segment once it is moved, whether or
not its offset overflows. -/
theorem inside_of_moved {owner : StoredSegment} {address : UInt32}
    (hinside : address.toNat + 1 < (second.object.contents owner).bytes.size) :
    (address + first.shift owner).toNat + 1 <
      (first.object.contents owner).bytes.size + (second.object.contents owner).bytes.size := by
  rw [UInt32.toNat_add, shift, Section.size, UInt32.toNat_ofNat']
  omega

/-- The offset of a moved placeholder is exact if all offsets into the joint segment have 32
bits. -/
theorem toNat_moved {owner : StoredSegment} {address : UInt32}
    (hinside : address.toNat + 1 < (second.object.contents owner).bytes.size)
    (hbytes : (first.object.contents owner).bytes.size +
      (second.object.contents owner).bytes.size ≤ UInt32.size) :
    (address + first.shift owner).toNat =
      (first.object.contents owner).bytes.size + address.toNat := by
  have hmodulus : UInt32.size = 4294967296 := rfl
  rw [UInt32.toNat_add, shift, Section.size, UInt32.toNat_ofNat']
  omega

/-- The entries of an object keep their positions and names in a table that grows out of its own. -/
theorem exists_entryAt?_of_grows {table : SymbolTable}
    (hgrows : first.rebase.object.symbols.Grows table) {position : Nat} {entry : SymbolEntry}
    (hentry : first.object.symbols.entryAt? position = some entry) :
    ∃ symbol, table.entryAt? position = some ⟨entry.name, symbol⟩ := by
  have hrebase := entryAt?_rebase first position
  rw [hentry, Option.map_some] at hrebase
  obtain ⟨⟨_, symbol⟩, hlater, rfl, -⟩ := hgrows.kept position _ hrebase
  exact ⟨symbol, hlater⟩

/-- One object that knows the symbols of two: those of the first where they were, and those of the
second by name. -/
structure Informed (first second informed : Relocated) : Prop where
  rebased : informed.rebased = true
  bases : informed.bases = first.bases
  bssSize : informed.object.bssSize.toNat =
    first.object.bssSize.toNat + second.object.bssSize.toNat
  grows : first.rebase.object.symbols.Grows informed.object.symbols
  meaning : ∀ name, informed.meaning? name = (first.meaning? name).or (second.meaning? name)

namespace Informed

theorem distinct {informed : Relocated} (hinformed : Informed first second informed)
    (hdistinct : first.NamesDistinct) : informed.NamesDistinct :=
  hinformed.grows.distinct (namesDistinct_rebase hdistinct)

theorem of_awaits (hinformed : Informed first second middle) (hfirst : first.NamesDistinct)
    (hawaits : middle.object.symbols.Awaits after.object.symbols)
    (hbssSize : after.object.bssSize = middle.object.bssSize) (hbases : after.bases = middle.bases)
    (hrebased : after.rebased = middle.rebased) : Informed first second after where
  rebased := hrebased.trans hinformed.rebased
  bases := hbases.trans hinformed.bases
  bssSize := by rw [hbssSize, hinformed.bssSize]
  grows := hinformed.grows.trans hawaits.grows
  meaning := by
    intro name
    rw [← hinformed.meaning]
    exact meaning?_of_awaits hawaits hbases hrebased (hinformed.distinct hfirst) name

theorem settledIn {owner : StoredSegment} (hinformed : Informed first second middle)
    (hfirst : first.NamesDistinct) (hsettled : SettledIn owner middle after) :
    Informed first second after :=
  hinformed.of_awaits hfirst (hsettled.symbols ▸ .refl _) hsettled.bssSize hsettled.bases
    hsettled.rebased

theorem adoptedIn {owner : StoredSegment} {other : Relocated} {shift : UInt32}
    (hinformed : Informed first second middle) (hfirst : first.NamesDistinct)
    (hadopted : AdoptedIn owner other shift middle after) : Informed first second after :=
  hinformed.of_awaits hfirst hadopted.awaits hadopted.bssSize hadopted.bases hadopted.rebased

end Informed

/-- The bytes of two objects in one, with the symbols of both and the records of the first. -/
structure Gathered (first second gathered : Relocated) : Prop
    extends Informed first second gathered where
  agree : ∀ name, ¬ ClashAt first second name
  contents : ∀ owner, gathered.object.contents owner =
    ⟨(first.object.contents owner).bytes ++ (second.object.contents owner).bytes,
      (first.object.contents owner).relocations⟩

theorem Abutted.clashAt_iff {joint : Relocated} (habutted : Abutted first second joint)
    (name : String) : ClashAt joint second name ↔ ClashAt first second name := by
  unfold ClashAt
  rw [habutted.meaning?]

theorem Abutted.gathered {joint gathered : Relocated} (habutted : Abutted first second joint)
    (hfirst : first.NamesDistinct) (hsecond : second.NamesDistinct)
    (hdone : joint.mergeSymbols second = .done gathered) : Gathered first second gathered := by
  obtain ⟨hmerges, hagree⟩ :=
    mergeSymbols_eq_done habutted.rebased (habutted.distinct hfirst) hsecond hdone
  have hgrows := hmerges.grows
  rw [habutted.symbols] at hgrows
  exact {
    rebased := hmerges.same.rebased.trans habutted.rebased
    bases := hmerges.same.bases.trans habutted.bases
    bssSize := by rw [hmerges.same.bssSize, habutted.bssSize]
    grows := hgrows
    meaning := fun name ↦ by rw [hmerges.meaning, habutted.meaning?]
    agree := fun name ↦ by
      rw [← habutted.clashAt_iff]
      exact hagree name
    contents := fun owner ↦ by rw [hmerges.same.contents, habutted.contents] }

theorem Gathered.settled {gathered : Relocated} (hgathered : Gathered first second gathered)
    (hfirst : first.NamesDistinct) (htext : gathered.settleRecords .text = .done middle)
    (hdata : middle.settleRecords .data = .done after) :
    Settled gathered after ∧ Informed first second after := by
  have hsettledText := settleRecords_eq_done hgathered.rebased htext
  have hmiddle := hgathered.settledIn hfirst hsettledText
  have hsettledData := settleRecords_eq_done hmiddle.rebased hdata
  exact ⟨hsettledText.both hsettledData, hmiddle.settledIn hfirst hsettledData⟩

theorem Gathered.size_settled {gathered settled : Relocated}
    (hgathered : Gathered first second gathered) (hsettled : Settled gathered settled)
    (owner : StoredSegment) : (settled.object.contents owner).bytes.size =
      (first.object.contents owner).bytes.size + (second.object.contents owner).bytes.size := by
  obtain ⟨outcomes, -, hcontents⟩ := hsettled.contents owner
  rw [hcontents, Outcome.size_contents, hgathered.contents, Array.size_append]

/-- The segments of two objects in one: their bytes behind one another, with what became of every
record of either object written over its placeholder. -/
structure Stacked (first second joined : Relocated) : Prop where
  rebased : joined.rebased = true
  bases : joined.bases = first.bases
  bssSize : joined.object.bssSize.toNat = first.object.bssSize.toNat + second.object.bssSize.toNat
  contents : ∀ owner, ∃ own adopted,
    List.Forall₂ (OwnOutcome joined.object.symbols)
      (first.object.contents owner).relocations.toList own ∧
    List.Forall₂
      (AdoptedOutcome joined.object.symbols second.object.symbols (first.shift owner))
      (second.object.contents owner).relocations.toList adopted ∧
    (∀ patch ∈ Outcome.patches adopted, patch.address.toNat + 1 <
      (first.object.contents owner).bytes.size + (second.object.contents owner).bytes.size) ∧
    joined.object.contents owner = Outcome.contents
      ((first.object.contents owner).bytes ++ (second.object.contents owner).bytes) (own ++ adopted)

/-- One object that has taken in another one. -/
structure Joined (first second joined : Relocated) : Prop extends Informed first second joined where
  agree : ∀ name, ¬ ClashAt first second name
  contents : ∀ owner, ∃ own adopted,
    List.Forall₂ (OwnOutcome joined.object.symbols)
      (first.object.contents owner).relocations.toList own ∧
    List.Forall₂
      (AdoptedOutcome joined.object.symbols second.object.symbols (first.shift owner))
      (second.object.contents owner).relocations.toList adopted ∧
    (∀ patch ∈ Outcome.patches adopted, patch.address.toNat + 1 <
      (first.object.contents owner).bytes.size + (second.object.contents owner).bytes.size) ∧
    joined.object.contents owner = Outcome.contents
      ((first.object.contents owner).bytes ++ (second.object.contents owner).bytes) (own ++ adopted)

/-- The steps of a concatenation without a fault: the segments are joined, the symbols merged, the
records of the first object settled and those of the second one taken in. -/
theorem steps_of_concat {joined : Relocated} (hdone : first.concat second = .done joined) :
    ∃ joint gathered fixed settled adopted, Abutted first second joint ∧
      joint.mergeSymbols second = .done gathered ∧
      gathered.settleRecords .text = .done fixed ∧ fixed.settleRecords .data = .done settled ∧
      settled.adoptAll second .text (first.shift .text) = .done adopted ∧
      adopted.adoptAll second .data (first.shift .data) = .done joined := by
  unfold concat at hdone
  dsimp only at hdone
  split at hdone
  · cases hdone
  · rename_i bssSize hbss
    simp only [Progress.andThen_eq_done_iff, fixUp_eq] at hdone
    obtain ⟨adopted, ⟨settled, ⟨fixed, ⟨gathered, hmerge, hfixText⟩, hfixData⟩, hadoptText⟩,
      hadoptData⟩ := hdone
    exact ⟨_, gathered, fixed, settled, adopted, abutted hbss, hmerge, hfixText, hfixData,
      hadoptText, hadoptData⟩

/-- A concatenation without a fault merges the symbols, after which only awaited ones enter the
table, and stacks the segments. -/
theorem stacked_of_concat {joined : Relocated} (hdone : first.concat second = .done joined) :
    ∃ joint gathered, Abutted first second joint ∧ joint.mergeSymbols second = .done gathered ∧
      gathered.object.symbols.Awaits joined.object.symbols ∧ Stacked first second joined := by
  obtain ⟨joint, gathered, fixed, settled, adopted, habutted, hmerge, hfixText, hfixData,
    hadoptText, hadoptData⟩ := steps_of_concat hdone
  have hsame : SameContents joint gathered := by
    have hstate := sameContents_mergeSymbols joint second
    rw [hmerge] at hstate
    exact hstate
  have hrebased : gathered.rebased = true := hsame.rebased.trans habutted.rebased
  have hsettledText := settleRecords_eq_done hrebased hfixText
  have hsettledData := settleRecords_eq_done (hsettledText.rebased.trans hrebased) hfixData
  have hsettled := hsettledText.both hsettledData
  have hadoptedText := adoptAll_eq_done (hsettled.rebased.trans hrebased) hadoptText
  have hadoptedData := adoptAll_eq_done
    (hadoptedText.rebased.trans (hsettled.rebased.trans hrebased)) hadoptData
  have hadopted : Adopted second first.shift settled joined := hadoptedText.both hadoptedData
  have hawaits : gathered.object.symbols.Awaits joined.object.symbols :=
    hsettled.symbols ▸ hadopted.awaits
  refine ⟨joint, gathered, habutted, hmerge, hawaits, ?_, ?_, ?_, fun owner ↦ ?_⟩
  · rw [hadopted.rebased, hsettled.rebased, hrebased]
  · rw [hadopted.bases, hsettled.bases, hsame.bases]
    exact habutted.bases
  · rw [hadopted.bssSize, hsettled.bssSize, hsame.bssSize]
    exact habutted.bssSize
  · obtain ⟨own, hown, hownContents⟩ := hsettled.contents owner
    obtain ⟨taken, htaken, hinside, htakenContents⟩ := hadopted.contents owner
    have hjoint := (hsame.contents owner).trans (habutted.contents owner)
    rw [hjoint] at hown hownContents
    refine ⟨own, taken, hown.imp fun _ _ houtcome ↦ houtcome.awaits hawaits, htaken, ?_, ?_⟩
    · rwa [hownContents, Outcome.size_contents, Array.size_append] at hinside
    · rw [htakenContents, hownContents, Outcome.contents_append]

/-- A concatenation without a fault puts both objects into one. -/
theorem concat_eq_done (hfirst : first.NamesDistinct) (hsecond : second.NamesDistinct)
    {joined : Relocated} (hdone : first.concat second = .done joined) :
    Joined first second joined := by
  obtain ⟨joint, gathered, habutted, hmerge, hawaits, hstacked⟩ := stacked_of_concat hdone
  have hgathered := habutted.gathered hfirst hsecond hmerge
  have hbssSize : joined.object.bssSize = gathered.object.bssSize := by
    rw [← UInt32.toNat_inj, hstacked.bssSize, hgathered.bssSize]
  exact {
    toInformed := hgathered.toInformed.of_awaits hfirst hawaits hbssSize
      (hstacked.bases.trans hgathered.bases.symm) (hstacked.rebased.trans hgathered.rebased.symm)
    agree := hgathered.agree
    contents := hstacked.contents }

/-! ### Faults -/

/-- What is wrong with two objects, one of which cannot take in the other one. -/
inductive Unjoinable (first second : Relocated) : Prop
  | bss (htotal : UInt32.size ≤ first.object.bssSize.toNat + second.object.bssSize.toNat)
  | clash (name : String) (hclash : ClashAt first second name)
  | wide (name : String) (meaning : Meaning)
      (hrefers : first.object.RefersTo name ∨ second.object.RefersTo name)
      (hmeaning : (first.meaning? name).or (second.meaning? name) = some meaning)
      (hwide : 0xFFFF < meaning.address.toNat)

/-- A record of the first object refers too far once the symbols of both are known. -/
private theorem unjoinable_of_own {reached : Relocated} {owner : StoredSegment}
    {record : Relocation} (hinformed : Informed first second reached)
    (hrange : first.object.InRange) (hrecord : record ∈ (first.object.contents owner).relocations)
    (hoverreach : reached.Overreach reached record) : Unjoinable first second := by
  obtain ⟨index, entry, meaning, hindex, hentry, hmeans, hwide⟩ := hoverreach
  have hknown := hrange.known owner record hrecord index hindex
  obtain ⟨former, hformer⟩ : ∃ former, first.object.symbols.entryAt? index = some former :=
    ⟨_, Array.getElem?_eq_getElem hknown⟩
  obtain ⟨symbol, hlater⟩ := exists_entryAt?_of_grows hinformed.grows hformer
  obtain rfl := Option.some.inj (hlater.symm.trans hentry)
  rw [hinformed.meaning] at hmeans
  exact .wide former.name meaning
    (.inl ⟨owner, record, hrecord, index, former.symbol, hindex, hformer⟩) hmeans hwide

private theorem unjoinable_of_settling {reached : Relocated} {owner : StoredSegment}
    (hinformed : Informed first second reached) (hfirst : first.NamesDistinct)
    (hrange : first.object.InRange)
    (hcontents : reached.object.contents owner =
      ⟨(first.object.contents owner).bytes ++ (second.object.contents owner).bytes,
        (first.object.contents owner).relocations⟩) {fault : LinkFault}
    (hfault : (reached.settleRecords owner).fault? = some fault) : Unjoinable first second := by
  have hinside : ∀ record ∈ (reached.object.contents owner).relocations,
      record.address.toNat + 1 < (reached.object.contents owner).bytes.size := by
    rw [hcontents, Array.size_append]
    intro record hrecord
    have hinside := hrange.inside owner record hrecord
    omega
  have hknown : ∀ record ∈ (reached.object.contents owner).relocations, ∀ index,
      record.symbolIndex? = some index → index < reached.object.symbols.size := by
    rw [hcontents]
    intro record hrecord index hindex
    have hknown := hrange.known owner record hrecord index hindex
    have hgrown := hinformed.grows.size_le
    rw [size_symbols_rebase] at hgrown
    omega
  obtain ⟨record, hrecord, hoverreach⟩ :=
    settleRecords_fault hinformed.rebased (hinformed.distinct hfirst) hinside hknown hfault
  rw [hcontents] at hrecord
  exact unjoinable_of_own hinformed hrange hrecord hoverreach

private theorem unjoinable_of_adopting {reached : Relocated} {owner : StoredSegment}
    (hinformed : Informed first second reached) (hfirst : first.NamesDistinct)
    (hrange : second.object.InRange)
    (hsize : (reached.object.contents owner).bytes.size =
      (first.object.contents owner).bytes.size + (second.object.contents owner).bytes.size)
    {fault : LinkFault}
    (hfault : (reached.adoptAll second owner (first.shift owner)).fault? = some fault) :
    Unjoinable first second := by
  have hinside : ∀ record ∈ (second.object.contents owner).relocations,
      (record.address + first.shift owner).toNat + 1 <
        (reached.object.contents owner).bytes.size := by
    intro record hrecord
    rw [hsize]
    exact inside_of_moved (hrange.inside owner record hrecord)
  obtain ⟨record, hrecord, index, entry, meaning, hindex, hentry, hmeans, hwide⟩ :=
    adoptAll_fault hinformed.rebased (hinformed.distinct hfirst) hinside (hrange.known owner) hfault
  rw [hinformed.meaning] at hmeans
  exact .wide entry.name meaning
    (.inr ⟨owner, record, hrecord, index, entry.symbol, hindex, hentry⟩)
    hmeans hwide

/-- Of two objects with records in range, only what makes them unjoinable stops a concatenation. -/
theorem concat_fault (hfirst : first.NamesDistinct) (hsecond : second.NamesDistinct)
    (hfirstRange : first.object.InRange) (hsecondRange : second.object.InRange) {fault : LinkFault}
    (hfault : (first.concat second).fault? = some fault) : Unjoinable first second := by
  unfold concat at hfault
  dsimp only at hfault
  split at hfault
  · rename_i hbss
    refine .bss ?_
    unfold Word.checkedAdd? at hbss
    split at hbss
    · cases hbss
    · omega
  · rename_i bssSize hbss
    have habutted := abutted hbss
    simp only [Progress.fault?_andThen_eq_some_iff, Progress.andThen_eq_done_iff, fixUp_eq,
      or_assoc] at hfault
    rcases hfault with hmerge | ⟨gathered, hmerge, hfixText⟩ |
      ⟨fixed, ⟨gathered, hmerge, hfixText⟩, hfixData⟩ |
      ⟨settled, ⟨fixed, ⟨gathered, hmerge, hfixText⟩, hfixData⟩, hadoptText⟩ |
      ⟨adopted, ⟨settled, ⟨fixed, ⟨gathered, hmerge, hfixText⟩, hfixData⟩, hadoptText⟩, hadoptData⟩
    · obtain ⟨name, -, hclash⟩ :=
        mergeSymbols_fault habutted.rebased (habutted.distinct hfirst) hsecond hmerge
      exact .clash name ((habutted.clashAt_iff name).mp hclash)
    · have hgathered := habutted.gathered hfirst hsecond hmerge
      exact unjoinable_of_settling hgathered.toInformed hfirst hfirstRange (hgathered.contents _)
        hfixText
    · have hgathered := habutted.gathered hfirst hsecond hmerge
      have hfixedText := settleRecords_eq_done hgathered.rebased hfixText
      have hfixed := hgathered.settledIn hfirst hfixedText
      refine unjoinable_of_settling hfixed hfirst hfirstRange ?_ hfixData
      rw [hfixedText.others .data (by decide), hgathered.contents]
    · have hgathered := habutted.gathered hfirst hsecond hmerge
      obtain ⟨hsettled, hinformed⟩ := hgathered.settled hfirst hfixText hfixData
      exact unjoinable_of_adopting hinformed hfirst hsecondRange (hgathered.size_settled hsettled _)
        hadoptText
    · have hgathered := habutted.gathered hfirst hsecond hmerge
      obtain ⟨hsettled, hinformed⟩ := hgathered.settled hfirst hfixText hfixData
      have hadoptedText := adoptAll_eq_done hinformed.rebased hadoptText
      have hadopted := hinformed.adoptedIn hfirst hadoptedText
      refine unjoinable_of_adopting hadopted hfirst hsecondRange ?_ hadoptData
      rw [hadoptedText.others .data (by decide), hgathered.size_settled hsettled]

end Relocated

end Aout
