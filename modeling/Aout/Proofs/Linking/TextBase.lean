import Aout.Proofs.Linking.FirstDefinitions
import Aout.Proofs.Linking.Lockstep
import Aout.Proofs.Linking.Siblings
import Aout.Proofs.Linking.Values
/-!
Linking at two text bases. Where the objects link with their text at one address, they also link
with it at any lower one, and the two images differ in what lies in text alone: in the words of
placeholders that stand for text, in the values of text symbols and in an entry address in text,
each by the distance of the two bases (`link_raised`).

The layouts differ in the bases of text (`exists_layout`), so what a placeholder comes to differs by
what its target segment is raised (`Placed.ComesTo.lower`). From there on the two links go in
lockstep.
-/

set_option autoImplicit false
set_option relaxedAutoImplicit false

namespace Aout

open Placeholder

/-! ### Layout -/

theorem Layout.exists_advance {segment : Segment} {shift : Nat} {low high size stop : UInt32}
    (hstart : high.toNat = low.toNat + shift) (hstop : advance segment high size = .ok stop) :
    ∃ former, advance segment low size = .ok former ∧ stop.toNat = former.toNat + shift := by
  obtain ⟨hsum, hinside⟩ := advance_eq_ok_iff.mp hstop
  have hfits : low.toNat + size.toNat ≤ addressSpace := by omega
  have hadvance : advance segment low size = .ok (low + size) := if_pos hfits
  refine ⟨low + size, hadvance, ?_⟩
  rw [(advance_eq_ok_iff.mp hadvance).1]
  omega

namespace Bases.Raised

variable {shift : Nat} {low high : Bases}

theorem next (hraised : Raised shift low high) {object : Object} {following : Bases}
    (hnext : Layout.next high object = .ok following) :
    ∃ former, Layout.next low object = .ok former ∧ Raised shift former following := by
  obtain ⟨text, htext, hnext⟩ := Fallible.bind_eq_ok_iff.mp hnext
  obtain ⟨data, hdata, hnext⟩ := Fallible.bind_eq_ok_iff.mp hnext
  obtain ⟨bss, hbss, hreturn⟩ := Fallible.bind_eq_ok_iff.mp hnext
  obtain rfl := Fallible.pure_eq_ok_iff.mp hreturn
  obtain ⟨former, hformer, hstop⟩ := Layout.exists_advance hraised.text htext
  rw [hraised.data] at hdata
  rw [hraised.bss] at hbss
  refine ⟨⟨former, data, bss⟩, ?_, hstop, rfl, rfl, (Layout.advance_eq_ok_iff.mp htext).2⟩
  rw [Layout.next, hformer, hdata, hbss]
  rfl

theorem place (hraised : Raised shift low high) {objects : List Object} {placed : List Bases}
    (hplace : Layout.place high objects = .ok placed) :
    ∃ formers, Layout.place low objects = .ok formers ∧
      List.Forall₂ (Raised shift) formers placed := by
  induction objects generalizing low high placed with
  | nil =>
    obtain rfl := Except.ok.inj hplace
    exact ⟨[], rfl, .nil⟩
  | cons object rest ih =>
    obtain ⟨following, hnext, hrest⟩ := Fallible.bind_eq_ok_iff.mp hplace
    obtain ⟨others, hothers, hreturn⟩ := Fallible.bind_eq_ok_iff.mp hrest
    obtain rfl := Fallible.pure_eq_ok_iff.mp hreturn
    obtain ⟨former, hformer, hfollowing⟩ := hraised.next hnext
    obtain ⟨formers, hformers, hall⟩ := ih hfollowing hothers
    refine ⟨low :: formers, ?_, .cons hraised hall⟩
    rw [Layout.place, hformer]
    exact Fallible.bind_eq_ok_iff.mpr ⟨former, rfl, Fallible.bind_eq_ok_iff.mpr
      ⟨formers, hformers, rfl⟩⟩

end Bases.Raised

/-- Objects that have room above a text base have room above a lower one. -/
theorem exists_layout {objects : List Object} {low high : UInt16} {raised : List Bases}
    (hle : low ≤ high) (hlayout : layout objects high = .ok raised) :
    ∃ bases, layout objects low = .ok bases ∧
      List.Forall₂ (Bases.Raised (high.toNat - low.toNat)) bases raised := by
  obtain ⟨dataTotal, htotal, hplace⟩ := Fallible.bind_eq_ok_iff.mp hlayout
  have hstart : Bases.Raised (high.toNat - low.toNat) ⟨low.toUInt32, 0, dataTotal⟩
      ⟨high.toUInt32, 0, dataTotal⟩ := by
    refine ⟨?_, rfl, rfl, Nat.le_of_lt high.toNat_lt⟩
    rw [UInt16.toNat_toUInt32, UInt16.toNat_toUInt32]
    exact (Nat.add_sub_cancel' (UInt16.le_iff_toNat_le.mp hle)).symm
  obtain ⟨bases, hbases, hraised⟩ := hstart.place hplace
  exact ⟨bases, Fallible.bind_eq_ok_iff.mpr ⟨dataTotal, htotal, hbases⟩, hraised⟩

/-! ### What placeholders come to -/

/-- The segment for which a placeholder of one of several objects stands: the one into which its
record points, or that of the symbol that defines the name to which it refers. -/
def Object.targetSegment? (objects : List Object) (object : Object) (record : Relocation) :
    Option Segment :=
  match record.symbolIndex? with
  | none => Segment.ofTag? record.index
  | some index => do
    let entry ← object.symbols.entryAt? index
    let symbol ← objects.findSome? (·.symbols.definition? entry.name)
    symbol.segment?

namespace Placed

/-- The same object, of which the text may stand higher. -/
structure Raised (shift : Nat) (low high : Placed) : Prop where
  object : high.object = low.object
  bases : low.bases.Raised shift high.bases
  room : low.object.LeavesRoom

variable {shift : Nat} {low high definer : Placed} {lows highs modules : List Placed}
  {owner : StoredSegment} {record : Relocation} {name : String} {symbol : Symbol}

theorem raised_all {objects : List Object} (hroom : ∀ object ∈ objects, object.LeavesRoom)
    {bases raised : List Bases} (hraised : List.Forall₂ (Bases.Raised shift) bases raised) :
    List.Forall₂ (Raised shift) (all objects bases) (all objects raised) := by
  induction hraised generalizing objects with
  | nil =>
    simp only [all, List.zip_nil_right]
    exact .nil
  | cons hfirst _ ih =>
    cases objects with
    | nil => exact .nil
    | cons object rest =>
      rw [List.forall_mem_cons] at hroom
      exact .cons ⟨rfl, hfirst, hroom.1⟩ (ih hroom.2)

theorem Raised.definition? (hraised : Raised shift low high) (name : String) :
    high.definition? name = low.definition? name := by
  rw [Placed.definition?, hraised.object, Placed.definition?]

theorem DefinesOnce.findSome? (hdefines : DefinesOnce modules name definer symbol) :
    (modules.map (·.object)).findSome? (·.symbols.definition? name) = some symbol := by
  obtain ⟨hsymbol, place, hplace, honly⟩ := hdefines
  rw [List.findSome?_map]
  cases hfound : modules.findSome? ((·.symbols.definition? name) ∘ (·.object)) with
  | none =>
    have hnone := List.findSome?_eq_none_iff.mp hfound definer (List.mem_of_getElem? hplace)
    cases hsymbol.symm.trans hnone
  | some found =>
    obtain ⟨module, hmodule, hdefinition⟩ := List.exists_of_findSome?_eq_some hfound
    obtain ⟨other, hother⟩ := List.mem_iff_getElem?.mp hmodule
    obtain rfl := honly other module hother (Option.isSome_of_eq_some hdefinition)
    obtain rfl := Option.some.inj (hplace.symm.trans hother)
    exact hdefinition.symm.trans hsymbol

theorem DefinesOnce.lower (hmodules : List.Forall₂ (Raised shift) lows highs)
    (hdefines : DefinesOnce highs name definer symbol) :
    ∃ former, DefinesOnce lows name former symbol ∧ former.Raised shift definer := by
  obtain ⟨hsymbol, place, hplace, honly⟩ := hdefines
  obtain ⟨former, hformer, hraised⟩ := Fallible.exists_getElem?_of_forall₂ hmodules.flip hplace
  refine ⟨former, ⟨?_, place, hformer, fun other module hmodule hsome ↦ ?_⟩, hraised⟩
  · rwa [← hraised.definition?]
  · obtain ⟨latter, hlatter, hsame⟩ := Fallible.exists_getElem?_of_forall₂ hmodules hmodule
    exact honly other latter hlatter (by rwa [hsame.definition?])

/-- Where text is lower, placeholders for text come to a lower number. -/
theorem ComesTo.lower (hmodules : List.Forall₂ (Raised shift) lows highs)
    (hraised : low.Raised shift high) {value : Nat}
    (hcomes : ComesTo highs high owner record value) :
    ∃ former, ComesTo lows low owner record former ∧ value =
      former + rise shift (low.object.targetSegment? (lows.map (·.object)) record) := by
  unfold Object.targetSegment?
  cases hcomes with
  | @internal held segment hinternal hheld hsegment =>
    rw [hraised.object] at hheld
    refine ⟨_, .internal hinternal hheld hsegment, ?_⟩
    rw [Relocation.symbolIndex?_eq_none_iff.mpr hinternal]
    dsimp only
    rw [hsegment, Segment.ofTag?_tag, hraised.bases.of, Nat.add_assoc]
  | @external entry definer symbol hexternal hentry hdefines =>
    rw [hraised.object] at hentry
    obtain ⟨former, hformer, hsame⟩ := hdefines.lower hmodules
    refine ⟨_, .external hexternal hentry hformer, ?_⟩
    rw [Relocation.symbolIndex?_eq_some_iff.mpr ⟨hexternal, rfl⟩]
    dsimp only
    rw [hentry, hsame.bases.exactAddress]
    simp only [Option.bind_eq_bind, Option.bind_some, hformer.findSome?]

/-! ### Relocation -/

theorem Relocates.raised {relocated raised : Relocated} (hlow : Relocates lows low relocated)
    (hhigh : Relocates highs high raised) (hsame : low.Raised shift high) :
    relocated.Raised shift raised where
  rebased := hhigh.rebased.trans hlow.rebased.symm
  bases := by
    rw [hlow.bases, hhigh.bases]
    exact hsame.bases
  object := by
    rw [if_neg (by simp [hlow.rebased])]
    refine ⟨?_, ?_, ?_, fun owner ↦ ?_, fun owner ↦ ?_⟩
    · rw [hlow.symbols, hhigh.symbols, hsame.object]
      exact .refl _
    · rw [hlow.names, hhigh.names, hsame.object]
    · rw [hlow.bssSize, hhigh.bssSize, hsame.object]
    · rw [hlow.relocations, hhigh.relocations, hsame.object]
    · rw [hlow.size_bytes, hhigh.size_bytes, hsame.object]
  room := fun _ ↦ by
    unfold Object.LeavesRoom
    rw [hlow.symbols]
    exact hsame.room

/-- An object is relocated where text is lower, if it is where text is higher. -/
theorem exists_relocateAmong (hmodules : List.Forall₂ (Raised shift) lows highs)
    (hsame : low.Raised shift high) {raised : Relocated}
    (hrelocate : relocateAmong highs high = .ok raised) :
    ∃ relocated, relocateAmong lows low = .ok relocated ∧ relocated.Raised shift raised := by
  obtain ⟨found, hfound, hpatched⟩ := Fallible.bind_eq_ok_iff.mp hrelocate
  have hhigh := relocates_of_patched hfound hpatched
  have hresolves : ∀ owner, ∀ record ∈ (low.object.contents owner).relocations,
      ∃ patch, low.resolveRecord lows owner record = .ok patch := by
    intro owner record hrecord
    rw [← hsame.object] at hrecord
    obtain ⟨hinside, value, hcomes, hfits⟩ :=
      exists_resolveRecord_iff.mp (hhigh.resolves owner record hrecord)
    rw [hsame.object] at hinside
    obtain ⟨former, hformer, hvalue⟩ := hcomes.lower hmodules hsame
    exact exists_resolveRecord_iff.mpr ⟨hinside, former, hformer, by omega⟩
  obtain ⟨patches, hpatches⟩ := exists_resolveAll_iff.mpr hresolves
  obtain ⟨relocated, hrelocated⟩ := exists_patched hpatches
  exact ⟨relocated, Fallible.bind_eq_ok_iff.mpr ⟨patches, hpatches, hrelocated⟩,
    (relocates_of_patched hpatches hrelocated).raised hhigh hsame⟩

theorem exists_relocateAll (hmodules : List.Forall₂ (Raised shift) lows highs)
    {raised : List Relocated} (hrelocate : relocateAll highs = .ok raised) :
    ∃ relocated, relocateAll lows = .ok relocated ∧
      List.Forall₂ (Relocated.Raised shift) relocated raised := by
  rw [relocateAll_eq_mapM] at hrelocate ⊢
  refine Fallible.exists_mapM_of_forall₂ (fun low high raised hsame hmodule ↦ ?_) hmodules hrelocate
  exact exists_relocateAmong hmodules hsame hmodule

end Placed

/-! ### The fold -/

namespace Image

variable {shift : Nat} {relocated raised : List Relocated} {first second : Relocated}

theorem exists_foldlM (hmodules : List.Forall₂ (Relocated.Raised shift) relocated raised)
    (hfirst : first.Raised shift second) {final : Relocated}
    (hfold : raised.foldlM (fun image module ↦ (image.concat module).result) second = .ok final) :
    ∃ former, relocated.foldlM (fun image module ↦ (image.concat module).result) first =
      .ok former ∧ former.Raised shift final := by
  induction hmodules generalizing first second with
  | nil =>
    obtain rfl := Except.ok.inj hfold
    exact ⟨first, rfl, hfirst⟩
  | cons hnext _ ih =>
    rw [List.foldlM_cons] at hfold ⊢
    obtain ⟨joined, hjoined, hrest⟩ := Fallible.bind_eq_ok_iff.mp hfold
    rw [Progress.result_eq_ok_iff_eq_done] at hjoined
    obtain ⟨state, hstate, haligned⟩ := hfirst.concat hnext joined hjoined
    obtain ⟨former, hformer, hraised⟩ := ih haligned.raised hrest
    exact ⟨former, Fallible.bind_eq_ok_iff.mpr
      ⟨state, Progress.result_eq_ok_iff_eq_done.mpr hstate, hformer⟩, hraised⟩

/-- Objects become one image where text is lower, if they do where text is higher. -/
theorem exists_fold (hmodules : List.Forall₂ (Relocated.Raised shift) relocated raised)
    {final : Relocated} (hfold : fold raised = .ok final) :
    ∃ image, fold relocated = .ok image ∧ image.Raised shift final := by
  cases hmodules with
  | nil => cases hfold
  | cons hfirst hrest => exact exists_foldlM hrest hfirst hfold

end Image

/-! ### The finished image -/

/-- How much higher the entry address is: it is that of the entry symbol, or else an address in
text. -/
def Image.entryRise (shift : Nat) (symbol? : Option Symbol) : Nat :=
  symbol?.elim shift fun symbol ↦ rise shift symbol.segment?

namespace Relocated

variable {shift : Nat} {low high : Relocated}

theorem Raised.setEntryPoint (hraised : low.Raised shift high) (entry other : UInt16) :
    (low.setEntryPoint entry).Raised shift (high.setEntryPoint other) where
  rebased := hraised.rebased
  bases := hraised.bases
  object := {
    symbols := hraised.object.symbols
    names := hraised.object.names
    bssSize := hraised.object.bssSize
    relocations := by
      rintro (_ | _)
      · exact hraised.object.relocations .text
      · exact hraised.object.relocations .data
    size := by
      rintro (_ | _)
      · exact hraised.object.size .text
      · exact hraised.object.size .data }
  room := hraised.room

theorem Raised.entryAddress (hraised : low.Raised shift high) (entrySymbol : String) :
    (Image.entryAddress high entrySymbol).1.toNat = (Image.entryAddress low entrySymbol).1.toNat +
      Image.entryRise shift (low.object.symbols.definition? entrySymbol) := by
  unfold Image.entryAddress SymbolTable.definition? SymbolTable.find?
  rcases exists_of_rel (hraised.object.symbols.locate? entrySymbol) with
    ⟨hlow, hhigh⟩ | ⟨⟨position, symbol⟩, ⟨_, other⟩, hlow, hhigh, rfl, hsame⟩
  · rw [hlow, hhigh]
    exact hraised.bases.text
  · have haddress := hraised.addressOf (SymbolTable.entryAt?_of_locate? hlow)
      (SymbolTable.entryAt?_of_locate? hhigh)
    rw [hlow, hhigh, Option.map_some, Option.map_some, Option.filter_some, Option.filter_some,
      hsame.isDefined]
    cases hdefined : symbol.isDefined with
    | false => exact hraised.bases.text
    | true => exact haddress hdefined

end Relocated

/-- Two images of the same objects, the second of which has its text further up. They have the same
symbols, records and sizes, and the values of symbols in text are higher (`Object.Raised`). Among
the bytes, the words of placeholders for text are higher, and everything else is the same. -/
structure Image.Raised (objects : List Object) (entrySymbol : String) (shift : Nat)
    (low high : Object) : Prop extends Object.Raised shift low high where
  entry : high.entryPoint.toNat =
    low.entryPoint.toNat + entryRise shift (low.symbols.definition? entrySymbol)
  outside : ∀ owner place object, objects[place]? = some object →
    ∀ offset, offset < (object.contents owner).bytes.size →
      (∀ record ∈ (object.contents owner).relocations, ¬ Covers record.address.toNat offset) →
        (high.contents owner).bytes[Object.start objects owner place + offset]? =
          (low.contents owner).bytes[Object.start objects owner place + offset]?
  word : ∀ owner place object, objects[place]? = some object →
    ∀ position record, (object.contents owner).relocations[position]? = some record →
      Relocation.Isolated (object.contents owner).relocations position →
        ∃ word further,
          wordAt? (low.contents owner).bytes
            (Object.start objects owner place + record.address.toNat) = some word ∧
          wordAt? (high.contents owner).bytes
            (Object.start objects owner place + record.address.toNat) = some further ∧
          further.toNat = word.toNat + rise shift (object.targetSegment? objects record)

namespace Image

variable {shift place : Nat} {lows highs : List Placed} {relocated raised : List Relocated}
  {low high : Relocated} {owner : StoredSegment}

theorem map_object_of_raised (hmodules : List.Forall₂ (Placed.Raised shift) lows highs) :
    highs.map (·.object) = lows.map (·.object) := by
  induction hmodules with
  | nil => rfl
  | cons hsame _ ih => rw [List.map_cons, List.map_cons, hsame.object, ih]

theorem word_raised (hmodules : List.Forall₂ (Placed.Raised shift) lows highs)
    (hlow : Carries lows lows low) (hhigh : Carries highs highs high)
    (hlows : List.Forall₂ (Placed.Relocates lows) lows relocated)
    (hhighs : List.Forall₂ (Placed.Relocates highs) highs raised) {module : Placed}
    (hplace : lows[place]? = some module) {position : Nat} {record : Relocation}
    (hrecord : (module.object.contents owner).relocations[position]? = some record)
    (hisolated : Relocation.Isolated (module.object.contents owner).relocations position) :
    ∃ word further,
      wordAt? (low.object.contents owner).bytes
        (Object.start (lows.map (·.object)) owner place + record.address.toNat) = some word ∧
      wordAt? (high.object.contents owner).bytes
        (Object.start (lows.map (·.object)) owner place + record.address.toNat) = some further ∧
      further.toNat = word.toNat +
        rise shift (module.object.targetSegment? (lows.map (·.object)) record) := by
  obtain ⟨above, habove, hsame⟩ := Fallible.exists_getElem?_of_forall₂ hmodules hplace
  obtain ⟨patch, hpatch, hword⟩ := hlow.word hlows hplace hrecord hisolated
  rw [← hsame.object] at hrecord hisolated
  obtain ⟨further, hfurther, hother⟩ := hhigh.word hhighs habove hrecord hisolated
  rw [map_object_of_raised hmodules] at hother
  obtain ⟨-, -, hcomes⟩ := Placed.resolveRecord_eq_ok_iff_comesTo.mp hpatch
  obtain ⟨-, -, hraised⟩ := Placed.resolveRecord_eq_ok_iff_comesTo.mp hfurther
  obtain ⟨former, hformer, hvalue⟩ := hraised.lower hmodules hsame
  obtain rfl := hformer.unique hcomes
  exact ⟨patch.word, further.word, hword, hother, hvalue⟩

theorem outside_raised (hmodules : List.Forall₂ (Placed.Raised shift) lows highs)
    (hlow : Carries lows lows low) (hhigh : Carries highs highs high)
    (hlows : List.Forall₂ (Placed.Relocates lows) lows relocated)
    (hhighs : List.Forall₂ (Placed.Relocates highs) highs raised) {module : Placed}
    (hplace : lows[place]? = some module) {offset : Nat}
    (hoffset : offset < (module.object.contents owner).bytes.size)
    (hfree : ∀ record ∈ (module.object.contents owner).relocations,
      ¬ Covers record.address.toNat offset) :
    (high.object.contents owner).bytes[
        Object.start (lows.map (·.object)) owner place + offset]? =
      (low.object.contents owner).bytes[
        Object.start (lows.map (·.object)) owner place + offset]? := by
  obtain ⟨above, habove, hsame⟩ := Fallible.exists_getElem?_of_forall₂ hmodules hplace
  have hbyte := hlow.outside hlows hplace hoffset hfree
  rw [← hsame.object] at hoffset hfree
  have hother := hhigh.outside hhighs habove hoffset hfree
  rw [map_object_of_raised hmodules, hsame.object] at hother
  rw [hbyte, hother]

theorem entryPoint_toObject (image : Relocated) (entry : UInt16) :
    (image.setEntryPoint entry).toObject.entryPoint = entry := by
  rw [Object.entryPoint, entry_toObject, UInt16.toUInt16_toUInt32]

/-- The finished images. -/
theorem raised_toObject (hmodules : List.Forall₂ (Placed.Raised shift) lows highs)
    (hlow : Carries lows lows low) (hhigh : Carries highs highs high)
    (hlows : List.Forall₂ (Placed.Relocates lows) lows relocated)
    (hhighs : List.Forall₂ (Placed.Relocates highs) highs raised) (hraised : low.Raised shift high)
    {entrySymbol : String} {entry further : UInt16}
    (hentry : Word.narrow? (entryAddress low entrySymbol).1 = some entry)
    (hfurther : Word.narrow? (entryAddress high entrySymbol).1 = some further) :
    Image.Raised (lows.map (·.object)) entrySymbol shift (low.setEntryPoint entry).toObject
      (high.setEntryPoint further).toObject where
  toRaised := (hraised.setEntryPoint entry further).rebase.object
  entry := by
    have haddress := hraised.entryAddress entrySymbol
    rw [Word.narrow?_eq_some_iff.mp hentry, Word.narrow?_eq_some_iff.mp hfurther] at haddress
    rw [entryPoint_toObject, entryPoint_toObject, haddress, Relocated.toObject,
      Relocated.definition?_rebase]
    congr 1
    change _ = Image.entryRise shift
      ((low.object.symbols.definition? entrySymbol).map (low.setEntryPoint entry).absolute)
    cases low.object.symbols.definition? entrySymbol with
    | none => rfl
    | some symbol => exact congrArg (rise shift) (segment?_absolute _ symbol).symm
  outside := by
    intro owner place object hobject offset hoffset hfree
    rw [List.getElem?_map, Option.map_eq_some_iff] at hobject
    obtain ⟨module, hplace, rfl⟩ := hobject
    rw [contents_toObject, contents_toObject]
    exact outside_raised hmodules hlow hhigh hlows hhighs hplace hoffset hfree
  word := by
    intro owner place object hobject position record hrecord hisolated
    rw [List.getElem?_map, Option.map_eq_some_iff] at hobject
    obtain ⟨module, hplace, rfl⟩ := hobject
    rw [contents_toObject, contents_toObject]
    exact word_raised hmodules hlow hhigh hlows hhighs hplace hrecord hisolated

end Image

/-- Objects that link with their text at one address link with it at any lower one. The two images
differ in text addresses alone, all of them by the same distance. -/
theorem link_raised {objects : List Object} {low high : UInt16} {entrySymbol : String}
    (hdistinct : ∀ object ∈ objects, object.symbols.NamesDistinct)
    (haddressable : Addressable objects) (hroom : ∀ object ∈ objects, object.LeavesRoom)
    (hle : low ≤ high) {raised : Object} {notices : List Notice}
    (hlink : link objects high entrySymbol = .ok (raised, notices)) :
    ∃ linked others, link objects low entrySymbol = .ok (linked, others) ∧
      Image.Raised objects entrySymbol (high.toNat - low.toNat) linked raised := by
  have hcarries {textBase : UInt16} {bases : List Bases} {relocated : List Relocated}
      {image : Relocated} (hlayout : layout objects textBase = .ok bases)
      (hrelocate : Placed.relocateAll (Placed.all objects bases) = .ok relocated)
      (hfold : Image.fold relocated = .ok image) :
      Image.Carries (Placed.all objects bases) (Placed.all objects bases) image :=
    Image.carries_of_fold (Placed.relocateAll_eq_ok hrelocate)
      (fun module hmodule ↦ hdistinct _ (Placed.object_mem_of_mem_all hmodule))
      (bounded_of_layout haddressable hlayout) hfold
  obtain ⟨further, above, joint, -, hfurther, habove, hjoint, -⟩ := link_eq_ok hlink
  obtain ⟨bases, hlayout, hbases⟩ := exists_layout hle hfurther
  have hmodules := Placed.raised_all hroom hbases
  obtain ⟨relocated, hrelocate, hrelocated⟩ := Placed.exists_relocateAll hmodules habove
  obtain ⟨image, hfold, himage⟩ := Image.exists_fold hrelocated hjoint
  have hobjects := Placed.map_object_all (layout_eq_ok hlayout).1
  rw [link_eq_of_fold hfurther habove hjoint] at hlink
  rw [link_eq_of_fold hlayout hrelocate hfold]
  dsimp only at hlink ⊢
  split at hlink
  · cases hlink
  · rename_i entry hentry
    obtain ⟨rfl, -⟩ := Prod.mk.inj (Except.ok.inj hlink)
    cases hformer : Word.narrow? (Image.entryAddress image entrySymbol).1 with
    | none =>
      have hwide := Word.narrow?_eq_none_iff.mp hformer
      have haddress := himage.entryAddress entrySymbol
      have hlt := entry.toNat_lt
      rw [Word.narrow?_eq_some_iff.mp hentry] at haddress
      omega
    | some former =>
      have hraised := Image.raised_toObject hmodules (hcarries hlayout hrelocate hfold)
        (hcarries hfurther habove hjoint) (Placed.relocateAll_eq_ok hrelocate)
        (Placed.relocateAll_eq_ok habove) himage hformer hentry
      rw [hobjects] at hraised
      exact ⟨_, _, rfl, hraised⟩

/-- A call of a function that goes up with the text. -/
theorem link_raised_call :
    ∃ linked raised notices others,
      link [.calling "f", .labelled "f" true] 0x180 "f" = .ok (raised, notices) ∧
      link [.calling "f", .labelled "f" true] 0x100 "f" = .ok (linked, others) ∧
      Image.Raised [.calling "f", .labelled "f" true] "f" 0x80 linked raised := by
  have hsome : (link [.calling "f", .labelled "f" true] 0x180 "f").toOption.isSome := by
    decide +kernel
  obtain ⟨⟨raised, notices⟩, hlink⟩ := Fallible.exists_eq_ok_of_isSome hsome
  have hroom : ∀ object ∈ [Object.calling "f", .labelled "f" true], object.LeavesRoom := by
    simp only [List.forall_mem_cons, Object.LeavesRoom]
    exact ⟨by decide +kernel, by decide +kernel, fun _ hnone ↦ by cases hnone⟩
  have hle : (0x100 : UInt16) ≤ 0x180 := by decide
  obtain ⟨linked, others, hlinked, hraised⟩ :=
    link_raised namesDistinct_call addressable_call hroom hle hlink
  exact ⟨linked, raised, notices, others, hlink, hlinked, hraised⟩

end Aout
