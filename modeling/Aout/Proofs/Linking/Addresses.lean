import Aout.Proofs.Linking.Provenance
import Aout.Proofs.Linking.Settlement
/-!
The absolute addresses of symbols. Placement fixes the address of every defined symbol: the base of
its segment plus its offset. The value that is stored is the offset at first and the address from
the first concatenation on, but whatever an object takes in, and whether or not a fault stops this,
its defined symbols stay at their positions with their names, kinds and addresses
(`Relocated.keepsAddresses_concat`). So they do through any run of concatenations
(`Relocated.Run.keepsAddresses`), and the finished object holds the addresses that placement gave
(`Relocated.addresses_fixed`).
-/

set_option autoImplicit false
set_option relaxedAutoImplicit false

namespace Aout

namespace Relocated

variable {module other before middle after : Relocated}

/-- All symbols that are defined before stand where they stood afterwards, with the same names,
kinds and absolute addresses. -/
def KeepsAddresses (before after : Relocated) : Prop :=
  ∀ position entry, before.object.symbols.entryAt? position = some entry → entry.symbol.isDefined →
    ∃ later, after.object.symbols.entryAt? position = some later ∧ later.name = entry.name ∧
      later.symbol.kind = entry.symbol.kind ∧
      after.addressOf later.symbol = before.addressOf entry.symbol

namespace KeepsAddresses

theorem refl (module : Relocated) : KeepsAddresses module module :=
  fun _ entry hentry _ ↦ ⟨entry, hentry, rfl, rfl, rfl⟩

theorem trans (hfirst : KeepsAddresses before middle) (hlast : KeepsAddresses middle after) :
    KeepsAddresses before after := by
  intro position entry hentry hdefined
  obtain ⟨later, hlater, hname, hkind, haddress⟩ := hfirst position entry hentry hdefined
  have hstill : later.symbol.isDefined := by rwa [Symbol.isDefined, hkind]
  obtain ⟨last, hlast, hname', hkind', haddress'⟩ := hlast position later hlater hstill
  exact ⟨last, hlast, hname'.trans hname, hkind'.trans hkind, haddress'.trans haddress⟩

end KeepsAddresses

theorem absolute_of_isDefined {symbol : Symbol} (hdefined : symbol.isDefined) :
    module.absolute symbol = { symbol with value := module.addressOf symbol } :=
  if_pos hdefined

theorem keepsAddresses_rebase (module : Relocated) : KeepsAddresses module module.rebase := by
  intro position entry hentry hdefined
  have hlater : module.rebase.object.symbols.entryAt? position =
      some ⟨entry.name, module.absolute entry.symbol⟩ := by
    rw [entryAt?_rebase, hentry, Option.map_some]
  refine ⟨_, hlater, rfl, kind_absolute module entry.symbol, ?_⟩
  rw [addressOf_of_rebased (rebased_rebase module), absolute_of_isDefined hdefined]

/-! ### One concatenation -/

/-- A module with the same load addresses, whose table has grown. -/
structure Expands (before after : Relocated) : Prop where
  grows : before.object.symbols.Grows after.object.symbols
  bases : after.bases = before.bases
  rebased : after.rebased = before.rebased

namespace Expands

theorem refl (module : Relocated) : Expands module module :=
  ⟨.refl _, rfl, rfl⟩

theorem trans (hfirst : Expands before middle) (hlast : Expands middle after) :
    Expands before after :=
  ⟨hfirst.grows.trans hlast.grows, hlast.bases.trans hfirst.bases,
    hlast.rebased.trans hfirst.rebased⟩

theorem addressOf (hexpands : Expands before after) (symbol : Symbol) :
    after.addressOf symbol = before.addressOf symbol := by
  unfold Relocated.addressOf
  rw [hexpands.rebased, hexpands.bases]

theorem keepsAddresses (hexpands : Expands before after) : KeepsAddresses before after := by
  intro position entry hentry hdefined
  obtain ⟨later, hlater, -, -, hkept⟩ := hexpands.grows.kept position entry hentry
  obtain rfl := hkept hdefined
  exact ⟨later, hlater, rfl, rfl, hexpands.addressOf _⟩

end Expands

theorem expands_mergeEntry (other module : Relocated) (entry : SymbolEntry) :
    Expands module (mergeEntry other module entry).state := by
  have hsame := sameContents_mergeEntry other module entry
  refine ⟨?_, hsame.bases, hsame.rebased⟩
  unfold mergeEntry
  dsimp only
  split
  · exact .refl _
  · split
    · rename_i hfresh
      exact .push hfresh
    · rename_i position known hlocate
      split
      · rename_i hawaited
        exact .redefine (SymbolTable.entryAt?_of_locate? hlocate) (by simpa using hawaited) _ _
      · split
        · exact .refl _
        · exact .refl _

theorem expands_settleRecords (module : Relocated) (owner : StoredSegment) :
    Expands module (module.settleRecords owner).state := by
  unfold settleRecords
  dsimp only
  split
  · exact .refl module
  · refine ⟨?_, rfl, rfl⟩
    rw [Progress.map, Object.symbols_setContents]
    exact .refl _

theorem expands_awaiting (module : Relocated) (name : String) :
    Expands module (module.awaiting name) :=
  ⟨(await_spec module.object name).1.grows, rfl, rfl⟩

theorem expands_adopt (other : Relocated) (owner : StoredSegment) (shift : UInt32)
    (adoption : Adoption) (record : Relocation) :
    Expands adoption.module (adopt other owner shift adoption record).state.module := by
  unfold adopt
  dsimp only
  split
  · exact .refl _
  · split
    · exact .refl _
    · rename_i entry hentry
      have hawaits := expands_awaiting adoption.module entry.name
      split
      · exact hawaits
      · split
        · exact hawaits
        · split
          · exact hawaits
          · exact hawaits

theorem expands_adoptAll (module other : Relocated) (owner : StoredSegment) (shift : UInt32) :
    Expands module (module.adoptAll other owner shift).state := by
  have hadopted : Expands module (Progress.each (adopt other owner shift) (.start module)
      (other.object.contents owner).relocations.toList).state.module :=
    Progress.each_preserves_of_mem (fun adoption : Adoption ↦ Expands module adoption.module)
      (fun adoption record _ hexpands ↦
        hexpands.trans (expands_adopt other owner shift adoption record))
      (.refl module)
  refine ⟨?_, hadopted.bases, hadopted.rebased⟩
  unfold adoptAll
  rw [Progress.map, Adoption.finish, Object.modifyContents_eq, Object.symbols_setContents]
  exact hadopted.grows

/-- Once its symbols are absolute addresses and the bytes are in place, an object's table only grows
while it takes in another one. -/
theorem expands_concat {bssSize : UInt32}
    (hbss : Word.checkedAdd? module.object.bssSize other.object.bssSize = some bssSize) :
    Expands (module.rebase.appendSegments other bssSize) (module.concat other).state := by
  have hfix (joint state : Relocated) (owner : StoredSegment) (hexpands : Expands joint state) :
      Expands joint (state.fixUp owner).state := by
    rw [fixUp_eq]
    exact hexpands.trans (expands_settleRecords state owner)
  have hadopt (joint state : Relocated) (owner : StoredSegment) (shift : UInt32)
      (hexpands : Expands joint state) : Expands joint (state.adoptAll other owner shift).state :=
    hexpands.trans (expands_adoptAll state other owner shift)
  unfold concat
  simp only [hbss]
  refine Progress.state_andThen _ (Progress.state_andThen _ (Progress.state_andThen _
    (Progress.state_andThen _ ?_ ?_) ?_) ?_) ?_
  · exact Progress.each_preserves_of_mem (Expands _)
      (fun state entry _ hexpands ↦ hexpands.trans (expands_mergeEntry other state entry))
      (.refl _)
  · exact fun state hexpands ↦ hfix _ state .text hexpands
  · exact fun state hexpands ↦ hfix _ state .data hexpands
  · exact fun state hexpands ↦ hadopt _ state .text _ hexpands
  · exact fun state hexpands ↦ hadopt _ state .data _ hexpands

/-- Whatever an object takes in, and whether or not a fault stops this, its symbols keep their
addresses. -/
theorem keepsAddresses_concat (module other : Relocated) :
    KeepsAddresses module (module.concat other).state := by
  cases hbss : Word.checkedAdd? module.object.bssSize other.object.bssSize with
  | none =>
    unfold concat
    simp only [hbss]
    exact .refl module
  | some bssSize =>
    -- Putting the bytes behind one another does not touch the table.
    have hjoint : Expands module.rebase (module.rebase.appendSegments other bssSize) :=
      ⟨.refl _, rfl, rfl⟩
    exact (keepsAddresses_rebase module).trans
      (hjoint.trans (expands_concat hbss)).keepsAddresses

/-! ### Runs -/

theorem keepsAddresses_setEntryPoint (module : Relocated) (entry : UInt16) :
    KeepsAddresses module (module.setEntryPoint entry) :=
  fun _ known hknown _ ↦ ⟨known, hknown, rfl, rfl, rfl⟩

theorem Run.keepsAddresses {start : Relocated} (hrun : Run start module) :
    KeepsAddresses start module := by
  induction hrun with
  | start hstart =>
    rw [hstart]
    exact .refl start
  | concat _ _ ih _ => exact ih.trans (keepsAddresses_concat _ _)
  | setEntryPoint _ entry ih => exact ih.trans (keepsAddresses_setEntryPoint _ entry)

/-- The finished object holds the address of every symbol that is defined. -/
theorem entryAt?_toObject_of_isDefined {position : Nat} {entry : SymbolEntry}
    (hentry : module.object.symbols.entryAt? position = some entry)
    (hdefined : entry.symbol.isDefined) :
    module.toObject.symbols.entryAt? position =
      some ⟨entry.name, { entry.symbol with value := module.addressOf entry.symbol }⟩ := by
  rw [toObject, entryAt?_rebase, hentry, Option.map_some, absolute_of_isDefined hdefined]

/-- The absolute addresses of defined symbols. A concatenation keeps them, and so does finishing an
object, which stores them as values. So the values of a finished object are the addresses that
placement gave, whatever the object has taken in since. -/
theorem addresses_fixed :
    (∀ module other : Relocated, KeepsAddresses module (module.concat other).state) ∧
    (∀ (module : Relocated) (position : Nat) (entry : SymbolEntry),
      module.object.symbols.entryAt? position = some entry → entry.symbol.isDefined →
        module.toObject.symbols.entryAt? position =
          some ⟨entry.name, { entry.symbol with value := module.addressOf entry.symbol }⟩) ∧
    ∀ (placed : Placed) (start final : Relocated), placed.Yields start → Run start final →
      ∀ position entry, placed.object.symbols.entryAt? position = some entry →
        entry.symbol.isDefined → ∃ symbol,
          final.toObject.symbols.entryAt? position = some ⟨entry.name, symbol⟩ ∧
            symbol.kind = entry.symbol.kind ∧ symbol.value.toNat =
              min (placed.bases.exactAddress entry.symbol) (UInt32.size - 1) := by
  refine ⟨keepsAddresses_concat, fun module position entry ↦ entryAt?_toObject_of_isDefined, ?_⟩
  intro placed start final hyields hrun position entry hentry hdefined
  obtain ⟨modules, hrelocates⟩ := hyields.relocates
  obtain ⟨later, hlater, hname, hkind, haddress⟩ :=
    hrun.keepsAddresses position entry (hrelocates.symbols ▸ hentry) hdefined
  have hstill : later.symbol.isDefined := by rwa [Symbol.isDefined, hkind]
  have hstart : start.addressOf entry.symbol = placed.bases.addressOf entry.symbol := by
    rw [addressOf, hrelocates.rebased, hrelocates.bases, if_neg Bool.false_ne_true]
  have hfinal := entryAt?_toObject_of_isDefined hlater hstill
  rw [hname, haddress, hstart] at hfinal
  exact ⟨_, hfinal, hkind, placed.bases.toNat_addressOf entry.symbol⟩

/-- A label keeps its address when a second definition of its name is refused. -/
theorem addresses_fixed_labelled : ∃ start other,
    Placed.relocate ⟨.labelled "f" true, ⟨0x100, 0, 0⟩⟩ [] = .ok start ∧
      Placed.relocate ⟨.labelled "f" true, ⟨0x200, 0, 0⟩⟩ [] = .ok other ∧
      (start.concat other).fault? = some (.multiplyDefined "f") ∧
      ∃ symbol, (start.concat other).state.toObject.symbols.entryAt? 0 = some ⟨"f", symbol⟩ ∧
        symbol.value.toNat = 0x100 := by
  have hsome : (Placed.relocate ⟨.labelled "f" true, ⟨0x100, 0, 0⟩⟩ []).toOption.any fun start ↦
      (Placed.relocate ⟨.labelled "f" true, ⟨0x200, 0, 0⟩⟩ []).toOption.any fun other ↦
        (start.concat other).fault? == some (.multiplyDefined "f") := by
    decide +kernel
  simp only [Option.any_eq_true, beq_iff_eq] at hsome
  obtain ⟨start, hstart, other, hother, hfault⟩ := hsome
  have hrelocate := Fallible.eq_ok_of_toOption hstart
  have hentry : (Object.labelled "f" true).symbols.entryAt? 0 =
      some ⟨"f", .label .text 0 true⟩ := by
    decide +kernel
  obtain ⟨symbol, hsymbol, -, hvalue⟩ := addresses_fixed.2.2 _ start _ (.relocate hrelocate)
    (.concat (.start rfl) nofun) 0 _ hentry (by decide)
  refine ⟨start, other, hrelocate, Fallible.eq_ok_of_toOption hother, hfault, symbol, hsymbol, ?_⟩
  rw [hvalue]
  decide +kernel

end Relocated

end Aout
