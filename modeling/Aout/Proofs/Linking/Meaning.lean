import Aout.Linking.Concatenation
import Aout.Proofs.Progress
import Aout.Proofs.Symbol.Growth
/-!
What names mean to a relocated object: the kind and the absolute address of their definitions.
Moving the symbols to absolute addresses changes no meaning (`Relocated.meaning?_rebase`). Taking in
the definitions of another object leaves every meaning as it was and adds those of the other object
(`Relocated.mergeSymbols_eq_done`); it is refused exactly when a name that is visible in both means
different things in them (`Relocated.mergeSymbols_fault`).
-/

set_option autoImplicit false
set_option relaxedAutoImplicit false

namespace Aout

/-- What a defined name stands for in an image. -/
structure Meaning where
  kind : SymbolKind
  address : UInt32
  deriving DecidableEq

namespace Meaning

def isVisible (meaning : Meaning) : Bool :=
  meaning.kind.has .visible

/-- Two visible definitions that do not agree. -/
def Clashes (first second : Meaning) : Prop :=
  first.isVisible ∧ second.isVisible ∧ first ≠ second

instance (first second : Meaning) : Decidable (first.Clashes second) :=
  inferInstanceAs (Decidable (_ ∧ _ ∧ _))

end Meaning

namespace Placed

/-- What a name means in an object that has load addresses. -/
def meaning? (module : Placed) (name : String) : Option Meaning :=
  (module.definition? name).map fun symbol ↦ ⟨symbol.kind, module.bases.addressOf symbol⟩

end Placed

namespace Relocated

/-- What a name means in a relocated object. -/
def meaning? (module : Relocated) (name : String) : Option Meaning :=
  (module.object.symbols.definition? name).map fun symbol ↦
    ⟨symbol.kind, module.addressOf symbol⟩

/-- No two symbols of the object have the same name. -/
def NamesDistinct (module : Relocated) : Prop :=
  module.object.symbols.NamesDistinct

theorem addressOf_of_rebased {module : Relocated} (hrebased : module.rebased = true)
    (symbol : Symbol) : module.addressOf symbol = symbol.value :=
  if_pos hrebased

/-! ### Absolute addresses -/

@[simp] theorem rebased_rebase (module : Relocated) : module.rebase.rebased = true := by
  unfold rebase
  split
  · assumption
  · rfl

@[simp] theorem bases_rebase (module : Relocated) : module.rebase.bases = module.bases := by
  unfold rebase
  split <;> rfl

@[simp] theorem contents_rebase (module : Relocated) (owner : StoredSegment) :
    module.rebase.object.contents owner = module.object.contents owner := by
  unfold rebase
  split
  · rfl
  · cases owner <;> rfl

/-- The symbol as it stands once defined symbols are absolute addresses. -/
def absolute (module : Relocated) (symbol : Symbol) : Symbol :=
  if symbol.isDefined then { symbol with value := module.addressOf symbol } else symbol

theorem entryAt?_rebase (module : Relocated) (position : Nat) :
    module.rebase.object.symbols.entryAt? position =
      (module.object.symbols.entryAt? position).map fun entry ↦
        ⟨entry.name, module.absolute entry.symbol⟩ := by
  unfold rebase absolute addressOf
  split
  · simp
  · rw [SymbolTable.entryAt?_mapValues]
    congr 1
    funext entry
    split <;> rfl

theorem kind_absolute (module : Relocated) (symbol : Symbol) :
    (module.absolute symbol).kind = symbol.kind := by
  unfold absolute
  split <;> rfl

theorem isDefined_absolute (module : Relocated) (symbol : Symbol) :
    (module.absolute symbol).isDefined = symbol.isDefined := by
  rw [Symbol.isDefined, kind_absolute, Symbol.isDefined]

theorem namesDistinct_rebase {module : Relocated} (hdistinct : module.NamesDistinct) :
    module.rebase.NamesDistinct := by
  intro first second entry other hentry hother hname
  rw [entryAt?_rebase, Option.map_eq_some_iff] at hentry hother
  obtain ⟨former, hformer, rfl⟩ := hentry
  obtain ⟨latter, hlatter, rfl⟩ := hother
  exact hdistinct first second former latter hformer hlatter hname

@[simp] theorem names_rebase (module : Relocated) :
    module.rebase.object.symbols.names = module.object.symbols.names := by
  unfold rebase
  split
  · rfl
  · exact SymbolTable.names_mapValues ..

theorem meaning?_of_entryAt? {module : Relocated} (hdistinct : module.NamesDistinct)
    {position : Nat} {entry : SymbolEntry}
    (hentry : module.object.symbols.entryAt? position = some entry) :
    module.meaning? entry.name = if entry.symbol.isDefined then
      some ⟨entry.symbol.kind, module.addressOf entry.symbol⟩ else none := by
  rw [meaning?, SymbolTable.definition?_of_entryAt? hdistinct hentry]
  split <;> rfl

theorem locate?_rebase (module : Relocated) (name : String) :
    module.rebase.object.symbols.locate? name =
      (module.object.symbols.locate? name).map fun found ↦ (found.1, module.absolute found.2) := by
  have hposition : module.rebase.object.symbols.position? name =
      module.object.symbols.position? name := by
    rw [SymbolTable.position?_eq, SymbolTable.position?_eq]
    exact SymbolEntry.position?_congr (names_rebase module) name
  unfold SymbolTable.locate?
  rw [hposition]
  cases module.object.symbols.position? name with
  | none => rfl
  | some position =>
    simp only [Option.bind_eq_bind, Option.bind_some, entryAt?_rebase]
    cases module.object.symbols.entryAt? position <;> rfl

theorem definition?_rebase (module : Relocated) (name : String) :
    module.rebase.object.symbols.definition? name =
      (module.object.symbols.definition? name).map module.absolute := by
  unfold SymbolTable.definition? SymbolTable.find?
  rw [locate?_rebase]
  cases module.object.symbols.locate? name with
  | none => rfl
  | some found =>
    simp only [Option.map_some, Option.filter_some, isDefined_absolute]
    split <;> rfl

/-- Symbols that become absolute addresses mean what they meant. -/
theorem meaning?_rebase (module : Relocated) (name : String) :
    module.rebase.meaning? name = module.meaning? name := by
  unfold meaning?
  rw [definition?_rebase, Option.map_map]
  refine Option.map_congr fun symbol hsymbol ↦ ?_
  have hdefined := (Option.filter_eq_some_iff.mp hsymbol).2
  rw [Function.comp_apply, kind_absolute, addressOf_of_rebased (rebased_rebase module), absolute,
    if_pos hdefined]

/-! ### Taking in definitions -/

/-- Only the symbol and name tables may differ. -/
structure SameContents (before after : Relocated) : Prop where
  contents : ∀ owner, after.object.contents owner = before.object.contents owner
  bssSize : after.object.bssSize = before.object.bssSize
  entry : after.object.entry = before.object.entry
  bases : after.bases = before.bases
  rebased : after.rebased = before.rebased

namespace SameContents

variable {before middle after : Relocated}

theorem refl (module : Relocated) : SameContents module module :=
  ⟨fun _ ↦ rfl, rfl, rfl, rfl, rfl⟩

theorem trans (hfirst : SameContents before middle) (hlast : SameContents middle after) :
    SameContents before after where
  contents := fun owner ↦ (hlast.contents owner).trans (hfirst.contents owner)
  bssSize := hlast.bssSize.trans hfirst.bssSize
  entry := hlast.entry.trans hfirst.entry
  bases := hlast.bases.trans hfirst.bases
  rebased := hlast.rebased.trans hfirst.rebased

/-- A module whose symbols and names alone are others. -/
theorem of_tables (module : Relocated) (symbols : SymbolTable) (names : NameTable) :
    SameContents module { module with object := { module.object with symbols, names } } where
  contents := by intro owner; cases owner <;> rfl
  bssSize := rfl
  entry := rfl
  bases := rfl
  rebased := rfl

end SameContents

/-- What an entry of a module says about its name. -/
def meaningOf? (module : Relocated) (entry : SymbolEntry) : Option Meaning :=
  if entry.symbol.isDefined then some ⟨entry.symbol.kind, module.addressOf entry.symbol⟩ else none

/-- A module that has taken in one more meaning of a name, if the name had none. -/
structure Learns (name : String) (meaning? : Option Meaning) (before after : Relocated) : Prop where
  same : SameContents before after
  grows : before.object.symbols.Grows after.object.symbols
  meaning : ∀ other, after.meaning? other =
    if other = name then (before.meaning? name).or meaning? else before.meaning? other

variable {module other : Relocated} {entry : SymbolEntry}

private theorem learns_self {name : String} {meaning? : Option Meaning}
    (hknown : (module.meaning? name).or meaning? = module.meaning? name) :
    Learns name meaning? module module where
  same := .refl module
  grows := .refl _
  meaning := by
    intro other
    split
    · rename_i hname
      rw [hknown, hname]
    · rfl

private theorem learns_enter (hrebased : module.rebased = true) (hdistinct : module.NamesDistinct)
    {name : String} (hfresh : module.object.symbols.locate? name = none) (kind : SymbolKind)
    (address : UInt32) :
    Learns name (if kind.has .undefined then none else some ⟨kind, address⟩) module
      { module with object := (module.object.enter name ⟨0, kind, address⟩).2 } where
  same := .of_tables module _ _
  grows := .push hfresh
  meaning := by
    intro other
    have hbefore : module.meaning? name = none := by
      rw [meaning?, SymbolTable.definition?_of_locate?_eq_none hfresh, Option.map_none]
    rw [hbefore, Option.none_or, meaning?, meaning?]
    simp only [Object.enter, addressOf, hrebased, if_true]
    rw [SymbolTable.definition?_push hdistinct hfresh]
    split
    · cases hkind : kind.has .undefined <;> simp [Symbol.isDefined, hkind]
    · rfl

private theorem learns_redefine (hrebased : module.rebased = true)
    (hdistinct : module.NamesDistinct) {position : Nat}
    (hentry : module.object.symbols.entryAt? position = some entry)
    (hawaited : entry.symbol.isDefined = false) (kind : SymbolKind) (address : UInt32) :
    Learns entry.name (if kind.has .undefined then none else some ⟨kind, address⟩) module
      { module with object := { module.object with
          symbols := module.object.symbols.redefine position kind address } } where
  same := .of_tables module _ _
  grows := .redefine hentry hawaited kind address
  meaning := by
    intro other
    have hbefore : module.meaning? entry.name = none := by
      rw [meaning?_of_entryAt? hdistinct hentry, hawaited]
      rfl
    rw [hbefore, Option.none_or, meaning?, meaning?]
    simp only [addressOf, hrebased, if_true]
    rw [SymbolTable.definition?_redefine hdistinct hentry hawaited]
    split
    · cases hkind : kind.has .undefined <;> simp
    · rfl

theorem mergeEntry_of_undefined (hdefined : entry.symbol.isDefined = false) :
    mergeEntry other module entry = .done module := by
  simp [mergeEntry, hdefined]

theorem mergeEntry_of_new (hdefined : entry.symbol.isDefined)
    (hlocate : module.object.symbols.locate? entry.name = none) :
    mergeEntry other module entry = .done { module with
      object := (module.object.enter entry.name
        ⟨0, entry.symbol.kind, other.addressOf entry.symbol⟩).2 } := by
  simp [mergeEntry, hdefined, hlocate]

theorem mergeEntry_of_awaited (hdefined : entry.symbol.isDefined) {position : Nat} {known : Symbol}
    (hlocate : module.object.symbols.locate? entry.name = some (position, known))
    (hknown : known.isDefined = false) :
    mergeEntry other module entry = .done { module with
      object := { module.object with
        symbols := module.object.symbols.redefine position entry.symbol.kind
          (other.addressOf entry.symbol) } } := by
  simp [mergeEntry, hdefined, hlocate, hknown]

theorem mergeEntry_of_known (hdefined : entry.symbol.isDefined) {position : Nat} {known : Symbol}
    (hlocate : module.object.symbols.locate? entry.name = some (position, known))
    (hknown : known.isDefined) :
    mergeEntry other module entry =
      if Meaning.Clashes ⟨known.kind, known.value⟩
          ⟨entry.symbol.kind, other.addressOf entry.symbol⟩
      then .stopped module (.multiplyDefined entry.name) else .done module := by
  simp [mergeEntry, hdefined, hlocate, hknown, Meaning.Clashes, Meaning.isVisible,
    Symbol.isVisible, Decidable.imp_iff_not_or, and_assoc]

theorem sameContents_mergeEntry (other module : Relocated) (entry : SymbolEntry) :
    SameContents module (mergeEntry other module entry).state := by
  unfold mergeEntry
  dsimp only
  split
  · exact .refl module
  · split
    · exact .of_tables module _ _
    · split
      · exact .of_tables module _ _
      · split
        · exact .refl module
        · exact .refl module

/-- Only symbols and names are taken in, whether or not a fault stops this. -/
theorem sameContents_mergeSymbols (module other : Relocated) :
    SameContents module (module.mergeSymbols other).state :=
  Progress.each_preserves_of_mem (SameContents module)
    (fun state entry _ hsame ↦ hsame.trans (sameContents_mergeEntry other state entry))
    (.refl module)

/-- Taking in an entry teaches the module what its name means, or else finds a clash. -/
theorem mergeEntry_cases (hrebased : module.rebased = true) (hdistinct : module.NamesDistinct)
    (other : Relocated) (entry : SymbolEntry) :
    (∃ after, mergeEntry other module entry = .done after ∧
      Learns entry.name (other.meaningOf? entry) module after ∧
      ∀ known given, module.meaning? entry.name = some known → other.meaningOf? entry = some given →
        ¬ known.Clashes given) ∨
    (mergeEntry other module entry = .stopped module (.multiplyDefined entry.name) ∧
      ∃ known given, module.meaning? entry.name = some known ∧
        other.meaningOf? entry = some given ∧ known.Clashes given) := by
  cases hdefined : entry.symbol.isDefined with
  | false =>
    have hgiven : other.meaningOf? entry = none := by simp [meaningOf?, hdefined]
    refine .inl ⟨module, mergeEntry_of_undefined hdefined, learns_self ?_, ?_⟩
    · rw [hgiven, Option.or_none]
    · intro known given _ hsome
      rw [hgiven] at hsome
      cases hsome
  | true =>
    have hgiven : other.meaningOf? entry =
        some ⟨entry.symbol.kind, other.addressOf entry.symbol⟩ := if_pos hdefined
    have hkind : entry.symbol.kind.has .undefined = false := by
      simpa [Symbol.isDefined] using hdefined
    cases hlocate : module.object.symbols.locate? entry.name with
    | none =>
      have hlearns := learns_enter hrebased hdistinct hlocate entry.symbol.kind
        (other.addressOf entry.symbol)
      rw [hkind, if_neg Bool.false_ne_true, ← hgiven] at hlearns
      refine .inl ⟨_, mergeEntry_of_new hdefined hlocate, hlearns, ?_⟩
      intro known given hknown
      rw [meaning?, SymbolTable.definition?_of_locate?_eq_none hlocate] at hknown
      cases hknown
    | some found =>
      obtain ⟨position, known⟩ := found
      have hentry := SymbolTable.entryAt?_of_locate? hlocate
      have hmeaning := meaning?_of_entryAt? hdistinct hentry
      cases hknown : known.isDefined with
      | false =>
        rw [if_neg (by simp [hknown])] at hmeaning
        have hlearns := learns_redefine hrebased hdistinct hentry hknown entry.symbol.kind
          (other.addressOf entry.symbol)
        rw [hkind, if_neg Bool.false_ne_true, ← hgiven] at hlearns
        refine .inl ⟨_, mergeEntry_of_awaited hdefined hlocate hknown, hlearns, ?_⟩
        intro former given hformer
        rw [hmeaning] at hformer
        cases hformer
      | true =>
        rw [if_pos hknown, addressOf_of_rebased hrebased] at hmeaning
        rw [mergeEntry_of_known hdefined hlocate hknown]
        split
        · rename_i hclash
          exact .inr ⟨rfl, _, _, hmeaning, hgiven, hclash⟩
        · rename_i hclash
          refine .inl ⟨module, rfl, learns_self (by rw [hmeaning]; rfl), ?_⟩
          intro former given hformer hsome
          obtain rfl := Option.some.inj (hmeaning.symm.trans hformer)
          obtain rfl := Option.some.inj (hgiven.symm.trans hsome)
          exact hclash

/-- What a list of entries of a module says about a name. -/
def listMeaning? (module : Relocated) (name : String) : List SymbolEntry → Option Meaning
  | [] => none
  | entry :: rest =>
    if entry.name = name then module.meaningOf? entry else listMeaning? module name rest

theorem listMeaning?_of_mem {entries : List SymbolEntry}
    (hdistinct : entries.Pairwise fun first second ↦ first.name ≠ second.name)
    (hentry : entry ∈ entries) :
    module.listMeaning? entry.name entries = module.meaningOf? entry := by
  induction entries with
  | nil => cases hentry
  | cons first rest ih =>
    rw [List.pairwise_cons] at hdistinct
    rcases List.mem_cons.mp hentry with rfl | hrest
    · exact if_pos rfl
    · rw [listMeaning?, if_neg (hdistinct.1 entry hrest), ih hdistinct.2 hrest]

theorem listMeaning?_eq_none {name : String} {entries : List SymbolEntry}
    (hnone : ∀ entry ∈ entries, entry.name ≠ name) : module.listMeaning? name entries = none := by
  induction entries with
  | nil => rfl
  | cons first rest ih =>
    rw [List.forall_mem_cons] at hnone
    rw [listMeaning?, if_neg hnone.1, ih hnone.2]

/-- All entries of a table together say what its names mean. -/
theorem listMeaning?_entries (hdistinct : module.NamesDistinct) (name : String) :
    module.listMeaning? name module.object.symbols.entries.toList = module.meaning? name := by
  by_cases hmem : ∃ entry ∈ module.object.symbols.entries.toList, entry.name = name
  · obtain ⟨entry, hentry, rfl⟩ := hmem
    obtain ⟨position, hposition⟩ := List.mem_iff_getElem?.mp hentry
    rw [Array.getElem?_toList] at hposition
    rw [listMeaning?_of_mem (SymbolTable.NamesDistinct.pairwise hdistinct) hentry,
      meaning?_of_entryAt? hdistinct hposition]
    rfl
  · have hnone : ∀ entry ∈ module.object.symbols.entries.toList, entry.name ≠ name := by
      intro entry hentry hname
      exact hmem ⟨entry, hentry, hname⟩
    have hlocate : module.object.symbols.locate? name = none :=
      SymbolTable.locate?_eq_none_iff.mpr fun entry hentry ↦
        hnone entry (Array.mem_toList_iff.mpr hentry)
    rw [listMeaning?_eq_none hnone, meaning?,
      SymbolTable.definition?_of_locate?_eq_none hlocate, Option.map_none]

/-- A module that knows what it knew, and what another one means by the names it did not know. -/
structure Merges (before other after : Relocated) : Prop where
  same : SameContents before after
  grows : before.object.symbols.Grows after.object.symbols
  meaning : ∀ name, after.meaning? name = (before.meaning? name).or (other.meaning? name)

/-- A name on which two modules disagree in public. -/
def ClashAt (first second : Relocated) (name : String) : Prop :=
  ∃ known given, first.meaning? name = some known ∧ second.meaning? name = some given ∧
    known.Clashes given

private theorem each_mergeEntry (other : Relocated) (hrebased : module.rebased = true)
    (hdistinct : module.NamesDistinct) {entries : List SymbolEntry}
    (hentries : entries.Pairwise fun first second ↦ first.name ≠ second.name) :
    (∃ after, Progress.each (mergeEntry other) module entries = .done after ∧
      SameContents module after ∧ module.object.symbols.Grows after.object.symbols ∧
      (∀ name, after.meaning? name = (module.meaning? name).or (other.listMeaning? name entries)) ∧
      ∀ name known given, module.meaning? name = some known →
        other.listMeaning? name entries = some given → ¬ known.Clashes given) ∨
    ∃ name known given, (Progress.each (mergeEntry other) module entries).fault? =
        some (.multiplyDefined name) ∧
      module.meaning? name = some known ∧ other.listMeaning? name entries = some given ∧
        known.Clashes given := by
  induction entries generalizing module with
  | nil =>
    refine .inl ⟨module, rfl, .refl module, .refl _, fun name ↦ (Option.or_none).symm, ?_⟩
    intro name known given _ hgiven
    cases hgiven
  | cons entry rest ih =>
    rw [List.pairwise_cons] at hentries
    obtain ⟨hentry, hrest⟩ := hentries
    have hfree : other.listMeaning? entry.name rest = none :=
      listMeaning?_eq_none fun later hlater ↦ (hentry later hlater).symm
    rcases mergeEntry_cases hrebased hdistinct other entry with
      ⟨next, hstep, hlearns, hagree⟩ | ⟨hstep, known, given, hknown, hgiven, hclash⟩
    · rcases ih (hlearns.same.rebased.trans hrebased) (hlearns.grows.distinct hdistinct) hrest with
        ⟨after, hdone, hsame, hgrows, hmeaning, hclashes⟩ |
        ⟨name, known, given, hfault, hknown, hgiven, hclash⟩
      · refine .inl ⟨after, Progress.each_cons_eq_done_iff.mpr ⟨next, hstep, hdone⟩,
          hlearns.same.trans hsame, hlearns.grows.trans hgrows, ?_, ?_⟩
        · intro name
          rw [hmeaning, hlearns.meaning, listMeaning?]
          by_cases hname : name = entry.name
          · rw [if_pos hname, if_pos hname.symm, hname, hfree, Option.or_none]
          · rw [if_neg hname, if_neg (Ne.symm hname)]
        · intro name known given hknown hgiven
          rw [listMeaning?] at hgiven
          by_cases hname : name = entry.name
          · rw [if_pos hname.symm] at hgiven
            exact hagree known given (hname ▸ hknown) hgiven
          · rw [if_neg (Ne.symm hname)] at hgiven
            refine hclashes name known given ?_ hgiven
            rw [hlearns.meaning, if_neg hname, hknown]
      · have hname : name ≠ entry.name := by
          rintro rfl
          rw [hfree] at hgiven
          cases hgiven
        rw [hlearns.meaning, if_neg hname] at hknown
        refine .inr ⟨name, known, given, ?_, hknown, ?_, hclash⟩
        · exact Progress.fault?_each_cons_eq_some_iff.mpr (.inr ⟨next, hstep, hfault⟩)
        · rw [listMeaning?, if_neg (Ne.symm hname), hgiven]
    · refine .inr ⟨entry.name, known, given, ?_, hknown, ?_, hclash⟩
      · exact Progress.fault?_each_cons_eq_some_iff.mpr (.inl (by rw [hstep]; rfl))
      · rw [listMeaning?, if_pos rfl, hgiven]

/-- Definitions that are taken in leave the known ones as they were, and clash with none of them. -/
theorem mergeSymbols_eq_done (hrebased : module.rebased = true) (hdistinct : module.NamesDistinct)
    (hother : other.NamesDistinct) {after : Relocated}
    (hdone : module.mergeSymbols other = .done after) :
    Merges module other after ∧ ∀ name, ¬ ClashAt module other name := by
  rcases each_mergeEntry other hrebased hdistinct (SymbolTable.NamesDistinct.pairwise hother) with
    ⟨reached, hreached, hsame, hgrows, hmeaning, hclashes⟩ | ⟨name, known, given, hfault, -⟩
  · obtain rfl : reached = after := congrArg Progress.state (hreached.symm.trans hdone)
    simp only [listMeaning?_entries hother] at hmeaning hclashes
    refine ⟨⟨hsame, hgrows, hmeaning⟩, ?_⟩
    rintro name ⟨known, given, hknown, hgiven, hclash⟩
    exact hclashes name known given hknown hgiven hclash
  · rw [mergeSymbols] at hdone
    rw [hdone] at hfault
    cases hfault

/-- Definitions are refused for a name on which both modules disagree in public. -/
theorem mergeSymbols_fault (hrebased : module.rebased = true) (hdistinct : module.NamesDistinct)
    (hother : other.NamesDistinct) {fault : LinkFault}
    (hfault : (module.mergeSymbols other).fault? = some fault) :
    ∃ name, fault = .multiplyDefined name ∧ ClashAt module other name := by
  rcases each_mergeEntry other hrebased hdistinct (SymbolTable.NamesDistinct.pairwise hother) with
    ⟨reached, hreached, -⟩ | ⟨name, known, given, hfound, hknown, hgiven, hclash⟩
  · rw [mergeSymbols, hreached] at hfault
    cases hfault
  · rw [listMeaning?_entries hother] at hgiven
    rw [mergeSymbols, hfound] at hfault
    exact ⟨name, (Option.some.inj hfault).symm, known, given, hknown, hgiven, hclash⟩

end Relocated

end Aout
