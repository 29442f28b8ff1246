import Aout.Proofs.Linking.Conflicts
import Aout.Proofs.Linking.Settlement
/-!
The symbol table of an image: the first-definition merge of the tables of its objects
(`FirstDefinitions`). While the image takes in one object after the other, a name enters its table
because an object defines it or because a record refers to it, and relocation has found a definition
of every name of the second kind (`Image.Merged`). So by the end only names of the first object can
still be undefined. The image starts at its entry symbol, and this is the last thing that can go
wrong (`link_symbols`).
-/

set_option autoImplicit false
set_option relaxedAutoImplicit false

namespace Aout

open Placed

/-- What a name means in an object whose symbols are absolute addresses. -/
def Object.meaning? (object : Object) (name : String) : Option Meaning :=
  (object.symbols.definition? name).map fun symbol ↦ ⟨symbol.kind, symbol.value⟩

/-- The table of an image as the merge of the tables of several modules. A name means what the first
module that defines it means by it, the symbols of the first module keep their positions, and a
symbol that is still undefined is one that the first module declares and no module defines. -/
structure FirstDefinitions (modules : List Placed) (linked : Object) : Prop where
  distinct : linked.symbols.NamesDistinct
  meaning : ∀ name, linked.meaning? name = firstMeaning? modules name
  front : ∀ first ∈ modules.head?, first.object.symbols.names <+: linked.symbols.names
  awaited : ∀ position entry, linked.symbols.entryAt? position = some entry →
    entry.symbol.isDefined = false →
      (∃ first ∈ modules.head?, ∃ symbol, symbol.isDefined = false ∧
        first.object.symbols.entryAt? position = some ⟨entry.name, symbol⟩) ∧
      ∀ module ∈ modules, module.meaning? entry.name = none

/-- An entry of a module is what the module means by its name, if it is defined. -/
theorem Placed.meaning?_of_entryAt? {module : Placed}
    (hdistinct : module.object.symbols.NamesDistinct) {position : Nat} {entry : SymbolEntry}
    (hentry : module.object.symbols.entryAt? position = some entry) :
    module.meaning? entry.name = if entry.symbol.isDefined then
      some ⟨entry.symbol.kind, module.bases.addressOf entry.symbol⟩ else none := by
  have hdefinition := SymbolTable.definition?_of_entryAt? hdistinct hentry
  rw [SymbolTable.definition?] at hdefinition
  rw [Placed.meaning?, definition?, hdefinition]
  split <;> rfl

namespace Image

variable {modules front : List Placed} {image joined second : Relocated} {next : Placed}
  {relocated : List Relocated}

/-- What is known of the table of an image and its bases while it takes in modules. -/
structure Merged (modules front : List Placed) (image : Relocated) : Prop
    extends Knows front image where
  bases : ∃ first ∈ modules.head?, image.bases = first.bases
  front : ∀ first ∈ modules.head?, first.object.symbols.names <+: image.object.symbols.names
  needed : ∀ name ∈ image.object.symbols.names,
    (∃ first ∈ modules.head?, name ∈ first.object.symbols.names) ∨
      ∃ module ∈ modules, (module.meaning? name).isSome

theorem merged_singleton {first : Placed} (hbegins : [first] <+: modules)
    (hrelocates : Relocates modules first image)
    (hdistinct : first.object.symbols.NamesDistinct) : Merged modules [first] image := by
  obtain ⟨rest, rfl⟩ := hbegins
  refine ⟨knows_singleton hrelocates hdistinct, ⟨first, rfl, hrelocates.bases⟩, ?_,
    fun name hname ↦ .inl ⟨first, rfl, ?_⟩⟩
  · rintro _ ⟨rfl⟩
    exact ⟨[], by rw [List.append_nil, hrelocates.symbols]⟩
  · rwa [← hrelocates.symbols]

/-- A name to which a record of a relocated module refers is defined in some module. -/
theorem exists_meaning?_of_refersTo (hrelocates : Relocates modules next second) {name : String}
    (hrefers : second.object.RefersTo name) :
    ∃ module ∈ modules, (module.meaning? name).isSome := by
  obtain ⟨address, hfound, -⟩ := exists_narrow_of_refersTo (fun _ _ ↦ hrelocates.stands) hrefers
  obtain ⟨place, definer, symbol, hplace, hsymbol, -⟩ := exists_definer hfound
  refine ⟨definer, List.mem_of_getElem? hplace, ?_⟩
  rw [Placed.meaning?, hsymbol]
  rfl

theorem merged_append (hmerged : Merged modules front image) (hbegins : front ++ [next] <+: modules)
    (hrelocates : Relocates modules next second) (hdistinct : next.object.symbols.NamesDistinct)
    (hconcat : image.concat second = .done joined) : Merged modules (front ++ [next]) joined := by
  have hsecond : second.NamesDistinct := by rwa [Relocated.NamesDistinct, hrelocates.symbols]
  have hjoined := Relocated.concat_eq_done hmerged.distinct hsecond hconcat
  have hsteps := Relocated.concat_evolves image second
  rw [hconcat] at hsteps
  refine ⟨knows_append hmerged.toKnows hrelocates hjoined, ?_, ?_, fun name hname ↦ ?_⟩
  · rw [hjoined.bases]
    exact hmerged.bases
  · exact fun first hfirst ↦ (hmerged.front first hfirst).trans hsteps.names_prefix
  · rcases hsteps.mem_names hname with hformer | ⟨entry, hentry, rfl, hdefined⟩ | hrefers
    · exact hmerged.needed name hformer
    · obtain ⟨position, hposition⟩ := Array.mem_iff_getElem?.mp hentry
      rw [hrelocates.symbols] at hposition
      refine .inr ⟨next, hbegins.mem List.mem_concat_self, ?_⟩
      rw [meaning?_of_entryAt? hdistinct hposition, if_pos hdefined]
      rfl
    · exact .inr (exists_meaning?_of_refersTo hrelocates hrefers)

theorem merged_of_fold (hrelocates : List.Forall₂ (Relocates modules) modules relocated)
    (hdistinct : ∀ module ∈ modules, module.object.symbols.NamesDistinct)
    (hfold : fold relocated = .ok image) : Merged modules modules image := by
  refine fold_induction (motive := Merged modules) (fun first image hbegins hnext ↦ ?_)
    (fun front next image second joined hbegins hnext hconcat hmerged ↦ ?_) hrelocates hfold
  · exact merged_singleton hbegins hnext (hdistinct first (hbegins.mem List.mem_cons_self))
  · exact merged_append hmerged hbegins hnext (hdistinct next (hbegins.mem List.mem_concat_self))
      hconcat

/-- By the end, an undefined symbol of the image stands where the first module has one. -/
theorem Merged.awaited (hmerged : Merged modules modules image)
    (hdistinct : ∀ module ∈ modules, module.object.symbols.NamesDistinct) {position : Nat}
    {entry : SymbolEntry} (hentry : image.object.symbols.entryAt? position = some entry)
    (hawaited : entry.symbol.isDefined = false) :
    (∃ first ∈ modules.head?, ∃ symbol, symbol.isDefined = false ∧
      first.object.symbols.entryAt? position = some ⟨entry.name, symbol⟩) ∧
    ∀ module ∈ modules, module.meaning? entry.name = none := by
  have hmeaning := Relocated.meaning?_of_entryAt? hmerged.distinct hentry
  rw [hmerged.meaning, if_neg (by simp [hawaited]), firstMeaning?, List.findSome?_eq_none_iff]
    at hmeaning
  refine ⟨?_, hmeaning⟩
  have hname := SymbolTable.getElem?_names_of_entryAt? hentry
  rcases hmerged.needed entry.name (List.mem_of_getElem? hname) with
    ⟨first, hfirst, hknown⟩ | ⟨module, hmodule, hsome⟩
  · obtain ⟨place, symbol, hplace⟩ := SymbolTable.exists_entryAt?_of_mem_names hknown
    have hfront : image.object.symbols.names[place]? = some entry.name := by
      obtain ⟨rest, hrest⟩ := hmerged.front first hfirst
      have hplaced := SymbolTable.getElem?_names_of_entryAt? hplace
      rw [← hrest, List.getElem?_append_left (List.getElem?_eq_some_iff.mp hplaced).1, hplaced]
    have hnodup := SymbolTable.namesDistinct_iff_nodup.mp hmerged.distinct
    have hlt := (List.getElem?_eq_some_iff.mp hfront).1
    obtain rfl := (List.getElem?_inj hlt hnodup).mp (hfront.trans hname.symm)
    refine ⟨first, hfirst, symbol, ?_, hplace⟩
    have hmember := List.mem_of_mem_head? hfirst
    have hmeans := meaning?_of_entryAt? (hdistinct first hmember) hplace
    rw [hmeaning first hmember] at hmeans
    by_contra hdefined
    rw [if_pos (by simpa using hdefined)] at hmeans
    cases hmeans
  · rw [hmeaning module hmodule] at hsome
    cases hsome

/-- The image starts at its entry symbol, or else where its text starts. -/
theorem entryAddress_fst (image : Relocated) (entrySymbol : String) :
    (entryAddress image entrySymbol).1 =
      (image.meaning? entrySymbol).elim image.bases.text (·.address) := by
  unfold entryAddress Relocated.meaning? SymbolTable.definition?
  cases (image.object.symbols.find? entrySymbol).filter (·.isDefined) <;> rfl

end Image

variable {objects : List Object} {textBase : UInt16} {entrySymbol : String}

theorem meaning?_toObject (image : Relocated) (entry : UInt16) (name : String) :
    (image.setEntryPoint entry).toObject.meaning? name = image.meaning? name := by
  have hmeaning := Relocated.meaning?_rebase (image.setEntryPoint entry) name
  unfold Relocated.meaning? at hmeaning
  simp only [Relocated.addressOf_of_rebased (Relocated.rebased_rebase _)] at hmeaning
  exact hmeaning

/-- The table of the finished object is that of the image, with all definitions made absolute. -/
theorem Image.Merged.firstDefinitions {modules : List Placed} {image : Relocated}
    (hmerged : Image.Merged modules modules image)
    (hdistinct : ∀ module ∈ modules, module.object.symbols.NamesDistinct) (entry : UInt16) :
    FirstDefinitions modules (image.setEntryPoint entry).toObject where
  distinct := by
    have hsame : (image.setEntryPoint entry).NamesDistinct := hmerged.distinct
    exact Relocated.namesDistinct_rebase hsame
  meaning := fun name ↦ by rw [meaning?_toObject, hmerged.meaning]
  front := by
    intro first hfirst
    have hnames : (image.setEntryPoint entry).toObject.symbols.names = image.object.symbols.names :=
      Relocated.names_rebase (image.setEntryPoint entry)
    rw [hnames]
    exact hmerged.front first hfirst
  awaited := by
    intro position found hfound hawaited
    rw [entryAt?_toObject, Option.map_eq_some_iff] at hfound
    obtain ⟨former, hformer, rfl⟩ := hfound
    rw [Relocated.isDefined_absolute] at hawaited
    have hfirst := hmerged.awaited hdistinct hformer hawaited
    exact hfirst

theorem entry_toObject (image : Relocated) (entry : UInt16) :
    (image.setEntryPoint entry).toObject.entry = entry.toUInt32 := by
  unfold Relocated.toObject Relocated.rebase
  split <;> rfl

/-- The text of the first object starts at the given address. -/
theorem text_of_head? {bases : List Bases} (hlayout : layout objects textBase = .ok bases)
    {first : Placed} (hfirst : first ∈ (all objects bases).head?) :
    first.bases.text = textBase.toUInt32 := by
  rw [List.head?_eq_getElem?, Option.mem_def, getElem?_all] at hfirst
  have htext := (base_of_layout hlayout hfirst.2).1
  rwa [List.take_zero, Layout.total, List.map_nil, List.sum_nil, Nat.add_zero,
    ← UInt16.toNat_toUInt32, UInt32.toNat_inj] at htext

/-- The entry address is that of the first definition of the entry symbol. -/
theorem Image.Merged.entryAddress_fst {bases : List Bases} {image : Relocated}
    (hmerged : Image.Merged (all objects bases) (all objects bases) image)
    (hlayout : layout objects textBase = .ok bases) :
    (Image.entryAddress image entrySymbol).1 =
      (firstMeaning? (all objects bases) entrySymbol).elim textBase.toUInt32 (·.address) := by
  obtain ⟨first, hfirst, hbases⟩ := hmerged.bases
  rw [Image.entryAddress_fst, hmerged.meaning, hbases, text_of_head? hlayout hfirst]

/-- The finished object starts at its entry symbol, or else where its text starts. -/
theorem Image.Merged.entry_toObject {bases : List Bases} {image : Relocated}
    (hmerged : Image.Merged (all objects bases) (all objects bases) image)
    (hlayout : layout objects textBase = .ok bases) {entry : UInt16}
    (hentry : Word.narrow? (Image.entryAddress image entrySymbol).1 = some entry) :
    (image.setEntryPoint entry).toObject.entry =
      ((image.setEntryPoint entry).toObject.meaning? entrySymbol).elim textBase.toUInt32
        (·.address) := by
  rw [hmerged.entryAddress_fst hlayout, Word.narrow?_eq_some_iff, ← UInt16.toNat_toUInt32,
    UInt32.toNat_inj, ← hmerged.meaning, ← meaning?_toObject image entry] at hentry
  rw [Aout.entry_toObject, hentry]

/-- Once all objects are in one, only the address of the entry symbol can be too wide. -/
theorem Image.Merged.link_eq_error_iff {bases : List Bases} {relocated : List Relocated}
    {image : Relocated} (hmerged : Image.Merged (all objects bases) (all objects bases) image)
    (hlayout : layout objects textBase = .ok bases)
    (hrelocate : relocateAll (all objects bases) = .ok relocated)
    (hfold : Image.fold relocated = .ok image) (fault : LinkFault) :
    link objects textBase entrySymbol = .error fault ↔
      ∃ meaning, firstMeaning? (all objects bases) entrySymbol = some meaning ∧
        0xFFFF < meaning.address.toNat ∧ fault = .entryTooWide meaning.address := by
  rw [link_eq_of_fold hlayout hrelocate hfold]
  dsimp only
  rw [hmerged.entryAddress_fst hlayout]
  cases hmeaning : firstMeaning? (all objects bases) entrySymbol with
  | none =>
    have hnarrow : Word.narrow? textBase.toUInt32 = some textBase :=
      Word.narrow?_eq_some_iff.mpr (UInt16.toNat_toUInt32 textBase)
    simp [hnarrow]
  | some meaning =>
    cases hnarrow : Word.narrow? meaning.address with
    | none =>
      have hwide := Word.narrow?_eq_none_iff.mp hnarrow
      simp [hnarrow, hwide, eq_comm]
    | some entry =>
      have hfits : ¬ 0xFFFF < meaning.address.toNat := by
        rw [← Word.narrow?_eq_none_iff, hnarrow]
        exact Option.some_ne_none entry
      simp [hnarrow, hfits]

/-- The symbol table of an image is the first-definition merge of those of the objects. The image
starts at its entry symbol, or where its text starts if nothing defines this symbol, and once all
objects are in one, only an entry symbol with an address of more than 16 bits stops the link. -/
theorem link_symbols (hdistinct : ∀ object ∈ objects, object.symbols.NamesDistinct) :
    (∀ linked notices, link objects textBase entrySymbol = .ok (linked, notices) →
      ∃ bases, layout objects textBase = .ok bases ∧
        FirstDefinitions (all objects bases) linked ∧
        (∀ meaning, linked.meaning? entrySymbol = some meaning → linked.entry = meaning.address) ∧
        (linked.meaning? entrySymbol = none → linked.entry = textBase.toUInt32)) ∧
    ∀ bases relocated image, layout objects textBase = .ok bases →
      relocateAll (all objects bases) = .ok relocated → Image.fold relocated = .ok image →
        ∀ fault, link objects textBase entrySymbol = .error fault ↔
          ∃ meaning, firstMeaning? (all objects bases) entrySymbol = some meaning ∧
            0xFFFF < meaning.address.toNat ∧ fault = .entryTooWide meaning.address := by
  have hmodules (bases : List Bases) :
      ∀ module ∈ all objects bases, module.object.symbols.NamesDistinct :=
    fun module hmodule ↦ hdistinct _ (object_mem_of_mem_all hmodule)
  constructor
  · intro linked notices hlink
    obtain ⟨bases, relocated, image, -, hlayout, hrelocate, hfold, -⟩ := link_eq_ok hlink
    have hmerged := Image.merged_of_fold (relocateAll_eq_ok hrelocate) (hmodules bases) hfold
    rw [link_eq_of_fold hlayout hrelocate hfold] at hlink
    dsimp only at hlink
    split at hlink
    · cases hlink
    · rename_i entry hentry
      obtain ⟨rfl, -⟩ := Prod.mk.inj (Except.ok.inj hlink)
      have hstart := hmerged.entry_toObject hlayout hentry
      refine ⟨bases, hlayout, hmerged.firstDefinitions (hmodules bases) entry,
        fun meaning hmeaning ↦ ?_, fun hnone ↦ ?_⟩
      · rw [hstart, hmeaning, Option.elim_some]
      · rw [hstart, hnone, Option.elim_none]
  · intro bases relocated image hlayout hrelocate hfold fault
    have hmerged := Image.merged_of_fold (relocateAll_eq_ok hrelocate) (hmodules bases) hfold
    exact hmerged.link_eq_error_iff hlayout hrelocate hfold fault

/-- An image that starts at a function of its second object. -/
theorem link_symbols_call :
    ∃ linked notices, link [.calling "f", .labelled "f" true] 0x100 "f" = .ok (linked, notices) ∧
      FirstDefinitions (all [.calling "f", .labelled "f" true] [⟨0x100, 0, 0⟩, ⟨0x102, 0, 0⟩])
        linked ∧ linked.entry = 0x102 := by
  have hsome : (link [.calling "f", .labelled "f" true] 0x100 "f").toOption.isSome := by
    decide +kernel
  obtain ⟨⟨linked, notices⟩, hlink⟩ := Fallible.exists_eq_ok_of_isSome hsome
  obtain ⟨bases, hbases, htable, hentry, -⟩ :=
    (link_symbols namesDistinct_call).1 linked notices hlink
  have hlayout : layout [.calling "f", .labelled "f" true] 0x100 =
      .ok [⟨0x100, 0, 0⟩, ⟨0x102, 0, 0⟩] := Fallible.eq_ok_of_toOption (by decide +kernel)
  obtain rfl := Except.ok.inj (hlayout.symm.trans hbases)
  have hmeaning : linked.meaning? "f" = some ⟨.label .text true, 0x102⟩ := by
    rw [htable.meaning]
    decide +kernel
  exact ⟨linked, notices, hlink, htable, hentry _ hmeaning⟩

end Aout
