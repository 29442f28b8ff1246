import Aout.Proofs.Symbol.Growth
import Mathlib.Data.List.Forall2
import Mathlib.Data.List.Induction
/-!
Looking addresses up. All lookups are decided by the name at each exact address
(`AddressIndex.nearest?_eq_some_iff`, `AddressIndex.nearestAny?_eq_some_iff`), so two indexes that
are alike at every address give answers that are alike (`AddressIndex.rel_nearest?`,
`AddressIndex.rel_nearestAny?`).
-/

set_option autoImplicit false
set_option relaxedAutoImplicit false

namespace Aout

variable {Same : String → String → Prop}

namespace Label

/-- Labels of the same address whose names are related. -/
structure Alike (Same : String → String → Prop) (first second : Label) : Prop where
  segment : first.segment = second.segment
  address : first.address = second.address
  name : Same first.name second.name

theorem eq_of_rel_alike {found other : Option Label}
    (hrelated : Option.Rel (Alike Eq) found other) : found = other := by
  cases hrelated with
  | none => rfl
  | @some first second halike =>
    obtain ⟨segment, address, name⟩ := first
    obtain ⟨rfl, rfl, rfl⟩ := halike
    rfl

variable {label : Label} {labels : List Label}

theorem latest?_eq_none_iff : latest? labels = none ↔ labels = [] := by
  cases labels with
  | nil => exact iff_of_true rfl rfl
  | cons label rest =>
    rw [latest?]
    cases latest? rest <;> simp

theorem find?_of_latest? (hlatest : latest? labels = some label) :
    labels.find? (·.address == label.address) = some label ∧
      ∀ other ∈ labels, other.address ≤ label.address := by
  induction labels generalizing label with
  | nil => cases hlatest
  | cons first rest ih =>
    rw [latest?] at hlatest
    cases hrest : latest? rest with
    | none =>
      rw [hrest] at hlatest
      obtain rfl := latest?_eq_none_iff.mp hrest
      obtain rfl := Option.some.inj hlatest
      simp
    | some best =>
      rw [hrest] at hlatest
      obtain ⟨hfound, hgreatest⟩ := ih hrest
      obtain rfl := Option.some.inj hlatest
      by_cases hearlier : first.address < best.address
      · rw [if_pos hearlier, List.find?_cons_of_neg (by simpa using UInt32.ne_of_lt hearlier)]
        exact ⟨hfound, List.forall_mem_cons.mpr ⟨UInt32.le_of_lt hearlier, hgreatest⟩⟩
      · have hlater := UInt32.not_lt.mp hearlier
        rw [if_neg hearlier, List.find?_cons_of_pos (by simp)]
        exact ⟨rfl, List.forall_mem_cons.mpr ⟨UInt32.le_refl _, fun other hother ↦
          UInt32.le_trans (hgreatest other hother) hlater⟩⟩

/-- The latest label is the first one with the greatest address. -/
theorem latest?_eq_some_iff : latest? labels = some label ↔
    labels.find? (·.address == label.address) = some label ∧
      ∀ other ∈ labels, other.address ≤ label.address := by
  refine ⟨find?_of_latest?, fun ⟨hfound, hgreatest⟩ ↦ ?_⟩
  cases hlatest : latest? labels with
  | none =>
    rw [latest?_eq_none_iff.mp hlatest] at hfound
    cases hfound
  | some best =>
    obtain ⟨hbest, hlast⟩ := find?_of_latest? hlatest
    have haddress : label.address = best.address := UInt32.le_antisymm
      (hlast label (List.mem_of_find?_eq_some hfound))
      (hgreatest best (List.mem_of_find?_eq_some hbest))
    rw [← hbest, ← haddress, hfound]

end Label

namespace AddressIndex

open Label

variable {index first second : AddressIndex} {segment : Segment} {address : UInt32}

theorem nameAt?_eq_some_iff {name : String} : index.nameAt? segment address = some name ↔
    index.labels.find? (·.isAt segment address) = some ⟨segment, address, name⟩ := by
  rw [nameAt?, Option.map_eq_some_iff]
  constructor
  · rintro ⟨label, hfound, rfl⟩
    have hat := List.find?_some hfound
    simp only [isAt, Bool.and_eq_true, beq_iff_eq] at hat
    rw [hfound, ← hat.1, ← hat.2]
  · intro hfound
    exact ⟨_, hfound, rfl⟩

theorem isSome_nameAt?_of_mem {label : Label} (hlabel : label ∈ index.labels) :
    (index.nameAt? label.segment label.address).isSome := by
  rw [nameAt?, Option.isSome_map, List.find?_isSome]
  exact ⟨label, hlabel, by simp [isAt]⟩

/-- The nearest label is the name at the greatest address that has one. -/
theorem nearestLabel?_eq_some_iff {label : Label} :
    index.nearestLabel? segment address = some label ↔
      label.segment = segment ∧ label.address ≤ address ∧
      index.nameAt? segment label.address = some label.name ∧
      ∀ between ≤ address, (index.nameAt? segment between).isSome → between ≤ label.address := by
  have hat (hbelow : label.address ≤ address) :
      (index.labels.filter fun other ↦ other.segment == segment && other.address ≤ address).find?
        (·.address == label.address) = index.labels.find? (·.isAt segment label.address) := by
    rw [List.find?_filter]
    congr 1
    funext other
    rw [Bool.eq_iff_iff]
    simp only [isAt, decide_eq_true_eq, Bool.and_eq_true, beq_iff_eq]
    constructor
    · rintro ⟨⟨hsegment, -⟩, haddress⟩
      exact ⟨hsegment, haddress⟩
    · rintro ⟨hsegment, haddress⟩
      exact ⟨⟨hsegment, haddress ▸ hbelow⟩, haddress⟩
  rw [nearestLabel?, latest?_eq_some_iff]
  constructor
  · rintro ⟨hfound, hgreatest⟩
    have hlabel := (List.mem_filter.mp (List.mem_of_find?_eq_some hfound)).2
    simp only [Bool.and_eq_true, beq_iff_eq, decide_eq_true_eq] at hlabel
    obtain ⟨rfl, hbelow⟩ := hlabel
    rw [hat hbelow] at hfound
    refine ⟨rfl, hbelow, nameAt?_eq_some_iff.mpr hfound, fun between hbetween hsome ↦ ?_⟩
    obtain ⟨name, hname⟩ := Option.isSome_iff_exists.mp hsome
    have hmem := List.mem_of_find?_eq_some (nameAt?_eq_some_iff.mp hname)
    exact hgreatest _ (List.mem_filter.mpr ⟨hmem, by simpa using hbetween⟩)
  · rintro ⟨rfl, hbelow, hname, hgreatest⟩
    refine ⟨(hat hbelow).trans (nameAt?_eq_some_iff.mp hname), fun other hother ↦ ?_⟩
    obtain ⟨hmem, hother⟩ := List.mem_filter.mp hother
    simp only [Bool.and_eq_true, beq_iff_eq, decide_eq_true_eq] at hother
    exact hgreatest _ hother.2 (hother.1 ▸ isSome_nameAt?_of_mem hmem)

theorem nearestLabel?_eq_none_iff : index.nearestLabel? segment address = none ↔
    ∀ between ≤ address, index.nameAt? segment between = none := by
  rw [nearestLabel?, latest?_eq_none_iff, List.filter_eq_nil_iff]
  constructor
  · intro hnone between hbetween
    refine Option.eq_none_iff_forall_ne_some.mpr fun name hname ↦ ?_
    have hmem := List.mem_of_find?_eq_some (nameAt?_eq_some_iff.mp hname)
    exact hnone _ hmem (by simpa using hbetween)
  · intro hnone label hlabel hbelow
    simp only [Bool.and_eq_true, beq_iff_eq, decide_eq_true_eq] at hbelow
    have hsome := isSome_nameAt?_of_mem hlabel
    rw [hbelow.1, hnone _ hbelow.2] at hsome
    cases hsome

theorem isSome_eq_of_rel {found other : Option String} (hrelated : Option.Rel Same found other) :
    found.isSome = other.isSome := by
  cases hrelated <;> rfl

/-- Indexes that are alike at every address of a segment have nearest labels that are alike. -/
theorem rel_nearestLabel? (hnames : ∀ address, Option.Rel Same (first.nameAt? segment address)
    (second.nameAt? segment address)) (address : UInt32) :
    Option.Rel (Alike Same) (first.nearestLabel? segment address)
      (second.nearestLabel? segment address) := by
  have hsome (between : UInt32) := isSome_eq_of_rel (hnames between)
  cases hfirst : first.nearestLabel? segment address with
  | none =>
    have hsecond : second.nearestLabel? segment address = none := by
      refine nearestLabel?_eq_none_iff.mpr fun between hbetween ↦ ?_
      rw [← Option.not_isSome_iff_eq_none, ← hsome, Option.not_isSome_iff_eq_none]
      exact nearestLabel?_eq_none_iff.mp hfirst between hbetween
    rw [hsecond]
    exact .none
  | some label =>
    obtain ⟨hsegment, hbelow, hname, hgreatest⟩ := nearestLabel?_eq_some_iff.mp hfirst
    have halike := hnames label.address
    rw [hname] at halike
    obtain ⟨name, hother⟩ := Option.isSome_iff_exists.mp (isSome_eq_of_rel halike).symm
    rw [hother] at halike
    have hsecond : second.nearestLabel? segment address = some ⟨segment, label.address, name⟩ :=
      nearestLabel?_eq_some_iff.mpr ⟨rfl, hbelow, hother, fun between hbetween hfound ↦
        hgreatest between hbetween ((hsome between).trans hfound)⟩
    rw [hsecond]
    cases halike with
    | some hsame => exact .some ⟨hsegment, rfl, hsame⟩

theorem toNat_add_distance {value : UInt32} (hbelow : value ≤ address) :
    value.toNat + (address - value).toNat = address.toNat := by
  rw [UInt32.toNat_sub_of_le _ _ hbelow]
  exact Nat.add_sub_cancel' (UInt32.le_iff_toNat_le.mp hbelow)

/-- The nearest name is the one at the greatest address that has a name, and the distance is that to
this address. -/
theorem nearest?_eq_some_iff {found : Nearby} : index.nearest? segment address = some found ↔
    ∃ value : UInt32, value.toNat + found.distance.toNat = address.toNat ∧
      index.nameAt? segment value = some found.name ∧
      ∀ between ≤ address, (index.nameAt? segment between).isSome → between ≤ value := by
  rw [nearest?, Option.map_eq_some_iff]
  constructor
  · rintro ⟨label, hlabel, rfl⟩
    obtain ⟨-, hbelow, hname, hgreatest⟩ := nearestLabel?_eq_some_iff.mp hlabel
    exact ⟨label.address, toNat_add_distance hbelow, hname, hgreatest⟩
  · rintro ⟨value, hvalue, hname, hgreatest⟩
    have hbelow : value ≤ address := by
      rw [UInt32.le_iff_toNat_le]
      omega
    refine ⟨⟨segment, value, found.name⟩,
      nearestLabel?_eq_some_iff.mpr ⟨rfl, hbelow, hname, hgreatest⟩, ?_⟩
    have hdistance : address - value = found.distance := by
      have hsum := toNat_add_distance hbelow
      rw [← UInt32.toNat_inj]
      omega
    rw [nearby, hdistance]

theorem nearest?_eq_none_iff : index.nearest? segment address = none ↔
    ∀ between ≤ address, index.nameAt? segment between = none := by
  rw [nearest?, Option.map_eq_none_iff, nearestLabel?_eq_none_iff]

end AddressIndex

/-! ### The nearest name in any segment -/

namespace Nearby

/-- One name is closer than another one, or as close and in an earlier segment. -/
structure Precedes (first second : Segment × Nearby) : Prop where
  distance : first.2.distance ≤ second.2.distance
  segment : first.2.distance = second.2.distance → first.1.tag ≤ second.1.tag

theorem Precedes.refl (found : Segment × Nearby) : Precedes found found :=
  ⟨UInt32.le_refl _, fun _ ↦ UInt32.le_refl _⟩

theorem Precedes.trans {first second third : Segment × Nearby} (hfirst : Precedes first second)
    (hsecond : Precedes second third) : Precedes first third where
  distance := UInt32.le_trans hfirst.distance hsecond.distance
  segment := by
    intro hsame
    have hmiddle : first.2.distance = second.2.distance :=
      UInt32.le_antisymm hfirst.distance (hsame ▸ hsecond.distance)
    exact UInt32.le_trans (hfirst.segment hmiddle) (hsecond.segment (hmiddle ▸ hsame))

/-- Of names in the order of their segments, one is left that precedes all of them. -/
theorem foldl_closer (best : Segment × Nearby) {names : List (Segment × Nearby)}
    (hordered : (best :: names).Pairwise fun first second ↦ first.1.tag < second.1.tag) :
    ∃ found, names.foldl closer (some best) = some found ∧ found ∈ best :: names ∧
      ∀ other ∈ best :: names, Precedes found other := by
  induction names generalizing best with
  | nil => exact ⟨best, rfl, List.mem_singleton_self _, by simp [Precedes.refl]⟩
  | cons further rest ih =>
    rw [List.foldl_cons, closer]
    by_cases hcloser : further.2.distance < best.2.distance
    · rw [if_pos hcloser]
      obtain ⟨found, hfound, hmember, hleast⟩ := ih further (List.pairwise_cons.mp hordered).2
      refine ⟨found, hfound, List.mem_cons_of_mem _ hmember,
        List.forall_mem_cons.mpr ⟨?_, hleast⟩⟩
      exact (hleast further List.mem_cons_self).trans
        ⟨UInt32.le_of_lt hcloser, fun hsame ↦ absurd hsame (UInt32.ne_of_lt hcloser)⟩
    · rw [if_neg hcloser]
      obtain ⟨found, hfound, hmember, hleast⟩ :=
        ih best (hordered.sublist ((List.sublist_cons_self _ _).cons_cons _))
      obtain ⟨hbest, hrest⟩ := List.forall_mem_cons.mp hleast
      have hlater := (List.pairwise_cons.mp hordered).1 further List.mem_cons_self
      refine ⟨found, hfound, ?_, List.forall_mem_cons.mpr
        ⟨hbest, List.forall_mem_cons.mpr ⟨hbest.trans ?_, hrest⟩⟩⟩
      · rcases List.mem_cons.mp hmember with rfl | hmember
        · exact List.mem_cons_self
        · exact List.mem_cons_of_mem _ (List.mem_cons_of_mem _ hmember)
      · exact ⟨UInt32.not_lt.mp hcloser, fun _ ↦ UInt32.le_of_lt hlater⟩

end Nearby

namespace AddressIndex

open Nearby

variable {index first second : AddressIndex} {address : UInt32}

/-- Either no segment has a nearest name, or one of them has the name that precedes the others. -/
theorem nearestAny?_cases (index : AddressIndex) (address : UInt32) :
    index.nearestAny? address = none ∧ (∀ segment, index.nearest? segment address = none) ∨
      ∃ segment found, index.nearestAny? address = some (segment, found) ∧
        index.nearest? segment address = some found ∧
        ∀ other near, index.nearest? other address = some near →
          Precedes (segment, found) (other, near) := by
  have hordered : (Segment.all.filterMap fun segment ↦ (index.nearest? segment address).map
      fun found ↦ (segment, found)).Pairwise fun first second ↦ first.1.tag < second.1.tag := by
    rw [List.pairwise_filterMap]
    refine List.Pairwise.imp ?_ (show Segment.all.Pairwise (·.tag < ·.tag) by decide)
    intro segment other hless first hfirst second hsecond
    obtain ⟨-, -, rfl⟩ := Option.map_eq_some_iff.mp hfirst
    obtain ⟨-, -, rfl⟩ := Option.map_eq_some_iff.mp hsecond
    exact hless
  have hmember (segment : Segment) (found : Nearby) :
      (segment, found) ∈ (Segment.all.filterMap fun segment ↦
        (index.nearest? segment address).map fun found ↦ (segment, found)) ↔
        index.nearest? segment address = some found := by
    rw [List.mem_filterMap]
    constructor
    · rintro ⟨other, -, hother⟩
      obtain ⟨near, hnear, hsame⟩ := Option.map_eq_some_iff.mp hother
      obtain ⟨rfl, rfl⟩ := Prod.mk.inj hsame
      exact hnear
    · exact fun hnearest ↦ ⟨segment, segment.mem_all, by rw [hnearest, Option.map_some]⟩
  unfold nearestAny?
  generalize (Segment.all.filterMap fun segment ↦ (index.nearest? segment address).map
    fun found ↦ (segment, found)) = names at hordered hmember
  cases names with
  | nil =>
    refine .inl ⟨rfl, fun segment ↦ Option.eq_none_iff_forall_ne_some.mpr fun found hfound ↦ ?_⟩
    exact List.not_mem_nil ((hmember segment found).mpr hfound)
  | cons best rest =>
    obtain ⟨⟨segment, found⟩, hfold, hfound, hleast⟩ := foldl_closer best hordered
    refine .inr ⟨segment, found, hfold, (hmember segment found).mp hfound, ?_⟩
    exact fun other near hnear ↦ hleast _ ((hmember other near).mpr hnear)

theorem nearestAny?_eq_none_iff :
    index.nearestAny? address = none ↔ ∀ segment, index.nearest? segment address = none := by
  rcases nearestAny?_cases index address with ⟨hany, hnone⟩ | ⟨segment, found, hany, hfound, -⟩
  · exact iff_of_true hany hnone
  · rw [hany]
    exact iff_of_false nofun fun hnone ↦ by simp [hnone] at hfound

/-- The nearest name of all segments is at the least distance, and of several in the first segment.
-/
theorem nearestAny?_eq_some_iff {segment : Segment} {found : Nearby} :
    index.nearestAny? address = some (segment, found) ↔
      index.nearest? segment address = some found ∧
        ∀ other near, index.nearest? other address = some near →
          found.distance ≤ near.distance ∧
            (found.distance = near.distance → segment.tag ≤ other.tag) := by
  rcases nearestAny?_cases index address with ⟨hany, hnone⟩ | ⟨best, least, hany, hleast, hall⟩
  · simp [hany, hnone]
  · rw [hany, Option.some.injEq, Prod.mk.injEq]
    constructor
    · rintro ⟨rfl, rfl⟩
      exact ⟨hleast, fun other near hnear ↦ ⟨(hall other near hnear).1, (hall other near hnear).2⟩⟩
    · rintro ⟨hfound, hbest⟩
      have hbefore := hall segment found hfound
      have hbehind := hbest best least hleast
      have hdistance := UInt32.le_antisymm hbefore.distance hbehind.1
      obtain rfl : best = segment := Segment.eq_of_tag_eq
        (UInt32.le_antisymm (hbefore.segment hdistance) (hbehind.2 hdistance.symm))
      exact ⟨rfl, Option.some.inj (hleast.symm.trans hfound)⟩

/-! ### Indexes that are alike -/

/-- The nearest names are at the same distance. -/
theorem rel_nearest? {segment : Segment} (hnames : ∀ address, Option.Rel Same
    (first.nameAt? segment address) (second.nameAt? segment address)) (address : UInt32) :
    Option.Rel (fun found other ↦ found.distance = other.distance)
      (first.nearest? segment address) (second.nearest? segment address) := by
  have hlabels := rel_nearestLabel? hnames address
  rw [nearest?, nearest?]
  generalize first.nearestLabel? segment address = label?,
    second.nearestLabel? segment address = other? at hlabels
  cases hlabels with
  | none => exact .none
  | some halike => exact .some (congrArg (address - ·) halike.address)

/-- The nearest names of all segments are in the same segment at the same distance. -/
theorem rel_nearestAny? (hnames : ∀ segment address,
    Option.Rel Same (first.nameAt? segment address) (second.nameAt? segment address))
    (address : UInt32) :
    Option.Rel (fun found other ↦ found.1 = other.1 ∧ found.2.distance = other.2.distance)
      (first.nearestAny? address) (second.nearestAny? address) := by
  let SamePlace (found other : Segment × Nearby) : Prop :=
    found.1 = other.1 ∧ found.2.distance = other.2.distance
  have hcloser : Relator.LiftFun (Option.Rel SamePlace)
      (Relator.LiftFun SamePlace (Option.Rel SamePlace)) closer closer := by
    rintro best? otherBest? hbest further other hfurther
    cases hbest with
    | none => exact .some hfurther
    | some hbest =>
      simp only [closer, hfurther.2, hbest.2]
      split_ifs
      · exact .some hfurther
      · exact .some hbest
  have hall : List.Forall₂ Eq Segment.all Segment.all := List.forall₂_refl _
  refine List.rel_foldl hcloser .none (List.rel_filterMap ?_ hall)
  rintro segment _ rfl
  have hfound := rel_nearest? (hnames segment) address
  dsimp only
  generalize first.nearest? segment address = found?,
    second.nearest? segment address = other? at hfound
  cases hfound with
  | none => exact .none
  | some hdistance => exact .some ⟨rfl, hdistance⟩

end AddressIndex

/-! ### The index of a table -/

namespace SymbolEntry

/-- The entry puts a label on the address. -/
def isAt (entry : SymbolEntry) (segment : Segment) (address : UInt32) : Bool :=
  entry.label?.any (·.isAt segment address)

variable {entry : SymbolEntry} {segment : Segment} {address : UInt32}

theorem label?_eq_some_iff {label : Label} : entry.label? = some label ↔
    entry.symbol.isDefined ∧ entry.symbol.segment? = some label.segment ∧
      entry.symbol.value = label.address ∧ entry.name = label.name := by
  unfold label?
  split_ifs with hdefined
  · rw [Option.map_eq_some_iff]
    constructor
    · rintro ⟨segment, hsegment, rfl⟩
      exact ⟨hdefined, hsegment, rfl, rfl⟩
    · rintro ⟨-, hsegment, hvalue, hname⟩
      exact ⟨label.segment, hsegment, by rw [hvalue, hname]⟩
  · simp [hdefined]

theorem isAt_iff : entry.isAt segment address ↔
    entry.symbol.isDefined ∧ entry.symbol.segment? = some segment ∧
      entry.symbol.value = address := by
  rw [isAt, Option.any_eq_true]
  constructor
  · rintro ⟨label, hlabel, hat⟩
    obtain ⟨hdefined, hsegment, hvalue, -⟩ := label?_eq_some_iff.mp hlabel
    simp only [Label.isAt, Bool.and_eq_true, beq_iff_eq] at hat
    exact ⟨hdefined, hat.1 ▸ hsegment, hat.2 ▸ hvalue⟩
  · rintro ⟨hdefined, hsegment, hvalue⟩
    exact ⟨⟨segment, address, entry.name⟩,
      label?_eq_some_iff.mpr ⟨hdefined, hsegment, hvalue, rfl⟩, by simp [Label.isAt]⟩

end SymbolEntry

namespace SymbolTable

variable {table : SymbolTable} {segment : Segment} {address : UInt32}

/-- An entry labels its address, unless the address has a label. -/
theorem nameAt?_label (index : AddressIndex) (entry : SymbolEntry) (segment : Segment)
    (address : UInt32) : (label index entry).nameAt? segment address =
      (index.nameAt? segment address).or
        (if entry.isAt segment address then some entry.name else none) := by
  unfold label SymbolEntry.isAt
  cases hlabel : entry.label? with
  | none => simp
  | some label =>
    obtain ⟨-, -, -, hname⟩ := SymbolEntry.label?_eq_some_iff.mp hlabel
    by_cases hat : label.isAt segment address
    · have hplace := hat
      simp only [Label.isAt, Bool.and_eq_true, beq_iff_eq] at hplace
      obtain ⟨rfl, rfl⟩ := hplace
      rw [Option.any_some, if_pos hat, AddressIndex.nameAt?_claim, hname]
      cases index.nameAt? label.segment label.address <;> rfl
    · rw [Option.any_some, if_neg hat, Option.or_none,
        AddressIndex.nameAt?_claim_of_ne _ _ (by simpa using hat)]

/-- Entries that are labelled in turn: the first one at an address keeps it. -/
theorem nameAt?_foldl_label (entries : List SymbolEntry) (index : AddressIndex)
    (segment : Segment) (address : UInt32) :
    (entries.foldl label index).nameAt? segment address =
      (index.nameAt? segment address).or
        ((entries.find? (·.isAt segment address)).map (·.name)) := by
  induction entries generalizing index with
  | nil => simp
  | cons entry rest ih =>
    rw [List.foldl_cons, ih, nameAt?_label, Option.or_assoc]
    rw [List.find?_cons]
    cases entry.isAt segment address <;> rfl

/-- The first entry in table order that labels an address. -/
def firstAt? (table : SymbolTable) (segment : Segment) (address : UInt32) : Option SymbolEntry :=
  table.entries.toList.find? (·.isAt segment address)

theorem index_ofEntries (entries : List SymbolEntry) :
    (ofEntries entries).index = entries.foldl label .empty := by
  induction entries using List.reverseRecOn with
  | nil => rfl
  | append_singleton entries entry ih =>
    rw [ofEntries_append_singleton, List.foldl_append, ← ih]
    rfl

/-- The labels of the table are those of its entries: no address has a label that no entry puts
there, and every address at which there is an entry has one. -/
structure Indexed (table : SymbolTable) : Prop where
  distinct : table.NamesDistinct
  sound : ∀ segment address name, table.index.nameAt? segment address = some name →
    ∃ position entry, table.entryAt? position = some entry ∧ entry.name = name ∧
      entry.isAt segment address
  complete : ∀ position entry segment address, table.entryAt? position = some entry →
    entry.isAt segment address → (table.index.nameAt? segment address).isSome

namespace Indexed

/-- The labels are those of the entries if they were given in table order. -/
theorem of_index_eq (hdistinct : table.NamesDistinct)
    (hindex : table.index = table.entries.toList.foldl label .empty) : table.Indexed where
  distinct := hdistinct
  sound := by
    intro segment address name hname
    rw [hindex, nameAt?_foldl_label, AddressIndex.nameAt?_empty, Option.none_or,
      Option.map_eq_some_iff] at hname
    obtain ⟨entry, hfound, rfl⟩ := hname
    obtain ⟨position, hposition⟩ := List.getElem?_of_mem (List.mem_of_find?_eq_some hfound)
    rw [Array.getElem?_toList] at hposition
    have hat : entry.isAt segment address := by simpa using List.find?_some hfound
    exact ⟨position, entry, hposition, rfl, hat⟩
  complete := by
    intro position entry segment address hentry hat
    rw [hindex, nameAt?_foldl_label, AddressIndex.nameAt?_empty, Option.none_or,
      Option.isSome_map, List.find?_isSome]
    exact ⟨entry, Array.mem_toList_iff.mpr (Array.mem_of_getElem? hentry), hat⟩

theorem isSome_firstAt? (hindexed : table.Indexed) (segment : Segment) (address : UInt32) :
    (table.firstAt? segment address).isSome = (table.index.nameAt? segment address).isSome := by
  rw [Bool.eq_iff_iff, firstAt?, List.find?_isSome]
  constructor
  · rintro ⟨entry, hentry, hat⟩
    obtain ⟨position, hposition⟩ := Array.getElem?_of_mem (Array.mem_toList_iff.mp hentry)
    exact hindexed.complete position entry _ _ hposition hat
  · intro hsome
    obtain ⟨name, hname⟩ := Option.isSome_iff_exists.mp hsome
    obtain ⟨position, entry, hentry, -, hat⟩ := hindexed.sound _ _ _ hname
    exact ⟨entry, Array.mem_toList_iff.mpr (Array.mem_of_getElem? hentry), hat⟩

theorem empty : Indexed .empty where
  distinct := by
    intro first second entry other hentry
    cases hentry
  sound := by
    intro segment address name hname
    cases hname
  complete := by
    intro position entry segment address hentry
    cases hentry

theorem push (hindexed : table.Indexed) {entry : SymbolEntry}
    (hfresh : table.locate? entry.name = none) : (table.push entry).Indexed where
  distinct := (Grows.push hfresh).distinct hindexed.distinct
  sound := by
    intro segment address name hname
    change (label table.index entry).nameAt? segment address = some name at hname
    rw [nameAt?_label, Option.or_eq_some_iff] at hname
    rcases hname with hname | ⟨-, hname⟩
    · obtain ⟨position, known, hknown, hsame, hat⟩ := hindexed.sound _ _ _ hname
      have hinside := lt_size_of_entryAt? hknown
      exact ⟨position, known, by rw [entryAt?_push, if_neg (by omega), hknown], hsame, hat⟩
    · rw [Option.ite_none_right_eq_some, Option.some.injEq] at hname
      exact ⟨table.size, entry, by rw [entryAt?_push, if_pos rfl], hname.2, hname.1⟩
  complete := by
    intro position known segment address hknown hat
    change ((label table.index entry).nameAt? segment address).isSome
    rw [nameAt?_label, Option.isSome_or, Bool.or_eq_true]
    rw [entryAt?_push] at hknown
    split_ifs at hknown with hposition
    · obtain rfl := Option.some.inj hknown
      exact .inr (by rw [if_pos hat]; rfl)
    · exact .inl (hindexed.complete _ _ _ _ hknown hat)

/-- An undefined entry has no label to take off. -/
theorem release_eq (hindexed : table.Indexed) {position : Nat} {entry : SymbolEntry}
    (hentry : table.entryAt? position = some entry) (hawaited : entry.symbol.isDefined = false)
    (segment : Segment) (address : UInt32) :
    table.index.release ⟨segment, address, entry.name⟩ = table.index := by
  refine if_neg fun hname ↦ ?_
  obtain ⟨place, known, hknown, hsame, hat⟩ := hindexed.sound _ _ _ hname
  obtain rfl := hindexed.distinct _ _ _ _ hknown hentry hsame
  obtain rfl := Option.some.inj (hknown.symm.trans hentry)
  obtain ⟨hdefined, -⟩ := SymbolEntry.isAt_iff.mp hat
  rw [hawaited] at hdefined
  cases hdefined

theorem index_redefine (hindexed : table.Indexed) {position : Nat} {entry : SymbolEntry}
    (hentry : table.entryAt? position = some entry) (hawaited : entry.symbol.isDefined = false)
    (kind : SymbolKind) (value : UInt32) : (table.redefine position kind value).index =
      label table.index ⟨entry.name, { entry.symbol with kind, value }⟩ := by
  unfold redefine
  split
  · rename_i hnone
    rw [hentry] at hnone
    cases hnone
  · rename_i found hfound
    obtain rfl := Option.some.inj (hentry.symm.trans hfound)
    split
    · rw [hindexed.release_eq hentry hawaited]
    · rfl

/-- A name that was awaited and is defined now is labelled like a new one. -/
theorem redefine (hindexed : table.Indexed) {position : Nat} {entry : SymbolEntry}
    (hentry : table.entryAt? position = some entry) (hawaited : entry.symbol.isDefined = false)
    (kind : SymbolKind) (value : UInt32) : (table.redefine position kind value).Indexed where
  distinct := (Grows.redefine hentry hawaited kind value).distinct hindexed.distinct
  sound := by
    intro segment address name hname
    rw [hindexed.index_redefine hentry hawaited, nameAt?_label, Option.or_eq_some_iff] at hname
    rcases hname with hname | ⟨-, hname⟩
    · obtain ⟨place, known, hknown, hsame, hat⟩ := hindexed.sound _ _ _ hname
      have hplace : place ≠ position := by
        rintro rfl
        obtain rfl := Option.some.inj (hknown.symm.trans hentry)
        exact absurd (SymbolEntry.isAt_iff.mp hat).1 (by simp [hawaited])
      exact ⟨place, known, by rw [entryAt?_redefine hentry, if_neg hplace, hknown], hsame, hat⟩
    · rw [Option.ite_none_right_eq_some, Option.some.injEq] at hname
      exact ⟨position, _, (entryAt?_redefine hentry kind value _).trans (if_pos rfl), hname.2,
        hname.1⟩
  complete := by
    intro place known segment address hknown hat
    rw [hindexed.index_redefine hentry hawaited, nameAt?_label, Option.isSome_or, Bool.or_eq_true]
    rw [entryAt?_redefine hentry] at hknown
    split_ifs at hknown with hplace
    · obtain rfl := Option.some.inj hknown
      exact .inr (by rw [if_pos hat]; rfl)
    · exact .inl (hindexed.complete _ _ _ _ hknown hat)

theorem mapValues (hdistinct : table.NamesDistinct) (valueOf : Symbol → UInt32) :
    (table.mapValues valueOf).Indexed :=
  of_index_eq
    (by rwa [namesDistinct_iff_nodup, names_mapValues, ← namesDistinct_iff_nodup]) rfl

end Indexed

end SymbolTable

end Aout
