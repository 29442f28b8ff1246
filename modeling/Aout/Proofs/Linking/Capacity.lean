import Mathlib.Order.CompletePartialOrder
import Mathlib.Order.Interval.Set.Disjoint
import Aout.Proofs.Linking.Layout
import Aout.Object.Building
/-!
Layouts and the room of the address spaces. A layout exists exactly when the text of all objects
fits behind the text base and their data and bss fit into one address space; it then gives every
segment addresses of its own, and otherwise it names the segment that had no room (`layout_exact`).

All data is counted before the first object is put in place, so it is text or bss that an object
then has no room for (`overrun?_origin_eq_none_iff`, `overrun?_origin_eq_some_iff`).
-/

set_option autoImplicit false
set_option relaxedAutoImplicit false

namespace Aout

/-- The addresses of the bytes of a segment of an object with the given bases. -/
def Bases.addresses (bases : Bases) (object : Object) (segment : Segment) : Set Nat :=
  Set.Ico (bases.of segment).toNat ((bases.of segment).toNat + (object.size segment).toNat)

namespace Layout

variable {objects front : List Object} {textBase : UInt16} {bases : List Bases}

/-! ### What has room -/

section Room

variable (hdata : total .data objects ≤ addressSpace)
include hdata

variable (textBase front) in
theorem stop_origin :
    stop (.origin objects textBase) .text front = textBase.toNat + total .text front ∧
      stop (.origin objects textBase) .data front = total .data front ∧
      stop (.origin objects textBase) .bss front = total .data objects + total .bss front := by
  obtain ⟨htext, hzero, hbss⟩ := Bases.toNat_origin textBase hdata
  rw [stop, stop, stop, htext, hzero, hbss, Nat.zero_add]
  exact ⟨rfl, rfl, rfl⟩

theorem overrun?_origin_eq_none_iff (hfront : front <+: objects) :
    overrun? (.origin objects textBase) front = none ↔
      textBase.toNat + total .text front ≤ addressSpace ∧
        total .data objects + total .bss front ≤ addressSpace := by
  obtain ⟨htext, hinside, hbss⟩ := stop_origin front textBase hdata
  rw [overrun?_eq_none_iff]
  constructor
  · intro hfits
    exact ⟨htext ▸ hfits .text, hbss ▸ hfits .bss⟩
  · rintro ⟨hfitsText, hfitsBss⟩ (_ | _ | _)
    · exact htext ▸ hfitsText
    · have hfits := total_le_of_prefix .data hfront
      exact hinside ▸ hfits.trans hdata
    · exact hbss ▸ hfitsBss

theorem overrun?_origin_eq_some_iff (hfront : front <+: objects) {segment : Segment} :
    overrun? (.origin objects textBase) front = some segment ↔
      addressSpace < textBase.toNat + total .text front ∧ segment = .text ∨
        textBase.toNat + total .text front ≤ addressSpace ∧
          addressSpace < total .data objects + total .bss front ∧ segment = .bss := by
  obtain ⟨htext, hinside, hbss⟩ := stop_origin front textBase hdata
  have hfits := total_le_of_prefix .data hfront
  simp only [overrun?, Segment.all, List.find?_cons, List.find?_nil, htext, hinside, hbss,
    decide_eq_false (Nat.not_lt.mpr (hfits.trans hdata))]
  rcases Nat.lt_or_ge addressSpace (textBase.toNat + total .text front) with hover | hroom
  · simp [hover, eq_comm]
  · rcases Nat.lt_or_ge addressSpace (total .data objects + total .bss front) with hover | hless
    · simp [Nat.not_lt.mpr hroom, hroom, hover, eq_comm]
    · simp [Nat.not_lt.mpr hroom, Nat.not_lt.mpr hless]

end Room

/-- Objects can be given load addresses exactly when all of them together have room. -/
theorem exists_layout_iff : (∃ bases, layout objects textBase = .ok bases) ↔
    textBase.toNat + total .text objects ≤ addressSpace ∧
      total .data objects ≤ addressSpace ∧
      total .data objects + total .bss objects ≤ addressSpace := by
  rcases Nat.lt_or_ge addressSpace (total .data objects) with hover | hdata
  · have hfault : layout objects textBase = .error (.addressSpaceOverrun .data) :=
      layout_eq_error_iff.mpr (.inl ⟨hover, rfl⟩)
    rw [hfault]
    constructor
    · rintro ⟨bases, hok⟩
      cases hok
    · rintro ⟨-, hdata, -⟩
      exact absurd hover (Nat.not_lt.mpr hdata)
  · rw [layout_eq_place hdata, exists_place_iff (Bases.origin_le textBase hdata),
      overrun?_origin_eq_none_iff hdata List.prefix_rfl, and_iff_right hdata]

/-! ### Addresses in a layout -/

section Apart

variable {place other : Nat} {object second : Object} {base further : Bases}
  {segment target : Segment}

theorem stop_take_le (start : Bases) (segment : Segment) {low high : Nat} (hle : low ≤ high) :
    stop start segment (objects.take low) ≤ stop start segment (objects.take high) :=
  stop_mono (List.take_prefix_take_left hle) segment

/-- A segment of an object fills the addresses between where those of the objects before it end and
where it ends itself. -/
theorem addresses_of_layout (hlayout : layout objects textBase = .ok bases)
    (hobject : objects[place]? = some object) (hbase : bases[place]? = some base) :
    base.addresses object segment =
      Set.Ico (stop (.origin objects textBase) segment (objects.take place))
        (stop (.origin objects textBase) segment (objects.take (place + 1))) := by
  rw [layout_eq_place ((layout_eq_ok hlayout).2 .data)] at hlayout
  rw [Bases.addresses, toNat_of_place hlayout hbase, stop, stop, List.take_add_one, hobject,
    Option.toList_some, total_append, total_cons, total_nil, Nat.add_zero, Nat.add_assoc]

theorem end_le_of_layout (hlayout : layout objects textBase = .ok bases)
    (hobject : objects[place]? = some object) (hbase : bases[place]? = some base)
    (segment : Segment) :
    (base.of segment).toNat + (object.size segment).toNat ≤ addressSpace := by
  have hstart := Bases.origin_le textBase ((layout_eq_ok hlayout).2 .data) segment
  rw [layout_eq_place ((layout_eq_ok hlayout).2 .data)] at hlayout
  have hplace : place < objects.length := (List.getElem?_eq_some_iff.mp hobject).1
  have hends := total_take_add_le segment hobject hplace
  rw [List.take_length] at hends
  have hroom := total_of_place hlayout hstart
  rw [toNat_of_place hlayout hbase, Nat.add_assoc]
  exact (Nat.add_le_add_left hends _).trans hroom

/-- The segment that stands first ends no later than where the other starts: it is the same segment
of an earlier object, or data where the other is bss. -/
theorem stop_le_of_apart (textBase : UInt16) (hdata : total .data objects ≤ addressSpace)
    (happart : (place, segment) ≠ (other, target)) (hspace : segment = .text ↔ target = .text) :
    stop (.origin objects textBase) segment (objects.take (place + 1)) ≤
        stop (.origin objects textBase) target (objects.take other) ∨
      stop (.origin objects textBase) target (objects.take (other + 1)) ≤
        stop (.origin objects textBase) segment (objects.take place) := by
  have hdataBss (low high : Nat) :
      stop (.origin objects textBase) .data (objects.take low) ≤
        stop (.origin objects textBase) .bss (objects.take high) := by
    rw [(stop_origin _ _ hdata).2.1, (stop_origin _ _ hdata).2.2]
    have hfits := total_le_of_prefix .data (List.take_prefix low objects)
    exact Nat.le_add_right_of_le hfits
  by_cases hsame : segment = target
  · subst hsame
    have hplace : place ≠ other := fun heq ↦ happart (by rw [heq])
    exact (Nat.lt_or_gt_of_ne hplace).imp (stop_take_le _ _) (stop_take_le _ _)
  · cases segment with
    | text => exact absurd (hspace.mp rfl).symm hsame
    | data =>
      cases target with
      | text => cases hspace.mpr rfl
      | data => exact absurd rfl hsame
      | bss => exact .inl (hdataBss _ _)
    | bss =>
      cases target with
      | text => cases hspace.mpr rfl
      | data => exact .inr (hdataBss _ _)
      | bss => exact absurd rfl hsame

end Apart

end Layout

open Layout in
/-- Objects have load addresses exactly if their text fits behind the text base, and their data and
bss into one address space. Each segment then starts where that of the objects before it ends, the
data at zero and the bss behind all data; segments in the same address space have no address in
common. Otherwise the fault names data if all of it together has no room, or else the segment with
no room of the first object that has one, and text before bss. -/
theorem layout_exact (objects : List Object) (textBase : UInt16) :
    ((∃ bases, layout objects textBase = .ok bases) ↔
      textBase.toNat + total .text objects ≤ addressSpace ∧
        total .data objects ≤ addressSpace ∧
        total .data objects + total .bss objects ≤ addressSpace) ∧
    (∀ bases, layout objects textBase = .ok bases →
      bases.length = objects.length ∧
      (∀ (place : Nat) (object : Object) (base : Bases),
        objects[place]? = some object → bases[place]? = some base →
        base.text.toNat = textBase.toNat + total .text (objects.take place) ∧
        base.data.toNat = total .data (objects.take place) ∧
        base.bss.toNat = total .data objects + total .bss (objects.take place) ∧
        ∀ segment, (base.of segment).toNat + (object.size segment).toNat ≤ addressSpace) ∧
      ∀ (place other : Nat) (object second : Object) (base further : Bases),
        objects[place]? = some object → bases[place]? = some base →
        objects[other]? = some second → bases[other]? = some further →
        ∀ segment target : Segment, (place, segment) ≠ (other, target) →
          (segment = .text ↔ target = .text) →
          Disjoint (base.addresses object segment) (further.addresses second target)) ∧
    ∀ fault, layout objects textBase = .error fault ↔
      addressSpace < total .data objects ∧ fault = .addressSpaceOverrun .data ∨
      total .data objects ≤ addressSpace ∧ ∃ place < objects.length,
        (textBase.toNat + total .text (objects.take place) ≤ addressSpace ∧
          total .data objects + total .bss (objects.take place) ≤ addressSpace) ∧
        (addressSpace < textBase.toNat + total .text (objects.take (place + 1)) ∧
            fault = .addressSpaceOverrun .text ∨
          textBase.toNat + total .text (objects.take (place + 1)) ≤ addressSpace ∧
            addressSpace < total .data objects + total .bss (objects.take (place + 1)) ∧
            fault = .addressSpaceOverrun .bss) := by
  refine ⟨exists_layout_iff, fun bases hlayout ↦ ⟨(layout_eq_ok hlayout).1, ?_, ?_⟩,
    fun fault ↦ ?_⟩
  · intro place object base hobject hbase
    obtain ⟨htext, hdata, hbss⟩ := base_of_layout hlayout hbase
    exact ⟨htext, hdata, hbss, end_le_of_layout hlayout hobject hbase⟩
  · intro place other object second base further hobject hbase hsecond hfurther segment target
      happart hspace
    rw [addresses_of_layout hlayout hobject hbase, addresses_of_layout hlayout hsecond hfurther,
      Set.Ico_disjoint_Ico]
    have hdata := (layout_eq_ok hlayout).2 .data
    rcases stop_le_of_apart textBase hdata happart hspace with hle | hle
    · exact (min_le_left _ _).trans (hle.trans (le_max_right _ _))
    · exact (min_le_right _ _).trans (hle.trans (le_max_left _ _))
  · rw [layout_eq_error_iff]
    refine or_congr_right (and_congr_right fun hdata ↦ exists_congr fun place ↦
      and_congr_right fun _ ↦ ?_)
    rw [overrun?_origin_eq_none_iff hdata (List.take_prefix _ _)]
    refine and_congr_right fun _ ↦ ?_
    simp only [overrun?_origin_eq_some_iff hdata (List.take_prefix _ _)]
    constructor
    · rintro ⟨segment, ⟨hover, rfl⟩ | ⟨hroom, hover, rfl⟩, rfl⟩
      · exact .inl ⟨hover, rfl⟩
      · exact .inr ⟨hroom, hover, rfl⟩
    · rintro (⟨hover, rfl⟩ | ⟨hroom, hover, rfl⟩)
      · exact ⟨.text, .inl ⟨hover, rfl⟩, rfl⟩
      · exact ⟨.bss, .inr ⟨hroom, hover, rfl⟩, rfl⟩

theorem layout_exact_words :
    (∃ first second, layout (List.replicate 2 (Object.empty.appendWord .text 0).2) 0xFFFC =
        .ok [first, second] ∧
      Disjoint (first.addresses (Object.empty.appendWord .text 0).2 .text)
        (second.addresses (Object.empty.appendWord .text 0).2 .text)) ∧
    layout (List.replicate 2 (Object.empty.appendWord .text 0).2) 0xFFFD =
      .error (.addressSpaceOverrun .text) := by
  constructor
  · obtain ⟨hexists, hplaced, -⟩ :=
      layout_exact (List.replicate 2 (Object.empty.appendWord .text 0).2) 0xFFFC
    obtain ⟨bases, hbases⟩ := hexists.mpr (by decide +kernel)
    obtain ⟨hlength, -, hdisjoint⟩ := hplaced bases hbases
    obtain ⟨first, second, rfl⟩ := List.length_eq_two.mp hlength
    exact ⟨first, second, hbases,
      hdisjoint 0 1 _ _ first second rfl rfl rfl rfl .text .text (by decide) Iff.rfl⟩
  · exact ((layout_exact _ _).2.2 _).mpr
      (.inr ⟨by decide +kernel, 1, by decide, by decide +kernel, .inl (by decide +kernel)⟩)

end Aout
