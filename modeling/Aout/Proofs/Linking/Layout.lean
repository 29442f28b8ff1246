import Mathlib.Algebra.GroupWithZero.Nat
import Aout.Linking.Layout
import Aout.Proofs.Fallible
/-!
What a layout promises: every object gets load addresses, and of each kind of segment there are no
more bytes in all objects together than the address space holds (`layout_eq_ok`). It stops at the
first segment that would end behind the address space (`layout_eq_error_iff`).
-/

set_option autoImplicit false
set_option relaxedAutoImplicit false

namespace Aout

namespace Layout

/-- The number of bytes of one kind of segment in all objects together. -/
def total (segment : Segment) (objects : List Object) : Nat :=
  (objects.map fun object ↦ (object.size segment).toNat).sum

@[simp] theorem total_nil (segment : Segment) : total segment [] = 0 := rfl

@[simp] theorem total_cons (segment : Segment) (object : Object) (rest : List Object) :
    total segment (object :: rest) = (object.size segment).toNat + total segment rest := rfl

theorem total_append (segment : Segment) (first second : List Object) :
    total segment (first ++ second) = total segment first + total segment second := by
  rw [total, List.map_append, List.sum_append, total, total]

theorem total_le_of_prefix (segment : Segment) {front objects : List Object}
    (hfront : front <+: objects) : total segment front ≤ total segment objects := by
  obtain ⟨rest, rfl⟩ := hfront
  rw [total_append]
  exact Nat.le_add_right _ _

/-- The segment of an object ends before those of the objects that follow it. -/
theorem total_take_add_le (segment : Segment) {objects : List Object} {object : Object}
    {place other : Nat} (hobject : objects[place]? = some object) (hplace : place < other) :
    total segment (objects.take place) + (object.size segment).toNat ≤
      total segment (objects.take other) := by
  have hbegins : objects.take (place + 1) <+: objects.take other :=
    List.take_prefix_take_left hplace
  have htotal := total_le_of_prefix segment hbegins
  rwa [List.take_add_one, hobject, Option.toList_some, total_append, total_cons] at htotal

theorem next_eq_ok {bases following : Bases} {object : Object}
    (hnext : next bases object = .ok following) (segment : Segment) :
    (following.of segment).toNat = (bases.of segment).toNat + (object.size segment).toNat ∧
      (following.of segment).toNat ≤ addressSpace := by
  unfold next at hnext
  obtain ⟨text, htext, hnext⟩ := Fallible.bind_eq_ok_iff.mp hnext
  obtain ⟨data, hdata, hnext⟩ := Fallible.bind_eq_ok_iff.mp hnext
  obtain ⟨bss, hbss, hreturn⟩ := Fallible.bind_eq_ok_iff.mp hnext
  obtain rfl := Fallible.pure_eq_ok_iff.mp hreturn
  cases segment with
  | text => exact advance_eq_ok_iff.mp htext
  | data => exact advance_eq_ok_iff.mp hdata
  | bss => exact advance_eq_ok_iff.mp hbss

theorem length_of_place {objects : List Object} {bases : Bases} {placed : List Bases}
    (hplace : place bases objects = .ok placed) : placed.length = objects.length := by
  induction objects generalizing bases placed with
  | nil =>
    obtain rfl := Except.ok.inj hplace
    rfl
  | cons object rest ih =>
    obtain ⟨following, -, hrest⟩ := Fallible.bind_eq_ok_iff.mp hplace
    obtain ⟨others, hothers, hreturn⟩ := Fallible.bind_eq_ok_iff.mp hrest
    obtain rfl := Fallible.pure_eq_ok_iff.mp hreturn
    rw [List.length_cons, List.length_cons, ih hothers]

/-- Every object starts where the ones before it end. -/
theorem toNat_of_place {objects : List Object} {start base : Bases} {placed : List Bases}
    (hplace : place start objects = .ok placed) {index : Nat} (hbase : placed[index]? = some base)
    (segment : Segment) : (base.of segment).toNat =
      (start.of segment).toNat + total segment (objects.take index) := by
  induction objects generalizing start placed index with
  | nil =>
    obtain rfl := Except.ok.inj hplace
    cases hbase
  | cons object rest ih =>
    obtain ⟨following, hnext, hrest⟩ := Fallible.bind_eq_ok_iff.mp hplace
    obtain ⟨others, hothers, hreturn⟩ := Fallible.bind_eq_ok_iff.mp hrest
    obtain rfl := Fallible.pure_eq_ok_iff.mp hreturn
    cases index with
    | zero =>
      obtain rfl := Option.some.inj hbase
      rfl
    | succ index =>
      rw [ih hothers hbase, (next_eq_ok hnext segment).1, List.take_succ_cons, total_cons,
        Nat.add_assoc]

theorem total_of_place {objects : List Object} {bases : Bases} {placed : List Bases}
    (hplace : place bases objects = .ok placed) {segment : Segment}
    (hstart : (bases.of segment).toNat ≤ addressSpace) :
    (bases.of segment).toNat + total segment objects ≤ addressSpace := by
  induction objects generalizing bases placed with
  | nil => exact hstart
  | cons object rest ih =>
    obtain ⟨following, hnext, hrest⟩ := Fallible.bind_eq_ok_iff.mp hplace
    obtain ⟨others, hothers, -⟩ := Fallible.bind_eq_ok_iff.mp hrest
    obtain ⟨hfollowing, hinside⟩ := next_eq_ok hnext segment
    have hend := ih hothers hinside
    rw [total_cons]
    omega

theorem dataTotal_eq {objects : List Object} {found : UInt32}
    (hfound : dataTotal objects = .ok found) :
    found.toNat = total .data objects ∧ found.toNat ≤ addressSpace := by
  have hfold (start : UInt32) (hstart : start.toNat ≤ addressSpace)
      (htotal : objects.foldlM (fun total object ↦ advance .data total (object.size .data)) start =
        .ok found) :
      found.toNat = start.toNat + total .data objects ∧ found.toNat ≤ addressSpace := by
    clear hfound
    induction objects generalizing start with
    | nil =>
      obtain rfl := Except.ok.inj htotal
      exact ⟨rfl, hstart⟩
    | cons object rest ih =>
      rw [List.foldlM_cons] at htotal
      obtain ⟨next, hnext, hrest⟩ := Fallible.bind_eq_ok_iff.mp htotal
      obtain ⟨hsum, hinside⟩ := advance_eq_ok_iff.mp hnext
      rw [total_cons, ← Nat.add_assoc, ← hsum]
      exact ih next hinside hrest
  simpa using hfold 0 (Nat.zero_le _) hfound

/-! ### What has no room -/

/-- The end of a segment of objects of which the first stands at the given bases. -/
def stop (start : Bases) (segment : Segment) (objects : List Object) : Nat :=
  (start.of segment).toNat + total segment objects

/-- The first segment that objects of which the first stands at the given bases have behind the
address space. -/
def overrun? (start : Bases) (objects : List Object) : Option Segment :=
  Segment.all.find? fun segment ↦ decide (addressSpace < stop start segment objects)

variable {start following : Bases} {segment : Segment} {object : Object} {objects : List Object}
  {fault : LinkFault}

theorem overrun?_eq_none_iff :
    overrun? start objects = none ↔ ∀ segment, stop start segment objects ≤ addressSpace := by
  rw [overrun?, List.find?_eq_none]
  simp only [Segment.mem_all, decide_eq_true_eq, Nat.not_lt, forall_true_left]

theorem advance_eq_error_iff {low size : UInt32} :
    advance segment low size = .error fault ↔
      addressSpace < low.toNat + size.toNat ∧ fault = .addressSpaceOverrun segment := by
  unfold advance
  split
  · rename_i hfits
    simp only [reduceCtorEq, false_iff, not_and]
    exact fun hover ↦ absurd hfits (Nat.not_le.mpr hover)
  · rename_i hover
    rw [Except.error.injEq, eq_comm, and_iff_right (Nat.not_le.mp hover)]

/-- The three segments are advanced one after the other: the first that cannot be is the fault. -/
theorem next_eq_error_iff : next start object = .error fault ↔
    ∃ segment, overrun? start [object] = some segment ∧ fault = .addressSpaceOverrun segment := by
  have hstop (segment : Segment) :
      stop start segment [object] = (start.of segment).toNat + (object.size segment).toNat := by
    rw [stop, total_cons, total_nil, Nat.add_zero]
  have hnext : next start object = (overrun? start [object]).elim
      (.ok ⟨start.text + object.size .text, start.data + object.size .data,
        start.bss + object.size .bss⟩)
      fun segment ↦ .error (.addressSpaceOverrun segment) := by
    simp only [overrun?, Segment.all, hstop, List.find?_cons, List.find?_nil]
    simp only [next, advance, ← Nat.not_lt, ite_not]
    by_cases htext : addressSpace < start.text.toNat + (object.size .text).toNat
    · simp only [Bases.of, htext, if_true, decide_true]
      rfl
    · by_cases hdata : addressSpace < start.data.toNat + (object.size .data).toNat
      · simp only [Bases.of, htext, hdata, if_true, if_false, decide_true, decide_false]
        rfl
      · by_cases hbss : addressSpace < start.bss.toNat + (object.size .bss).toNat
        · simp only [Bases.of, htext, hdata, hbss, if_true, if_false, decide_true, decide_false]
          rfl
        · simp only [Bases.of, htext, hdata, hbss, if_false, decide_false]
          rfl
  rw [hnext]
  cases overrun? start [object] with
  | none => simp
  | some segment => simp [eq_comm]

theorem stop_of_next (hnext : next start object = .ok following) (segment : Segment)
    (rest : List Object) : stop following segment rest = stop start segment (object :: rest) := by
  rw [stop, stop, total_cons, (next_eq_ok hnext segment).1, Nat.add_assoc]

theorem overrun?_of_next (hnext : next start object = .ok following) (rest : List Object) :
    overrun? following rest = overrun? start (object :: rest) := by
  simp only [overrun?, stop_of_next hnext]

theorem stop_mono {front : List Object} (hfront : front <+: objects) (segment : Segment) :
    stop start segment front ≤ stop start segment objects := by
  have htotal := total_le_of_prefix segment hfront
  exact Nat.add_le_add_left htotal _

/-- Objects are put in place one after the other, and the first at which a segment ends behind the
address space stops the layout. -/
theorem place_eq_error_iff (hstart : ∀ segment, (start.of segment).toNat ≤ addressSpace) :
    place start objects = .error fault ↔ ∃ index < objects.length,
      overrun? start (objects.take index) = none ∧
      ∃ segment, overrun? start (objects.take (index + 1)) = some segment ∧
        fault = .addressSpaceOverrun segment := by
  induction objects generalizing start with
  | nil =>
    simp only [place, reduceCtorEq, List.length_nil, Nat.not_lt_zero, false_and, exists_false]
  | cons object rest ih =>
    have hempty : overrun? start [] = none :=
      overrun?_eq_none_iff.mpr fun segment ↦ hstart segment
    rw [place, Fallible.bind_eq_error_iff, next_eq_error_iff]
    constructor
    · rintro (⟨segment, hover, rfl⟩ | ⟨following, hnext, hrest⟩)
      · exact ⟨0, Nat.succ_pos _, hempty, segment, hover, rfl⟩
      · rcases Fallible.bind_eq_error_iff.mp hrest with hothers | ⟨others, -, hpure⟩
        · obtain ⟨index, hindex, hfits, segment, hover, rfl⟩ :=
            (ih fun segment ↦ (next_eq_ok hnext segment).2).mp hothers
          refine ⟨index + 1, Nat.succ_lt_succ hindex, ?_, segment, ?_, rfl⟩
          · rwa [List.take_succ_cons, ← overrun?_of_next hnext]
          · rwa [List.take_succ_cons, ← overrun?_of_next hnext]
        · cases hpure
    · rintro ⟨index, hindex, hfits, segment, hover, rfl⟩
      cases index with
      | zero => exact .inl ⟨segment, hover, rfl⟩
      | succ index =>
        refine .inr ?_
        cases hnext : next start object with
        | error found =>
          obtain ⟨other, hother, -⟩ := next_eq_error_iff.mp hnext
          have hnone : overrun? start [object] = none := by
            rw [overrun?_eq_none_iff] at hfits ⊢
            have hfront : [object] <+: (object :: rest).take (index + 1) :=
              ⟨rest.take index, rfl⟩
            exact fun segment ↦ Nat.le_trans (stop_mono hfront segment) (hfits segment)
          rw [hnone] at hother
          cases hother
        | ok following =>
          refine ⟨following, rfl, Fallible.bind_eq_error_iff.mpr (.inl ?_)⟩
          refine (ih fun segment ↦ (next_eq_ok hnext segment).2).mpr
            ⟨index, Nat.lt_of_succ_lt_succ hindex, ?_, segment, ?_, rfl⟩
          · rwa [overrun?_of_next hnext, ← List.take_succ_cons]
          · rwa [overrun?_of_next hnext, ← List.take_succ_cons]

theorem dataTotal_eq_error_iff : dataTotal objects = .error fault ↔
    addressSpace < total .data objects ∧ fault = .addressSpaceOverrun .data := by
  have hfold (low : UInt32) (hlow : low.toNat ≤ addressSpace) :
      objects.foldlM (fun total object ↦ advance .data total (object.size .data)) low =
        .error fault ↔
      addressSpace < low.toNat + total .data objects ∧ fault = .addressSpaceOverrun .data := by
    induction objects generalizing low with
    | nil =>
      simp only [List.foldlM_nil, pure, Except.pure, reduceCtorEq, total_nil, false_iff, not_and]
      omega
    | cons object rest ih =>
      rw [List.foldlM_cons, Fallible.bind_eq_error_iff, advance_eq_error_iff, total_cons]
      constructor
      · rintro (⟨hover, rfl⟩ | ⟨high, hhigh, hrest⟩)
        · exact ⟨by omega, rfl⟩
        · obtain ⟨hsum, hinside⟩ := advance_eq_ok_iff.mp hhigh
          obtain ⟨hover, rfl⟩ := (ih high hinside).mp hrest
          exact ⟨by omega, rfl⟩
      · rintro ⟨hover, rfl⟩
        cases hadvance : advance .data low (object.size .data) with
        | error found => exact .inl ⟨(advance_eq_error_iff.mp hadvance).1, rfl⟩
        | ok high =>
          obtain ⟨hsum, hinside⟩ := advance_eq_ok_iff.mp hadvance
          exact .inr ⟨high, rfl, (ih high hinside).mpr ⟨by omega, rfl⟩⟩
  simpa [dataTotal] using hfold 0 (Nat.zero_le _)

theorem exists_place_iff (hstart : ∀ segment, (start.of segment).toNat ≤ addressSpace) :
    (∃ placed, place start objects = .ok placed) ↔ overrun? start objects = none := by
  constructor
  · rintro ⟨placed, hplace⟩
    exact overrun?_eq_none_iff.mpr fun segment ↦ total_of_place hplace (hstart segment)
  · intro hfits
    cases hplace : place start objects with
    | ok placed => exact ⟨placed, rfl⟩
    | error fault =>
      obtain ⟨index, -, -, segment, hover, -⟩ := (place_eq_error_iff hstart).mp hplace
      have hnone : overrun? start (objects.take (index + 1)) = none := by
        rw [overrun?_eq_none_iff] at hfits ⊢
        exact fun segment ↦
          Nat.le_trans (stop_mono (List.take_prefix _ _) segment) (hfits segment)
      rw [hnone] at hover
      cases hover

theorem exists_dataTotal_iff :
    (∃ found, dataTotal objects = .ok found) ↔ total .data objects ≤ addressSpace := by
  constructor
  · rintro ⟨found, hfound⟩
    obtain ⟨hsum, hinside⟩ := dataTotal_eq hfound
    exact hsum ▸ hinside
  · intro hfits
    cases hfound : dataTotal objects with
    | ok found => exact ⟨found, rfl⟩
    | error fault => exact absurd (dataTotal_eq_error_iff.mp hfound).1 (Nat.not_lt.mpr hfits)

end Layout

/-- The bases of the first of several objects. -/
def Bases.origin (objects : List Object) (textBase : UInt16) : Bases :=
  ⟨textBase.toUInt32, 0, UInt32.ofNat (Layout.total .data objects)⟩

variable {objects : List Object} {textBase : UInt16} {fault : LinkFault}

variable (textBase) in
theorem Bases.toNat_origin (hdata : Layout.total .data objects ≤ Layout.addressSpace) :
    ((origin objects textBase).of .text).toNat = textBase.toNat ∧
      ((origin objects textBase).of .data).toNat = 0 ∧
      ((origin objects textBase).of .bss).toNat = Layout.total .data objects :=
  ⟨UInt16.toNat_toUInt32 _, rfl,
    UInt32.toNat_ofNat_of_lt' (Nat.lt_of_le_of_lt hdata (by decide))⟩

variable (textBase) in
theorem Bases.origin_le (hdata : Layout.total .data objects ≤ Layout.addressSpace)
    (segment : Segment) : ((origin objects textBase).of segment).toNat ≤ Layout.addressSpace := by
  obtain ⟨htext, hzero, hbss⟩ := toNat_origin textBase hdata
  cases segment with
  | text => exact htext ▸ Nat.le_of_lt textBase.toNat_lt
  | data => exact hzero ▸ Nat.zero_le _
  | bss => exact hbss ▸ hdata

/-- Where all data together has room, a layout puts one object after the other. -/
theorem layout_eq_place (hdata : Layout.total .data objects ≤ Layout.addressSpace) :
    layout objects textBase = Layout.place (.origin objects textBase) objects := by
  obtain ⟨found, hfound⟩ := Layout.exists_dataTotal_iff.mpr hdata
  have htotal : found = UInt32.ofNat (Layout.total .data objects) := by
    rw [← (Layout.dataTotal_eq hfound).1, UInt32.ofNat_toNat]
  rw [layout, hfound, htotal]
  rfl

/-- A layout stops at the data of all objects together, or else at the first object of which a
segment has no room. -/
theorem layout_eq_error_iff : layout objects textBase = .error fault ↔
    Layout.addressSpace < Layout.total .data objects ∧ fault = .addressSpaceOverrun .data ∨
      Layout.total .data objects ≤ Layout.addressSpace ∧ ∃ index < objects.length,
        Layout.overrun? (.origin objects textBase) (objects.take index) = none ∧
        ∃ segment, Layout.overrun? (.origin objects textBase) (objects.take (index + 1)) =
          some segment ∧ fault = .addressSpaceOverrun segment := by
  rcases Nat.lt_or_ge Layout.addressSpace (Layout.total .data objects) with hover | hdata
  · have hfault : Layout.dataTotal objects = .error (.addressSpaceOverrun .data) :=
      Layout.dataTotal_eq_error_iff.mpr ⟨hover, rfl⟩
    have hlayout : layout objects textBase = .error (.addressSpaceOverrun .data) := by
      rw [layout, hfault]
      rfl
    rw [hlayout, Except.error.injEq, eq_comm, and_iff_right hover,
      or_iff_left fun hless ↦ absurd hless.1 (Nat.not_le.mpr hover)]
  · rw [layout_eq_place hdata, Layout.place_eq_error_iff (Bases.origin_le textBase hdata),
      or_iff_right fun hover ↦ absurd hover.1 (Nat.not_lt.mpr hdata), and_iff_right hdata]

/-- Only a segment that leaves the address space stops a layout. -/
theorem layout_eq_error (hfault : layout objects textBase = .error fault) :
    ∃ segment, fault = .addressSpaceOverrun segment := by
  rcases layout_eq_error_iff.mp hfault with ⟨-, rfl⟩ | ⟨-, -, -, -, segment, -, rfl⟩
  · exact ⟨.data, rfl⟩
  · exact ⟨segment, rfl⟩

/-- Every object has load addresses, and no kind of segment has more bytes than there are addresses.
-/
theorem layout_eq_ok {bases : List Bases}
    (hlayout : layout objects textBase = .ok bases) :
    bases.length = objects.length ∧
      ∀ segment, Layout.total segment objects ≤ Layout.addressSpace := by
  obtain ⟨dataTotal, htotal, hplace⟩ := Fallible.bind_eq_ok_iff.mp hlayout
  refine ⟨Layout.length_of_place hplace, fun segment ↦ ?_⟩
  have hstart :
      (Bases.of ⟨textBase.toUInt32, 0, dataTotal⟩ segment).toNat ≤ Layout.addressSpace := by
    cases segment with
    | text => exact Nat.le_of_lt textBase.toNat_lt
    | data => exact Nat.zero_le _
    | bss => exact (Layout.dataTotal_eq htotal).2
  exact Nat.le_of_add_left_le (Layout.total_of_place hplace hstart)

/-- Text starts at the given address behind the text of the objects before, data likewise at zero,
and bss behind all data. -/
theorem base_of_layout {bases : List Bases}
    (hlayout : layout objects textBase = .ok bases) {index : Nat} {base : Bases}
    (hbase : bases[index]? = some base) :
    base.text.toNat = textBase.toNat + Layout.total .text (objects.take index) ∧
      base.data.toNat = Layout.total .data (objects.take index) ∧
      base.bss.toNat = Layout.total .data objects + Layout.total .bss (objects.take index) := by
  obtain ⟨dataTotal, htotal, hplace⟩ := Fallible.bind_eq_ok_iff.mp hlayout
  have hsum := Layout.toNat_of_place hplace hbase
  refine ⟨?_, ?_, ?_⟩
  · rw [← UInt16.toNat_toUInt32]
    exact hsum .text
  · rw [← Nat.zero_add (Layout.total ..)]
    exact hsum .data
  · rw [← (Layout.dataTotal_eq htotal).1]
    exact hsum .bss

end Aout
