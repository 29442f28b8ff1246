import Mathlib.Data.List.Forall2
/-!
Computations that may fail, taken apart. A chain succeeds exactly when its steps do, and so does a
computation that is made for every member of a list, whose results then belong to the members one by
one.
-/

set_option autoImplicit false
set_option relaxedAutoImplicit false

namespace Aout.Fallible

variable {Fault Value Next : Type}

theorem bind_eq_ok_iff {first : Except Fault Value} {next : Value → Except Fault Next}
    {result : Next} :
    (first >>= next) = .ok result ↔ ∃ value, first = .ok value ∧ next value = .ok result := by
  cases first with
  | error fault => simp [bind, Except.bind]
  | ok value => simp [bind, Except.bind]

theorem bind_eq_error_iff {first : Except Fault Value} {next : Value → Except Fault Next}
    {fault : Fault} : (first >>= next) = .error fault ↔
      first = .error fault ∨ ∃ value, first = .ok value ∧ next value = .error fault := by
  cases first with
  | error found => simp [bind, Except.bind]
  | ok value => simp [bind, Except.bind]

theorem map_eq_ok_iff {first : Except Fault Value} {next : Value → Next} {result : Next} :
    first.map next = .ok result ↔ ∃ value, first = .ok value ∧ next value = result := by
  cases first with
  | error fault => simp [Except.map]
  | ok value => simp [Except.map]

theorem mapError_eq_ok_iff {Other : Type} {first : Except Fault Value} {next : Fault → Other}
    {value : Value} : first.mapError next = .ok value ↔ first = .ok value := by
  cases first with
  | error fault => simp [Except.mapError]
  | ok found => simp [Except.mapError]

theorem pure_eq_ok_iff {value result : Value} :
    (pure value : Except Fault Value) = .ok result ↔ value = result := by
  simp [pure, Except.pure]

theorem eq_ok_of_toOption {result : Except Fault Value} {value : Value}
    (hsome : result.toOption = some value) : result = .ok value := by
  cases result with
  | error fault => cases hsome
  | ok found => rw [Option.some.inj hsome]

/-- The fault of a computation, if it fails. -/
def fault? (result : Except Fault Value) : Option Fault :=
  match result with
  | .ok _ => none
  | .error fault => some fault

theorem eq_error_of_fault? {result : Except Fault Value} {fault : Fault}
    (hsome : fault? result = some fault) : result = .error fault := by
  cases result with
  | error found => rw [Option.some.inj hsome]
  | ok value => cases hsome

theorem exists_eq_ok_of_isSome {result : Except Fault Value} (hsome : result.toOption.isSome) :
    ∃ value, result = .ok value := by
  cases result with
  | error fault => cases hsome
  | ok value => exact ⟨value, rfl⟩

variable {make : Value → Except Fault Next}

theorem mapM_eq_ok_iff {values : List Value} {results : List Next} :
    values.mapM make = .ok results ↔
      List.Forall₂ (fun value result ↦ make value = .ok result) values results := by
  induction values generalizing results with
  | nil => rw [List.mapM_nil, pure_eq_ok_iff, List.forall₂_nil_left_iff, eq_comm]
  | cons value rest ih =>
    simp only [List.mapM_cons, bind_eq_ok_iff, pure_eq_ok_iff, ih, List.forall₂_cons_left_iff]
    constructor
    · rintro ⟨result, hresult, others, hothers, rfl⟩
      exact ⟨result, others, hresult, hothers, rfl⟩
    · rintro ⟨result, others, hresult, hothers, rfl⟩
      exact ⟨result, hresult, others, hothers, rfl⟩

/-- Where a computation that is made for every member of a list fails, it has the fault of the first
member for which it does. -/
theorem mapM_eq_error_iff {values : List Value} {fault : Fault} :
    values.mapM make = .error fault ↔ ∃ front value back, values = front ++ value :: back ∧
      (∀ earlier ∈ front, ∃ result, make earlier = .ok result) ∧ make value = .error fault := by
  induction values with
  | nil => simp [pure, Except.pure]
  | cons first rest ih =>
    rw [List.mapM_cons, bind_eq_error_iff]
    constructor
    · rintro (hfirst | ⟨result, hresult, hrest⟩)
      · exact ⟨[], first, rest, rfl, List.forall_mem_nil _, hfirst⟩
      · rcases bind_eq_error_iff.mp hrest with hrest | ⟨results, -, hpure⟩
        · obtain ⟨front, value, back, rfl, hfront, hvalue⟩ := ih.mp hrest
          exact ⟨first :: front, value, back, rfl,
            List.forall_mem_cons.mpr ⟨⟨result, hresult⟩, hfront⟩, hvalue⟩
        · cases hpure
    · rintro ⟨front, value, back, hvalues, hfront, hvalue⟩
      cases front with
      | nil =>
        obtain ⟨rfl, -⟩ := List.cons.inj hvalues
        exact .inl hvalue
      | cons earlier front =>
        obtain ⟨rfl, rfl⟩ := List.cons.inj hvalues
        rw [List.forall_mem_cons] at hfront
        obtain ⟨result, hresult⟩ := hfront.1
        exact .inr ⟨result, hresult, bind_eq_error_iff.mpr (.inl
          (ih.mpr ⟨front, value, back, rfl, hfront.2, hvalue⟩))⟩

theorem mapM_eq_error_iff_getElem? {values : List Value} {fault : Fault} :
    values.mapM make = .error fault ↔ ∃ (place : Nat) (value : Value),
      values[place]? = some value ∧ make value = .error fault ∧
        ∀ (earlier : Nat) (other : Value), earlier < place → values[earlier]? = some other →
          ∃ result, make other = .ok result := by
  rw [mapM_eq_error_iff]
  constructor
  · rintro ⟨front, value, back, rfl, hfront, hvalue⟩
    refine ⟨front.length, value, by simp, hvalue, fun earlier other hearlier hother ↦ ?_⟩
    rw [List.getElem?_append_left hearlier] at hother
    exact hfront other (List.mem_of_getElem? hother)
  · rintro ⟨place, value, hplace, hvalue, hearlier⟩
    obtain ⟨hlt, rfl⟩ := List.getElem?_eq_some_iff.mp hplace
    refine ⟨values.take place, _, values.drop (place + 1), ?_, fun other hother ↦ ?_, hvalue⟩
    · rw [List.getElem_cons_drop, List.take_append_drop]
    · obtain ⟨earlier, hother⟩ := List.mem_iff_getElem?.mp hother
      rw [List.getElem?_take, Option.ite_none_right_eq_some] at hother
      exact hearlier earlier other hother.1 hother.2

theorem exists_of_mapM_eq_error {values : List Value} {fault : Fault}
    (hfault : values.mapM make = .error fault) : ∃ value ∈ values, make value = .error fault := by
  obtain ⟨front, value, back, rfl, -, hvalue⟩ := mapM_eq_error_iff.mp hfault
  exact ⟨value, List.mem_append_right _ List.mem_cons_self, hvalue⟩

theorem exists_mapM_eq_ok_iff {values : List Value} :
    (∃ results, values.mapM make = .ok results) ↔
      ∀ value ∈ values, ∃ result, make value = .ok result := by
  simp only [mapM_eq_ok_iff]
  induction values with
  | nil => simp
  | cons value rest ih =>
    rw [List.forall_mem_cons, ← ih]
    simp only [List.forall₂_cons_left_iff]
    constructor
    · rintro ⟨_, result, others, hresult, hothers, rfl⟩
      exact ⟨⟨result, hresult⟩, others, hothers⟩
    · rintro ⟨⟨result, hresult⟩, others, hothers⟩
      exact ⟨result :: others, result, others, hresult, hothers, rfl⟩

theorem mapM_congr {other : Value → Except Fault Next} {values : List Value}
    (hsame : ∀ value ∈ values, make value = other value) :
    values.mapM make = values.mapM other := by
  induction values with
  | nil => rfl
  | cons value rest ih =>
    rw [List.forall_mem_cons] at hsame
    rw [List.mapM_cons, List.mapM_cons, hsame.1, ih hsame.2]

/-- Two computations that agree on the members of two lists agree on the lists. -/
theorem mapM_eq_of_forall₂ {Other : Type} {other : Other → Except Fault Next}
    {paired : Value → Other → Prop}
    (hmake : ∀ value beside, paired value beside → other beside = make value)
    {values : List Value} {besides : List Other} (hpaired : List.Forall₂ paired values besides) :
    besides.mapM other = values.mapM make := by
  induction hpaired with
  | nil => rfl
  | cons hfirst _ ih => rw [List.mapM_cons, List.mapM_cons, hmake _ _ hfirst, ih]

/-- One computation goes through for the members of a list if another one does for the members of a
list beside it, and the results belong together in turn. -/
theorem exists_mapM_of_forall₂ {Other Result : Type} {other : Other → Except Fault Result}
    {paired : Value → Other → Prop} {related : Next → Result → Prop}
    (hmake : ∀ value beside result, paired value beside → other beside = .ok result →
      ∃ made, make value = .ok made ∧ related made result)
    {values : List Value} {besides : List Other} {results : List Result}
    (hpaired : List.Forall₂ paired values besides) (hok : besides.mapM other = .ok results) :
    ∃ made, values.mapM make = .ok made ∧ List.Forall₂ related made results := by
  rw [mapM_eq_ok_iff] at hok
  induction hpaired generalizing results with
  | nil =>
    obtain rfl := List.forall₂_nil_left_iff.mp hok
    exact ⟨[], rfl, .nil⟩
  | cons hfirst _ ih =>
    obtain ⟨result, rest, hresult, hrest, rfl⟩ := List.forall₂_cons_left_iff.mp hok
    obtain ⟨made, hmade, hrelated⟩ := hmake _ _ _ hfirst hresult
    obtain ⟨others, hothers, hall⟩ := ih hrest
    refine ⟨made :: others, ?_, .cons hrelated hall⟩
    rw [List.mapM_cons, hmade, hothers]
    rfl

/-- Two passes over a list are one, if the second pass cannot fail after the first. -/
theorem mapM_zip_mapM {Result : Type} {next : Value × Next → Except Fault Result}
    {values : List Value}
    (hnext : ∀ value ∈ values, ∀ middle, make value = .ok middle →
      ∃ result, next (value, middle) = .ok result) :
    (values.mapM make >>= fun middle ↦ (values.zip middle).mapM next) =
      values.mapM fun value ↦ make value >>= fun middle ↦ next (value, middle) := by
  induction values with
  | nil => rfl
  | cons value rest ih =>
    rw [List.forall_mem_cons] at hnext
    rw [List.mapM_cons, List.mapM_cons, ← ih hnext.2]
    cases hmake : make value with
    | error fault => rfl
    | ok middle =>
      obtain ⟨result, hresult⟩ := hnext.1 middle hmake
      cases rest.mapM make with
      | error fault => simp [bind, Except.bind, hresult]
      | ok others => simp [bind, Except.bind, pure, Except.pure, List.mapM_cons, hresult]

/-- Two computations in turn, the second of which sees what the first one saw and gave. -/
theorem forall₂_of_zip {Result : Type} {first : Value → Next → Prop}
    {second : Value × Next → Result → Prop} {values : List Value} {middle : List Next}
    {results : List Result} (hfirst : List.Forall₂ first values middle)
    (hsecond : List.Forall₂ second (values.zip middle) results) :
    List.Forall₂ (fun value result ↦ ∃ next, first value next ∧ second (value, next) result)
      values results := by
  induction hfirst generalizing results with
  | nil =>
    obtain rfl := List.forall₂_nil_left_iff.mp hsecond
    exact .nil
  | cons hhead _ ih =>
    obtain ⟨result, rest, hresult, hrest, rfl⟩ := List.forall₂_cons_left_iff.mp hsecond
    exact .cons ⟨_, hhead, hresult⟩ (ih hrest)

variable {relation : Value → Next → Prop} {values : List Value} {results : List Next}

/-- The member of one list that belongs to a member of the other. -/
theorem exists_getElem?_of_forall₂ (hrelated : List.Forall₂ relation values results)
    {position : Nat} {value : Value} (hvalue : values[position]? = some value) :
    ∃ result, results[position]? = some result ∧ relation value result := by
  induction hrelated generalizing position with
  | nil => simp at hvalue
  | cons hfirst _ ih =>
    cases position with
    | zero =>
      obtain rfl := Option.some.inj hvalue
      exact ⟨_, rfl, hfirst⟩
    | succ position => exact ih hvalue

theorem exists_mem_of_forall₂ (hrelated : List.Forall₂ relation values results) {result : Next}
    (hresult : result ∈ results) : ∃ value ∈ values, relation value result := by
  induction hrelated with
  | nil => cases hresult
  | cons hfirst _ ih =>
    rcases List.mem_cons.mp hresult with rfl | hrest
    · exact ⟨_, List.mem_cons_self, hfirst⟩
    · obtain ⟨value, hvalue, hrelated⟩ := ih hrest
      exact ⟨value, List.mem_cons_of_mem _ hvalue, hrelated⟩

end Aout.Fallible
