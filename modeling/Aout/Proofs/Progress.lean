import Aout.Progress
/-!
Changes in place, taken apart: what a composed change did when it went through, which part of it
stopped when it did not, and what it preserves in either case. `Progress.Keeps` says both of a
change at once: which states it can reach, and which faults can stop it there.
-/

set_option autoImplicit false
set_option relaxedAutoImplicit false

namespace Aout.Progress

variable {State Next Item : Type} {progress : Progress State} {next : State → Progress State}

theorem eq_done_of_fault? (hfault : progress.fault? = none) : progress = done progress.state := by
  obtain ⟨state, fault?⟩ := progress
  obtain rfl : fault? = none := hfault
  rfl

theorem result_eq_ok_iff_eq_done {state : State} :
    progress.result = .ok state ↔ progress = done state := by
  rw [result_eq_ok_iff]
  constructor
  · rintro ⟨rfl, hfault⟩
    exact eq_done_of_fault? hfault
  · rintro rfl
    exact ⟨rfl, rfl⟩

theorem result_eq_error_iff {fault : LinkFault} :
    progress.result = .error fault ↔ progress.fault? = some fault := by
  unfold result
  split <;> simp_all

theorem andThen_eq_done_iff {final : State} : progress.andThen next = done final ↔
    ∃ state, progress = done state ∧ next state = done final := by
  obtain ⟨state, fault?⟩ := progress
  cases fault? with
  | none =>
    constructor
    · exact fun hnext ↦ ⟨state, rfl, hnext⟩
    · rintro ⟨reached, hreached, hnext⟩
      cases hreached
      exact hnext
  | some fault => simp [andThen, done]

theorem fault?_andThen_eq_some_iff {fault : LinkFault} :
    (progress.andThen next).fault? = some fault ↔
      progress.fault? = some fault ∨
        ∃ state, progress = done state ∧ (next state).fault? = some fault := by
  obtain ⟨state, fault?⟩ := progress
  cases fault? with
  | none =>
    constructor
    · exact fun hnext ↦ .inr ⟨state, rfl, hnext⟩
    · rintro (hnone | ⟨reached, hreached, hnext⟩)
      · cases hnone
      · cases hreached
        exact hnext
  | some found => simp [andThen, done]

theorem state_andThen (Holds : State → Prop) (hprogress : Holds progress.state)
    (hnext : ∀ state, Holds state → Holds (next state).state) :
    Holds (progress.andThen next).state := by
  obtain ⟨state, fault?⟩ := progress
  cases fault? with
  | none => exact hnext state hprogress
  | some fault => exact hprogress

theorem each_preserves_of_mem {step : State → Item → Progress State} (Holds : State → Prop)
    {items : List Item}
    (hstep : ∀ state, ∀ item ∈ items, Holds state → Holds (step state item).state) {state : State}
    (hstate : Holds state) : Holds (each step state items).state := by
  induction items generalizing state with
  | nil => exact hstate
  | cons item rest ih =>
    have hnext := hstep state item List.mem_cons_self hstate
    unfold each
    split
    · rename_i hreached
      rw [hreached] at hnext
      exact ih (fun state item hitem ↦ hstep state item (List.mem_cons_of_mem _ hitem)) hnext
    · rename_i hreached
      rwa [hreached] at hnext

theorem map_eq_done_iff {view : State → Next} {final : Next} :
    progress.map view = done final ↔ ∃ state, progress = done state ∧ view state = final := by
  obtain ⟨state, fault?⟩ := progress
  cases fault? with
  | none =>
    constructor
    · intro hmap
      cases hmap
      exact ⟨state, rfl, rfl⟩
    · rintro ⟨reached, hreached, rfl⟩
      cases hreached
      rfl
  | some fault => simp [map, done]

variable {step : State → Item → Progress State}

theorem each_cons_eq_done_iff {state final : State} {item : Item} {rest : List Item} :
    each step state (item :: rest) = done final ↔
      ∃ reached, step state item = done reached ∧ each step reached rest = done final := by
  cases hstep : step state item with
  | mk reached fault? =>
    cases fault? with
    | none =>
      simp only [each, hstep]
      constructor
      · exact fun hrest ↦ ⟨reached, rfl, hrest⟩
      · rintro ⟨other, hother, hrest⟩
        cases hother
        exact hrest
    | some fault => simp [each, hstep, done, stopped]

theorem fault?_each_cons_eq_some_iff {state : State} {item : Item} {rest : List Item}
    {fault : LinkFault} :
    (each step state (item :: rest)).fault? = some fault ↔
      (step state item).fault? = some fault ∨
        ∃ reached, step state item = done reached ∧
          (each step reached rest).fault? = some fault := by
  cases hstep : step state item with
  | mk reached fault? =>
    cases fault? with
    | none =>
      simp only [each, hstep]
      constructor
      · exact fun hrest ↦ .inr ⟨reached, rfl, hrest⟩
      · rintro (hnone | ⟨other, hother, hrest⟩)
        · cases hnone
        · cases hother
          exact hrest
    | some found => simp [each, hstep, done, stopped]

/-- A last item that changes nothing may be left out. -/
theorem each_append_of_done {item : Item} (hdone : ∀ state, step state item = done state)
    (items : List Item) (state : State) :
    each step state (items ++ [item]) = each step state items := by
  induction items generalizing state with
  | nil =>
    rw [List.nil_append]
    unfold each
    rw [hdone]
    rfl
  | cons first rest ih => simp only [List.cons_append, each, ih]

/-! ### Reachable states and possible faults -/

/-- Whatever state is reached satisfies `Holds`, and any fault that stopped there `Allowed`. -/
structure Keeps (Holds : State → Prop) (Allowed : LinkFault → Prop) (progress : Progress State) :
    Prop where
  holds : Holds progress.state
  allowed : ∀ fault, progress.fault? = some fault → Allowed fault

namespace Keeps

variable {Holds : State → Prop} {Allowed : LinkFault → Prop}

theorem done {state : State} (hstate : Holds state) : Keeps Holds Allowed (done state) :=
  ⟨hstate, fun _ hfault ↦ by cases hfault⟩

theorem stopped {state : State} {fault : LinkFault} (hstate : Holds state)
    (hallowed : Allowed fault) : Keeps Holds Allowed (stopped state fault) := by
  refine ⟨hstate, fun found hfound ↦ ?_⟩
  obtain rfl : fault = found := Option.some.inj hfound
  exact hallowed

theorem andThen (hprogress : Keeps Holds Allowed progress)
    (hnext : ∀ state, Holds state → Keeps Holds Allowed (next state)) :
    Keeps Holds Allowed (progress.andThen next) where
  holds := state_andThen Holds hprogress.holds fun state hstate ↦ (hnext state hstate).holds
  allowed := by
    intro fault hfault
    rcases fault?_andThen_eq_some_iff.mp hfault with hfirst | ⟨state, rfl, hlast⟩
    · exact hprogress.allowed fault hfirst
    · exact (hnext state hprogress.holds).allowed fault hlast

theorem each {items : List Item}
    (hstep : ∀ state, ∀ item ∈ items, Holds state → Keeps Holds Allowed (step state item))
    {state : State} (hstate : Holds state) : Keeps Holds Allowed (each step state items) where
  holds := each_preserves_of_mem Holds
    (fun state item hitem hstate ↦ (hstep state item hitem hstate).holds) hstate
  allowed := by
    induction items generalizing state with
    | nil => exact fun fault hfault ↦ by cases hfault
    | cons item rest ih =>
      intro fault hfault
      have hfirst := hstep state item List.mem_cons_self hstate
      rcases fault?_each_cons_eq_some_iff.mp hfault with hstopped | ⟨reached, hreached, hrest⟩
      · exact hfirst.allowed fault hstopped
      · rw [hreached] at hfirst
        exact ih (fun state item hitem ↦ hstep state item (List.mem_cons_of_mem _ hitem))
          hfirst.holds fault hrest

theorem map {Seen : Next → Prop} {view : State → Next} (hprogress : Keeps Holds Allowed progress)
    (hview : ∀ state, Holds state → Seen (view state)) : Keeps Seen Allowed (progress.map view) :=
  ⟨hview _ hprogress.holds, hprogress.allowed⟩

end Keeps

end Aout.Progress
