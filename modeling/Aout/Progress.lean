import Aout.Fault
/-!
Changes in place that may stop early. Several steps change one state in turn; a step that finds a
fault stops the rest, and what was changed up to there stays changed.
-/

set_option autoImplicit false
set_option relaxedAutoImplicit false

namespace Aout

/-- The state that was reached, and the fault that stopped there, if one did. -/
structure Progress (State : Type) where
  state : State
  fault? : Option LinkFault

namespace Progress

variable {State Next Item : Type}

def done (state : State) : Progress State :=
  ⟨state, none⟩

def stopped (state : State) (fault : LinkFault) : Progress State :=
  ⟨state, some fault⟩

/-- Go on from the state that was reached, unless a fault stopped there. -/
def andThen (progress : Progress State) (next : State → Progress State) : Progress State :=
  match progress.fault? with
  | none => next progress.state
  | some _ => progress

/-- Change a state by each item in turn. -/
def each (step : State → Item → Progress State) : State → List Item → Progress State
  | state, [] => done state
  | state, item :: rest =>
    match step state item with
    | ⟨next, none⟩ => each step next rest
    | ⟨reached, some fault⟩ => stopped reached fault

/-- See the state as part of another one. -/
def map (progress : Progress State) (view : State → Next) : Progress Next :=
  ⟨view progress.state, progress.fault?⟩

/-- The state that was reached without a fault, or else the fault. -/
def result (progress : Progress State) : Except LinkFault State :=
  match progress.fault? with
  | none => .ok progress.state
  | some fault => .error fault

@[simp] theorem done_andThen (state : State) (next : State → Progress State) :
    (done state).andThen next = next state := rfl

@[simp] theorem stopped_andThen (state : State) (fault : LinkFault)
    (next : State → Progress State) :
    (stopped state fault).andThen next = stopped state fault := rfl

theorem result_eq_ok_iff {progress : Progress State} {state : State} :
    progress.result = .ok state ↔ progress.state = state ∧ progress.fault? = none := by
  unfold result
  split
  · rename_i hfault
    simp [hfault]
  · rename_i hfault
    simp [hfault]

end Progress

end Aout
