import ExtentPlanner.Error

/-! Histories: a state is changed by one item after the other. Items that may fail are attempts, and
an attempt that fails leaves the state as it was. `Happens` says that some item of a history met a
state in which something was the case; the state is the one that the items before it led to. -/
namespace ExtentPlanner

variable {State Item : Type}

/-- The state after an attempt. -/
def attempt (step : State → Item → Planned State) (state : State) (item : Item) : State :=
  match step state item with
  | .ok next => next
  | .error _ => state

theorem attempt_cases (step : State → Item → Planned State) (state : State) (item : Item) :
    (∃ failure, step state item = .error failure ∧ attempt step state item = state) ∨
      step state item = .ok (attempt step state item) := by
  rw [attempt]
  split
  · rename_i ran
    exact .inr ran
  · rename_i failure failed
    exact .inl ⟨failure, failed, rfl⟩

/-- What every successful step keeps is kept by a history of attempts. -/
theorem attempts_keep {step : State → Item → Planned State} {holds : State → Prop}
    (kept : ∀ state item next, holds state → step state item = .ok next → holds next)
    (before : holds state) (history : List Item) : holds (history.foldl (attempt step) state) := by
  induction history generalizing state with
  | nil => exact before
  | cons item rest ih =>
    apply ih
    rcases attempt_cases step state item with ⟨_, _, same⟩ | ran
    · rwa [same]
    · exact kept _ _ _ before ran

/-- Some item of the history meets a state in which the event occurs. -/
def Happens (step : State → Item → State) (event : State → Item → Prop) (start : State)
    (history : List Item) : Prop :=
  ∃ before item later, history = before ++ item :: later ∧ event (before.foldl step start) item

theorem not_happens_nil {step : State → Item → State} {event : State → Item → Prop} :
    ¬Happens step event start [] := by
  rintro ⟨before, item, later, split, _⟩
  simp at split

/-- An event occurs at the first item or in the history from there. -/
theorem happens_cons {step : State → Item → State} {event : State → Item → Prop} :
    Happens step event start (item :: rest) ↔
      event start item ∨ Happens step event (step start item) rest := by
  constructor
  · rintro ⟨before, here, later, split, occurs⟩
    cases before with
    | nil =>
      cases split
      exact .inl occurs
    | cons first before =>
      cases split
      exact .inr ⟨before, here, later, rfl, occurs⟩
  · rintro (occurs | ⟨before, here, later, rfl, occurs⟩)
    · exact ⟨[], item, rest, rfl, occurs⟩
    · exact ⟨item :: before, here, later, rfl, occurs⟩

end ExtentPlanner
