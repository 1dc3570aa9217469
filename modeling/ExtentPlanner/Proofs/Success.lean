import ExtentPlanner.Error
import Mathlib.Data.List.Forall2

/-! A step of planning succeeds only if every part of it does. The first lemmas take a success apart
into the successes it was made of. `SucceedsIff` says when a step succeeds and which failures it
has otherwise, and is built up along the parts of the step. `Alike` compares two runs: they have
related results, or neither succeeds. -/
namespace ExtentPlanner

theorem bind_succeeds {α β : Type} {first : Planned α} {next : α → Planned β} {result : β} :
    (first >>= next) = .ok result ↔ ∃ value, first = .ok value ∧ next value = .ok result := by
  cases first with
  | error failure => simp [bind, Except.bind]
  | ok value => simp [bind, Except.bind]

/-- A traversal succeeds with the results of its items, in order. -/
theorem mapM_succeeds {α β : Type} {step : α → Planned β} {items : List α} {results : List β} :
    items.mapM step = .ok results ↔
      List.Forall₂ (fun item result => step item = .ok result) items results := by
  induction items generalizing results with
  | nil => simp [pure, Except.pure, eq_comm]
  | cons item rest ih =>
    simp only [List.mapM_cons, bind_succeeds, ih, List.forall₂_cons_left_iff, pure, Except.pure,
      Except.ok.injEq]
    constructor
    · rintro ⟨value, first, values, others, rfl⟩
      exact ⟨value, values, first, others, rfl⟩
    · rintro ⟨value, values, first, others, rfl⟩
      exact ⟨value, first, values, others, rfl⟩

/-- A traversal whose items can only succeed with known values succeeds with those values. -/
theorem mapM_values {α β : Type} {step : α → Planned β} {value : α → β} {items : List α}
    {results : List β}
    (known : ∀ item ∈ items, ∀ result, step item = .ok result → result = value item)
    (ran : items.mapM step = .ok results) : results = items.map value := by
  have succeeded := mapM_succeeds.mp ran
  clear ran
  induction succeeded with
  | nil => rfl
  | cons first others ih =>
    rw [List.map_cons, ← known _ List.mem_cons_self _ first,
      ← ih fun item member => known item (List.mem_cons_of_mem _ member)]

/-! ## When a step succeeds -/

/-- The step succeeds exactly if something holds, and fails only with one of certain faults. -/
def SucceedsIff {α : Type} (possible : Prop) (faults : PlanError → Prop) : Planned α → Prop
  | .ok _ => possible
  | .error failure => ¬possible ∧ faults failure

namespace SucceedsIff

variable {α β : Type} {possible further : Prop} {faults : PlanError → Prop}

theorem exists_iff {step : Planned α} (settled : SucceedsIff possible faults step) :
    (∃ result, step = .ok result) ↔ possible := by
  cases step with
  | ok value => exact iff_of_true ⟨value, rfl⟩ settled
  | error failure => exact iff_of_false (by rintro ⟨_, ⟨⟩⟩) settled.1

theorem fault {step : Planned α} {failure : PlanError}
    (settled : SucceedsIff possible faults step) (ran : step = .error failure) :
    faults failure := by
  rw [ran] at settled
  exact settled.2

theorem imp {step : Planned α} {others : PlanError → Prop}
    (settled : SucceedsIff possible faults step) (same : possible ↔ further)
    (wider : ∀ failure, ¬possible → faults failure → others failure) :
    SucceedsIff further others step := by
  cases step with
  | ok value => exact same.mp settled
  | error failure => exact ⟨mt same.mpr settled.1, wider failure settled.1 settled.2⟩

theorem bind {first : Planned α} {next : α → Planned β}
    (begins : SucceedsIff possible faults first)
    (goesOn : ∀ value, first = .ok value → SucceedsIff further faults (next value)) :
    SucceedsIff (possible ∧ further) faults (first >>= next) := by
  cases first with
  | error failure => exact ⟨fun both => begins.1 both.1, begins.2⟩
  | ok value => exact (goesOn value rfl).imp (by simp [show possible from begins]) fun _ _ => id

/-- What follows never fails. -/
theorem bind_ok {first : Planned α} {next : α → Planned β}
    (begins : SucceedsIff possible faults first)
    (goesOn : ∀ value, first = .ok value → ∃ result, next value = .ok result) :
    SucceedsIff possible faults (first >>= next) := by
  cases first with
  | error failure => exact begins
  | ok value =>
    obtain ⟨result, ran⟩ := goesOn value rfl
    exact show SucceedsIff possible faults (next value) from ran ▸ begins

/-- A traversal succeeds exactly if each of its steps does. -/
theorem mapM {step : α → Planned β} {possible : α → Prop} {items : List α}
    (each : ∀ item ∈ items, SucceedsIff (possible item) faults (step item)) :
    SucceedsIff (∀ item ∈ items, possible item) faults (items.mapM step) := by
  induction items with
  | nil => exact fun _ member => absurd member List.not_mem_nil
  | cons item rest ih =>
    obtain ⟨ofItem, ofRest⟩ := List.forall_mem_cons.mp each
    rw [List.mapM_cons]
    refine (ofItem.bind fun value _ => (ih ofRest).bind_ok fun values _ =>
      ⟨value :: values, rfl⟩).imp ?_ fun _ _ => id
    rw [List.forall_mem_cons]

end SucceedsIff

/-! ## Two runs of a step -/

/-- Both steps succeed and their results are related, or both fail. -/
inductive Alike {α β : Type} (related : α → β → Prop) : Planned α → Planned β → Prop where
  | succeed (results : related first second) : Alike related (.ok first) (.ok second)
  | fail (failure other : PlanError) : Alike related (.error failure) (.error other)

namespace Alike

variable {α β γ δ : Type} {related : α → β → Prop} {further : γ → δ → Prop}

theorem bind {first : Planned α} {second : Planned β} {next : α → Planned γ}
    {other : β → Planned δ} (begin : Alike related first second)
    (goOn : ∀ value result, related value result → Alike further (next value) (other result)) :
    Alike further (first >>= next) (second >>= other) := by
  cases begin with
  | succeed results => exact goOn _ _ results
  | fail failure other => exact .fail failure other

/-- Both runs begin with the same step. -/
theorem bind_common (step : Planned α) {next : α → Planned γ} {other : α → Planned δ}
    (goOn : ∀ value, Alike further (next value) (other value)) :
    Alike further (step >>= next) (step >>= other) := by
  cases step with
  | ok value => exact goOn value
  | error failure => exact .fail failure failure

/-- Steps that succeed under the same condition are alike if their results are related. -/
theorem of_succeedsIff {possible : Prop} {faults others : PlanError → Prop} {first : Planned α}
    {second : Planned β} (settled : SucceedsIff possible faults first)
    (settledToo : SucceedsIff possible others second)
    (results : ∀ value result, first = .ok value → second = .ok result → related value result) :
    Alike related first second := by
  cases first with
  | ok value =>
    cases second with
    | ok result => exact .succeed (results value result rfl rfl)
    | error failure => exact absurd settled settledToo.1
  | error failure =>
    cases second with
    | ok result => exact absurd settledToo settled.1
    | error other => exact .fail failure other

end Alike

end ExtentPlanner
