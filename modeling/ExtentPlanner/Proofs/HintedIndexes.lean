import ExtentPlanner.Proofs.ConjunctAccounting
import ExtentPlanner.Proofs.HintDistribution
import ExtentPlanner.Proofs.RefusedScans

/-! Index hints go to the extents that they name, and nowhere else. The positions at which extents
are visited are noted once, when the candidate is made; they stay right because no later operation
visits other extents or visits them in another order. So at any time in the life of a candidate a
list of hints is handed out as if each extent were looked up in the tree: in whole, or up to the
first hint that does not fit. -/
namespace ExtentPlanner

namespace Candidate

theorem SameOrder.noted (same : SameOrder before after) (noted : before.Noted) : after.Noted where
  order := by rw [same.order, noted.order, same.visited]
  positions := by rw [same.positions, noted.positions, same.order]

theorem SameOrder.recorded (same : SameOrder before after) (recorded : before.Recorded) :
    after.Recorded := ⟨same.noted recorded.toNoted, same.visited ▸ recorded.distinct⟩

/-- What the operations leave of a candidate still has the records of its tree. -/
theorem recorded_performed {tree : JoinTree} (distinct : tree.visitOrder.Nodup)
    (operations : List Operation) : (operations.foldl perform (ofTree tree)).Recorded :=
  (sameOrder_performed _ operations).recorded (recorded_ofTree distinct)

/-- Whatever has been done with a candidate, hints can be handed out exactly if each names a known
index and an extent of the tree whose class the index can scan. Then every visit keeps the index
that it was given before, or else takes that of the first hint on its extent, and the candidate is
not changed in any other way. If hints fail, those before the first that does not fit have been
handed out in just this way, and the failure says what is wrong with that one. -/
theorem hints_distribute_exactly (tree : JoinTree) (distinct : tree.visitOrder.Nodup)
    (operations : List Operation) (catalog : Catalog) (hints : List IndexHint) (next : Candidate) :
    let reached := operations.foldl perform (ofTree tree)
    (reached.distributeHints catalog hints = (next, .ok ()) ↔
      (∀ hint ∈ hints, hint.Fits catalog reached.top) ∧ next = reached.hinted catalog hints) ∧
    ∀ failure, reached.distributeHints catalog hints = (next, .error failure) →
      ∃ front bad back fault, hints = front ++ bad :: back ∧
        (∀ hint ∈ front, hint.Fits catalog reached.top) ∧ ¬bad.Fits catalog reached.top ∧
        bad.Faulty catalog reached.top fault ∧ failure = .invalidHint fault ∧
        next = reached.hinted catalog front := by
  intro reached
  have positioned : reached.Positioned := (recorded_performed distinct operations).positioned
  have outcome := distributeHints_handsOut positioned catalog hints
  generalize reached.distributeHints catalog hints = result at outcome
  cases outcome with
  | all fit =>
    refine ⟨⟨fun ran => ?_, fun ⟨_, left⟩ => by rw [left]⟩, fun failure ran => ?_⟩
    · cases ran
      exact ⟨fit, rfl⟩
    · cases ran
  | @upTo front bad back fault split fit faulty =>
    have unfit : ¬bad.Fits catalog reached.top := faulty.not_fits positioned.distinct
    refine ⟨⟨fun ran => ?_, fun ⟨all, _⟩ => ?_⟩, fun failure ran => ?_⟩
    · cases ran
    · exact absurd (all bad (by simp [split])) unfit
    · cases ran
      exact ⟨front, bad, back, fault, split, fit, unfit, faulty, rfl, rfl⟩

open Planner (staffCatalog)

/-- Employees and persons, at extents with gaps between them. -/
def sparseStaff : JoinTree :=
  .join .leftOuter
    (.join .inner (.visit (.unplanned 5 "Employee")) (.visit (.unplanned 2 "Person")) [])
    (.visit (.unplanned 9 "Person")) []

/-- The last extent gets its index before the others. -/
def hintedEarlier : List Operation := [.distributeHints staffCatalog [⟨9, "Person.auto"⟩]]

/-- Two hints on each of the other extents, and one that comes too late. -/
def interleavedHints : List IndexHint :=
  [⟨2, "PersonAge"⟩, ⟨9, "PersonAge"⟩, ⟨5, "Person.auto"⟩, ⟨2, "Person.auto"⟩, ⟨5, "Employee.auto"⟩]

/-- Among them, one that does not fit. -/
def interruptedHints : List IndexHint :=
  interleavedHints.take 2 ++ ⟨2, "Employee.auto"⟩ :: interleavedHints.drop 2

theorem hints_distribute_sparse :
    let reached := hintedEarlier.foldl perform (ofTree sparseStaff)
    let handed := fun (candidate : Candidate) =>
      candidate.top.visits.map fun visit => (visit.extent, visit.hintedIndex?.map (·.name))
    (∃ next, reached.distributeHints staffCatalog interleavedHints = (next, .ok ()) ∧
      next = reached.hinted staffCatalog interleavedHints ∧
      handed next = [(5, some "Person.auto"), (2, some "PersonAge"), (9, some "Person.auto")]) ∧
    ∃ next, reached.distributeHints staffCatalog interruptedHints =
        (next, .error (.invalidHint (.notApplicable "Employee.auto" "Person"))) ∧
      (∃ bad ∈ interruptedHints, ¬bad.Fits staffCatalog reached.top) ∧
      handed next = [(5, none), (2, some "PersonAge"), (9, some "Person.auto")] := by
  intro reached handed
  have exactly := fun hints next =>
    hints_distribute_exactly sparseStaff (by decide) hintedEarlier staffCatalog hints next
  refine ⟨⟨_, rfl, ((exactly interleavedHints _).1.mp rfl).2, rfl⟩, _, rfl, ?_, rfl⟩
  obtain ⟨front, bad, back, _, split, _, unfit, _⟩ := (exactly interruptedHints _).2 _ rfl
  exact ⟨bad, split ▸ List.mem_append_right front List.mem_cons_self, unfit⟩

end Candidate

end ExtentPlanner
