import ExtentPlanner.Proofs.HintedIndexes
import ExtentPlanner.Proofs.RepeatedEvaluation

/-! The order, the positions and the visits by number are three records of what the tree says itself.
They are written down when a candidate is made, or from what was written down then, and the tree goes
on changing: conditions, indexes and flags come and go, and the sort at the top may disappear. None
of this changes which extents the tree visits in which order, so the records never have to be
renewed: whoever looks up an extent by them comes to the visit that a search of the tree finds. -/
namespace ExtentPlanner.Candidate

variable {candidate : Candidate}

/-! ## What the records say -/

/-- The records of a candidate lead to what is found in its tree. -/
structure LooksUp (candidate : Candidate) : Prop where
  order : candidate.order = candidate.top.visitOrder
  position_iff : ∀ extent position, candidate.position? extent = some position ↔
    candidate.order[position]? = some extent
  /-- A search of the tree finds the only visit of an extent. -/
  found_iff : ∀ extent leaf, candidate.visit? extent = some leaf ↔
    leaf ∈ candidate.top.visits ∧ leaf.extent = extent
  /-- The visit at the position of an extent is the one that is found. -/
  visit_at : ∀ extent, ((candidate.position? extent).bind fun position =>
    candidate.top.visits[position]?) = candidate.visit? extent
  /-- So is the visit in the table. -/
  visit_numbered : ∀ extent, candidate.visitsByNumber[extent]?.join = candidate.visit? extent
  occupied_iff : ∀ extent, (∃ leaf, candidate.visitsByNumber[extent]? = some (some leaf)) ↔
    extent ∈ candidate.order

theorem Recorded.looksUp (recorded : candidate.Recorded) : candidate.LooksUp where
  order := recorded.order
  position_iff := recorded.order ▸ recorded.positioned
  found_iff _ _ := recorded.visit?_iff
  visit_at extent := (recorded.visit_at extent).trans (recorded.visit_numbered extent)
  visit_numbered := recorded.visit_numbered
  occupied_iff extent := by
    simp only [← Option.join_eq_some_iff, recorded.visitsByNumber_iff]
    rw [recorded.order, JoinTree.visitOrder_eq_map, List.mem_map]

/-! ## Using a candidate -/

/-- What can be done with a candidate: an operation, or a step of the visit that it has for an extent
number, which whoever asks for the visits by number can take. -/
inductive Use where
  | operation (operation : Operation)
  | step (extent : Nat) (catalog : Catalog) (step : Visit.Step)

/-- The candidate that a use leaves behind, also when it fails. -/
def use (candidate : Candidate) : Use → Candidate
  | .operation operation => candidate.perform operation
  | .step extent catalog step =>
    match candidate.position? extent with
    | some position => candidate.modifyAt position (·.perform catalog step)
    | none => candidate

/-- No use changes which extents are visited in which order. -/
theorem sameOrder_use (candidate : Candidate) (use : Use) :
    SameOrder candidate (candidate.use use) := by
  cases use with
  | operation operation => exact candidate.sameOrder_perform operation
  | step extent catalog step =>
    rw [Candidate.use]
    split
    · refine ⟨(JoinTree.mapVisits_pointwise _ _).visitOrder ?_, rfl, rfl⟩
      rintro before after ⟨place, rfl⟩
      split
      · have kept := Visit.perform_fresh catalog before step
        exact congrArg (fun fresh => fresh.extent) kept
      · rfl
    · exact .refl candidate

theorem sameOrder_used (candidate : Candidate) (uses : List Use) :
    SameOrder candidate (uses.foldl use candidate) := by
  induction uses generalizing candidate with
  | nil => exact .refl candidate
  | cons use rest ih => exact (candidate.sameOrder_use use).trans (ih _)

/-- Whatever is done with a candidate, the positions and the visits by number lead to the same
visits, and hints that are handed out next can be resolved by either. It does not matter whether the
tree visits an extent twice. -/
theorem hints_resolve_by_number (tree : JoinTree) (uses : List Use) :
    let reached := uses.foldl use (ofTree tree)
    (∀ extent, ((reached.position? extent).bind fun position => reached.top.visits[position]?) =
      reached.visitsByNumber[extent]?.join) ∧
    ∀ catalog hint,
      (reached.resolveHint catalog hint).map Prod.snd = reached.resolveByNumber catalog hint := by
  intro reached
  have noted : reached.Noted := (sameOrder_used _ uses).noted (noted_ofTree tree)
  exact ⟨noted.visit_at, noted.resolveHint_eq⟩

/-- Whatever is done with a candidate whose tree visits no extent twice, its order is that of its
tree, it knows exactly at which positions of the order which extents are visited, and by the number
of an extent it has the visit that is found in its tree, and nothing where there is none. -/
theorem lookups_follow_tree (tree : JoinTree) (distinct : tree.visitOrder.Nodup)
    (uses : List Use) : (uses.foldl use (ofTree tree)).LooksUp := by
  have same : SameOrder (ofTree tree) (uses.foldl use (ofTree tree)) :=
    sameOrder_used _ uses
  have recorded := same.recorded (recorded_ofTree distinct)
  exact recorded.looksUp

open Planner (staffCatalog)

/-- The staff at extents with gaps between them, sorted by the age of employees. -/
def sortedStaff : JoinTree := .sort ⟨[⟨.path 5 ["age"], .ascending⟩]⟩ sparseStaff

/-- Hints that fail after two of them have been handed out, steps of visits that there are and are
not, an evaluation for a catalog without classes, and what takes the sort away. -/
def mixedUses : List Use :=
  [.operation (.distributeHints staffCatalog interruptedHints),
    .step 2 staffCatalog (.setInnermost true), .step 7 staffCatalog .evaluate,
    .operation (.evaluate (.empty 0)), .operation (.evaluate staffCatalog),
    .operation (.replaceSort staffCatalog), .operation .markLastVisit]

theorem lookups_follow_sortedStaff :
    let reached := mixedUses.foldl use (ofTree sortedStaff)
    sortedStaff.visitOrder.Nodup ∧ reached.LooksUp ∧ reached.order = [5, 2, 9] ∧
      reached.position? 9 = some 2 ∧ reached.visitsByNumber[7]?.join = none ∧
      ∃ leaf, reached.visitsByNumber[2]? = some (some leaf) ∧ reached.visit? 2 = some leaf := by
  intro reached
  have distinct : sortedStaff.visitOrder.Nodup := by decide
  have looksUp : reached.LooksUp := lookups_follow_tree sortedStaff distinct mixedUses
  have order : reached.order = [5, 2, 9] := (sameOrder_used _ mixedUses).order
  have nothing : reached.visitsByNumber[7]?.join = none := by
    rw [Option.eq_none_iff_forall_ne_some]
    intro leaf found
    have visited := (looksUp.occupied_iff 7).mp ⟨leaf, Option.join_eq_some_iff.mp found⟩
    rw [order] at visited
    exact absurd visited (by decide)
  have second : 2 ∈ reached.order := by
    rw [order]
    decide
  obtain ⟨leaf, numbered⟩ := (looksUp.occupied_iff 2).mpr second
  refine ⟨distinct, looksUp, order, (looksUp.position_iff 9 2).mpr ?_, nothing, leaf, numbered, ?_⟩
  · rw [order]
    rfl
  · rw [← looksUp.visit_numbered, numbered, Option.join_some]

end ExtentPlanner.Candidate
