import ExtentPlanner.Candidate.OrderedScans
import ExtentPlanner.Proofs.TreeShape
import Mathlib.Data.List.Infix

/-! What the two steps that avoid sorting do to a candidate. Either step tries the order indexes of
a specification on the visits that the specification is about and then keeps all of them or none:
`replaceSort_cases` and `presortInput_cases` say what the candidate looks like in each case. Both
need that every extent is visited once, as then no assignment overwrites another one. -/
namespace ExtentPlanner.Candidate

variable {candidate : Candidate} {catalog : Catalog} {spec : SortSpec} {required : List Nat}

/-! ## Setting order indexes -/

/-- The order index of a visit after settings have been made from left to right. -/
def orderIndexAfter (settings : List (Nat × Option IndexUse)) (visit : Visit) : Option IndexUse :=
  settings.foldl (fun use? setting => if visit.extent = setting.1 then setting.2 else use?)
    visit.orderIndex?

theorem setOrderIndexes_ok {settings : List (Nat × Option IndexUse)}
    (distinct : candidate.top.visitOrder.Nodup)
    (visited : ∀ setting ∈ settings, setting.1 ∈ candidate.top.visitOrder) :
    candidate.setOrderIndexes settings =
      ({ candidate with
          top := candidate.top.updateEach fun visit =>
            visit.setOrderIndex (orderIndexAfter settings visit)
          knownCost? := none }, .ok ()) := by
  induction settings generalizing candidate with
  | nil =>
    have same : candidate.top.updateEach (fun visit =>
        visit.setOrderIndex (orderIndexAfter [] visit)) = candidate.top :=
      JoinTree.updateEach_self fun _ _ => rfl
    rw [setOrderIndexes, same, forgetCost]
  | cons setting rest ih =>
    obtain ⟨extent, use?⟩ := setting
    let changed := candidate.top.updateEach fun visit =>
      if visit.extent = extent then visit.setOrderIndex use? else visit
    have kept : changed.visitOrder = candidate.top.visitOrder :=
      (JoinTree.updateEach_pointwise _ _).visitOrder fun before after same => by
        rw [same]
        split <;> rfl
    have step : candidate.modifyVisit extent (·.setOrderIndex use?) =
        .ok { candidate with top := changed } := by
      rw [modifyVisit, JoinTree.modifyVisit?_of_mem distinct (visited _ List.mem_cons_self)]
    have others : ∀ setting ∈ rest, setting.1 ∈ changed.visitOrder := fun setting member =>
      kept ▸ visited setting (List.mem_cons_of_mem _ member)
    rw [setOrderIndexes, step]
    dsimp only
    rw [@ih { candidate with top := changed } (kept ▸ distinct) others]
    simp only [changed, JoinTree.updateEach_updateEach]
    congr 3
    funext visit
    by_cases here : visit.extent = extent <;> simp [orderIndexAfter, Visit.setOrderIndex, here]

private theorem foldl_settings {settings : List (Nat × Option IndexUse)}
    (agree : ∀ setting ∈ settings, setting.1 = extent → setting.2 = wanted?) :
    settings.foldl (fun use? setting => if extent = setting.1 then setting.2 else use?) initial? =
      if extent ∈ settings.map (·.1) then wanted? else initial? := by
  induction settings generalizing initial? with
  | nil => rfl
  | cons setting rest ih =>
    have ofRest := fun other member => agree other (List.mem_cons_of_mem _ member)
    rw [List.foldl_cons, ih ofRest]
    by_cases here : extent = setting.1
    · have value := agree setting List.mem_cons_self here.symm
      simp [here, value]
    · simp only [List.map_cons, List.mem_cons, here, if_false, false_or]

/-- Settings that agree on the extent of a visit have the last word on its order index. -/
theorem orderIndexAfter_of_agree {settings : List (Nat × Option IndexUse)} {visit : Visit}
    (agree : ∀ setting ∈ settings, setting.1 = visit.extent → setting.2 = wanted?) :
    orderIndexAfter settings visit =
      if visit.extent ∈ settings.map (·.1) then wanted? else visit.orderIndex? :=
  foldl_settings agree

/-! ## Orders that index scans can deliver -/

/-- A hint permits no use but that of the hinted index, forward. -/
theorem permits_iff {visit : Visit} {use : IndexUse} : permits visit use = true ↔
    ∀ index, visit.hintedIndex? = some index → use = ⟨index, .ascending⟩ := by
  unfold permits
  split
  · rename_i unhinted
    simp [unhinted]
  · rename_i hinted found
    obtain ⟨index, direction⟩ := use
    rw [Bool.and_eq_true, beq_iff_eq, beq_iff_eq, found]
    constructor
    · rintro ⟨rfl, rfl⟩ other same
      cases same
      rfl
    · intro each
      cases each hinted rfl
      exact ⟨rfl, rfl⟩

/-- The extents that a specification is about are visited first and in its order, and each has an
index for its part that its hint permits. -/
structure Deliverable (candidate : Candidate) (catalog : Catalog) (spec : SortSpec)
    (required : List Nat) : Prop where
  order : spec.requiredVisitOrder? = some required
  notEmpty : required ≠ []
  first : required <+: candidate.order
  served : ∀ visit ∈ candidate.top.visits, visit.extent ∈ required →
    ∃ use, spec.index? catalog visit.extent visit.typeName = some use ∧ permits visit use = true

/-- Has a visit deliver its part of a specification, if this is about its extent. -/
def deliver (catalog : Catalog) (spec : SortSpec) (required : List Nat) (visit : Visit) : Visit :=
  if visit.extent ∈ required then
    visit.setOrderIndex (spec.index? catalog visit.extent visit.typeName)
  else visit

@[simp] theorem deliver_extent (visit : Visit) :
    (deliver catalog spec required visit).extent = visit.extent := by
  rw [deliver]
  split <;> rfl

@[simp] theorem deliver_typeName (visit : Visit) :
    (deliver catalog spec required visit).typeName = visit.typeName := by
  rw [deliver]
  split <;> rfl

@[simp] theorem deliver_orderIndex? (visit : Visit) :
    (deliver catalog spec required visit).orderIndex? =
      if visit.extent ∈ required then spec.index? catalog visit.extent visit.typeName
      else visit.orderIndex? := by
  rw [deliver]
  split <;> rfl

@[simp] theorem visitOrder_deliver (tree : JoinTree) :
    (tree.updateEach (deliver catalog spec required)).visitOrder = tree.visitOrder := by
  rw [JoinTree.visitOrder_eq_map, JoinTree.visits_updateEach, List.map_map,
    JoinTree.visitOrder_eq_map]
  exact List.map_congr_left fun visit _ => deliver_extent visit

theorem mapM_option {α β : Type} {step : α → Option β} {items : List α} {results : List β} :
    items.mapM step = some results ↔
      List.Forall₂ (fun item result => step item = some result) items results := by
  induction items generalizing results with
  | nil => simp [eq_comm]
  | cons item rest ih =>
    simp only [List.mapM_cons, List.forall₂_cons_left_iff, ← ih, Option.bind_eq_bind,
      Option.bind_eq_some_iff, Option.pure_def, Option.some.injEq]
    constructor
    · rintro ⟨value, first, values, others, rfl⟩
      exact ⟨value, values, first, others, rfl⟩
    · rintro ⟨value, values, first, others, rfl⟩
      exact ⟨value, first, values, others, rfl⟩

private theorem orderAssignment?_some {assignment : OrderAssignment}
    (distinct : candidate.top.visitOrder.Nodup)
    (found : candidate.orderAssignment? catalog spec extent = some assignment) :
    assignment.extent = extent ∧ extent ∈ candidate.top.visitOrder ∧
      ∀ visit ∈ candidate.top.visits, visit.extent = extent →
        spec.index? catalog extent visit.typeName = some assignment.use ∧
          permits visit assignment.use = true := by
  simp only [orderAssignment?, Option.bind_eq_bind, Option.bind_eq_some_iff] at found
  obtain ⟨visit, visited, use, indexed, found⟩ := found
  split at found
  swap
  · cases found
  rename_i permitted
  cases found
  obtain ⟨member, same⟩ := JoinTree.mem_of_visit? visited
  refine ⟨rfl, ?_, fun other inside shared => ?_⟩
  · rw [JoinTree.visitOrder_eq_map, ← same]
    exact List.mem_map_of_mem member
  · have equal : other = visit := by
      have found := (JoinTree.visit?_eq_some_iff distinct).mpr ⟨inside, shared⟩
      exact Option.some.inj (found.symm.trans visited)
    rw [equal]
    exact ⟨indexed, permitted⟩

private theorem assignments_extents {assignments : List OrderAssignment}
    (distinct : candidate.top.visitOrder.Nodup)
    (each : List.Forall₂ (fun extent assignment =>
      candidate.orderAssignment? catalog spec extent = some assignment) required assignments) :
    assignments.map (·.extent) = required ∧ ∀ assignment ∈ assignments,
      candidate.orderAssignment? catalog spec assignment.extent = some assignment := by
  induction each with
  | nil => exact ⟨rfl, by simp⟩
  | cons head _ ih =>
    have same := (orderAssignment?_some distinct head).1
    refine ⟨by rw [List.map_cons, same, ih.1], ?_⟩
    rw [List.forall_mem_cons, same]
    exact ⟨head, ih.2⟩

/-- The assignments found are one for each required extent, and visits of that extent deliver
their part by it. -/
theorem orderAssignments?_some {assignments : List OrderAssignment}
    (distinct : candidate.top.visitOrder.Nodup)
    (found : candidate.orderAssignments? catalog spec = some assignments) :
    candidate.Deliverable catalog spec (assignments.map (·.extent)) ∧
      ∀ assignment ∈ assignments, assignment.extent ∈ candidate.top.visitOrder ∧
        ∀ visit ∈ candidate.top.visits, visit.extent = assignment.extent →
          spec.index? catalog visit.extent visit.typeName = some assignment.use := by
  simp only [orderAssignments?, Option.bind_eq_bind, Option.bind_eq_some_iff] at found
  obtain ⟨required, order, found⟩ := found
  split at found
  · cases found
  rename_i fits
  simp only [Bool.or_eq_true, not_or, Bool.not_eq_true, List.isEmpty_eq_false_iff,
    Bool.not_eq_false', List.isPrefixOf_iff_prefix] at fits
  obtain ⟨extents, known⟩ := assignments_extents distinct (mapM_option.mp found)
  refine ⟨⟨extents ▸ order, extents ▸ fits.1, extents ▸ fits.2, fun visit member inside => ?_⟩,
    fun assignment member => ?_⟩
  · obtain ⟨assignment, listed, same⟩ := List.mem_map.mp inside
    obtain ⟨_, _, delivers⟩ := orderAssignment?_some distinct (known assignment listed)
    rw [← same]
    exact ⟨_, delivers visit member same.symm⟩
  · obtain ⟨_, visited, delivers⟩ := orderAssignment?_some distinct (known assignment member)
    refine ⟨visited, fun visit inside same => ?_⟩
    rw [same]
    exact (delivers visit inside same).1

private theorem mapM_isSome {α β : Type} {step : α → Option β} {items : List α}
    (each : ∀ item ∈ items, (step item).isSome) : (items.mapM step).isSome := by
  induction items with
  | nil => rfl
  | cons item rest ih =>
    obtain ⟨here, others⟩ := List.forall_mem_cons.mp each
    obtain ⟨result, found⟩ := Option.isSome_iff_exists.mp here
    obtain ⟨results, foundAll⟩ := Option.isSome_iff_exists.mp (ih others)
    simp [found, foundAll]

/-- An order that can be delivered has its assignments in a candidate that visits the extents of its
order. -/
theorem Deliverable.assigned (deliverable : candidate.Deliverable catalog spec required)
    (visited : candidate.order = candidate.top.visitOrder) :
    (candidate.orderAssignments? catalog spec).isSome := by
  have fits : (required.isEmpty || !required.isPrefixOf candidate.order) = false := by
    simp [deliverable.notEmpty, deliverable.first]
  have each : ∀ extent ∈ required, (candidate.orderAssignment? catalog spec extent).isSome := by
    intro extent inside
    have member : extent ∈ candidate.top.visits.map (·.extent) := by
      rw [← JoinTree.visitOrder_eq_map, ← visited]
      exact deliverable.first.subset inside
    obtain ⟨first, found⟩ : ∃ visit, candidate.visit? extent = some visit := by
      rw [← Option.isSome_iff_exists, Candidate.visit?, JoinTree.visit?_eq_find?,
        List.find?_isSome]
      simpa using member
    obtain ⟨listed, here⟩ := JoinTree.mem_of_visit? found
    obtain ⟨use, indexed, permitted⟩ := deliverable.served first listed (here ▸ inside)
    rw [here] at indexed
    simp [orderAssignment?, found, indexed, permitted]
  rw [orderAssignments?, deliverable.order, Option.bind_eq_bind, Option.bind_some, fits]
  exact mapM_isSome each

/-! ## Trying an order and putting it back -/

/-- A candidate with the order indexes of a specification set, its cost forgotten. -/
def delivering (candidate : Candidate) (catalog : Catalog) (spec : SortSpec)
    (required : List Nat) : Candidate :=
  { candidate with
    top := candidate.top.updateEach (deliver catalog spec required)
    knownCost? := none }

private theorem setOrderIndexes_assigned (candidate : Candidate)
    {assignments : List OrderAssignment}
    (distinct : candidate.top.visitOrder.Nodup)
    (found : candidate.orderAssignments? catalog spec = some assignments) :
    candidate.setOrderIndexes (assignedOrderIndexes assignments) =
      (candidate.delivering catalog spec (assignments.map (·.extent)), .ok ()) := by
  obtain ⟨_, each⟩ := orderAssignments?_some distinct found
  have visited : ∀ setting ∈ assignedOrderIndexes assignments,
      setting.1 ∈ candidate.top.visitOrder := by
    intro setting member
    obtain ⟨assignment, listed, rfl⟩ := List.mem_map.mp member
    exact (each assignment listed).1
  have extents : (assignedOrderIndexes assignments).map (·.1) = assignments.map (·.extent) := by
    simp [assignedOrderIndexes]
  rw [setOrderIndexes_ok distinct visited, delivering]
  congr 2
  refine JoinTree.updateEach_congr fun visit member => ?_
  have agree : ∀ setting ∈ assignedOrderIndexes assignments, setting.1 = visit.extent →
      setting.2 = spec.index? catalog visit.extent visit.typeName := by
    intro setting inside same
    obtain ⟨assignment, listed, rfl⟩ := List.mem_map.mp inside
    exact ((each assignment listed).2 visit member same.symm).symm
  rw [orderIndexAfter_of_agree agree, extents, deliver]
  split <;> rfl

/-- Setting the previous order indexes again undoes a delivery, also in a tree that differs from
the candidate's above the visits. -/
private theorem restoreOrderIndexes_delivered {assignments : List OrderAssignment}
    {changed : Candidate} {top : JoinTree} (distinct : candidate.top.visitOrder.Nodup)
    (found : candidate.orderAssignments? catalog spec = some assignments)
    (sameVisits : top.visits = candidate.top.visits)
    (delivered : changed.top =
      top.updateEach (deliver catalog spec (assignments.map (·.extent)))) :
    changed.restoreOrderIndexes (candidate.previousOrderIndexes assignments) =
      ({ changed with top := top, knownCost? := none }, .ok false) := by
  obtain ⟨_, each⟩ := orderAssignments?_some distinct found
  have order : changed.top.visitOrder = candidate.top.visitOrder := by
    rw [delivered, visitOrder_deliver, JoinTree.visitOrder_eq_map, sameVisits,
      JoinTree.visitOrder_eq_map]
  have visited : ∀ setting ∈ candidate.previousOrderIndexes assignments,
      setting.1 ∈ changed.top.visitOrder := by
    intro setting member
    obtain ⟨assignment, listed, rfl⟩ := List.mem_map.mp member
    exact order ▸ (each assignment listed).1
  have extents : (candidate.previousOrderIndexes assignments).map (·.1) =
      assignments.map (·.extent) := by
    simp [previousOrderIndexes]
  rw [restoreOrderIndexes, setOrderIndexes_ok (order ▸ distinct) visited, delivered,
    JoinTree.updateEach_updateEach]
  have undone : top.updateEach (fun visit =>
      (deliver catalog spec (assignments.map (·.extent)) visit).setOrderIndex
        (orderIndexAfter (candidate.previousOrderIndexes assignments)
          (deliver catalog spec (assignments.map (·.extent)) visit))) = top := by
    refine JoinTree.updateEach_self fun visit member => ?_
    have agree : ∀ setting ∈ candidate.previousOrderIndexes assignments,
        setting.1 = (deliver catalog spec (assignments.map (·.extent)) visit).extent →
        setting.2 = visit.orderIndex? := by
      intro setting inside same
      obtain ⟨assignment, listed, rfl⟩ := List.mem_map.mp inside
      have here : assignment.extent = visit.extent := by simpa using same
      dsimp only
      rw [here, Candidate.visit?, JoinTree.visit?_of_mem distinct (sameVisits ▸ member),
        Option.bind_some]
    rw [orderIndexAfter_of_agree agree, extents, deliver_extent, deliver]
    split <;> rfl
  rw [undone]

/-! ## The two steps -/

/-- Avoiding the sort at the top changes nothing but the remembered cost, or it takes the sort away
and has the visits deliver its order. -/
theorem replaceSort_cases (distinct : candidate.top.visitOrder.Nodup) (catalog : Catalog) :
    (∃ knownCost?, candidate.replaceSort catalog = ({ candidate with knownCost? }, .ok false)) ∨
    ∃ spec input required, candidate.top = .sort spec input ∧
      candidate.Deliverable catalog spec required ∧
      candidate.replaceSort catalog =
        ({ candidate with
            top := input.updateEach (deliver catalog spec required)
            knownCost? := none }, .ok true) := by
  rw [replaceSort]
  split
  · rename_i spec input sorted
    split
    · exact .inl ⟨_, rfl⟩
    · rename_i assignments found
      obtain ⟨deliverable, _⟩ := orderAssignments?_some distinct found
      have assigned := setOrderIndexes_assigned candidate.rememberCost distinct found
      dsimp only
      rw [assigned]
      have changed : (candidate.rememberCost.delivering catalog spec
          (assignments.map (·.extent))).top = .sort spec
            (input.updateEach (deliver catalog spec (assignments.map (·.extent)))) := by
        rw [delivering, rememberCost, sorted, JoinTree.updateEach_sort]
      dsimp only
      rw [changed]
      dsimp only
      split
      · exact .inr ⟨spec, input, _, sorted, deliverable, rfl⟩
      · rw [restoreOrderIndexes_delivered distinct found rfl (by rw [changed, sorted,
          JoinTree.updateEach_sort])]
        exact .inl ⟨none, rfl⟩
  · exact .inl ⟨_, rfl⟩

private theorem setPresorted_updateEach (tree : JoinTree) (presorted : Bool)
    (change : Visit → Visit) :
    (tree.updateEach change).setPresorted presorted =
      (tree.setPresorted presorted).updateEach change := by
  cases tree with
  | visit leaf => rfl
  | join kind left right post => simp [JoinTree.setPresorted]
  | aggregate grouping before input => rfl
  | sort spec input => cases input <;> simp [JoinTree.setPresorted]

private theorem setPresorted_setPresorted (tree : JoinTree) (first second : Bool) :
    (tree.setPresorted first).setPresorted second = tree.setPresorted second := by
  cases tree with
  | sort spec input => cases input <;> rfl
  | visit | join | aggregate => rfl

theorem visits_setPresorted (tree : JoinTree) (presorted : Bool) :
    (tree.setPresorted presorted).visits = tree.visits := by
  cases tree with
  | sort spec input => cases input <;> rfl
  | visit | join | aggregate => rfl

theorem posts_setPresorted (tree : JoinTree) (presorted : Bool) :
    (tree.setPresorted presorted).posts = tree.posts := by
  cases tree with
  | sort spec input => cases input <;> rfl
  | visit | join | aggregate => rfl

/-- Presorting does nothing where the grouping cannot be delivered. Where it can, a refusal takes
back the flag, and a success sets it and has the visits deliver the grouping. -/
theorem presortInput_outcomes (distinct : candidate.top.visitOrder.Nodup) (catalog : Catalog) :
    (∀ grouping, candidate.top.topGrouping? = some grouping →
        candidate.orderAssignments? catalog grouping.groupBy = none) ∧
      candidate.presortInput catalog = (candidate, .ok false) ∨
    ∃ grouping required knownCost?, candidate.top.topGrouping? = some grouping ∧
      candidate.Deliverable catalog grouping.groupBy required ∧
      (candidate.presortInput catalog =
          ({ candidate with top := candidate.top.setPresorted false, knownCost? }, .ok false) ∨
        candidate.presortInput catalog =
          ({ candidate with
              top := (candidate.top.setPresorted true).updateEach
                (deliver catalog grouping.groupBy required)
              knownCost? }, .ok true)) := by
  rw [presortInput]
  split
  · rename_i ungrouped
    refine .inl ⟨fun grouping grouped => ?_, rfl⟩
    rw [ungrouped] at grouped
    cases grouped
  · rename_i own grouped
    split
    · rename_i missing
      refine .inl ⟨fun grouping same => ?_, rfl⟩
      cases grouped.symm.trans same
      exact missing
    · rename_i assignments found
      obtain ⟨deliverable, _⟩ := orderAssignments?_some distinct found
      dsimp only
      rw [setOrderIndexes_assigned candidate.rememberCost distinct found]
      dsimp only
      split
      · let presorted := ((candidate.rememberCost.delivering catalog own.groupBy
          (assignments.map (·.extent))).setPresorted true).rememberCost
        refine .inr ⟨own, _, presorted.knownCost?, grouped, deliverable, .inr ?_⟩
        rw [← setPresorted_updateEach]
        rfl
      · rw [restoreOrderIndexes_delivered distinct found
          (visits_setPresorted candidate.top false) ?_]
        · exact .inr ⟨own, _, none, grouped, deliverable, .inl rfl⟩
        · simp only [setPresorted, rememberCost, delivering, setPresorted_setPresorted,
            setPresorted_updateEach]

/-- Presorting the input of an aggregation changes nothing but the remembered cost, except that a
refusal takes back the flag, or it sets the flag and has the visits deliver the grouping. -/
theorem presortInput_cases (distinct : candidate.top.visitOrder.Nodup) (catalog : Catalog) :
    (∃ top knownCost?, (top = candidate.top ∨ top = candidate.top.setPresorted false) ∧
      candidate.presortInput catalog = ({ candidate with top, knownCost? }, .ok false)) ∨
    ∃ grouping required knownCost?, candidate.top.topGrouping? = some grouping ∧
      candidate.Deliverable catalog grouping.groupBy required ∧
      candidate.presortInput catalog =
        ({ candidate with
            top := (candidate.top.setPresorted true).updateEach
              (deliver catalog grouping.groupBy required)
            knownCost? }, .ok true) := by
  rcases presortInput_outcomes distinct catalog with
    ⟨_, refused⟩ | ⟨grouping, required, knownCost?, grouped, deliverable, refused | done⟩
  · exact .inl ⟨_, _, .inl rfl, refused⟩
  · exact .inl ⟨_, _, .inr rfl, refused⟩
  · exact .inr ⟨grouping, required, knownCost?, grouped, deliverable, done⟩

/-- Presorting is done if the grouping can be delivered and the candidate becomes cheaper by it. -/
theorem presortInput_of_cheaper {assignments : List OrderAssignment}
    (distinct : candidate.top.visitOrder.Nodup)
    (grouped : candidate.top.topGrouping? = some grouping)
    (found : candidate.orderAssignments? catalog grouping.groupBy = some assignments)
    (cheaper : ((candidate.delivering catalog grouping.groupBy
      (assignments.map (·.extent))).setPresorted true).currentCost < candidate.currentCost) :
    candidate.presortInput catalog =
      (((candidate.delivering catalog grouping.groupBy
        (assignments.map (·.extent))).setPresorted true).rememberCost, .ok true) := by
  rw [presortInput, grouped]
  dsimp only
  rw [found]
  dsimp only
  rw [setOrderIndexes_assigned candidate.rememberCost distinct found]
  exact if_pos cheaper

/-! ## What sorting costs -/

/-- Logarithms in the costs of sorts over two extents. Proofs cannot compute them, so whatever needs
one takes its value as given. -/
structure Logarithms : Prop where
  /-- Of the rows of two extent scans. -/
  scanned : (10000 : Float).log2 = 13.287712379549449
  /-- Of the cost of sorting these. -/
  sorted : (132877.1237954945 : Float).log2 = 17.01973322519407
  /-- Of the rows of an index scan and an extent scan. -/
  indexed : (200 : Float).log2 = 7.643856189774724

namespace Logarithms

private theorem sortCost_eq {rows logarithm : Float} (several : ¬rows < 2)
    (given : rows.log2 = logarithm) : JoinTree.sortCost rows = rows * logarithm := by
  rw [JoinTree.sortCost, if_neg several, given]

theorem sortCost_scanned (logarithms : Logarithms) :
    JoinTree.sortCost 10000 = 132877.1237954945 := by
  have product : (10000 : Float) * 13.287712379549449 = 132877.1237954945 := by decide
  rw [sortCost_eq (by decide) logarithms.scanned, product]

theorem sortCost_sorted (logarithms : Logarithms) :
    JoinTree.sortCost 132877.1237954945 = 2261533.198730403 := by
  have product : (132877.1237954945 : Float) * 17.01973322519407 = 2261533.198730403 := by decide
  rw [sortCost_eq (by decide) logarithms.sorted, product]

theorem sortCost_indexed (logarithms : Logarithms) :
    JoinTree.sortCost 200 = 1528.7712379549448 := by
  have product : (200 : Float) * 7.643856189774724 = 1528.7712379549448 := by decide
  rw [sortCost_eq (by decide) logarithms.indexed, product]

end Logarithms

/-- An order on one column of the extent that is visited first. -/
def byAge : SortSpec := ⟨[⟨.path 0 ["age"], .ascending⟩]⟩

end ExtentPlanner.Candidate
