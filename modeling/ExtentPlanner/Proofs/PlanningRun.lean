import ExtentPlanner.Proofs.CandidateSteps
import ExtentPlanner.Proofs.ExtentMembers

/-! One run of the planner. Every join tree is planned as a candidate by the same steps, the search
keeps one of the candidates, and what planning one of them keeps holds of the chosen one. -/
namespace ExtentPlanner

namespace Planner

variable {planner : Planner} {query : Query}

/-- What happens to a candidate that is ready until it is one of those compared. -/
inductive Finished (planner : Planner) (ready : Candidate) : Candidate → Prop where
  | unordered : Finished planner ready ready.rememberCost
  | ordered (presort : ready.presortInput planner.catalog = (presorted, .ok grouped))
    (replaced : presorted.replaceSort planner.catalog = (eliminated, .ok sorted)) :
    Finished planner ready eliminated.rememberCost

/-- A ready candidate is compared as it is or, if the settings want it, once it has tried to deliver
orders. -/
def Delivers (planner : Planner) (ready planned : Candidate) : Prop :=
  if planner.settings.orderedScans then
    ∃ presorted grouped eliminated sorted,
      ready.presortInput planner.catalog = (presorted, .ok grouped) ∧
      presorted.replaceSort planner.catalog = (eliminated, .ok sorted) ∧
      planned = eliminated.rememberCost
  else planned = ready.rememberCost

/-- The candidate is what planning makes of a join tree: hints and conditions are handed out, the
visits evaluated and, if the settings want it, orders delivered. -/
def Plans (planner : Planner) (query : Query) (tree : JoinTree) (candidate : Candidate) : Prop :=
  ∃ hinted distributed ready,
    Candidate.Prepares planner.catalog query.hints.indexHints query.conditions tree hinted
      distributed ready ∧ planner.Delivers ready candidate

theorem planCandidate_iff {tree : JoinTree} :
    planner.planCandidate query tree = .ok planned ↔ planner.Plans query tree planned := by
  rw [Plans]
  constructor
  · intro ran
    rw [planCandidate] at ran
    split at ran
    rename_i hinted _ hints
    obtain ⟨_, accepted, ran⟩ := bind_succeeds.mp ran
    split at ran
    rename_i distributed _ conditions
    obtain ⟨_, complete, ran⟩ := bind_succeeds.mp ran
    split at ran
    rename_i ready _ evaluation
    obtain ⟨_, known, ran⟩ := bind_succeeds.mp ran
    refine ⟨hinted, distributed, ready,
      ⟨accepted ▸ hints, complete ▸ conditions, known ▸ evaluation⟩, ?_⟩
    rw [Delivers]
    split at ran
    · rename_i wanted
      rw [if_pos wanted]
      split at ran
      rename_i presorted _ presort
      obtain ⟨_, grouped, ran⟩ := bind_succeeds.mp ran
      split at ran
      rename_i eliminated _ replaced
      obtain ⟨_, sorted, ran⟩ := bind_succeeds.mp ran
      cases ran
      exact ⟨presorted, _, eliminated, _, grouped ▸ presort, sorted ▸ replaced, rfl⟩
    · rename_i unwanted
      rw [if_neg unwanted]
      cases ran
      rfl
  · rintro ⟨hinted, distributed, ready, ⟨hints, conditions, evaluation⟩, delivers⟩
    rw [Delivers] at delivers
    rw [planCandidate, hints]
    refine bind_succeeds.mpr ⟨(), rfl, ?_⟩
    rw [conditions]
    refine bind_succeeds.mpr ⟨(), rfl, ?_⟩
    rw [evaluation]
    refine bind_succeeds.mpr ⟨(), rfl, ?_⟩
    split at delivers
    · rename_i wanted
      obtain ⟨presorted, grouped, eliminated, sorted, presort, replaced, rfl⟩ := delivers
      rw [if_pos wanted, presort]
      refine bind_succeeds.mpr ⟨grouped, rfl, ?_⟩
      rw [replaced]
      exact bind_succeeds.mpr ⟨sorted, rfl, rfl⟩
    · rename_i unwanted
      rw [delivers]
      exact if_neg unwanted

theorem Delivers.finished (delivers : planner.Delivers ready planned) :
    Finished planner ready planned := by
  rw [Delivers] at delivers
  split at delivers
  · obtain ⟨_, _, _, _, presort, replaced, rfl⟩ := delivers
    exact .ordered presort replaced
  · rw [delivers]
    exact .unordered

theorem planCandidate_ok {tree : JoinTree} (ordered : JoinTree.JoinOrder query.tree tree)
    (ran : planner.planCandidate query tree = .ok planned) :
    ∃ ready, Candidate.Ready planner.catalog query.conditions tree ready ∧
      Finished planner ready planned := by
  obtain ⟨_, _, ready, prepares, delivers⟩ := planCandidate_iff.mp ran
  exact ⟨ready, prepares.isReady ordered, delivers.finished⟩

/-- The search keeps one of the candidates that it compares. -/
theorem cheapestFrom_ok {trees : List JoinTree}
    (ran : planner.cheapestFrom query best? trees = .ok (some best)) :
    best? = some best ∨ ∃ tree ∈ trees, planner.planCandidate query tree = .ok best := by
  induction trees generalizing best? with
  | nil =>
    cases ran
    exact .inl rfl
  | cons tree rest ih =>
    obtain ⟨candidate, planned, ran⟩ := bind_succeeds.mp ran
    rcases ih ran with kept | ⟨later, member, planned⟩
    · have either : best = candidate ∨ best? = some best := by
        cases best? with
        | none =>
          cases kept
          exact .inl rfl
        | some before =>
          simp only [cheaper] at kept
          split at kept
          · exact .inl (Option.some.inj kept).symm
          · exact .inr kept
      rcases either with rfl | before
      · exact .inr ⟨tree, List.mem_cons_self, planned⟩
      · exact .inl before
    · exact .inr ⟨later, List.mem_cons_of_mem _ member, planned⟩

/-- A query is planned only if its extents fit an extent set. -/
theorem small_of_choose (ran : planner.choose query = .ok chosen) :
    ∀ extent ∈ query.tree.visitOrder, extent < maxExtents := by
  obtain ⟨extents, whole, _⟩ := bind_succeeds.mp ran
  exact (ExtentSet.ofList_members whole).1

/-- The chosen candidate is what the search found, with its last visit marked. -/
theorem choose_search (ran : planner.choose query = .ok chosen) :
    ∃ trees best marked, planner.joinTrees query = .ok trees ∧
      planner.cheapestFrom query none trees = .ok (some best) ∧
      best.markLastVisit = .ok marked ∧ chosen = marked.rememberCost := by
  rw [choose] at ran
  obtain ⟨_, _, ran⟩ := bind_succeeds.mp ran
  obtain ⟨_, _, ran⟩ := bind_succeeds.mp ran
  obtain ⟨trees, listed, ran⟩ := bind_succeeds.mp ran
  obtain ⟨best?, found, ran⟩ := bind_succeeds.mp ran
  cases best? with
  | none => cases ran
  | some best =>
    obtain ⟨marked, marks, ran⟩ := bind_succeeds.mp ran
    cases ran
    exact ⟨trees, best, marked, listed, found, marks, rfl⟩

/-- The chosen candidate is one of those planned, with its last visit marked. -/
theorem choose_steps (ran : planner.choose query = .ok chosen) :
    ∃ trees tree finished marked, planner.joinTrees query = .ok trees ∧ tree ∈ trees ∧
      planner.planCandidate query tree = .ok finished ∧ finished.markLastVisit = .ok marked ∧
      chosen = marked.rememberCost := by
  obtain ⟨trees, best, marked, listed, found, marks, rfl⟩ := choose_search ran
  obtain ⟨tree, member, planned⟩ := (cheapestFrom_ok found).resolve_left (by simp)
  exact ⟨trees, tree, best, marked, listed, member, planned, marks, rfl⟩

/-- The chosen candidate is a finished one of some join order, with its last visit marked. -/
theorem choose_ok (ran : planner.choose query = .ok chosen) :
    ∃ tree ready finished marked, JoinTree.JoinOrder query.tree tree ∧
      Candidate.Ready planner.catalog query.conditions tree ready ∧
      Finished planner ready finished ∧ finished.markLastVisit = .ok marked ∧
      chosen = marked.rememberCost := by
  obtain ⟨trees, tree, finished, marked, listed, member, planned, marks, rfl⟩ := choose_steps ran
  have ordered := joinOrder_of_mem_joinTrees listed member
  obtain ⟨ready, isReady, finishes⟩ := planCandidate_ok ordered planned
  exact ⟨tree, ready, finished, marked, ordered, isReady, finishes, marks, rfl⟩

/-- What holds of a tree and survives the delivery of an order, the flag of an aggregation and the
loss of a sort holds of the finished candidate if it holds of the ready one. -/
theorem Finished.preserves {holds : JoinTree → Prop} (distinct : ready.top.visitOrder.Nodup)
    (finished : Finished planner ready candidate)
    (delivered : ∀ tree spec required, holds tree →
      holds (tree.updateEach (Candidate.deliver planner.catalog spec required)))
    (flagged : ∀ tree presorted, holds tree → holds (tree.setPresorted presorted))
    (unsorted : ∀ spec input, holds (.sort spec input) → holds input) (start : holds ready.top) :
    holds candidate.top := by
  cases finished with
  | unordered => exact start
  | @ordered presorted _ _ _ presort replaced =>
    have presortedHolds : holds presorted.top := by
      rcases Candidate.presortInput_cases distinct planner.catalog with
        ⟨top, _, rfl | rfl, refused⟩ | ⟨grouping, required, _, _, _, done⟩
      · rw [refused] at presort
        cases presort
        exact start
      · rw [refused] at presort
        cases presort
        exact flagged _ false start
      · rw [done] at presort
        cases presort
        exact delivered _ _ _ (flagged _ true start)
    have distinctPresorted : presorted.top.visitOrder.Nodup :=
      (Candidate.presortInput_kept distinct presort).1.visitOrder ▸ distinct
    rcases Candidate.replaceSort_cases distinctPresorted planner.catalog with
      ⟨_, refused⟩ | ⟨spec, input, required, sorted, _, done⟩
    · rw [refused] at replaced
      cases replaced
      exact presortedHolds
    · rw [done] at replaced
      cases replaced
      rw [sorted] at presortedHolds
      exact delivered _ _ _ (unsorted _ _ presortedHolds)

theorem Finished.kept (distinct : ready.top.visitOrder.Nodup)
    (finished : Finished planner ready candidate) :
    Candidate.Kept planner.catalog ready.top candidate.top ∧ candidate.order = ready.order := by
  cases finished with
  | unordered => exact ⟨.of_visits rfl rfl, rfl⟩
  | ordered presort replaced =>
    obtain ⟨first, firstOrder⟩ := Candidate.presortInput_kept distinct presort
    obtain ⟨second, secondOrder⟩ :=
      Candidate.replaceSort_kept (first.visitOrder ▸ distinct) replaced
    exact ⟨first.trans second, secondOrder.trans firstOrder⟩

/-- Without repeated extents, the chosen candidate is a finished one with a last visit marked, and
finishing has kept what the visits were ready for. -/
theorem choose_marked (distinct : query.tree.visitOrder.Nodup)
    (ran : planner.choose query = .ok chosen) :
    ∃ tree ready finished last, JoinTree.JoinOrder query.tree tree ∧
      Candidate.Ready planner.catalog query.conditions tree ready ∧
      ready.top.visitOrder.Nodup ∧ Finished planner ready finished ∧
      Candidate.Kept planner.catalog ready.top chosen.top ∧ chosen.order = ready.order ∧
      chosen.top = finished.top.updateEach (Candidate.markLast last) := by
  obtain ⟨tree, ready, finished, marked, ordered, isReady, finishes, marks, rfl⟩ :=
    choose_ok ran
  have distinctReady : ready.top.visitOrder.Nodup :=
    isReady.visitOrder ▸ ordered.distinct distinct
  obtain ⟨kept, sameOrder⟩ := finishes.kept distinctReady
  obtain rfl := Candidate.markLastVisit_ok (kept.visitOrder ▸ distinctReady) marks
  exact ⟨tree, ready, finished, finished.order.getLast?, ordered, isReady, distinctReady, finishes,
    kept.trans (Candidate.kept_markLast planner.catalog finished.top _), sameOrder, rfl⟩

/-- The chosen candidate visits the extents of the query and holds its conditions. -/
theorem choose_holds (declared : planner.catalog.hierarchy.Distinct)
    (distinct : query.tree.visitOrder.Nodup) (ran : planner.choose query = .ok chosen) :
    chosen.top.Holds planner.catalog query.conditions ∧
      ∀ visit ∈ chosen.top.visits, ∃ own, query.tree.visit? visit.extent = some own ∧
        own.fresh = visit.fresh := by
  obtain ⟨tree, ready, _, _, ordered, isReady, _, _, kept, _⟩ := choose_marked distinct ran
  refine ⟨kept.holds (isReady.holds declared), fun visit member => ?_⟩
  have fresh : visit.fresh ∈ tree.visits := by
    rw [← isReady.outline, JoinTree.visits_outline, List.mem_map]
    exact kept.partner member
  obtain ⟨_, own, inside, same⟩ := ordered.fresh_visit fresh
  have extent : own.extent = visit.extent := congrArg (·.extent) same.symm
  exact ⟨own, extent ▸ JoinTree.visit?_of_mem distinct inside, same.symm⟩

end Planner

end ExtentPlanner
