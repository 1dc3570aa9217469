import ExtentPlanner.Proofs.PatternParameters

/-! What an announcement at the root of a plan adds to it. It names the patterns of the stored
conditions, and it stands above the node that pages the rows of the query.

A plan may fall short in two ways. If a query pages its rows and has a pattern, the paging is found
below the root. If only a condition on groups uses a pattern, the pattern is not announced. For each
of them it is shown when exactly this happens. -/
namespace ExtentPlanner

/-! ## Paging -/

namespace PlanNode

/-- The root of the plan pages its rows in the given way, and no other node pages any. -/
structure PagesOnTop (fetch : Fetch) (root : PlanNode) : Prop where
  top : root.fetch = fetch
  below : ∀ node ∈ root.descendants, node.fetch = .none

variable {root : PlanNode} {fetch : Fetch}

theorem pagesOnTop_iff : root.PagesOnTop fetch ↔ ∃ others,
    root.nodes.map PlanNode.fetch = fetch :: others ∧ ∀ other ∈ others, other = .none := by
  rw [nodes_eq, List.map_cons]
  constructor
  · rintro ⟨rfl, below⟩
    exact ⟨_, rfl, List.forall_mem_map.mpr below⟩
  · rintro ⟨others, same, below⟩
    obtain ⟨rfl, rfl⟩ := List.cons.inj same
    exact ⟨rfl, List.forall_mem_map.mp below⟩

theorem pagesOnTop_numbered : root.numbered.PagesOnTop fetch ↔ root.PagesOnTop fetch := by
  rw [pagesOnTop_iff, pagesOnTop_iff, numbered_fetches]

theorem PagesOnTop.pages_nothing (pages : root.PagesOnTop .none) :
    ∀ node ∈ root.nodes, node.fetch = .none := by
  rw [nodes_eq]
  exact List.forall_mem_cons.mpr ⟨pages.top, pages.below⟩

/-- Under an announcement, the paging stays where it was. -/
theorem PagesOnTop.announced_iff (pages : root.PagesOnTop fetch) :
    (replan number .none parameters text root).PagesOnTop fetch ↔ fetch = .none := by
  constructor
  · exact fun onTop => onTop.top.symm
  · rintro rfl
    refine ⟨rfl, fun node member => pages.pages_nothing node ?_⟩
    simpa [descendants, children] using member

end PlanNode

theorem JoinTree.plan_pagesOnTop {tree : JoinTree} {generator? : Option FilterGenerator}
    (ran : tree.plan generator? fetch = .ok root) : root.PagesOnTop fetch := by
  induction tree generalizing root fetch with
  | visit leaf =>
    obtain ⟨path, _, ran⟩ := bind_succeeds.mp ran
    cases ran
    exact ⟨rfl, by simp [PlanNode.descendants, PlanNode.children]⟩
  | join kind left right post lefts rights =>
    obtain ⟨leftRoot, onLeft, ran⟩ := bind_succeeds.mp ran
    obtain ⟨rightRoot, onRight, ran⟩ := bind_succeeds.mp ran
    cases ran
    refine ⟨rfl, fun node member => ?_⟩
    simp only [PlanNode.descendants, PlanNode.children, List.flatMap_cons, List.flatMap_nil,
      List.append_nil, List.mem_append] at member
    exact member.elim ((lefts onLeft).pages_nothing node) ((rights onRight).pages_nothing node)
  | sort spec input inputs | aggregate _ _ input inputs =>
    obtain ⟨below, onInput, ran⟩ := bind_succeeds.mp ran
    cases ran
    refine ⟨rfl, fun node member => (inputs onInput).pages_nothing node ?_⟩
    simpa [PlanNode.descendants, PlanNode.children] using member

/-! ## Announced patterns -/

namespace ConjunctTable

variable {table : ConjunctTable}

theorem mem_patternVariables_iff :
    index ∈ table.patternVariables ↔ PatternIn index table.conditions := by
  rw [patternVariables, List.mem_eraseDups, patternIn_iff]

theorem patternVariables_eq_nil_iff :
    table.patternVariables = [] ↔ ∀ index, ¬PatternIn index table.conditions := by
  simp only [List.eq_nil_iff_forall_not_mem, mem_patternVariables_iff]

theorem patternVariables_nodup (table : ConjunctTable) : table.patternVariables.Nodup := by
  rw [patternVariables]
  generalize table.conditions.flatMap Condition.patternParameters = used
  induction used using List.reverseRecOn with
  | nil => exact List.nodup_nil
  | append_singleton earlier last ih =>
    rw [List.eraseDups_append]
    by_cases again : last ∈ earlier
    · simpa [List.removeAll, again] using ih
    · have apart : ∀ item ∈ earlier, item ≠ last := fun _ member =>
        ne_of_mem_of_not_mem member again
      simpa [List.removeAll, again, List.eraseDups_cons, List.nodup_append, ih] using apart

end ConjunctTable

namespace PlanNode

/-- The parameters that a plan waits for, if its root announces any. -/
def awaited? : PlanNode → Option (List Nat)
  | replan _ _ parameters _ _ => some parameters
  | access .. | join .. | sort .. | aggregate .. => none

/-- The root of the plan is an announcement exactly if some condition in it uses a pattern, and then
it names these patterns, each once. -/
structure AnnouncesPatterns (root : PlanNode) : Prop where
  announced : root.awaited?.isSome = true ↔ ∃ index, PatternIn index root.carried
  named : ∀ parameters, root.awaited? = some parameters →
    parameters.Nodup ∧ ∀ index, index ∈ parameters ↔ PatternIn index root.carried

end PlanNode

theorem JoinTree.Mirrors.awaits_nothing (mirrors : JoinTree.Mirrors tree root) :
    root.awaited? = none := by
  cases mirrors <;> rfl

namespace Planner

variable {planner : Planner} {query : Query} {result : Plan}

/-- A plan is made of a body that pages the rows of the query, and perhaps an announcement. -/
private theorem plan_body (ran : planner.plan query = .ok result) :
    result.root.body.PagesOnTop query.fetch ∧ result.root.body.awaited? = none ∧
      if query.conditions.patternVariables = [] then result.root = result.root.body
      else ∃ id, result.root =
        .replan id .none query.conditions.patternVariables query.text result.root.body := by
  obtain ⟨chosen, _, ran⟩ := bind_succeeds.mp ran
  obtain ⟨root, planned, ran⟩ := bind_succeeds.mp ran
  cases ran
  have mirrors := JoinTree.plan_mirrors planned
  obtain ⟨body, announced⟩ := announceReplan_numbered query mirrors.body
  rw [body]
  exact ⟨PlanNode.pagesOnTop_numbered.mpr (JoinTree.plan_pagesOnTop planned),
    (mirrors.numberedFrom 0).awaits_nothing, announced⟩

/-- The root of a plan pages the rows of the query, and only the root, exactly if the query pages
none or has no pattern in its stored conditions. The node that would be the root without an
announcement always does; an announcement delivers all rows. -/
theorem plan_pages_on_top_iff (ran : planner.plan query = .ok result) :
    (result.root.PagesOnTop query.fetch ↔
      query.fetch = .none ∨ ∀ index, ¬PatternIn index query.conditions.conditions) ∧
    result.root.body.PagesOnTop query.fetch ∧
    (result.root ≠ result.root.body → result.root.fetch = .none) := by
  obtain ⟨pages, _, announced⟩ := plan_body ran
  rw [← ConjunctTable.patternVariables_eq_nil_iff]
  refine ⟨?_, pages, fun wrapped => ?_⟩ <;> split at announced
  · rename_i none
    rw [announced]
    exact iff_of_true pages (.inr none)
  · rename_i some
    obtain ⟨_, announced⟩ := announced
    rw [announced, pages.announced_iff, or_iff_left some]
  · exact absurd announced wrapped
  · obtain ⟨_, announced⟩ := announced
    rw [announced, PlanNode.fetch]

/-- The first ten rows. -/
def firstTen : Fetch := { Fetch.none with number? := some (.literal (.int 10)) }

/-- Without a pattern, the root of a plan pages its rows. -/
theorem plan_pages_on_top_staff :
    ∃ result, plan ⟨staffCatalog, .standard, none⟩ { staffQuery with fetch := firstTen } =
      .ok result ∧ result.root.PagesOnTop firstTen := by
  have planned : ∃ result,
      plan ⟨staffCatalog, .standard, none⟩ { staffQuery with fetch := firstTen } = .ok result :=
    ⟨_, rfl⟩
  obtain ⟨result, ran⟩ := planned
  have plain : ∀ index, ¬PatternIn index staffQuery.conditions.conditions :=
    ConjunctTable.patternVariables_eq_nil_iff.mp (by decide)
  exact ⟨result, ran, (plan_pages_on_top_iff ran).1.mpr (.inr plain)⟩

/-- The join below the announcement pages the persons of an unknown name and their employees. -/
theorem paging_below_announcement_of_namesLike :
    ∃ result, plan ⟨staffCatalog, .standard, none⟩ (namesLike firstTen) = .ok result ∧
      ¬result.root.PagesOnTop firstTen ∧ result.root.body.fetch = firstTen :=
  ⟨_, rfl, fun pages => absurd pages.top (by decide), rfl⟩

/-- A plan awaits the patterns of the stored conditions, if there are any. -/
theorem plan_awaits_iff (ran : planner.plan query = .ok result) :
    result.root.awaited? = some parameters ↔
      query.conditions.patternVariables = parameters ∧ parameters ≠ [] := by
  obtain ⟨_, silent, announced⟩ := plan_body ran
  split at announced
  · rename_i none
    rw [announced, silent, none]
    exact iff_of_false (Option.some_ne_none _ ∘ Eq.symm) fun both => both.2 both.1.symm
  · rename_i some
    obtain ⟨_, announced⟩ := announced
    rw [announced, PlanNode.awaited?, Option.some.injEq]
    exact ⟨fun same => ⟨same, same ▸ some⟩, And.left⟩

/-- The patterns in a plan are announced exactly if every pattern of a condition on groups is also
one of a stored condition. -/
theorem plan_announces_patterns_iff (ran : planner.plan query = .ok result) :
    result.root.AnnouncesPatterns ↔ ∀ index, PatternIn index query.tree.havings →
      PatternIn index query.conditions.conditions := by
  constructor
  · intro announces index grouped
    have carried : PatternIn index result.root.carried := (plan_patterns ran).mpr (.inr grouped)
    obtain ⟨parameters, awaits⟩ :=
      Option.isSome_iff_exists.mp (announces.announced.mpr ⟨index, carried⟩)
    obtain ⟨rfl, _⟩ := (plan_awaits_iff ran).mp awaits
    have listed := ((announces.named _ awaits).2 index).mpr carried
    exact ConjunctTable.mem_patternVariables_iff.mp listed
  · intro stored
    have carried : ∀ index, index ∈ query.conditions.patternVariables ↔
        PatternIn index result.root.carried := fun index => by
      rw [ConjunctTable.mem_patternVariables_iff, plan_patterns ran,
        or_iff_left_of_imp (stored index)]
    refine ⟨?_, fun parameters awaits => ?_⟩
    · simp only [Option.isSome_iff_exists, plan_awaits_iff ran, exists_eq_left', ← carried]
      exact ⟨List.exists_mem_of_ne_nil _, fun ⟨_, member⟩ => List.ne_nil_of_mem member⟩
    · obtain ⟨rfl, _⟩ := (plan_awaits_iff ran).mp awaits
      exact ⟨query.conditions.patternVariables_nodup, carried⟩

/-- The pattern of a stored condition is announced. -/
theorem plan_announces_patterns_namesLike :
    ∃ result, plan ⟨staffCatalog, .standard, none⟩ (namesLike .none) = .ok result ∧
      result.root.awaited? = some [0] ∧ result.root.AnnouncesPatterns := by
  have planned : ∃ result, plan ⟨staffCatalog, .standard, none⟩ (namesLike .none) = .ok result ∧
      result.root.awaited? = some [0] := ⟨_, rfl, rfl⟩
  obtain ⟨result, ran, awaits⟩ := planned
  exact ⟨result, ran, awaits, (plan_announces_patterns_iff ran).mpr fun _ grouped =>
    absurd grouped patternIn_nil⟩

/-- Persons per city, for cities that match a pattern that is not known yet. -/
def citiesLike : Query where
  tree := .aggregate ⟨1, ⟨[⟨.path 0 ["city"], .ascending⟩]⟩, [],
    .compare .like (.path 1 ["city"]) (.parameter 0)⟩ false (.visit (.unplanned 0 "Person"))
  conditions := .empty
  hints := .empty
  fetch := .none
  text := "SELECT p.city FROM Person p GROUP BY p.city HAVING p.city LIKE ?"

/-- The pattern of the condition on groups is carried by the plan, but not announced. -/
theorem pattern_unannounced_of_citiesLike :
    ∃ result, plan ⟨staffCatalog, .standard, none⟩ citiesLike = .ok result ∧
      PatternIn 0 result.root.carried ∧ result.root.awaited? = none ∧
      ¬result.root.AnnouncesPatterns := by
  have planned : ∃ result, plan ⟨staffCatalog, .standard, none⟩ citiesLike = .ok result ∧
      0 ∈ result.root.carried.flatMap Condition.patternParameters ∧
      result.root.awaited? = none := ⟨_, rfl, by decide, rfl⟩
  obtain ⟨result, ran, used, silent⟩ := planned
  have carried := patternIn_iff.mpr used
  refine ⟨result, ran, carried, silent, fun announces => ?_⟩
  have announced := announces.announced.mpr ⟨0, carried⟩
  rw [silent] at announced
  cases announced

end Planner

end ExtentPlanner
