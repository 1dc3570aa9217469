import ExtentPlanner.JoinTree
import Mathlib.Data.List.Forall2
import Mathlib.Data.List.Nodup

/-! Planning changes what is known about the visits of a join tree and leaves its shape alone. This
module says what the shape is: `Pointwise` relates two trees that differ in their visits only. The
steps that change visits one by one are shown to be maps over all of them. -/
namespace ExtentPlanner.JoinTree

/-- The conditions after each join, those below a join before its own. -/
def posts : JoinTree → List (List Condition)
  | visit _ => []
  | join _ left right post => left.posts ++ right.posts ++ [post]
  | sort _ input | aggregate _ _ input => input.posts

/-- The aggregations from the top down, each with its flag for presorted input. -/
def aggregations : JoinTree → List (Grouping × Bool)
  | visit _ => []
  | join _ left right _ => left.aggregations ++ right.aggregations
  | sort _ input => input.aggregations
  | aggregate grouping presorted input => (grouping, presorted) :: input.aggregations

/-- The tree without conditions and without what has been found out about its visits. -/
def outline : JoinTree → JoinTree
  | visit leaf => visit leaf.fresh
  | join kind left right _ => join kind left.outline right.outline []
  | sort spec input => sort spec input.outline
  | aggregate grouping presorted input => aggregate grouping presorted input.outline

/-- Two trees of the same shape whose visits, taken in pairs, are related. Conditions after joins
and flags of aggregations are the same in both. -/
inductive Pointwise (related : Visit → Visit → Prop) : JoinTree → JoinTree → Prop where
  | visit (paired : related first second) : Pointwise related (visit first) (visit second)
  | join (lefts : Pointwise related left left') (rights : Pointwise related right right') :
    Pointwise related (join kind left right post) (join kind left' right' post)
  | sort (inputs : Pointwise related input input') :
    Pointwise related (sort spec input) (sort spec input')
  | aggregate (inputs : Pointwise related input input') :
    Pointwise related (aggregate grouping presorted input) (aggregate grouping presorted input')

/-- Changes every visit in the same way, wherever it stands. -/
def updateEach (change : Visit → Visit) (tree : JoinTree) : JoinTree :=
  tree.mapVisits fun _ visit => change visit

/-! ## Visits in order -/

theorem visitOrder_eq_map (tree : JoinTree) :
    tree.visitOrder = tree.visits.map (·.extent) := by
  induction tree with
  | visit leaf => rfl
  | join kind left right post lefts rights =>
    simp only [visitOrder, visits, List.map_append, lefts, rights]
  | sort spec input inputs => exact inputs
  | aggregate grouping presorted input inputs => exact inputs

theorem visitOrder_length (tree : JoinTree) : tree.visitOrder.length = tree.visits.length := by
  rw [visitOrder_eq_map, List.length_map]

theorem visitOrder_ne_nil (tree : JoinTree) : tree.visitOrder ≠ [] := by
  induction tree with
  | visit leaf => simp [visitOrder]
  | join kind left right post lefts rights => simp [visitOrder, lefts]
  | sort spec input inputs => exact inputs
  | aggregate grouping presorted input inputs => exact inputs

@[simp] theorem outline_visitOrder (tree : JoinTree) :
    tree.outline.visitOrder = tree.visitOrder := by
  induction tree with
  | visit leaf => rfl
  | join kind left right post lefts rights => simp [outline, visitOrder, lefts, rights]
  | sort spec input inputs => exact inputs
  | aggregate grouping presorted input inputs => exact inputs

theorem visits_outline (tree : JoinTree) : tree.outline.visits = tree.visits.map Visit.fresh := by
  induction tree with
  | visit leaf => rfl
  | join kind left right post lefts rights => simp [outline, visits, lefts, rights]
  | sort spec input inputs => exact inputs
  | aggregate grouping presorted input inputs => exact inputs

/-- The order of visits is settled by what the visits were before planning. -/
theorem visitOrder_of_fresh {first second : JoinTree}
    (same : first.visits.map Visit.fresh = second.visits.map Visit.fresh) :
    first.visitOrder = second.visitOrder := by
  have extents := congrArg (List.map fun visit => visit.extent) same
  simpa only [List.map_map, Function.comp_def, Visit.fresh, Visit.unplanned,
    ← visitOrder_eq_map] using extents

/-- Two trees visit the same extents, of the same classes, in any order. -/
def SameVisits (first second : JoinTree) : Prop :=
  (first.visits.map Visit.fresh).Perm (second.visits.map Visit.fresh)

theorem SameVisits.of_outline {first second : JoinTree} (same : first.outline = second.outline) :
    SameVisits first second :=
  .of_eq (by rw [← visits_outline, ← visits_outline, same])

theorem SameVisits.partner (same : SameVisits first second) (member : leaf ∈ first.visits) :
    ∃ other ∈ second.visits, other.extent = leaf.extent ∧ other.typeName = leaf.typeName := by
  obtain ⟨other, inside, fresh⟩ := List.mem_map.mp (same.mem_iff.mp (List.mem_map_of_mem member))
  exact ⟨other, inside, congrArg (·.extent) fresh, congrArg (·.typeName) fresh⟩

@[simp] theorem outline_aggregations (tree : JoinTree) :
    tree.outline.aggregations = tree.aggregations := by
  induction tree with
  | visit leaf => rfl
  | join kind left right post lefts rights => simp [outline, aggregations, lefts, rights]
  | sort spec input inputs => exact inputs
  | aggregate grouping presorted input inputs => simpa [outline, aggregations] using inputs

theorem visits_mapVisitsFrom (tree : JoinTree) (change : Nat → Visit → Visit) (before : Nat) :
    (tree.mapVisitsFrom change before).visits =
      tree.visits.mapIdx fun place visit => change (before + place) visit := by
  induction tree generalizing before with
  | visit leaf => rfl
  | join kind left right post lefts rights =>
    simp only [mapVisitsFrom, visits, lefts, rights, List.mapIdx_append, visitOrder_length]
    congr 2
    funext place visit
    rw [Nat.add_assoc, Nat.add_comm left.visits.length]
  | sort spec input inputs => exact inputs before
  | aggregate grouping presorted input inputs => exact inputs before

theorem visits_mapVisits (tree : JoinTree) (change : Nat → Visit → Visit) :
    (tree.mapVisits change).visits = tree.visits.mapIdx change := by
  rw [mapVisits, visits_mapVisitsFrom]
  simp only [Nat.zero_add]

/-- Two changes that agree on each visit at its position come to the same. -/
theorem mapVisits_congr {tree : JoinTree} {first second : Nat → Visit → Visit}
    (agree : ∀ place leaf, tree.visits[place]? = some leaf → first place leaf = second place leaf) :
    tree.mapVisits first = tree.mapVisits second := by
  have from_any : ∀ before, (∀ place leaf, tree.visits[place]? = some leaf →
      first (before + place) leaf = second (before + place) leaf) →
      tree.mapVisitsFrom first before = tree.mapVisitsFrom second before := by
    clear agree
    induction tree with
    | visit leaf => exact fun before agree => congrArg visit (agree 0 leaf rfl)
    | join kind left right post lefts rights =>
      intro before agree
      have onLeft := lefts before fun place leaf there => agree place leaf (by
        rw [visits, List.getElem?_append_left (List.getElem?_eq_some_iff.mp there).1]
        exact there)
      have onRight := rights (before + left.visitOrder.length) fun place leaf there => by
        rw [visitOrder_length, Nat.add_assoc]
        refine agree _ leaf ?_
        rw [visits, List.getElem?_append_right (Nat.le_add_right ..), Nat.add_sub_cancel_left]
        exact there
      rw [mapVisitsFrom, mapVisitsFrom, onLeft, onRight]
    | sort spec input inputs =>
      exact fun before agree => congrArg (sort spec) (inputs before agree)
    | aggregate grouping presorted input inputs =>
      exact fun before agree => congrArg (aggregate grouping presorted) (inputs before agree)
  exact from_any 0 (by simpa only [Nat.zero_add] using agree)

@[simp] theorem visits_updateEach (tree : JoinTree) (change : Visit → Visit) :
    (tree.updateEach change).visits = tree.visits.map change := by
  rw [updateEach, visits_mapVisits]
  exact List.ext_getElem? fun place => by simp

/-! ## Changing every visit -/

private theorem mapVisitsFrom_const (tree : JoinTree) (change : Visit → Visit) (before : Nat) :
    tree.mapVisitsFrom (fun _ visit => change visit) before = tree.updateEach change := by
  induction tree generalizing before with
  | visit leaf => rfl
  | join kind left right post lefts rights =>
    rw [updateEach, mapVisits, mapVisitsFrom, mapVisitsFrom, lefts, rights, lefts, rights]
  | sort spec input inputs => exact congrArg (sort spec) (inputs before)
  | aggregate grouping presorted input inputs =>
    exact congrArg (aggregate grouping presorted) (inputs before)

@[simp] theorem updateEach_visit (leaf : Visit) (change : Visit → Visit) :
    (visit leaf).updateEach change = visit (change leaf) := rfl

@[simp] theorem updateEach_join (kind : JoinKind) (left right : JoinTree) (post : List Condition)
    (change : Visit → Visit) : (join kind left right post).updateEach change =
      join kind (left.updateEach change) (right.updateEach change) post := by
  rw [updateEach, mapVisits, mapVisitsFrom, mapVisitsFrom_const, mapVisitsFrom_const]

@[simp] theorem updateEach_sort (spec : SortSpec) (input : JoinTree) (change : Visit → Visit) :
    (sort spec input).updateEach change = sort spec (input.updateEach change) := rfl

@[simp] theorem updateEach_aggregate (grouping : Grouping) (presorted : Bool) (input : JoinTree)
    (change : Visit → Visit) : (aggregate grouping presorted input).updateEach change =
      aggregate grouping presorted (input.updateEach change) := rfl

/-- A tree of visits and joins. -/
def JoinsOnly : JoinTree → Prop
  | visit _ => True
  | join _ left right _ => left.JoinsOnly ∧ right.JoinsOnly
  | sort .. | aggregate .. => False

theorem JoinsOnly.updateEach {tree : JoinTree} (joins : tree.JoinsOnly)
    (change : Visit → Visit) : (tree.updateEach change).JoinsOnly := by
  induction tree with
  | visit leaf => trivial
  | join kind left right post lefts rights =>
    rw [updateEach_join]
    exact ⟨lefts joins.1, rights joins.2⟩
  | sort spec input inputs => exact joins.elim
  | aggregate grouping presorted input inputs => exact joins.elim

theorem updateEach_congr {tree : JoinTree} {first second : Visit → Visit}
    (agree : ∀ leaf ∈ tree.visits, first leaf = second leaf) :
    tree.updateEach first = tree.updateEach second := by
  induction tree with
  | visit leaf => simp [agree leaf (by simp [visits])]
  | join kind left right post lefts rights =>
    have onLeft := lefts fun leaf member => agree leaf (List.mem_append_left _ member)
    have onRight := rights fun leaf member => agree leaf (List.mem_append_right _ member)
    simp [onLeft, onRight]
  | sort spec input inputs => simp [inputs agree]
  | aggregate grouping presorted input inputs => simp [inputs agree]

theorem updateEach_self {tree : JoinTree} {change : Visit → Visit}
    (kept : ∀ leaf ∈ tree.visits, change leaf = leaf) : tree.updateEach change = tree := by
  induction tree with
  | visit leaf => simp [kept leaf (by simp [visits])]
  | join kind left right post lefts rights =>
    have onLeft := lefts fun leaf member => kept leaf (List.mem_append_left _ member)
    have onRight := rights fun leaf member => kept leaf (List.mem_append_right _ member)
    simp [onLeft, onRight]
  | sort spec input inputs => simp [inputs kept]
  | aggregate grouping presorted input inputs => simp [inputs kept]

theorem updateEach_updateEach (tree : JoinTree) (first second : Visit → Visit) :
    (tree.updateEach first).updateEach second =
      tree.updateEach fun leaf => second (first leaf) := by
  induction tree with
  | visit leaf => rfl
  | join kind left right post lefts rights => simp [lefts, rights]
  | sort spec input inputs => simp [inputs]
  | aggregate grouping presorted input inputs => simp [inputs]

/-! ## Trees of one shape -/

theorem Pointwise.refl {related : Visit → Visit → Prop} (each : ∀ leaf, related leaf leaf)
    (tree : JoinTree) : Pointwise related tree tree := by
  induction tree with
  | visit leaf => exact .visit (each leaf)
  | join kind left right post lefts rights => exact .join lefts rights
  | sort spec input inputs => exact .sort inputs
  | aggregate grouping presorted input inputs => exact .aggregate inputs

/-- Lists that are related item by item, one after the other. -/
theorem forall₂_trans {α β γ : Type} {before : List α} {middle : List β} {after : List γ}
    {first : α → β → Prop} {second : β → γ → Prop} {third : α → γ → Prop}
    (left : List.Forall₂ first before middle) (right : List.Forall₂ second middle after)
    (each : ∀ a b c, first a b → second b c → third a c) : List.Forall₂ third before after := by
  induction left generalizing after with
  | nil =>
    cases right
    exact .nil
  | cons head _ ih =>
    cases right with | cons next others => exact .cons (each _ _ _ head next) (ih others)

/-- What is the same of every two items is the same of the lists. -/
theorem map_eq_of_forall₂ {α β γ : Type} {before : List α} {after : List β} {own : α → γ}
    {other : β → γ}
    (paired : List.Forall₂ (fun item result => other result = own item) before after) :
    after.map other = before.map own := by
  induction paired with
  | nil => rfl
  | cons head _ ih => rw [List.map_cons, List.map_cons, head, ih]

theorem forall₂_partner {α β : Type} {before : List α} {after : List β} {result : β}
    {related : α → β → Prop}
    (paired : List.Forall₂ related before after) (member : result ∈ after) :
    ∃ item ∈ before, related item result := by
  induction paired with
  | nil => cases member
  | cons head _ ih =>
    rcases List.mem_cons.mp member with rfl | later
    · exact ⟨_, List.mem_cons_self, head⟩
    · obtain ⟨item, inside, same⟩ := ih later
      exact ⟨item, List.mem_cons_of_mem _ inside, same⟩

theorem forall₂_partner_at {α β : Type} {before : List α} {after : List β} {place : Nat}
    {result : β} {related : α → β → Prop} (paired : List.Forall₂ related before after)
    (there : after[place]? = some result) :
    ∃ item, before[place]? = some item ∧ related item result := by
  induction paired generalizing place with
  | nil => cases there
  | cons head _ ih =>
    cases place with
    | zero =>
      cases there
      exact ⟨_, rfl, head⟩
    | succ place => exact ih there

theorem Pointwise.visits {related : Visit → Visit → Prop}
    (paired : Pointwise related before after) :
    List.Forall₂ related before.visits after.visits := by
  induction paired with
  | visit paired => exact .cons paired .nil
  | join _ _ lefts rights => exact List.rel_append lefts rights
  | sort _ inputs => exact inputs
  | aggregate _ inputs => exact inputs

theorem Pointwise.posts {related : Visit → Visit → Prop} (paired : Pointwise related before after) :
    after.posts = before.posts := by
  induction paired with
  | visit paired => rfl
  | join _ _ lefts rights => simp [JoinTree.posts, lefts, rights]
  | sort _ inputs => exact inputs
  | aggregate _ inputs => exact inputs

theorem Pointwise.aggregations {related : Visit → Visit → Prop}
    (paired : Pointwise related before after) : after.aggregations = before.aggregations := by
  induction paired with
  | visit paired => rfl
  | join _ _ lefts rights => simp [JoinTree.aggregations, lefts, rights]
  | sort _ inputs => exact inputs
  | aggregate _ inputs => simpa [JoinTree.aggregations] using inputs

theorem Pointwise.visitOrder {related : Visit → Visit → Prop}
    (extents : ∀ a b, related a b → b.extent = a.extent) (paired : Pointwise related before after) :
    after.visitOrder = before.visitOrder := by
  rw [visitOrder_eq_map, visitOrder_eq_map]
  exact map_eq_of_forall₂ (paired.visits.imp extents)

theorem Pointwise.outline {related : Visit → Visit → Prop}
    (same : ∀ a b, related a b → b.fresh = a.fresh) (paired : Pointwise related before after) :
    after.outline = before.outline := by
  induction paired with
  | visit paired => simp [JoinTree.outline, same _ _ paired]
  | join _ _ lefts rights => simp [JoinTree.outline, lefts, rights]
  | sort _ inputs => simp [JoinTree.outline, inputs]
  | aggregate _ inputs => simp [JoinTree.outline, inputs]

/-- A change that is related to each visit of a tree is related to the tree. -/
theorem updateEach_related {related : Visit → Visit → Prop} {tree : JoinTree}
    {change : Visit → Visit} (each : ∀ leaf ∈ tree.visits, related leaf (change leaf)) :
    Pointwise related tree (tree.updateEach change) := by
  induction tree with
  | visit leaf => exact .visit (each leaf (List.mem_singleton_self leaf))
  | join kind left right post lefts rights =>
    rw [updateEach_join]
    exact .join (lefts fun leaf member => each leaf (List.mem_append_left _ member))
      (rights fun leaf member => each leaf (List.mem_append_right _ member))
  | sort spec input inputs => exact .sort (inputs each)
  | aggregate grouping presorted input inputs => exact .aggregate (inputs each)

theorem updateEach_pointwise (tree : JoinTree) (change : Visit → Visit) :
    Pointwise (fun before after => after = change before) tree (tree.updateEach change) :=
  updateEach_related fun _ _ => rfl

theorem mapVisits_pointwise (tree : JoinTree) (change : Nat → Visit → Visit) :
    Pointwise (fun before after => ∃ place, after = change place before) tree
      (tree.mapVisits change) := by
  have from_any : ∀ before, Pointwise (fun before after => ∃ place, after = change place before)
      tree (tree.mapVisitsFrom change before) := by
    induction tree with
    | visit leaf => exact fun before => .visit ⟨before, rfl⟩
    | join kind left right post lefts rights => exact fun before => .join (lefts _) (rights _)
    | sort spec input inputs => exact fun before => .sort (inputs before)
    | aggregate grouping presorted input inputs => exact fun before => .aggregate (inputs before)
  exact from_any 0

/-! ## Changing one visit -/

theorem modifyVisit?_of_not_mem {tree : JoinTree} (absent : extent ∉ tree.visitOrder)
    (change : Visit → Visit) : tree.modifyVisit? extent change = none := by
  induction tree with
  | visit leaf =>
    have other : leaf.extent ≠ extent := fun same => absent (by simp [visitOrder, same])
    simp [modifyVisit?, other]
  | join kind left right post lefts rights =>
    simp only [visitOrder, List.mem_append, not_or] at absent
    simp [modifyVisit?, lefts absent.1, rights absent.2]
  | sort spec input inputs => simp [modifyVisit?, inputs absent]
  | aggregate grouping presorted input inputs => simp [modifyVisit?, inputs absent]

private theorem change_elsewhere {tree : JoinTree} (absent : extent ∉ tree.visitOrder)
    (change : Visit → Visit) :
    tree.updateEach (fun leaf => if leaf.extent = extent then change leaf else leaf) = tree := by
  refine updateEach_self fun leaf member => ?_
  have other : leaf.extent ≠ extent := by
    rintro rfl
    exact absent (by rw [visitOrder_eq_map]; exact List.mem_map_of_mem member)
  simp [other]

/-- Where extents are visited once, the change of one visit is a change of all that leaves those of
other extents as they are. -/
theorem modifyVisit?_of_mem {tree : JoinTree} (distinct : tree.visitOrder.Nodup)
    (member : extent ∈ tree.visitOrder) (change : Visit → Visit) :
    tree.modifyVisit? extent change =
      some (tree.updateEach fun leaf => if leaf.extent = extent then change leaf else leaf) := by
  induction tree with
  | visit leaf =>
    have same : leaf.extent = extent := by simpa [visitOrder, eq_comm] using member
    simp [modifyVisit?, same]
  | join kind left right post lefts rights =>
    simp only [visitOrder, List.nodup_append, List.mem_append] at distinct member
    obtain ⟨distinctLeft, distinctRight, apart⟩ := distinct
    by_cases onLeft : extent ∈ left.visitOrder
    · have notRight : extent ∉ right.visitOrder := fun onRight => apart _ onLeft _ onRight rfl
      simp [modifyVisit?, lefts distinctLeft onLeft, change_elsewhere notRight]
    · have onRight := member.resolve_left onLeft
      simp [modifyVisit?, modifyVisit?_of_not_mem onLeft, rights distinctRight onRight,
        change_elsewhere onLeft]
  | sort spec input inputs => simp [modifyVisit?, inputs distinct member]
  | aggregate grouping presorted input inputs => simp [modifyVisit?, inputs distinct member]

theorem visit?_eq_find? (tree : JoinTree) (extent : Nat) :
    tree.visit? extent = tree.visits.find? fun leaf => decide (leaf.extent = extent) := by
  induction tree with
  | visit leaf => by_cases same : leaf.extent = extent <;> simp [visit?, visits, same]
  | join kind left right post lefts rights => simp [visit?, visits, lefts, rights]
  | sort spec input inputs => exact inputs
  | aggregate grouping presorted input inputs => exact inputs

theorem mem_of_visit? {tree : JoinTree} (found : tree.visit? extent = some leaf) :
    leaf ∈ tree.visits ∧ leaf.extent = extent := by
  rw [visit?_eq_find?] at found
  exact ⟨List.mem_of_find?_eq_some found, by simpa using List.find?_some found⟩

theorem visit?_of_mem {tree : JoinTree} (distinct : tree.visitOrder.Nodup)
    (member : leaf ∈ tree.visits) : tree.visit? leaf.extent = some leaf := by
  rw [visit?_eq_find?]
  rw [visitOrder_eq_map] at distinct
  generalize tree.visits = leaves at distinct member
  induction leaves with
  | nil => cases member
  | cons head rest ih =>
    obtain ⟨fresh, distinct⟩ := List.nodup_cons.mp distinct
    rcases List.mem_cons.mp member with rfl | later
    · simp
    · have other : head.extent ≠ leaf.extent := fun same =>
        fresh (List.mem_map.mpr ⟨leaf, later, same.symm⟩)
      simpa [other] using ih distinct later

/-- Where extents are visited once, a search finds the visit of its extent and no other. -/
theorem visit?_eq_some_iff {tree : JoinTree} (distinct : tree.visitOrder.Nodup) :
    tree.visit? extent = some leaf ↔ leaf ∈ tree.visits ∧ leaf.extent = extent := by
  refine ⟨mem_of_visit?, ?_⟩
  rintro ⟨member, rfl⟩
  exact visit?_of_mem distinct member

/-! ## Evaluation -/

theorem evaluateVisits_pointwise {tree : JoinTree} {catalog : Catalog}
    (evaluated : tree.evaluateVisits catalog = (result, .ok ())) :
    Pointwise (fun before after => before.evaluate catalog = .ok after) tree result := by
  induction tree generalizing result with
  | visit leaf =>
    simp only [evaluateVisits] at evaluated
    split at evaluated
    · rename_i outcome
      cases evaluated
      exact .visit outcome
    · cases evaluated
  | join kind left right post lefts rights =>
    simp only [evaluateVisits] at evaluated
    split at evaluated
    · rename_i onLeft
      obtain ⟨rfl, onRight⟩ := Prod.mk.inj evaluated
      exact .join (lefts onLeft) (rights (Prod.ext rfl onRight))
    · cases evaluated
  | sort spec input inputs =>
    obtain ⟨rfl, outcome⟩ := Prod.mk.inj evaluated
    exact .sort (inputs (Prod.ext rfl outcome))
  | aggregate grouping presorted input inputs =>
    obtain ⟨rfl, outcome⟩ := Prod.mk.inj evaluated
    exact .aggregate (inputs (Prod.ext rfl outcome))

end ExtentPlanner.JoinTree
