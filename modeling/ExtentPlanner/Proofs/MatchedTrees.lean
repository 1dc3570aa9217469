import ExtentPlanner.Proofs.ConditionPlacement

/-! Join trees that have the same joins, sorts and aggregations and, place by place, related visits.
The conditions after joins may differ. Nothing that a tree is asked for apart from its conditions
tells such trees apart: they visit the same extents, cost the same if their visits do, and a change
of a visit or of a flag takes both to trees that match again. -/
namespace ExtentPlanner.JoinTree

/-- Two trees of the same shape whose visits, taken in pairs, are related. Flags of aggregations are
the same in both, conditions after joins need not be. -/
inductive Matched (related : Visit → Visit → Prop) : JoinTree → JoinTree → Prop where
  | visit (paired : related first second) : Matched related (visit first) (visit second)
  | join (lefts : Matched related left left') (rights : Matched related right right') :
    Matched related (join kind left right post) (join kind left' right' post')
  | sort (inputs : Matched related input input') :
    Matched related (sort spec input) (sort spec input')
  | aggregate (inputs : Matched related input input') :
    Matched related (aggregate grouping presorted input) (aggregate grouping presorted input')

variable {related : Visit → Visit → Prop} {first second : JoinTree}

theorem Pointwise.matched (paired : Pointwise related first second) :
    Matched related first second := by
  induction paired with
  | visit paired => exact .visit paired
  | join _ _ lefts rights => exact .join lefts rights
  | sort _ inputs => exact .sort inputs
  | aggregate _ inputs => exact .aggregate inputs

namespace Matched

theorem refl (each : ∀ leaf, related leaf leaf) (tree : JoinTree) : Matched related tree tree :=
  (Pointwise.refl each tree).matched

theorem trans {next whole : Visit → Visit → Prop} (left : Matched related before middle)
    (right : Matched next middle after) (each : ∀ a b c, related a b → next b c → whole a c) :
    Matched whole before after := by
  induction left generalizing after with
  | visit paired => cases right with | visit other => exact .visit (each _ _ _ paired other)
  | join _ _ lefts rights =>
    cases right with | join nextLeft nextRight => exact .join (lefts nextLeft) (rights nextRight)
  | sort _ inputs => cases right with | sort next => exact .sort (inputs next)
  | aggregate _ inputs => cases right with | aggregate next => exact .aggregate (inputs next)

theorem symm (matched : Matched related first second) :
    Matched (fun a b => related b a) second first := by
  induction matched with
  | visit paired => exact .visit paired
  | join _ _ lefts rights => exact .join lefts rights
  | sort _ inputs => exact .sort inputs
  | aggregate _ inputs => exact .aggregate inputs

/-- Trees with the same visits and the same shape match. -/
theorem of_outline (outline : first.outline = second.outline)
    (same : first.visits = second.visits) : Matched Eq first second := by
  induction first generalizing second with
  | visit leaf =>
    cases second with
    | visit other => exact .visit (List.singleton_inj.mp same)
    | join | sort | aggregate => cases outline
  | join kind left right post lefts rights =>
    cases second with
    | join otherKind otherLeft otherRight otherPost =>
      obtain ⟨rfl, onLeft, onRight, _⟩ := join.inj outline
      have length : left.visits.length = otherLeft.visits.length := by
        have names := congrArg (fun tree => tree.visits.length) onLeft
        simpa [visits_outline] using names
      obtain ⟨sameLeft, sameRight⟩ := List.append_inj same length
      exact .join (lefts onLeft sameLeft) (rights onRight sameRight)
    | visit | sort | aggregate => cases outline
  | sort spec input inputs =>
    cases second with
    | sort otherSpec otherInput =>
      obtain ⟨rfl, below⟩ := sort.inj outline
      exact .sort (inputs below same)
    | visit | join | aggregate => cases outline
  | aggregate grouping presorted input inputs =>
    cases second with
    | aggregate otherGrouping otherFlag otherInput =>
      obtain ⟨rfl, rfl, below⟩ := aggregate.inj outline
      exact .aggregate (inputs below same)
    | visit | join | sort => cases outline

/-! ## What matching trees have in common -/

theorem visits (matched : Matched related first second) :
    List.Forall₂ related first.visits second.visits := by
  induction matched with
  | visit paired => exact .cons paired .nil
  | join _ _ lefts rights => exact List.rel_append lefts rights
  | sort _ inputs => exact inputs
  | aggregate _ inputs => exact inputs

theorem visitOrder (extents : ∀ a b, related a b → b.extent = a.extent)
    (matched : Matched related first second) : second.visitOrder = first.visitOrder := by
  rw [visitOrder_eq_map, visitOrder_eq_map]
  exact map_eq_of_forall₂ (matched.visits.imp extents)

theorem cost (costs : ∀ a b, related a b → b.cost = a.cost)
    (matched : Matched related first second) : second.cost = first.cost := by
  induction matched with
  | visit paired => exact costs _ _ paired
  | join _ _ lefts rights => rw [JoinTree.cost, JoinTree.cost, lefts, rights]
  | sort _ inputs => rw [JoinTree.cost, JoinTree.cost, inputs]
  | aggregate _ inputs => rw [JoinTree.cost, JoinTree.cost, inputs]

theorem extentSet (extents : ∀ a b, related a b → b.extent = a.extent)
    (matched : Matched related first second) : second.extentSet = first.extentSet := by
  rw [JoinTree.extentSet, JoinTree.extentSet, matched.visitOrder extents]

theorem nullSupplied (extents : ∀ a b, related a b → b.extent = a.extent)
    (matched : Matched related first second) : second.nullSupplied = first.nullSupplied := by
  induction matched with
  | visit paired => rfl
  | join _ right lefts rights =>
    rw [JoinTree.nullSupplied, JoinTree.nullSupplied, lefts, rights, right.extentSet extents]
  | sort _ inputs => exact inputs
  | aggregate _ inputs => exact inputs

theorem topGrouping? (matched : Matched related first second) :
    second.topGrouping? = first.topGrouping? := by
  cases matched with
  | visit | join | aggregate => rfl
  | sort inputs => cases inputs <;> rfl

theorem visit? (extents : ∀ a b, related a b → b.extent = a.extent)
    (matched : Matched related first second) (extent : Nat) :
    Option.Rel related (first.visit? extent) (second.visit? extent) := by
  induction matched with
  | visit paired =>
    rw [JoinTree.visit?, JoinTree.visit?, extents _ _ paired]
    split
    · exact .some paired
    · exact .none
  | @join left left' right right' kind post post' _ _ lefts rights =>
    rw [JoinTree.visit?, JoinTree.visit?]
    generalize left.visit? extent = here at lefts
    generalize left'.visit? extent = there at lefts
    cases lefts with
    | some paired => exact .some paired
    | none => exact rights
  | sort _ inputs => exact inputs
  | aggregate _ inputs => exact inputs

/-! ## Changes of matching trees -/

/-- The first visits of an extent stand at the same place, so the same change of both keeps the
trees matching. -/
theorem modifyVisit? {change : Visit → Visit} (extents : ∀ a b, related a b → b.extent = a.extent)
    (keeps : ∀ a b, related a b → related (change a) (change b))
    (matched : Matched related first second) (extent : Nat) :
    Option.Rel (Matched related) (first.modifyVisit? extent change)
      (second.modifyVisit? extent change) := by
  induction matched with
  | visit paired =>
    rw [JoinTree.modifyVisit?, JoinTree.modifyVisit?, extents _ _ paired]
    split
    · exact .some (.visit (keeps _ _ paired))
    · exact .none
  | @join left left' right right' kind post post' onLeft onRight lefts rights =>
    rw [JoinTree.modifyVisit?, JoinTree.modifyVisit?]
    generalize left.modifyVisit? extent change = here at lefts
    generalize left'.modifyVisit? extent change = there at lefts
    cases lefts with
    | some changed => exact .some (.join changed onRight)
    | none =>
      generalize right.modifyVisit? extent change = here at rights
      generalize right'.modifyVisit? extent change = there at rights
      cases rights with
      | some changed => exact .some (.join onLeft changed)
      | none => exact .none
  | @sort input input' spec _ inputs =>
    rw [JoinTree.modifyVisit?, JoinTree.modifyVisit?]
    generalize input.modifyVisit? extent change = here at inputs
    generalize input'.modifyVisit? extent change = there at inputs
    cases inputs with
    | some changed => exact .some (.sort changed)
    | none => exact .none
  | @aggregate input input' grouping presorted _ inputs =>
    rw [JoinTree.modifyVisit?, JoinTree.modifyVisit?]
    generalize input.modifyVisit? extent change = here at inputs
    generalize input'.modifyVisit? extent change = there at inputs
    cases inputs with
    | some changed => exact .some (.aggregate changed)
    | none => exact .none

theorem setPresorted (matched : Matched related first second) (presorted : Bool) :
    Matched related (first.setPresorted presorted) (second.setPresorted presorted) := by
  cases matched with
  | visit paired => exact .visit paired
  | join lefts rights => exact .join lefts rights
  | sort inputs =>
    cases inputs with
    | visit paired => exact .sort (.visit paired)
    | join lefts rights => exact .sort (.join lefts rights)
    | sort inputs => exact .sort (.sort inputs)
    | aggregate inputs => exact .sort (.aggregate inputs)
  | aggregate inputs => exact .aggregate inputs

/-- Two ways to change the visits of a tree by their positions lead to trees that match. -/
theorem mapVisits (tree : JoinTree) {change other : Nat → Visit → Visit}
    (each : ∀ place leaf, related (change place leaf) (other place leaf)) :
    Matched related (tree.mapVisits change) (tree.mapVisits other) := by
  have fromAny : ∀ before,
      Matched related (tree.mapVisitsFrom change before) (tree.mapVisitsFrom other before) := by
    induction tree with
    | visit leaf => exact fun before => .visit (each before leaf)
    | join kind left right post lefts rights => exact fun before => .join (lefts _) (rights _)
    | sort spec input inputs => exact fun before => .sort (inputs before)
    | aggregate grouping presorted input inputs => exact fun before => .aggregate (inputs before)
  exact fromAny 0

/-- If related visits are evaluated alike, so are matching trees. -/
theorem evaluateVisits {further : Visit → Visit → Prop}
    (each : ∀ a b, related a b → Alike further (a.evaluate catalog) (b.evaluate catalog))
    (matched : Matched related first second)
    (ran : first.evaluateVisits catalog = (result, .ok ())) :
    ∃ other, second.evaluateVisits catalog = (other, .ok ()) ∧ Matched further result other := by
  induction matched generalizing result with
  | @visit leaf leaf' paired =>
    have evaluated := each _ _ paired
    rw [JoinTree.evaluateVisits] at ran
    split at ran
    · rename_i own inFirst
      cases ran
      rw [inFirst] at evaluated
      cases inSecond : leaf'.evaluate catalog with
      | error failure =>
        rw [inSecond] at evaluated
        cases evaluated
      | ok other =>
        rw [inSecond] at evaluated
        cases evaluated with
        | succeed results =>
          exact ⟨.visit other, by rw [JoinTree.evaluateVisits, inSecond], .visit results⟩
    · cases ran
  | @join left left' right right' kind post post' _ _ lefts rights =>
    rw [JoinTree.evaluateVisits] at ran
    split at ran
    · rename_i inLeft
      obtain ⟨rfl, inRight⟩ := Prod.mk.inj ran
      obtain ⟨otherLeft, ranLeft, onLeft⟩ := lefts inLeft
      obtain ⟨otherRight, ranRight, onRight⟩ := rights (Prod.ext rfl inRight)
      refine ⟨.join kind otherLeft otherRight post', ?_, .join onLeft onRight⟩
      rw [JoinTree.evaluateVisits, ranLeft, ranRight]
    · cases ran
  | sort _ inputs =>
    obtain ⟨rfl, below⟩ := Prod.mk.inj ran
    obtain ⟨other, ranOther, inInput⟩ := inputs (Prod.ext rfl below)
    refine ⟨_, ?_, .sort inInput⟩
    rw [JoinTree.evaluateVisits, ranOther]
  | aggregate _ inputs =>
    obtain ⟨rfl, below⟩ := Prod.mk.inj ran
    obtain ⟨other, ranOther, inInput⟩ := inputs (Prod.ext rfl below)
    refine ⟨_, ?_, .aggregate inInput⟩
    rw [JoinTree.evaluateVisits, ranOther]

/-! ## Conditions after joins -/

/-- A condition goes after corresponding joins of matching trees, or after none. -/
theorem attachLowest? (extents : ∀ a b, related a b → b.extent = a.extent)
    (matched : Matched related first second) (filter : PostFilter) :
    Alike (Option.Rel (Matched related)) (first.attachLowest? filter)
      (second.attachLowest? filter) := by
  induction matched with
  | visit paired => exact .succeed .none
  | @join left left' right right' kind post post' onLeft onRight lefts rights =>
    have whole : Matched related (.join kind left right post) (.join kind left' right' post') :=
      .join onLeft onRight
    have admits : (JoinTree.join kind left' right' post').admits filter =
        (JoinTree.join kind left right post).admits filter := by
      rw [JoinTree.admits, JoinTree.admits, whole.extentSet extents, whole.nullSupplied extents]
    rw [JoinTree.attachLowest?, JoinTree.attachLowest?, admits]
    cases (JoinTree.join kind left right post).admits filter with
    | error failure => exact .fail failure failure
    | ok admitted =>
      refine lefts.bind fun placedLeft _ inLeft => ?_
      cases inLeft with
      | some changed => exact .succeed (.some (.join changed onRight))
      | none =>
        refine rights.bind fun placedRight _ inRight => ?_
        cases inRight with
        | some changed => exact .succeed (.some (.join onLeft changed))
        | none =>
          cases admitted with
          | false => exact .succeed .none
          | true => exact .succeed (.some (.join onLeft onRight))
  | sort _ inputs =>
    refine inputs.bind fun placed _ inInput => ?_
    cases inInput with
    | some changed => exact .succeed (.some (.sort changed))
    | none => exact .succeed .none
  | aggregate _ inputs =>
    refine inputs.bind fun placed _ inInput => ?_
    cases inInput with
    | some changed => exact .succeed (.some (.aggregate changed))
    | none => exact .succeed .none

end Matched

/-! ## Conditions in any order -/

/-- Whether some join of the tree can evaluate the condition. -/
def Takes (tree : JoinTree) (filter : PostFilter) : Prop :=
  ∃ placed, tree.attachLowest? filter = .ok (some placed)

theorem Matched.takes_iff (extents : ∀ a b, related a b → b.extent = a.extent)
    (matched : Matched related first second) (filter : PostFilter) :
    second.Takes filter ↔ first.Takes filter := by
  have alike := matched.attachLowest? extents filter
  rw [Takes, Takes]
  generalize first.attachLowest? filter = inFirst at alike
  generalize second.attachLowest? filter = inSecond at alike
  cases alike with
  | fail failure other => simp
  | succeed results => cases results <;> simp

theorem matched_of_attachLowest? {tree placed : JoinTree} {filter : PostFilter}
    (attached : tree.attachLowest? filter = .ok (some placed)) : Matched Eq tree placed := by
  obtain ⟨sameVisits, sameOutline, _⟩ := attachLowest?_some attached
  exact .of_outline sameOutline.symm sameVisits.symm

/-- Attaching conditions to joins, whether all of them find one or not, changes nothing else. -/
theorem matched_attachPostFilters (top : JoinTree) (filters : List PostFilter) :
    Matched Eq top (Candidate.attachPostFilters top filters).1 := by
  induction filters generalizing top with
  | nil => exact .refl (fun _ => rfl) top
  | cons filter rest ih =>
    rw [Candidate.attachPostFilters]
    split
    · rename_i placed attached
      exact (matched_of_attachLowest? attached).trans (ih placed) fun _ _ _ => Eq.trans
    · exact .refl (fun _ => rfl) top
    · exact .refl (fun _ => rfl) top

/-- Conditions that are attached before do not help or hinder others, so all can be attached if each
of them can. -/
theorem attachPostFilters_succeeds_iff (top : JoinTree) (filters : List PostFilter) :
    (Candidate.attachPostFilters top filters).2 = .ok () ↔
      ∀ filter ∈ filters, top.Takes filter := by
  induction filters generalizing top with
  | nil => simp [Candidate.attachPostFilters]
  | cons filter rest ih =>
    rw [Candidate.attachPostFilters, List.forall_mem_cons, Takes]
    split
    · rename_i placed attached
      have same : ∀ other, placed.Takes other ↔ top.Takes other :=
        (matched_of_attachLowest? attached).takes_iff fun _ _ same => by rw [same]
      simp only [ih placed, same, attached, Except.ok.injEq, Option.some.injEq, exists_eq',
        true_and]
    · rename_i attached
      simp [attached]
    · rename_i failed
      simp [failed]

/-- The same conditions in another order can be attached to a matching tree, and the trees match
afterwards. -/
theorem Matched.attachPostFilters (extents : ∀ a b, related a b → b.extent = a.extent)
    (matched : Matched related first second) {filters others : List PostFilter}
    (reordered : filters.Perm others)
    (ran : Candidate.attachPostFilters first filters = (placed, .ok ())) :
    ∃ other, Candidate.attachPostFilters second others = (other, .ok ()) ∧
      Matched related placed other := by
  have takes := (attachPostFilters_succeeds_iff first filters).mp (by rw [ran])
  have attached : (Candidate.attachPostFilters second others).2 = .ok () := by
    refine (attachPostFilters_succeeds_iff second others).mpr fun filter member => ?_
    exact (matched.takes_iff extents filter).mpr (takes filter (reordered.mem_iff.mpr member))
  refine ⟨_, Prod.ext rfl attached, ?_⟩
  have inFirst := (matched_attachPostFilters first filters).symm
  rw [ran] at inFirst
  have inSecond := matched_attachPostFilters second others
  have fromPlaced : Matched related placed second :=
    inFirst.trans matched fun _ _ _ same paired => same ▸ paired
  exact fromPlaced.trans inSecond fun _ _ _ paired same => same ▸ paired

end ExtentPlanner.JoinTree
