import ExtentPlanner.Candidate.Distribution
import ExtentPlanner.Proofs.Success
import ExtentPlanner.Proofs.VisitPositions

/-! Which hints can be used, and what they leave. A hint is looked up by the position that the
candidate has noted for its extent, which comes to the same as looking it up in the table of visits
by number (`Noted.resolveHint_eq`). Where extents are visited once this is where the tree visits it,
so handing out hints fails exactly if some hint names no index, an extent outside the tree or an
index that cannot scan the extent's class. `Visit.hintedBy` is the rule by which a visit takes its
index; whether all hints fit or not, those before the first that does not are handed out by it. -/
namespace ExtentPlanner

/-- The hint names a known index and an extent of the tree whose class the index can scan. -/
def IndexHint.Fits (hint : IndexHint) (catalog : Catalog) (tree : JoinTree) : Prop :=
  ∃ index, catalog.find? hint.index = some index ∧
    ∃ visit ∈ tree.visits, visit.extent = hint.extent ∧
      catalog.canScan index visit.typeName = true

theorem IndexHint.Fits.congr {hint : IndexHint} (same : JoinTree.SameVisits first second)
    (fits : hint.Fits catalog first) : hint.Fits catalog second := by
  obtain ⟨index, known, visit, member, here, scans⟩ := fits
  obtain ⟨other, inside, extent, typeName⟩ := same.partner member
  exact ⟨index, known, other, inside, extent.trans here, typeName ▸ scans⟩

theorem IndexHint.Fits.visited {hint : IndexHint} (fits : hint.Fits catalog tree) :
    hint.extent ∈ tree.visitOrder := by
  obtain ⟨_, _, visit, member, here, _⟩ := fits
  rw [JoinTree.visitOrder_eq_map, ← here]
  exact List.mem_map_of_mem member

/-- What is wrong with a hint that does not fit. A name that no index has is noticed first. -/
inductive IndexHint.Faulty (hint : IndexHint) (catalog : Catalog) (tree : JoinTree) :
    HintFault → Prop where
  | unknownIndex (unknown : catalog.find? hint.index = none) :
    Faulty hint catalog tree (.unknownIndex hint.index)
  | unknownExtent {found : Index} (known : catalog.find? hint.index = some found)
    (unvisited : hint.extent ∉ tree.visitOrder) :
    Faulty hint catalog tree (.unknownExtent hint.index hint.extent)
  | notApplicable {found : Index} (known : catalog.find? hint.index = some found)
    (member : visit ∈ tree.visits) (here : visit.extent = hint.extent)
    (cannot : catalog.canScan found visit.typeName = false) :
    Faulty hint catalog tree (.notApplicable hint.index visit.typeName)

theorem IndexHint.Faulty.congr {hint : IndexHint} (same : JoinTree.SameVisits first second)
    (faulty : hint.Faulty catalog first fault) : hint.Faulty catalog second fault := by
  cases faulty with
  | unknownIndex unknown => exact .unknownIndex unknown
  | unknownExtent known unvisited =>
    refine .unknownExtent known fun inside => unvisited ?_
    rw [JoinTree.visitOrder_eq_map] at inside ⊢
    obtain ⟨visit, member, here⟩ := List.mem_map.mp inside
    have back : JoinTree.SameVisits second first := same.symm
    obtain ⟨other, otherMember, extent, _⟩ := back.partner member
    exact List.mem_map.mpr ⟨other, otherMember, extent.trans here⟩
  | notApplicable known member here cannot =>
    obtain ⟨other, otherMember, extent, typeName⟩ := same.partner member
    rw [← typeName] at cannot ⊢
    exact .notApplicable known otherMember (extent.trans here) cannot

/-- A hint that is at fault does not fit. -/
theorem IndexHint.Faulty.not_fits {hint : IndexHint} (distinct : tree.visitOrder.Nodup)
    (faulty : hint.Faulty catalog tree fault) : ¬hint.Fits catalog tree := by
  intro fits
  obtain ⟨index, known, visit, member, here, scans⟩ := id fits
  cases faulty with
  | unknownIndex unknown =>
    rw [unknown] at known
    cases known
  | unknownExtent _ unvisited => exact unvisited fits.visited
  | notApplicable alsoKnown other same cannot =>
    -- The extent is visited once, so both are the same visit.
    have found := JoinTree.visit?_of_mem distinct member
    rw [here.trans same.symm, JoinTree.visit?_of_mem distinct other] at found
    cases found
    rw [alsoKnown] at known
    cases known
    rw [scans] at cannot
    cases cannot

/-! ## The rule -/

namespace Visit

/-- The visit as hints leave it: the first hint on its extent gives the index, unless one is hinted
already. -/
def hintedBy (catalog : Catalog) (hints : List IndexHint) (visit : Visit) : Visit :=
  { visit with
    hintedIndex? := visit.hintedIndex?.or
      ((hints.find? fun hint => hint.extent = visit.extent).bind fun hint =>
        catalog.find? hint.index) }

theorem hintedBy_nil (catalog : Catalog) (visit : Visit) : visit.hintedBy catalog [] = visit := by
  simp [hintedBy]

theorem hintedBy_single {hint : IndexHint} (known : catalog.find? hint.index = some index)
    (visit : Visit) : visit.hintedBy catalog [hint] =
      if visit.extent = hint.extent then visit.hint index else visit := by
  by_cases here : visit.extent = hint.extent
  · simp [hintedBy, Visit.hint, here, known]
  · simp [hintedBy, here, Ne.symm here]

/-- A hint with a known index is taken before those that follow it. -/
theorem hintedBy_cons {hint : IndexHint} (known : catalog.find? hint.index = some index)
    (rest : List IndexHint) (visit : Visit) :
    visit.hintedBy catalog (hint :: rest) =
      (visit.hintedBy catalog [hint]).hintedBy catalog rest := by
  by_cases here : visit.extent = hint.extent
  · simp [hintedBy, here, known]
  · simp [hintedBy, Ne.symm here]

end Visit

namespace Candidate

/-- The candidate as hints leave it that are handed out by the rule. -/
def hinted (candidate : Candidate) (catalog : Catalog) (hints : List IndexHint) : Candidate :=
  { candidate with top := candidate.top.updateEach (·.hintedBy catalog hints) }

theorem hinted_nil (candidate : Candidate) (catalog : Catalog) :
    candidate.hinted catalog [] = candidate := by
  rw [hinted, JoinTree.updateEach_self fun visit _ => visit.hintedBy_nil catalog]

theorem hinted_cons {hint : IndexHint} (known : catalog.find? hint.index = some index)
    (candidate : Candidate) (rest : List IndexHint) :
    candidate.hinted catalog (hint :: rest) =
      (candidate.hinted catalog [hint]).hinted catalog rest := by
  simp only [hinted, JoinTree.updateEach_updateEach, Visit.hintedBy_cons known rest]

theorem visits_hinted_fresh (candidate : Candidate) (catalog : Catalog) (hints : List IndexHint) :
    (candidate.hinted catalog hints).top.visits.map Visit.fresh =
      candidate.top.visits.map Visit.fresh := by
  rw [hinted, JoinTree.visits_updateEach, List.map_map]
  rfl

/-! ## Positions -/

variable {candidate : Candidate} {catalog : Catalog}

private theorem Positioned.visited (positioned : candidate.Positioned) :
    ((candidate.position? extent).bind fun position =>
      candidate.top.visits[position]?.map fun visit => (position, visit)) = some (position, visit) ↔
    candidate.top.visits[position]? = some visit ∧ visit.extent = extent := by
  simp only [Option.bind_eq_some_iff, Option.map_eq_some_iff]
  constructor
  · rintro ⟨_, noted, _, inside, same⟩
    cases same
    exact ⟨inside, (positioned.position?_iff inside).mp noted⟩
  · rintro ⟨inside, here⟩
    exact ⟨position, (positioned.position?_iff inside).mpr here, visit, inside, rfl⟩

theorem Positioned.hinted (positioned : candidate.Positioned) (catalog : Catalog)
    (hints : List IndexHint) : (candidate.hinted catalog hints).Positioned := by
  intro extent place
  rw [JoinTree.visitOrder_of_fresh (candidate.visits_hinted_fresh catalog hints)]
  exact positioned extent place

/-- Where extents are visited once, a change at a position is a change of all visits that leaves
those of other extents as they are. -/
theorem modifyAt_eq (distinct : candidate.top.visitOrder.Nodup)
    (there : candidate.top.visits[position]? = some visit) (change : Visit → Visit) :
    candidate.modifyAt position change =
      { candidate with
        top := candidate.top.updateEach fun leaf =>
          if leaf.extent = visit.extent then change leaf else leaf } := by
  rw [JoinTree.visitOrder_eq_map] at distinct
  have agree : ∀ place leaf, candidate.top.visits[place]? = some leaf →
      (if place = position then change leaf else leaf) =
        if leaf.extent = visit.extent then change leaf else leaf := by
    intro place leaf inside
    have within : place < (candidate.top.visits.map (·.extent)).length := by
      rw [List.length_map]
      exact (List.getElem?_eq_some_iff.mp inside).1
    have samePlace : leaf.extent = visit.extent ↔ place = position := by
      rw [← List.getElem?_inj within distinct]
      simp [inside, there]
    simp only [samePlace]
  rw [modifyAt, JoinTree.updateEach, JoinTree.mapVisits_congr agree]

/-! ## Hints -/

/-- The hinted index, if the visit that the table has by the number of the extent can be read by
it. -/
def resolveByNumber (candidate : Candidate) (catalog : Catalog) (hint : IndexHint) :
    Planned Index :=
  match catalog.find? hint.index with
  | none => .error (.invalidHint (.unknownIndex hint.index))
  | some index =>
    match candidate.visitsByNumber[hint.extent]?.join with
    | none => .error (.invalidHint (.unknownExtent hint.index hint.extent))
    | some visit =>
      if catalog.canScan index visit.typeName then .ok index
      else .error (.invalidHint (.notApplicable hint.index visit.typeName))

theorem Noted.resolveHint_eq (noted : candidate.Noted) (catalog : Catalog) (hint : IndexHint) :
    (candidate.resolveHint catalog hint).map Prod.snd = candidate.resolveByNumber catalog hint := by
  rw [resolveHint, resolveByNumber, ← noted.visit_at]
  cases catalog.find? hint.index with
  | none => rfl
  | some index =>
    cases candidate.position? hint.extent with
    | none => rfl
    | some position =>
      simp only [Option.bind_some]
      cases candidate.top.visits[position]? with
      | none => rfl
      | some visit =>
        simp only [Option.map_some]
        split <;> rfl

/-- A hint that fits gives the position of its extent and its index; any other gives its fault. -/
theorem resolveHint_cases (positioned : candidate.Positioned) (catalog : Catalog)
    (hint : IndexHint) :
    (∃ index position visit, catalog.find? hint.index = some index ∧
        candidate.top.visits[position]? = some visit ∧ visit.extent = hint.extent ∧
        catalog.canScan index visit.typeName = true ∧
        candidate.resolveHint catalog hint = .ok (position, index)) ∨
      ∃ fault, hint.Faulty catalog candidate.top fault ∧
        candidate.resolveHint catalog hint = .error (.invalidHint fault) := by
  rw [resolveHint]
  split
  · rename_i unknown
    exact .inr ⟨_, .unknownIndex unknown, rfl⟩
  · rename_i index known
    dsimp only
    split
    · rename_i unvisited
      refine .inr ⟨_, .unknownExtent known fun inside => ?_, rfl⟩
      rw [JoinTree.visitOrder_eq_map] at inside
      obtain ⟨visit, member, here⟩ := List.mem_map.mp inside
      obtain ⟨position, there⟩ := List.getElem?_of_mem member
      rw [positioned.visited.mpr ⟨there, here⟩] at unvisited
      cases unvisited
    · rename_i position visit found
      obtain ⟨there, here⟩ := positioned.visited.mp found
      split
      · rename_i scans
        exact .inl ⟨index, position, visit, known, there, here, scans, rfl⟩
      · rename_i cannot
        exact .inr ⟨_, .notApplicable known (List.mem_of_getElem? there) here
          (by simpa using cannot), rfl⟩

/-- What handing out hints comes to: all of them fit and are handed out, or those before the first
one that does not fit. -/
inductive HandsOut (catalog : Catalog) (candidate : Candidate) (hints : List IndexHint) :
    Candidate × Planned Unit → Prop where
  | all (fit : ∀ hint ∈ hints, hint.Fits catalog candidate.top) :
    HandsOut catalog candidate hints (candidate.hinted catalog hints, .ok ())
  | upTo (split : hints = front ++ bad :: back)
    (fit : ∀ hint ∈ front, hint.Fits catalog candidate.top)
    (faulty : bad.Faulty catalog candidate.top fault) :
    HandsOut catalog candidate hints
      (candidate.hinted catalog front, .error (.invalidHint fault))

theorem distributeHints_handsOut (positioned : candidate.Positioned) (catalog : Catalog)
    (hints : List IndexHint) :
    HandsOut catalog candidate hints (candidate.distributeHints catalog hints) := by
  induction hints generalizing candidate with
  | nil =>
    have nothing : HandsOut catalog candidate [] (candidate.hinted catalog [], .ok ()) :=
      .all fun _ member => absurd member List.not_mem_nil
    rwa [hinted_nil] at nothing
  | cons hint rest ih =>
    rw [distributeHints]
    rcases resolveHint_cases positioned catalog hint with
      ⟨index, position, visit, known, there, here, scans, ran⟩ | ⟨fault, faulty, ran⟩
    · have fits : hint.Fits catalog candidate.top :=
        ⟨index, known, visit, List.mem_of_getElem? there, here, scans⟩
      have handed : candidate.modifyAt position (·.hint index) =
          candidate.hinted catalog [hint] := by
        rw [modifyAt_eq positioned.distinct there, here, hinted]
        simp only [Visit.hintedBy_single known]
      have same : JoinTree.SameVisits (candidate.hinted catalog [hint]).top candidate.top :=
        .of_eq (candidate.visits_hinted_fresh catalog [hint])
      rw [ran]
      dsimp only
      rw [handed]
      have later := ih (positioned.hinted catalog [hint])
      generalize (candidate.hinted catalog [hint]).distributeHints catalog rest = outcome at later
      cases later with
      | all fit =>
        rw [← hinted_cons known]
        exact .all (List.forall_mem_cons.mpr ⟨fits, fun other member =>
          (fit other member).congr same⟩)
      | @upTo front _ _ _ split fit faulty =>
        rw [← hinted_cons known]
        exact .upTo (congrArg (hint :: ·) split) (List.forall_mem_cons.mpr ⟨fits,
          fun other member => (fit other member).congr same⟩) (faulty.congr same)
    · rw [ran]
      have first : HandsOut catalog candidate (hint :: rest)
          (candidate.hinted catalog [], .error (.invalidHint fault)) :=
        .upTo rfl (fun _ member => absurd member List.not_mem_nil) faulty
      rwa [hinted_nil] at first

/-- Hints can be handed out exactly if all of them fit. -/
theorem distributeHints_succeedsIff (positioned : candidate.Positioned) (catalog : Catalog)
    (hints : List IndexHint) :
    SucceedsIff (∀ hint ∈ hints, hint.Fits catalog candidate.top)
      (fun failure => (∃ hint ∈ hints, ¬hint.Fits catalog candidate.top) ∧
        ∃ fault, failure = .invalidHint fault) (candidate.distributeHints catalog hints).2 := by
  have outcome := distributeHints_handsOut positioned catalog hints
  generalize candidate.distributeHints catalog hints = result at outcome
  cases outcome with
  | all fit => exact fit
  | @upTo front bad back fault split fit faulty =>
    have unfit := faulty.not_fits positioned.distinct
    have member : bad ∈ hints := by simp [split]
    exact ⟨fun all => unfit (all bad member), ⟨bad, member, unfit⟩, fault, rfl⟩

end Candidate

end ExtentPlanner
