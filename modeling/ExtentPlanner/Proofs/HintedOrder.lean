import ExtentPlanner.Proofs.OrderHints
import Mathlib.Data.List.Sort

/-! Which orders keep the order hint of a query. Of several order hints only the first counts, and
an order keeps it if the wanted extents are a subsequence: the search for them goes through the
order once and takes each extent where it first stands. An order that visits no extent twice can be
read by positions instead. Then a hint that repeats an extent, or names one that is not visited, is
kept by no order. -/
namespace ExtentPlanner

/-- The extents are visited, each at a place of its own, in the relative order in which they are
wanted. -/
structure KeepsPlaces (wanted order : List Nat) : Prop where
  distinct : wanted.Nodup
  visited : ∀ extent ∈ wanted, extent ∈ order
  inTurn : wanted.Pairwise fun earlier later => order.idxOf earlier < order.idxOf later

/-- An order without repeats visits its own extents in turn. -/
theorem idxOf_pairwise {order : List Nat} (distinct : order.Nodup) :
    order.Pairwise fun earlier later => order.idxOf earlier < order.idxOf later := by
  rw [List.pairwise_iff_getElem]
  intro first second inFirst inSecond before
  rw [distinct.idxOf_getElem first inFirst, distinct.idxOf_getElem second inSecond]
  exact before

theorem sublist_iff_keepsPlaces {wanted order : List Nat} (distinct : order.Nodup) :
    wanted.Sublist order ↔ KeepsPlaces wanted order := by
  constructor
  · intro inside
    exact ⟨distinct.sublist inside, fun _ member => inside.mem member,
      (idxOf_pairwise distinct).sublist inside⟩
  · intro keeps
    -- What stands earlier does not also stand later, so the order of the wanted extents is the only
    -- one in which they can be taken from the visited ones.
    have oneWay : Std.Antisymm fun earlier later =>
        order.idxOf earlier < order.idxOf later :=
      ⟨fun _ _ before after => absurd before (Nat.lt_asymm after)⟩
    exact List.sublist_of_subperm_of_pairwise (List.subperm_of_subset keeps.distinct keeps.visited)
      keeps.inTurn (idxOf_pairwise distinct)

namespace Hints

/-- The first order hint among those that are added. -/
def FirstOrder (added : List Hint) (wanted : List Nat) : Prop :=
  ∃ before after, added = before ++ .joinOrder wanted :: after ∧
    ∀ earlier, Hint.joinOrder earlier ∉ before

theorem order?_eq_none_iff {added : List Hint} :
    (∀ hint ∈ added, hint.order? = none) ↔ ∀ wanted, Hint.joinOrder wanted ∉ added := by
  constructor
  · intro none wanted member
    cases none _ member
  · intro none hint member
    cases hint with
    | joinOrder wanted => exact absurd member (none wanted)
    | index hint => rfl

theorem firstOrder_iff {added : List Hint} {wanted : List Nat} :
    FirstOrder added wanted ↔ added.findSome? Hint.order? = some wanted := by
  rw [List.findSome?_eq_some_iff]
  constructor
  · rintro ⟨before, after, split, none⟩
    exact ⟨before, _, after, split, rfl, order?_eq_none_iff.mpr none⟩
  · rintro ⟨before, hint, after, split, asks, none⟩
    cases hint with
    | joinOrder extents =>
      cases asks
      exact ⟨before, after, split, order?_eq_none_iff.mp none⟩
    | index hint => cases asks

/-- An order keeps the hints exactly if none of them is on the order, or the wanted extents of the
first that is are a subsequence of it; where no extent is visited twice, exactly if they are
distinct and are visited in the wanted relative order. -/
theorem allows_iff_subsequence (added : List Hint) (order : List Nat) :
    ((empty.addAll added).allows order = true ↔
      (∀ wanted, Hint.joinOrder wanted ∉ added) ∨
        ∃ wanted, FirstOrder added wanted ∧ wanted.Sublist order) ∧
    (order.Nodup → ((empty.addAll added).allows order = true ↔
      (∀ wanted, Hint.joinOrder wanted ∉ added) ∨
        ∃ wanted, FirstOrder added wanted ∧ KeepsPlaces wanted order)) := by
  have decided : (empty.addAll added).allows order = true ↔
      (∀ wanted, Hint.joinOrder wanted ∉ added) ∨
        ∃ wanted, FirstOrder added wanted ∧ wanted.Sublist order := by
    simp only [firstOrder_iff, ← order?_eq_none_iff, ← List.findSome?_eq_none_iff]
    rw [allows_iff, KeptBy, addAll_joinOrder?, empty, Option.none_or]
    cases added.findSome? Hint.order? <;> simp
  refine ⟨decided, fun distinct => decided.trans ?_⟩
  simp only [sublist_iff_keepsPlaces distinct]

/-- Two orders are asked for, the second of them with an extent that is named twice. -/
def contraryOrders : List Hint := [.index ⟨1, "byName"⟩, .joinOrder [2, 0], .joinOrder [0, 0]]

theorem allows_iff_subsequence_contrary :
    [1, 2, 0].Nodup ∧ (empty.addAll contraryOrders).allows [1, 2, 0] = true ∧
      ((∀ wanted, Hint.joinOrder wanted ∉ contraryOrders) ∨
        ∃ wanted, FirstOrder contraryOrders wanted ∧ KeepsPlaces wanted [1, 2, 0]) ∧
      (empty.addAll contraryOrders).allows [0, 1, 2] = false :=
  ⟨by decide, rfl, ((allows_iff_subsequence contraryOrders [1, 2, 0]).2 (by decide)).mp rfl, rfl⟩

end Hints

end ExtentPlanner
