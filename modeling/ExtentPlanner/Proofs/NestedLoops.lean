import ExtentPlanner.JoinTree
import ExtentPlanner.Visit.Access
import ExtentPlanner.Proofs.RowOrder
import ExtentPlanner.Proofs.TreeShape
import Mathlib.Logic.Function.Basic

/-! The rows that a tree of joins produces. Of a database it is assumed that an index scan finds the
objects under the index in the order of its key, or reversed, with ties in any order; bounds and
filters may let any of them through, and other access paths may find anything. Joins are nested
loops, and a left outer join gives a row of nulls where it finds nothing. -/
namespace ExtentPlanner

/-- What execution finds: the contents of indexes, and the decisions of everything that is not
about the order of rows. These are left open: `passes` need not decide as the bounds and the filter
of the access path say, and objects under one index may agree in all members, their numbers too. So
a statement about every database is about more than what can be stored, and one that fails does so
in a database of this kind. -/
structure Database (Value : Type) [LinearOrder Value] where
  /-- The objects under an index. -/
  stored : Index → List (Object Value)
  sorted : ∀ index, (stored index).Pairwise (InOrder (index.sortKey.parts Value))
  /-- The indexes of a class all have the same objects. -/
  complete : ∀ first second, first.typeName = second.typeName →
    (stored first).Perm (stored second)
  /-- Whether the bounds and the filter of an access path let an object through. -/
  passes : Access → Row Value → Object Value → Bool
  /-- What an access path finds that is no bounded index scan. -/
  found : Visit → Row Value → List (Object Value)
  /-- Whether a joined row satisfies the conditions after a join. -/
  accepts : List Condition → Row Value → Bool
  /-- The value of every member of a missing object. -/
  null : Value
  /-- The values of operands that are no plain columns. -/
  operand : Operand → Row Value → Value

namespace Database

variable {Value : Type} [LinearOrder Value] (db : Database Value)
  (generator? : Option FilterGenerator)

/-- The objects under an index in the order of a scan in a direction. -/
def scanned (index : Index) : Direction → List (Object Value)
  | .ascending => db.stored index
  | .descending => (db.stored index).reverse

/-- The objects that a visit delivers for an outer row. -/
def objects (visit : Visit) (outer : Row Value) : List (Object Value) :=
  match visit.access generator? with
  | .ok (.indexScan extent index direction ranges filter innermost) =>
    (db.scanned index direction).filter
      (db.passes (.indexScan extent index direction ranges filter innermost) outer)
  | _ => db.found visit outer

/-- An outer row without a partner on the inner side. -/
def unmatched (right : JoinTree) (row : Row Value) : Row Value :=
  fun extent => if extent ∈ right.visitOrder then fun _ => db.null else row extent

/-- What a join makes of an outer row and the accepted rows of its inner side. -/
def joined (kind : JoinKind) (right : JoinTree) (row : Row Value) (accepted : List (Row Value)) :
    List (Row Value) :=
  match kind with
  | .inner => accepted
  | .leftOuter => if accepted.isEmpty then [db.unmatched right row] else accepted

/-- The rows of a tree of joins for an outer row. Sorts and aggregations are not run here. -/
def rows : JoinTree → Row Value → List (Row Value)
  | .visit leaf, outer =>
    (db.objects generator? leaf outer).map (Function.update outer leaf.extent)
  | .join kind left right post, outer =>
    (rows left outer).flatMap fun row =>
      db.joined kind right row ((rows right row).filter (db.accepts post))
  | .sort .., _ | .aggregate .., _ => []

end Database

/-- Whatever the database, the tree delivers its rows in the order of the specification. -/
def JoinTree.Delivers (generator? : Option FilterGenerator) (tree : JoinTree) (spec : SortSpec) :
    Prop :=
  ∀ (Value : Type) [LinearOrder Value] (db : Database Value) (outer : Row Value),
    (db.rows generator? tree outer).Pairwise (InOrder (SortSpec.parts db.operand spec.items))

namespace Database

/-! ## Loops that do not depend on one another -/

/-- The rows of loops over fixed lists of objects. -/
def product {Value : Type} (delivered : Visit → List (Object Value)) :
    List Visit → Row Value → List (Row Value)
  | [], outer => [outer]
  | leaf :: rest, outer =>
    (delivered leaf).flatMap fun object =>
      product delivered rest (Function.update outer leaf.extent object)

theorem product_append {Value : Type} (delivered : Visit → List (Object Value))
    (first second : List Visit)
    (outer : Row Value) : product delivered (first ++ second) outer =
      (product delivered first outer).flatMap (product delivered second) := by
  induction first generalizing outer with
  | nil => simp [product]
  | cons leaf rest ih => simp only [List.cons_append, product, ih, List.flatMap_assoc]

theorem product_elsewhere {Value : Type} {delivered : Visit → List (Object Value)}
    {leaves : List Visit} {outer : Row Value} (notVisited : extent ∉ leaves.map (·.extent)) :
    ∀ row ∈ product delivered leaves outer, row extent = outer extent := by
  induction leaves generalizing outer with
  | nil =>
    intro row member
    rw [List.mem_singleton.mp member]
  | cons leaf rest ih =>
    rw [List.map_cons, List.mem_cons, not_or] at notVisited
    intro row member
    obtain ⟨object, _, below⟩ := List.mem_flatMap.mp member
    rw [ih notVisited.2 row below, Function.update_of_ne notVisited.1]

theorem product_ne_nil {Value : Type} {delivered : Visit → List (Object Value)}
    {leaves : List Visit}
    (nonempty : ∀ leaf ∈ leaves, delivered leaf ≠ []) (outer : Row Value) :
    product delivered leaves outer ≠ [] := by
  induction leaves generalizing outer with
  | nil => simp [product]
  | cons leaf rest ih =>
    obtain ⟨object, others, delivers⟩ :=
      List.exists_cons_of_ne_nil (nonempty leaf List.mem_cons_self)
    have below := ih (fun other member => nonempty other (List.mem_cons_of_mem _ member))
      (Function.update outer leaf.extent object)
    rw [product, delivers, List.flatMap_cons]
    exact fun empty => below (List.append_eq_nil_iff.mp empty).1

end Database

namespace Database

variable {Value : Type} [LinearOrder Value] {db : Database Value}
  {generator? : Option FilterGenerator}

/-! ## The outermost loop -/

private theorem joined_elsewhere {kind : JoinKind} {right : JoinTree} {accepted : List (Row Value)}
    (elsewhere : ∀ result ∈ accepted, result extent = row extent)
    (notRight : extent ∉ right.visitOrder) :
    ∀ result ∈ db.joined kind right row accepted, result extent = row extent := by
  cases kind with
  | inner => exact elsewhere
  | leftOuter =>
    simp only [joined]
    split
    · intro result member
      rw [List.mem_singleton.mp member, unmatched, if_neg notRight]
    · exact elsewhere

/-- A tree leaves the objects of extents alone that it does not visit. -/
theorem rows_elsewhere {tree : JoinTree} {outer : Row Value}
    (notVisited : extent ∉ tree.visitOrder) :
    ∀ row ∈ db.rows generator? tree outer, row extent = outer extent := by
  induction tree generalizing outer with
  | visit leaf =>
    intro row member
    obtain ⟨object, _, rfl⟩ := List.mem_map.mp member
    have other : extent ≠ leaf.extent := fun same =>
      notVisited (by simp [JoinTree.visitOrder, same])
    exact Function.update_of_ne other _ _
  | join kind left right post lefts rights =>
    simp only [JoinTree.visitOrder, List.mem_append, not_or] at notVisited
    intro result member
    obtain ⟨row, onLeft, member⟩ := List.mem_flatMap.mp member
    have onRight : ∀ found ∈ (db.rows generator? right row).filter (db.accepts post),
        found extent = row extent :=
      fun found inside => rights notVisited.2 found (List.mem_filter.mp inside).1
    rw [joined_elsewhere onRight notVisited.2 result member, lefts notVisited.1 row onLeft]
  | sort spec input inputs => intro row member; cases member
  | aggregate grouping presorted input inputs => intro row member; cases member

/-- The objects of the first visit come in the order in which this visit delivers them. -/
theorem rows_leading {tree : JoinTree} {leaf : Visit} {related : Object Value → Object Value → Prop}
    {outer : Row Value} (reflexive : ∀ object, related object object)
    (distinct : tree.visitOrder.Nodup) (first : tree.visits.head? = some leaf)
    (delivered : ∀ outer, (db.objects generator? leaf outer).Pairwise related) :
    (db.rows generator? tree outer).Pairwise fun before after =>
      related (before leaf.extent) (after leaf.extent) := by
  induction tree generalizing outer with
  | visit own =>
    cases first
    rw [rows, List.pairwise_map]
    simpa using delivered outer
  | join kind left right post lefts rights =>
    rw [JoinTree.visitOrder, List.nodup_append] at distinct
    obtain ⟨distinctLeft, _, apart⟩ := distinct
    have firstLeft : left.visits.head? = some leaf := by
      have visited : left.visits ≠ [] := fun none =>
        left.visitOrder_ne_nil (by rw [JoinTree.visitOrder_eq_map, none]; rfl)
      rwa [JoinTree.visits, List.head?_append_of_ne_nil _ visited] at first
    have onLeft : leaf.extent ∈ left.visitOrder := by
      rw [JoinTree.visitOrder_eq_map]
      exact List.mem_map_of_mem (List.mem_of_head? firstLeft)
    have notRight : leaf.extent ∉ right.visitOrder := fun inside => apart _ onLeft _ inside rfl
    have kept : ∀ row, ∀ result ∈ db.joined kind right row
        ((db.rows generator? right row).filter (db.accepts post)),
        result leaf.extent = row leaf.extent := fun row =>
      joined_elsewhere (fun found inside =>
        rows_elsewhere notRight found (List.mem_filter.mp inside).1) notRight
    rw [rows, List.pairwise_flatMap]
    refine ⟨fun row _ => List.pairwise_of_forall_mem_list fun before onBefore after onAfter => ?_,
      (lefts distinctLeft firstLeft).imp fun inOrder before onBefore after onAfter => ?_⟩
    · rw [kept row before onBefore, kept row after onAfter]
      exact reflexive _
    · rw [kept _ before onBefore, kept _ after onAfter]
      exact inOrder
  | sort spec input inputs => exact .nil
  | aggregate grouping presorted input inputs => exact .nil

/-- If every visit finds the same objects for all outer rows, and all joined rows are accepted, the
rows are those of independent loops. -/
theorem rows_eq_product {tree : JoinTree} {delivered : Visit → List (Object Value)}
    {outer : Row Value} (joins : tree.JoinsOnly)
    (constant : ∀ leaf ∈ tree.visits, ∀ outer, db.objects generator? leaf outer = delivered leaf)
    (nonempty : ∀ leaf ∈ tree.visits, delivered leaf ≠ [])
    (accepted : ∀ post row, db.accepts post row = true) :
    db.rows generator? tree outer = product delivered tree.visits outer := by
  induction tree generalizing outer with
  | visit leaf =>
    rw [rows, constant leaf List.mem_cons_self, JoinTree.visits, product, List.map_eq_flatMap]
    rfl
  | join kind left right post lefts rights =>
    simp only [JoinTree.visits, List.mem_append] at constant nonempty
    have onLeft : db.rows generator? left outer = product delivered left.visits outer :=
      lefts joins.1 (fun leaf member => constant leaf (.inl member))
        fun leaf member => nonempty leaf (.inl member)
    have onRight : ∀ row, db.rows generator? right row = product delivered right.visits row :=
      fun row => rights joins.2 (fun leaf member => constant leaf (.inr member))
        fun leaf member => nonempty leaf (.inr member)
    have both : ∀ row, db.joined kind right row
        ((db.rows generator? right row).filter (db.accepts post)) =
          product delivered right.visits row := by
      intro row
      have found := product_ne_nil (fun leaf member => nonempty leaf (.inr member)) row
      have all : (db.rows generator? right row).filter (db.accepts post) =
          product delivered right.visits row := by
        rw [onRight, List.filter_eq_self.mpr fun result _ => accepted post result]
      rw [all]
      cases kind with
      | inner => rfl
      | leftOuter => simp [joined, found]
    rw [rows, JoinTree.visits, product_append, onLeft]
    exact List.flatMap_congr fun row _ => both row
  | sort spec input inputs => exact joins.elim
  | aggregate grouping presorted input inputs => exact joins.elim

end Database

end ExtentPlanner
